import LiveDiagram.Text.Literal

/-! Faults: the reasons for which an operation stops, and their wording. -/
namespace LiveDiagram

inductive ElementKind
  | node
  | edge
deriving DecidableEq, Repr

/-- How an element is named in a message. -/
structure ElementTag where
  kind : ElementKind
  id : String
deriving DecidableEq, Repr

namespace ElementTag

def text (tag : ElementTag) : String :=
  (match tag.kind with
    | .node => "DiagramNode("
    | .edge => "DiagramEdge(") ++ Text.literal tag.id ++ ")"

end ElementTag

inductive Fault
  /-- Edge props hold a scalar of the named type where entries are looked up. -/
  | notEntries (typeName : String)
  /-- A dictionary stands where a name is looked up in a table. -/
  | unhashable
  | notAnEdge
  | alreadyExists (id : String)
  | notAChild (child parent : ElementTag)
  /-- The element to nest under has left the document. -/
  | parentGone
  | alreadyCommitted
  | updateUnrecorded (tag : ElementTag)
  | removeUnrecorded (tag : ElementTag)
  /-- A recorded state lacks a field that an element of the other kind needs. -/
  | missingField (name : String)
  | notRegistered (id : String)
  /-- An integer literal has more digits than are converted. -/
  | tooManyDigits (count : Nat)
  | noErrorAt (line : Int)
  | unknownFormat (name : String)
  | formatTaken (name : String)
  | listenerAbsent
  /-- A path holds the null character, which ends a path and is in none. -/
  | nullInPath
deriving DecidableEq, Repr

namespace Fault

/-- How many digits an integer literal may have. -/
def digitLimit : Nat := 4300

def message : Fault → String
  | notEntries typeName => "'" ++ typeName ++ "' object has no attribute 'get'"
  | unhashable => "unhashable type: 'dict'"
  | notAnEdge => "Element is not an edge"
  | alreadyExists id => "Element " ++ Text.literal id ++ " already exists"
  | notAChild child parent => child.text ++ " is not a child of " ++ parent.text
  | parentGone => "element must belong to a document"
  | alreadyCommitted => "Unit of work has already been committed"
  | updateUnrecorded tag => "Must snapshot " ++ tag.text ++ " before updating it"
  | removeUnrecorded tag => "Must snapshot " ++ tag.text ++ " before removing it"
  | missingField name => Text.literal name
  | notRegistered id => Text.literal id
  | tooManyDigits count =>
    "Exceeds the limit (4300 digits) for integer string conversion: value has " ++ toString count ++
      " digits; use sys.set_int_max_str_digits() to increase the limit"
  | noErrorAt line => toString line
  | unknownFormat name => "Unsupported text format: " ++ name
  | formatTaken name => "Text format already registered: " ++ name
  | listenerAbsent => "list.remove(x): x not in list"
  | nullInPath => "embedded null byte"

end Fault
end LiveDiagram
