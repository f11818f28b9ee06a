import LiveDiagram.Fault

/-! Notes: what a pass has to report about its decisions, besides its result. -/
namespace LiveDiagram

inductive Note
  | malformedPair (part : String)
  | emptySegment (key : String)
  | removing (id : String)
  | creating (tag : ElementTag)
  | updating (tag : ElementTag)
  | kindChanged (id : String)
  | unresolved (id : String)
  | removed (tag : ElementTag) (descendants : Nat)
  | committed (added updated removed : Nat)
  | reconciled (elements added updated removed : Nat)
deriving DecidableEq, Repr

namespace Note

inductive Level
  | debug
  | info
  | warning
deriving DecidableEq, Repr

def Level.text : Level → String
  | .debug => "DEBUG"
  | .info => "INFO"
  | .warning => "WARNING"

def level : Note → Level
  | kindChanged _ => .warning
  | reconciled .. => .info
  | _ => .debug

/-- The name under which a note is reported. -/
def source : Note → String
  | malformedPair _ | emptySegment _ => "diagram_text.parsers.props"
  | removed .. => "diagram_text.model.document"
  | committed .. => "diagram_text.model.uow"
  | _ => "diagram_text.reconcile"

def counts (added updated removed : Nat) : String :=
  toString added ++ " added, " ++ toString updated ++ " updated, " ++ toString removed ++ " removed"

def message : Note → String
  | malformedPair part => "skipping malformed pair " ++ Text.literal part
  | emptySegment key => "skipping pair with empty key segment " ++ Text.literal key
  | removing id => "Removing " ++ id
  | creating tag => (match tag.kind with
    | .node => "Creating node "
    | .edge => "Creating edge ") ++ tag.id
  | updating tag => (match tag.kind with
    | .node => "Updating node "
    | .edge => "Updating edge ") ++ tag.id
  | kindChanged id => "Element " ++ Text.literal id ++ " changed kind; leaving it untouched"
  | unresolved id => "Endpoint " ++ Text.literal id ++ " does not resolve; leaving it free"
  | removed tag descendants => "Removed " ++ tag.text ++ " with " ++ toString descendants ++ " descendant(s)"
  | committed a u r => "Committed: " ++ counts a u r
  | reconciled n a u r => "Reconciled " ++ toString n ++ " element(s): " ++ counts a u r

/-- A note as a line of the log. -/
def line (note : Note) : String :=
  note.level.text ++ " " ++ note.source ++ ": " ++ note.message

end Note
end LiveDiagram
