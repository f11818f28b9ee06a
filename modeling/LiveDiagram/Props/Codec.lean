import LiveDiagram.Fault
import LiveDiagram.Note
import LiveDiagram.Number.Numeral
import LiveDiagram.Props.Basic
import LiveDiagram.Text.Blank

/-! Props and metadata on one line: `key.path=value;...`. A backslash escapes the character after it. A value
written with an escape is a text; one without is read as a truth value or a number where it looks like one, and
the writer escapes the first character of a text that would be misread. -/
namespace LiveDiagram

namespace Codec
open Text

/-- Puts characters in front of the first piece. -/
def extend (front : List Char) : List (List Char) → List (List Char)
  | [] => [front]
  | piece :: rest => (front ++ piece) :: rest

/-- The pieces between unescaped separators, with their escapes. -/
def split (separator : Char) : List Char → List (List Char)
  | [] => [[]]
  | '\\' :: c :: rest => extend ['\\', c] (split separator rest)
  | c :: rest => if c = separator then [] :: split separator rest else extend [c] (split separator rest)

/-- What stands before the first unescaped separator, and what follows it, if there is one. -/
def cut (separator : Char) : List Char → List Char × Option (List Char)
  | [] => ([], none)
  | '\\' :: c :: rest => let (left, right) := cut separator rest; ('\\' :: c :: left, right)
  | c :: rest =>
    if c = separator then ([], some rest)
    else let (left, right) := cut separator rest; (c :: left, right)

/-- Drops the backslash before each escaped character; one at the very end stays. -/
def unescape : List Char → List Char
  | '\\' :: c :: rest => c :: unescape rest
  | c :: rest => c :: unescape rest
  | [] => []

def hasEscape : List Char → Bool
  | '\\' :: _ :: _ => true
  | _ :: rest => hasEscape rest
  | [] => false

/-- Escapes the backslash, the semicolon and the equals sign. -/
def escape (text : List Char) : List Char :=
  text.flatMap fun c => if c = '\\' || c = ';' || c = '=' then ['\\', c] else [c]

inductive Entry
  | pair (key value : List Char) (escaped : Bool)
  | malformed (part : List Char)
deriving DecidableEq, Repr

/-- A part without an equals sign or without a key is malformed; an empty part is no entry. -/
def entry? (part : List Char) : Option Entry :=
  let part := trim part
  if part.isEmpty then none
  else
    let (left, right) := cut '=' part
    let key := trim left
    match right with
    | none => some (.malformed part)
    | some right =>
      let value := trim right
      if key.isEmpty then some (.malformed part)
      else some (.pair (unescape key) (unescape value) (hasEscape value))

def entries (text : List Char) : List Entry :=
  (split ';' text).filterMap entry?

/-- The scalar that an unescaped value stands for. -/
def scalarOf (value : List Char) : Except Fault Scalar :=
  if value = ['t', 'r', 'u', 'e'] then .ok (.bool true)
  else if value = ['f', 'a', 'l', 's', 'e'] then .ok (.bool false)
  else match Numeral.read? value with
    | some n =>
      if n.isInteger then
        if Fault.digitLimit < n.whole.length then .error (.tooManyDigits n.whole.length) else .ok (.int n.integer)
      else if n.isPointed then .ok (.float n.decimal.nearest)
      else .ok (.text (String.ofList value))
    | none => .ok (.text (String.ofList value))

/-- The segments of a dotted key. -/
def path : List Char → List (List Char)
  | [] => [[]]
  | c :: rest => if c = '.' then [] :: path rest else extend [c] (path rest)

/-- A value on the line. Where types are kept, a text that reads as something else gets an escape. -/
def written (typed : Bool) : Scalar → Except Fault (List Char)
  | .bool b => .ok (if b then ['t', 'r', 'u', 'e'] else ['f', 'a', 'l', 's', 'e'])
  | .text s => do
    let escaped := escape s.toList
    if typed && !s.isEmpty && escaped.head? != some '\\' then
      match ← scalarOf s.toList with
      | .text _ => return escaped
      | _ => return '\\' :: escaped
    else return escaped
  | other => .ok other.plain.toList

end Codec

namespace Props
open Codec

/-- Sets a scalar at the end of a path, with dictionaries on the way in place of anything else. -/
def setPath : Props → List String → Scalar → Props
  | p, [], _ => p
  | p, [key], value => p.set key (.scalar value)
  | p, key :: path, value =>
    let sub := match p.get? key with
      | some (.dict d) => d
      | _ => nil
    p.set key (.dict (sub.setPath path value))

/-- Adds one entry; a key with an empty segment is passed over. -/
def enter (p : Props) : Entry → Except Fault Props
  | .malformed _ => .ok p
  | .pair key value escaped => do
    let segments := path key
    if segments.any (·.isEmpty) then return p
    else
      let scalar ← if escaped then .ok (.text (String.ofList value)) else scalarOf value
      return p.setPath (segments.map String.ofList) scalar

def read (text : String) : Except Fault Props :=
  (entries text.toList).foldlM enter nil

/-- What reading passes over: first the malformed parts, then the keys with an empty segment. -/
def readNotes (text : String) : List Note :=
  let all := entries text.toList
  all.filterMap (fun
    | .malformed part => some (.malformedPair (String.ofList part))
    | _ => none) ++
  all.filterMap (fun
    | .pair key _ _ => if (path key).any (·.isEmpty) then some (.emptySegment (String.ofList key)) else none
    | _ => none)

/-- One entry for each scalar but null, depth first. -/
def assignments (front : List Char) : Props → Except Fault (List (List Char))
  | nil => .ok []
  | leaf _ .null rest => rest.assignments front
  | leaf key value rest => do
    let value ← written true value
    return (front ++ escape key.toList ++ '=' :: value) :: (← rest.assignments front)
  | node key sub rest => do
    return (← sub.assignments (front ++ escape key.toList ++ ['.'])) ++ (← rest.assignments front)

def joined (entries : List (List Char)) : Option String :=
  if entries.isEmpty then none else some (String.ofList ([';'].intercalate entries))

/-- The line for props, if there is anything to write. -/
def write (p : Props) : Except Fault (Option String) := do
  return joined (← p.assignments [])

/-- Metadata is flat and all of it is text. -/
def readMetadata (text : String) : Props :=
  (entries text.toList).foldl (fun p entry => match entry with
    | .malformed _ => p
    | .pair key value _ => p.set (String.ofList key) (.scalar (.text (String.ofList value)))) nil

def readMetadataNotes (text : String) : List Note :=
  (entries text.toList).filterMap fun
    | .malformed part => some (.malformedPair (String.ofList part))
    | _ => none

/-- The value of a metadata entry; null is not written. -/
def metadataText? : Value → Option (List Char)
  | .scalar .null => none
  | .scalar (.bool b) => some (if b then ['t', 'r', 'u', 'e'] else ['f', 'a', 'l', 's', 'e'])
  | .scalar (.text s) => some (escape s.toList)
  | other => some other.plain.toList

/-- The line for metadata without the excluded keys, if there is anything to write. -/
def writeMetadata (excluded : List String) (p : Props) : Option String :=
  joined (p.toList.filterMap fun (key, value) =>
    if excluded.contains key then none
    else (metadataText? value).map fun text => escape key.toList ++ '=' :: text)

end Props
end LiveDiagram
