import LiveDiagram.Document.Writer
import LiveDiagram.Source.Highlight
import LiveDiagram.Source.Reader

/-! Text formats: named ways to read, write and highlight diagram text, and the register of them. -/
namespace LiveDiagram

structure TextFormat (α : Type) where
  name : String
  read : String → Pass Parsed
  write : Document α → List String → Except Fault (List String)
  /-- Highlights lines, given the errors of the text; a format may have no highlighting. -/
  highlight : Option ((Int → Option String) → List String → List String)

/-- The registered formats, in order of registration. -/
abbrev Formats (α : Type) := List (TextFormat α)

namespace TextFormat
variable {α : Type} [Coordinate α]

/-- A format that reads and writes diagram text. -/
def diagram (name : String) (highlighting : Bool) : TextFormat α where
  name := name
  read := Parsed.ofText Parsed.standardRules
  write d ids := d.linesOf .standard ids
  highlight := if highlighting then some Highlight.render else none

def standardName : String := "default"

/-- Lines as they are shown: highlighted where the format can do so. -/
def display (format : TextFormat α) (errors : Errors) (lines : List String) : List String :=
  format.highlight.elim lines fun highlight => highlight errors.get? lines

end TextFormat

namespace Formats
variable {α : Type} [Coordinate α]

/-- The formats that are there from the start. -/
def standard : Formats α := [.diagram TextFormat.standardName true]

def get (formats : Formats α) (name : String) : Except Fault (TextFormat α) :=
  match formats.find? (·.name = name) with
  | some format => .ok format
  | none => .error (.unknownFormat name)

def register (formats : Formats α) (format : TextFormat α) : Except Fault (Formats α) :=
  if formats.any (·.name = format.name) then .error (.formatTaken format.name) else .ok (formats ++ [format])

/-- The names of all formats, in alphabetical order. -/
def names (formats : Formats α) : List String :=
  (formats.map TextFormat.name).mergeSort

end Formats
end LiveDiagram
