import LiveDiagram.Fault

/-! Errors of a text, line by line. Every distinct message of a line is kept, in the order of arrival; the
error of a line is its messages joined. -/
namespace LiveDiagram

/-- The messages as they arrived, each with its line. -/
structure Errors where
  reports : List (Int × String)
deriving DecidableEq, Repr, Inhabited

namespace Errors

def none : Errors := ⟨[]⟩

def add (e : Errors) (line : Int) (message : String) : Errors :=
  if (line, message) ∈ e.reports then e else ⟨e.reports ++ [(line, message)]⟩

/-- Adds one message for each of several lines. -/
def merge (e : Errors) (more : List (Int × String)) : Errors :=
  more.foldl (fun all report => all.add report.1 report.2) e

def messages (e : Errors) (line : Int) : List String :=
  (e.reports.filter (·.1 = line)).map Prod.snd

def contains (e : Errors) (line : Int) : Bool :=
  e.reports.any (·.1 = line)

/-- The error of a line that has one. -/
def get? (e : Errors) (line : Int) : Option String :=
  if e.contains line then some ("; ".intercalate (e.messages line)) else .none

def get (e : Errors) (line : Int) : Except Fault String :=
  match e.get? line with
  | some message => .ok message
  | .none => .error (.noErrorAt line)

/-- The lines with an error, in ascending order. -/
def lines (e : Errors) : List Int :=
  (e.reports.map Prod.fst).eraseDups.mergeSort

/-- The lines with their errors, in ascending order. -/
def toList (e : Errors) : List (Int × String) :=
  e.lines.map fun line => (line, "; ".intercalate (e.messages line))

def size (e : Errors) : Nat :=
  e.lines.length

def isEmpty (e : Errors) : Bool :=
  e.reports.isEmpty

/-- All errors as a literal. -/
def literal (e : Errors) : String :=
  "ParseErrors(\x7b" ++
    ", ".intercalate (e.toList.map fun (line, error) => toString line ++ ": " ++ Text.literal error) ++ "\x7d)"

end Errors
end LiveDiagram
