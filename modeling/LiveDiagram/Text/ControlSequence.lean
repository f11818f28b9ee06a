/-! Control sequences: orders to a terminal that stand between the characters of a text. A sequence opens with
an escape and a bracket, goes on with parameters and intermediate characters, and ends with a final one. -/
namespace LiveDiagram.Text
namespace ControlSequence

def isParameter (c : Char) : Bool :=
  '0' ≤ c && c ≤ '?'

def isIntermediate (c : Char) : Bool :=
  ' ' ≤ c && c ≤ '/'

def isFinal (c : Char) : Bool :=
  '@' ≤ c && c ≤ '~'

/-- What follows a sequence that the text before has opened, if this text completes it. -/
def after? (text : List Char) : Option (List Char) :=
  match (text.dropWhile isParameter).dropWhile isIntermediate with
  | [] => none
  | c :: rest => if isFinal c then some rest else none

theorem length_after?_lt {text rest : List Char} (complete : after? text = some rest) :
    rest.length < text.length := by
  have parameters := (List.dropWhile_sublist isParameter (l := text)).length_le
  have intermediates := (List.dropWhile_sublist isIntermediate (l := text.dropWhile isParameter)).length_le
  unfold after? at complete
  split at complete
  · contradiction
  next c more ending =>
    rw [ending, List.length_cons] at intermediates
    split at complete
    · cases complete
      omega
    · contradiction

/-- The text without its complete sequences. -/
def dropAll : List Char → List Char
  | [] => []
  | '\x1b' :: '[' :: text =>
    match complete : after? text with
    | none => '\x1b' :: '[' :: dropAll text
    | some rest =>
      have : rest.length < text.length := length_after?_lt complete
      dropAll rest
  | c :: text => c :: dropAll text
termination_by text => text.length

end ControlSequence

/-- A text as it is written where no terminal obeys it. -/
def plain (text : String) : String :=
  String.ofList (ControlSequence.dropAll text.toList)

end LiveDiagram.Text
