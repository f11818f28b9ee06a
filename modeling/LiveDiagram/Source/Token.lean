import LiveDiagram.Connector.Basic
import LiveDiagram.Source.Errors

/-! Tokens. A line is cut into pieces, one after the other without gaps: a piece is a token, a blank or a
character that means nothing. Every line ends with a newline token and the text with an end token. A quoted
string cannot go on to the next line. -/
namespace LiveDiagram

inductive TokenKind
  | id
  | keyword
  | string
  | arrow
  | connector
  | leftBrace
  | rightBrace
  | colon
  | slash
  | newline
  | eof
deriving DecidableEq, Repr

namespace TokenKind

/-- The name of a kind in messages. -/
def name : TokenKind → String
  | id => "ID"
  | keyword => "KEYWORD"
  | string => "STRING"
  | arrow => "ARROW"
  | connector => "ARROW_NOTATION"
  | leftBrace => "LBRACE"
  | rightBrace => "RBRACE"
  | colon => "COLON"
  | slash => "SLASH"
  | newline => "NEWLINE"
  | eof => "EOF"

end TokenKind

structure Token where
  kind : TokenKind
  value : String
  line : Nat
  column : Nat
deriving DecidableEq, Repr

/-- A stretch of a line: the token it is, if any, and the number of its characters after the first. -/
structure Piece where
  token : Option (TokenKind × List Char)
  more : Nat
  unclosed : Bool
deriving DecidableEq, Repr

namespace Token

def keywords : List String := ["edge", "props", "metadata", "stylesheet"]

def isBlank (c : Char) : Bool :=
  c = ' ' || c = '\t' || c = '\r'

/-- Letters and digits of the basic alphabet, the underscore and the hyphen. -/
def isIdChar (c : Char) : Bool :=
  c.isAlphanum || c = '_' || c = '-'

/-- Whether a connector may end before these characters. -/
def endsConnector : List Char → Bool
  | [] => true
  | c :: _ => isBlank c || c = '"' || c = '\x7b'

/-- The character that an escape stands for. -/
def escaped (c : Char) : Char :=
  if c = 'n' then '\n' else c

/-- The value of a quoted string from behind its opening quote, the number of characters it takes, and
whether its closing quote is missing. -/
def quoted : List Char → List Char × Nat × Bool
  | [] => ([], 0, true)
  | '"' :: _ => ([], 1, false)
  | '\\' :: c :: rest => let (value, used, unclosed) := quoted rest; (escaped c :: value, used + 2, unclosed)
  | c :: rest => let (value, used, unclosed) := quoted rest; (c :: value, used + 1, unclosed)

def plainPiece (kind : TokenKind) (value : List Char) : Piece :=
  ⟨some (kind, value), value.length - 1, false⟩

/-- An arrow or a connector at the start of a line's rest. The run of connector characters is taken whole: it is
an arrow, a connector that ends where one may end, or neither. -/
def connectorPiece? (text : List Char) : Option Piece :=
  let arrow := ['-', '>']
  if text.take 2 = arrow && endsConnector (text.drop 2) then some (plainPiece .arrow arrow)
  else
    let run := text.takeWhile Connector.isCharacter
    if run = arrow then some (plainPiece .arrow arrow)
    else if endsConnector (text.dropWhile Connector.isCharacter) && (Connector.read? run).isSome then
      some (plainPiece .connector run)
    else none

def symbol? (c : Char) : Option TokenKind :=
  if c = ':' then some .colon
  else if c = '\x7b' then some .leftBrace
  else if c = '\x7d' then some .rightBrace
  else if c = '/' then some .slash
  else none

def wordPiece (word : List Char) : Piece :=
  plainPiece (if String.ofList word ∈ keywords then .keyword else .id) word

/-- The piece that starts with `c`, before the rest of its line. -/
def piece (c : Char) (rest : List Char) : Piece :=
  if isBlank c then ⟨none, 0, false⟩
  else if c = '"' then
    let (value, used, unclosed) := quoted rest
    ⟨some (.string, value), used, unclosed⟩
  else
    match if Connector.isCharacter c then connectorPiece? (c :: rest) else none with
    | some piece => piece
    | none =>
      match symbol? c with
      | some kind => ⟨some (kind, [c]), 0, false⟩
      | none => if isIdChar c then wordPiece (c :: rest.takeWhile isIdChar) else ⟨none, 0, false⟩

/-- The pieces of a line, each with its column. -/
def pieces (column : Nat) : List Char → List (Nat × Piece)
  | [] => []
  | c :: rest =>
    let first := piece c rest
    (column, first) :: pieces (column + first.more + 1) (rest.drop first.more)
termination_by text => text.length
decreasing_by simp only [List.length_drop, List.length_cons]; omega

/-- The tokens of a line, the newline token last. -/
def ofLine (line : Nat) (text : List Char) : List Token :=
  (pieces 0 text).filterMap (fun (column, piece) =>
    piece.token.map fun (kind, value) => ⟨kind, String.ofList value, line, column⟩) ++
    [⟨.newline, "\n", line, text.length⟩]

/-- The lines of a text, which newlines separate; there is always at least one. -/
def lines : List Char → List (List Char)
  | [] => [[]]
  | c :: rest =>
    if c = '\n' then [] :: lines rest
    else match lines rest with
      | [] => [[c]]
      | line :: more => (c :: line) :: more

/-- The tokens of lines that are counted from `first`. -/
def ofLines (first : Nat) : List (List Char) → List Token
  | [] => []
  | line :: rest => ofLine first line ++ ofLines (first + 1) rest

/-- All tokens of a text. -/
def ofText (text : String) : List Token :=
  let all := lines text.toList
  ofLines 0 all ++ [⟨.eof, "", all.length - 1, (all.getLast?.getD []).length⟩]

/-- The errors of lines that are counted from `first`: strings without a closing quote. -/
def lineErrors (first : Nat) (e : Errors) : List (List Char) → Errors
  | [] => e
  | line :: rest =>
    let unclosed := (pieces 0 line).any (·.2.unclosed)
    lineErrors (first + 1) (if unclosed then e.add first "Unterminated string literal" else e) rest

def errorsOf (text : String) : Errors :=
  lineErrors 0 .none (lines text.toList)

end Token
end LiveDiagram
