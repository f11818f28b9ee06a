/-! Connectors: the symbols between the two ends of an edge. A connector is a line, with an arrowhead or none at
each end, and is written as the start symbol, the line symbol and the end symbol without gaps. -/
namespace LiveDiagram

inductive Arrowhead
  | squareFilled
  | squareOutline
  | ballFilled
  | ballOutline
  | ballPlusOutline
  | squareDoubleFilled
  | squareDoubleOutline
  | boxFilled
  | boxOutline
  | diamondFilled
  | diamondOutline
  | fork
  | stick
  | doubleStick
  | bar
  | barEnd
  | barDouble
  | crowsFeet
  | crowsFeetBar
  | crowsFeetBall
  | crowsFeetBallFilled
  | barBall
  | barBallFilled
  | dimensionStick
  | socket
  | slash
  | cross
deriving DecidableEq, Repr

namespace Arrowhead

def all : List Arrowhead :=
  [squareFilled, squareOutline, ballFilled, ballOutline, ballPlusOutline, squareDoubleFilled, squareDoubleOutline,
   boxFilled, boxOutline, diamondFilled, diamondOutline, fork, stick, doubleStick, bar, barEnd, barDouble,
   crowsFeet, crowsFeetBar, crowsFeetBall, crowsFeetBallFilled, barBall, barBallFilled, dimensionStick, socket,
   slash, cross]

theorem mem_all (head : Arrowhead) : head ∈ all := by
  cases head <;> decide

/-- The name of an arrowhead among edge props. -/
def name : Arrowhead → String
  | squareFilled => "SQUARE_ARROW_FILLED"
  | squareOutline => "SQUARE_ARROW_OUTLINE"
  | ballFilled => "BALL_FILLED"
  | ballOutline => "BALL_OUTLINE"
  | ballPlusOutline => "BALL_PLUS_OUTLINE"
  | squareDoubleFilled => "SQUARE_DOUBLE_ARROW_FILLED"
  | squareDoubleOutline => "SQUARE_DOUBLE_ARROW_OUTLINE"
  | boxFilled => "BOX_FILLED"
  | boxOutline => "BOX_OUTLINE"
  | diamondFilled => "DIAMOND_FILLED"
  | diamondOutline => "DIAMOND_OUTLINE"
  | fork => "FORK"
  | stick => "SQUARE_STICK_ARROW"
  | doubleStick => "SQUARE_DOUBLE_STICK_ARROW"
  | bar => "BAR"
  | barEnd => "BAR_END"
  | barDouble => "BAR_DOUBLE"
  | crowsFeet => "CROWS_FEET"
  | crowsFeetBar => "CROWS_FEET_BAR"
  | crowsFeetBall => "CROWS_FEET_BALL"
  | crowsFeetBallFilled => "CROWS_FEET_BALL_FILLED"
  | barBall => "BAR_BALL"
  | barBallFilled => "BAR_BALL_FILLED"
  | dimensionStick => "ARROW_DIMENSION_STICK_ARROW"
  | socket => "SOCKET"
  | slash => "SLASH"
  | cross => "CROSS"

/-- The symbol before the line. -/
def startSymbol : Arrowhead → List Char
  | squareFilled => ['<', '|', '#']
  | squareOutline => ['<', '|']
  | ballFilled => ['o', '#']
  | ballOutline => ['o']
  | ballPlusOutline => ['o', '+']
  | squareDoubleFilled => ['<', '|', '<', '|', '#']
  | squareDoubleOutline => ['<', '|', '<', '|']
  | boxFilled => ['[', ']', '#']
  | boxOutline => ['[', ']']
  | diamondFilled => ['<', '>', '#']
  | diamondOutline => ['<', '>']
  | fork => ['E']
  | stick => ['<']
  | doubleStick => ['<', '<']
  | bar => ['-', '|']
  | barEnd => ['|']
  | barDouble => ['|', '|']
  | crowsFeet => ['>']
  | crowsFeetBar => ['>', '|']
  | crowsFeetBall => ['>', 'o']
  | crowsFeetBallFilled => ['>', 'o', '#']
  | barBall => ['|', 'o']
  | barBallFilled => ['|', 'o', '#']
  | dimensionStick => ['|', '<']
  | socket => [')']
  | slash => ['/']
  | cross => ['x']

/-- The symbol after the line. -/
def endSymbol : Arrowhead → List Char
  | squareFilled => ['#', '|', '>']
  | squareOutline => ['|', '>']
  | ballFilled => ['#', 'o']
  | ballOutline => ['o']
  | ballPlusOutline => ['+', 'o']
  | squareDoubleFilled => ['#', '|', '>', '|', '>']
  | squareDoubleOutline => ['|', '>', '|', '>']
  | boxFilled => ['#', '[', ']']
  | boxOutline => ['[', ']']
  | diamondFilled => ['#', '<', '>']
  | diamondOutline => ['<', '>']
  | fork => ['E']
  | stick => ['>']
  | doubleStick => ['>', '>']
  | bar => ['|', '-']
  | barEnd => ['|']
  | barDouble => ['|', '|']
  | crowsFeet => ['<']
  | crowsFeetBar => ['|', '<']
  | crowsFeetBall => ['o', '<']
  | crowsFeetBallFilled => ['#', 'o', '<']
  | barBall => ['o', '|']
  | barBallFilled => ['#', 'o', '|']
  | dimensionStick => ['>', '|']
  | socket => ['(']
  | slash => ['/']
  | cross => ['x']

def ofName? (name : String) : Option Arrowhead :=
  all.find? (·.name == name)

end Arrowhead

/-- The stroke of a connector: thin or thick, solid, dotted or dashed. -/
inductive Line
  | thin
  | thinDotted
  | thinDashed
  | thick
  | thickDotted
  | thickDashed
deriving DecidableEq, Repr

namespace Line

def all : List Line :=
  [thin, thinDotted, thinDashed, thick, thickDotted, thickDashed]

theorem mem_all (line : Line) : line ∈ all := by
  cases line <;> decide

def symbol : Line → Char × Char
  | thin => ('-', '-')
  | thinDotted => ('.', '.')
  | thinDashed => ('-', '.')
  | thick => ('=', '=')
  | thickDotted => (':', ':')
  | thickDashed => ('=', ':')

def width : Line → Int
  | thin | thinDotted | thinDashed => 1
  | thick | thickDotted | thickDashed => 2

/-- The dash pattern; a solid line has none. -/
def pattern? : Line → Option String
  | thin | thick => none
  | thinDotted | thickDotted => some "dotted"
  | thinDashed | thickDashed => some "dashed"

end Line

structure Connector where
  line : Line
  start : Option Arrowhead
  stop : Option Arrowhead
deriving DecidableEq, Repr

namespace Connector

/-- The connector that says nothing beyond joining two ends. -/
def plain : Connector := ⟨.thin, none, none⟩

/-- The characters that connectors are made of. -/
def characters : List Char :=
  (Line.all.flatMap fun line => [line.symbol.1, line.symbol.2]) ++
    Arrowhead.all.flatMap fun head => head.startSymbol ++ head.endSymbol

def isCharacter (c : Char) : Bool :=
  characters.contains c

def text (c : Connector) : List Char :=
  (c.start.elim [] Arrowhead.startSymbol) ++ [c.line.symbol.1, c.line.symbol.2] ++
    c.stop.elim [] Arrowhead.endSymbol

/-- An arrowhead or none, read from the whole of a symbol. -/
def head? (symbol : Arrowhead → List Char) (text : List Char) : Option (Option Arrowhead) :=
  if text.isEmpty then some none else (Arrowhead.all.find? (symbol · == text)).map some

/-- Reads a connector whose line symbol comes right after `before`, given backwards, or further on. -/
def readFrom (line : Line) (before : List Char) : List Char → Option Connector
  | a :: b :: rest =>
    let found := if (a, b) = line.symbol then
        match head? Arrowhead.startSymbol before.reverse, head? Arrowhead.endSymbol rest with
        | some start, some stop => some ⟨line, start, stop⟩
        | _, _ => none
      else none
    found.or (readFrom line (a :: before) (b :: rest))
  | _ => none

/-- Reads a whole text as a connector, trying the lines in order and each at every place. -/
def read? (text : List Char) : Option Connector :=
  Line.all.findSome? fun line => readFrom line [] text

end Connector
end LiveDiagram
