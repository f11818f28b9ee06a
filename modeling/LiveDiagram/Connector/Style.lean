import LiveDiagram.Connector.Basic
import LiveDiagram.Fault
import LiveDiagram.Props.Basic

/-! Edge styles: what edge props say about line and arrowheads, whether or not a connector can say it. -/
namespace LiveDiagram

structure EdgeStyle where
  width : Value
  pattern : Value
  start : Value
  stop : Value
deriving DecidableEq, Repr

def Connector.style (c : Connector) : EdgeStyle :=
  { width := .scalar (.int c.line.width)
    pattern := .ofText? c.line.pattern?
    start := .ofText? (c.start.map Arrowhead.name)
    stop := .ofText? (c.stop.map Arrowhead.name) }

namespace EdgeStyle

/-- An arrow type that is there and not the word for none. -/
def namesHead (type : Value) : Bool :=
  type.isPresent && type != .scalar (.text "NONE")

/-- The arrowhead of a type: perhaps none, and `none` outside when the type has no symbol. -/
def head? (type : Value) : Except Fault (Option (Option Arrowhead)) :=
  if namesHead type then
    match type with
    | .scalar (.text name) => .ok ((Arrowhead.ofName? name).map some)
    | .scalar _ => .ok none
    | .dict _ => .error .unhashable
  else .ok (some none)

def line? (s : EdgeStyle) : Option Line :=
  Line.all.find? fun line =>
    (Value.scalar (.int line.width)).same s.width && (Value.ofText? line.pattern?).same s.pattern

/-- The connector that says the same, if there is one. -/
def connector? (s : EdgeStyle) : Except Fault (Option Connector) := do
  let some line := s.line? | return none
  let some start ← head? s.start | return none
  let some stop ← head? s.stop | return none
  return some ⟨line, start, stop⟩

/-- The props that say it in full. -/
def props (s : EdgeStyle) : Props :=
  let stroke := Props.nil.set "width" s.width
  let stroke := if s.pattern.isPresent then stroke.set "pattern" s.pattern else stroke
  let arrow := if namesHead s.start then Props.nil.set "start" (.dict (Props.nil.set "type" s.start)) else .nil
  let arrow := if namesHead s.stop then arrow.set "end" (.dict (Props.nil.set "type" s.stop)) else arrow
  let props := Props.nil.set "stroke" (.dict stroke)
  if arrow.isEmpty then props else props.set "arrow" (.dict arrow)

/-- The entries under a key; a missing or absent value has none, and a present scalar is refused. -/
def entries (p : Props) (key : String) : Except Fault Props :=
  match p.get? key with
  | none => .ok .nil
  | some (.dict d) => .ok d
  | some (.scalar s) => if s.isPresent then .error (.notEntries s.typeName) else .ok .nil

def typeIn (p : Props) : Value :=
  (p.get? "type").getD .null

/-- The style that edge props describe; a stroke without a width is one wide. -/
def ofProps (p : Props) : Except Fault EdgeStyle := do
  let stroke ← entries p "stroke"
  let arrow ← entries p "arrow"
  let start ← entries arrow "start"
  let stop ← entries arrow "end"
  return {
    width := (stroke.get? "width").getD (.scalar (.int 1))
    pattern := (stroke.get? "pattern").getD .null
    start := typeIn start
    stop := typeIn stop }

end EdgeStyle

namespace Connector

def props (c : Connector) : Props :=
  c.style.props

/-- The connector that edge props ask for, if one says it all. -/
def ofProps? (p : Props) : Except Fault (Option Connector) := do
  (← EdgeStyle.ofProps p).connector?

/-- The entries without one key; nothing is left of an entry that held that key alone. -/
def dropping (p : Props) (key : String) (drop : Props → Props) : Props :=
  match p.get? key with
  | some (.dict d) => let left := drop d; if left.isEmpty then p.erase key else p.set key (.dict left)
  | _ => p

/-- Edge props without what the connector says, and without dictionaries that this empties. -/
def residue (p : Props) : Props :=
  let p := dropping p "arrow" fun arrow =>
    dropping (dropping arrow "start" (·.erase "type")) "end" (·.erase "type")
  dropping p "stroke" fun stroke => (stroke.erase "width").erase "pattern"

end Connector
end LiveDiagram
