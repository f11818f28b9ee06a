import LiveDiagram.Document.Writer
import LiveDiagram.Proofs.Props.ReadBack
import LiveDiagram.Proofs.Source.Spelling
import LiveDiagram.Source.Forest

/-! What the text of elements declares. Every element is declared on the line where its header stands, with the props,
the metadata and the styles that its text says, but for the label that stands on the line of its edge. -/
namespace LiveDiagram

variable {α : Type}

namespace Props

/-- A dictionary, unless it is empty. -/
def filled? (p : Props) : Option Props :=
  if p = nil then none else some p

theorem getD_filled? (p : Props) : p.filled?.getD .nil = p := by
  unfold filled?
  split
  · next empty => exact empty.symm
  · rfl

end Props

/-- The text of a node, unless it is empty. -/
def NodeContent.name? (content : NodeContent α) : Option String :=
  if content.text.isEmpty then none else some content.text

namespace Element

/-- The style that is written for a metadata key. -/
def shown? (config : Config α) (key : String) (e : Element α) : Option String :=
  match e.metadata.get? key with
  | some (.scalar (.text s)) => if config.defaultStyles.contains s || s.isEmpty then none else some s
  | _ => none

def style? (config : Config α) (e : Element α) : Option String :=
  e.shown? config "style"

def textStyle? (config : Config α) (e : Element α) : Option String :=
  if e.isNode then e.shown? config "textStyle" else none

/-- The connector that says all about line and arrowheads, if there is one. -/
def connector? (e : Element α) : Option Connector :=
  (Connector.ofProps? e.props).toOption.join

/-- Whether the line of an edge has a connector on it. -/
def isJoined (e : Element α) : Bool :=
  match e.content with
  | .node _ => false
  | .edge start stop => start.isConnected || stop.isConnected || e.connector?.any (· ≠ .plain)

/-- The connector on the line of an edge, if there is one. -/
def symbol? (e : Element α) : Option Connector :=
  if e.isJoined then some (e.connector?.getD .plain) else none

/-- The props that the body says. -/
def bodyProps (e : Element α) : Props :=
  if e.isJoined && e.connector?.isSome then Connector.residue e.props else e.props

def bodyMetadata (e : Element α) : Props :=
  e.metadata.without Writer.styleKeys

/-- The child that stands on the line of an edge: its only label, unless it would be read as the end of the edge. -/
def inlined? (children : Outline α) (e : Element α) : Option (Element α) :=
  match e.content with
  | .node _ => none
  | .edge _ stop => if e.isJoined && !stop.isConnected then none else Writer.loneLabel? children

def inlinedId? (children : Outline α) (e : Element α) : Option String :=
  (e.inlined? children).map id

/-- How many lines of the body come before the children. -/
def entryCount (config : Config α) (e : Element α) : Nat :=
  (if (e.style? config).isSome || (e.textStyle? config).isSome then 1 else 0) +
    (if e.bodyProps = .nil then 0 else 1) + (if e.bodyMetadata = .nil then 0 else 1)

/-- How many lines an element has over those of its children. -/
def height (config : Config α) (below : Nat) (e : Element α) : Nat :=
  if e.entryCount config + below = 0 then 1 else e.entryCount config + below + 2

/-- What the text of an element declares. The connector stands for props of its own. -/
def declaration (config : Config α) (children : Outline α) (line : Nat) (e : Element α) : Declaration where
  id := e.id
  line := line
  head :=
    match e.content with
    | .node content => .node content.type content.name? (e.textStyle? config)
    | .edge start stop => .edge start.node? stop.node? ((e.inlined? children).map Writer.nodeText)
  props :=
    match e.symbol? with
    | some c => some (c.props.merge true e.bodyProps)
    | none => e.bodyProps.filled?
  metadata := e.bodyMetadata.filled?
  style := e.style? config

end Element

namespace Outline

/-- How many lines the text of an outline has, but for topmost elements with the id that is left out. -/
def height (config : Config α) (leftOut : Option String) : Outline α → Nat
  | nil => 0
  | cons e children rest =>
    if leftOut = some e.id then rest.height config leftOut
    else e.height config (children.height config (e.inlinedId? children)) + rest.height config leftOut

/-- What an outline declares from a line on, but for topmost elements with the id that is left out. -/
def declared (config : Config α) (leftOut : Option String) (line : Nat) : Outline α → Forest
  | nil => .nil
  | cons e children rest =>
    if leftOut = some e.id then rest.declared config leftOut line
    else .cons (e.declaration config children line)
      (children.declared config (e.inlinedId? children) (line + 1 + e.entryCount config))
      (rest.declared config leftOut (line + e.height config (children.height config (e.inlinedId? children))))

/-- What an outline declares from a line on with a blank line after each topmost element. -/
def forest (config : Config α) (line : Nat) : Outline α → Forest
  | nil => .nil
  | cons e children rest =>
    .cons (e.declaration config children line)
      (children.declared config (e.inlinedId? children) (line + 1 + e.entryCount config))
      (rest.forest config (line + e.height config (children.height config (e.inlinedId? children)) + 1))

end Outline

/-! Elements whose text can be read -/

namespace Element
open Token (Plain)

/-- A connected end whose name is not taken for a connector. -/
def Named (endpoint : Endpoint α) : Prop :=
  ∀ id, endpoint.node? = some id → Quoted.isPlain id = true → Connector.read? id.toList = none

/-- What a header asks of an element. -/
def Titled (e : Element α) : Prop :=
  match e.content with
  | .node content => Plain content.type.toList ∧ content.type ≠ "edge"
  | .edge start stop => (∃ c, Connector.ofProps? e.props = .ok c) ∧ Named start ∧ Named stop

/-- A style that can be written. -/
def Styled (style : String) : Prop :=
  Plain style.toList ∧ style ∉ Token.keywords

end Element
end LiveDiagram
