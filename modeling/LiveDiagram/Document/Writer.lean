import LiveDiagram.Config
import LiveDiagram.Connector.Style
import LiveDiagram.Document.Basic
import LiveDiagram.Props.Codec
import LiveDiagram.Source.Quoted

/-! Writing elements as text. The text is canonical: bodies are indented by one step for each level, entries
come in the order stylesheet, props, metadata, children, and a blank line follows each topmost element. -/
namespace LiveDiagram

/-- Elements with all that is nested in them: the first with its children, and those after it. -/
inductive Outline (α : Type)
  | nil
  | cons (first : Element α) (children rest : Outline α)
deriving DecidableEq, Repr

namespace Outline
variable {α : Type}

/-- The elements of the topmost level. -/
def roots : Outline α → List (Element α)
  | nil => []
  | cons first _ rest => first :: rest.roots

/-- All elements, each before its children. -/
def preorder : Outline α → List (Element α)
  | nil => []
  | cons first children rest => first :: (children.preorder ++ rest.preorder)

end Outline

namespace Document
variable {α : Type}

/-- The outline of the given elements, at most `depth` levels deep. -/
def outlineTo (d : Document α) : Nat → List String → Outline α
  | 0, _ => .nil
  | depth + 1, ids =>
    (ids.filterMap d.find?).foldr (fun e rest => .cons e (d.outlineTo depth e.children) rest) .nil

/-- The outline of the given elements. No containment without cycles is deeper than the document has
elements. -/
def outline (d : Document α) (ids : List String) : Outline α :=
  d.outlineTo d.elements.length ids

end Document

namespace Writer
variable {α : Type}

/-- The metadata keys that the stylesheet entry stands for. -/
def styleKeys : List String := ["style", "textStyle"]

/-- A style as it is written: nothing for an absent one and for a default. -/
def styleText (config : Config α) (style : Value) : Except Fault (Option String) :=
  match style with
  | .dict _ => .error .unhashable
  | .scalar (.text s) => .ok (if config.defaultStyles.contains s || s.isEmpty then none else some s)
  | other => .ok (if other.isPresent then some other.plain else none)

def styleEntry (config : Config α) (e : Element α) : Except Fault (Option String) := do
  let style ← styleText config ((e.metadata.get? "style").getD .null)
  let textStyle ← if e.isNode then styleText config ((e.metadata.get? "textStyle").getD .null) else .ok none
  if style.isNone && textStyle.isNone then return none
  return some ("stylesheet: " ++ style.elim "" (· ++ " ") ++ "/" ++ textStyle.elim "" (" " ++ ·))

/-- The entries of a body before its children. -/
def entries (config : Config α) (e : Element α) (props : Props) : Except Fault (List String) := do
  let style ← styleEntry config e
  let props ← props.write
  let metadata := e.metadata.writeMetadata styleKeys
  return style.toList ++ (props.map fun p => "props: " ++ Quoted.quote p).toList ++
    (metadata.map fun m => "metadata: " ++ Quoted.quote m).toList

/-- What the line and the body of an element hold, and the child that the line stands for. -/
structure Plan where
  head : String
  entries : List String
  inlined : Option String

def planNode (config : Config α) (e : Element α) (content : NodeContent α) : Except Fault Plan := do
  let text := if content.text.isEmpty then "" else " " ++ Quoted.quote content.text
  return ⟨Quoted.writeId e.id ++ ": " ++ content.type ++ text, ← entries config e e.props, none⟩

/-- The single label among the children of an edge. -/
def loneLabel? (children : Outline α) : Option (Element α) :=
  match children.roots.filter Element.isLabelled with
  | [label] => some label
  | _ => none

def nodeText (e : Element α) : String :=
  match e.content with
  | .node content => content.text
  | .edge .. => ""

/-- The line of an edge has a connector where an end is connected, or where the connector says more than the
plain one. A lone label is written on the line, unless it would be read as the end of the edge. -/
def planEdge (config : Config α) (e : Element α) (start stop : Endpoint α) (children : Outline α) :
    Except Fault Plan := do
  let connector ← Connector.ofProps? e.props
  let joined := start.isConnected || stop.isConnected || connector.any (· ≠ Connector.plain)
  let props := if joined && connector.isSome then Connector.residue e.props else e.props
  let name (endpoint : Endpoint α) := endpoint.node?.elim "" fun id => " " ++ Quoted.writeId id
  let symbol := String.ofList (connector.getD Connector.plain).text
  let ends := if joined then name start ++ " " ++ symbol ++ name stop else ""
  let label := if joined && !stop.isConnected then none else loneLabel? children
  let text := label.elim "" fun l => " " ++ Quoted.quote (nodeText l)
  return ⟨Quoted.writeId e.id ++ ": edge" ++ ends ++ text, ← entries config e props, label.map Element.id⟩

def plan (config : Config α) (e : Element α) (children : Outline α) : Except Fault Plan :=
  match e.content with
  | .node content => planNode config e content
  | .edge start stop => planEdge config e start stop children

/-- The lines of an element around those of its children. -/
def block (config : Config α) (indent : String) (plan : Plan) (below : List String) : List String :=
  let inside := plan.entries.map ((indent ++ config.indent) ++ ·) ++ below
  if inside.isEmpty then [indent ++ plan.head]
  else (indent ++ plan.head ++ " \x7b") :: inside ++ [indent ++ "\x7d"]

/-- The lines of an outline, but for topmost elements with the id that is left out. -/
def lines (config : Config α) (indent : String) (leftOut : Option String) : Outline α → Except Fault (List String)
  | .nil => .ok []
  | .cons e children rest =>
    if leftOut = some e.id then lines config indent leftOut rest
    else do
      let plan ← plan config e children
      let below ← lines config (indent ++ config.indent) plan.inlined children
      return block config indent plan below ++ (← lines config indent leftOut rest)

/-- The lines of topmost elements, each with a blank line after it. -/
def write (config : Config α) : Outline α → Except Fault (List String)
  | .nil => .ok []
  | .cons e children rest => do
    let plan ← plan config e children
    let below ← lines config config.indent plan.inlined children
    return block config "" plan below ++ "" :: (← write config rest)

end Writer

namespace Document
variable {α : Type} [Coordinate α]

/-- The lines for some elements of a document. -/
def linesOf (d : Document α) (config : Config α) (ids : List String) : Except Fault (List String) :=
  Writer.write config (d.outline ids)

/-- The whole document as text. -/
def text (d : Document α) : Except Fault String := do
  return "\n".intercalate (← d.linesOf .standard d.top)

end Document
end LiveDiagram
