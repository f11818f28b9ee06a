import LiveDiagram.Source.Reader

/-! The grammar of texts, over tokens. Optional parts are read greedily, so that what stands where a part could be read is
that part. A script is what such a reading finds, and stands for a forest once the elements without an id get one. -/
namespace LiveDiagram

/-- The front of an element: its id, if it has one, its head, and the text of its connector. -/
structure Heading where
  id : Option String
  line : Nat
  head : Head
  connector : Option String

/-- The entries of a body, or the elements of a text, as they are written. -/
inductive Script
  | nil
  | props (text : String) (rest : Script)
  | metadata (text : String) (rest : Script)
  | stylesheet (line : Nat) (style textStyle : Option String) (rest : Script)
  | element (heading : Heading) (body rest : Script)

namespace Head

def isEdge : Head → Bool
  | node .. => false
  | edge .. => true

end Head

namespace Grammar
open Reader (isName isConnector)

/-- What tokens can stand for at their front, with the tokens behind it. -/
abbrev Part (β : Type) := List Token → β → List Token → Prop

/-- A token of an accepted kind. -/
inductive One (accepted : TokenKind → Bool) : Part String
  | token {t : Token} {rest : List Token} : accepted t.kind = true → One accepted (t :: rest) t.value rest

/-- A part that is there wherever it can be. -/
inductive Optional {β : Type} (part : Part β) : Part (Option β)
  | given {tokens rest : List Token} {value : β} : part tokens value rest → Optional part tokens (some value) rest
  | absent {tokens : List Token} : (∀ value rest, ¬part tokens value rest) → Optional part tokens none tokens

/-- The start of an edge is an id, or a string right before a connector. -/
inductive Source : Part String
  | id {t : Token} {rest : List Token} : t.kind = .id → Source (t :: rest) t.value rest
  | string {t c : Token} {rest : List Token} : t.kind = .string → isConnector c.kind = true →
      Source (t :: c :: rest) t.value (c :: rest)

/-- A connector with the stop of the edge. -/
inductive Link : Part (String × Option String)
  | link {c : Token} {tokens rest : List Token} {target : Option String} : isConnector c.kind = true →
      Optional (One isName) tokens target rest → Link (c :: tokens) (c.value, target) rest

/-- What stands behind the colon of an element: the shape of a node and its name, or the keyword of edges with the ends, the
connector and the label. -/
inductive Title : Part (Head × Option String)
  | node {t : Token} {tokens rest : List Token} {name : Option String} :
      t.kind = .id ∨ (t.kind = .keyword ∧ t.value ≠ "edge") → Optional (One (· = .string)) tokens name rest →
      Title (t :: tokens) (.node t.value name none, none) rest
  | edge {t : Token} {tokens behind late rest : List Token} {source label : Option String}
      {link : Option (String × Option String)} : t.kind = .keyword → t.value = "edge" →
      Optional Source tokens source behind → Optional Link behind link late → Optional (One (· = .string)) late label rest →
      Title (t :: tokens) (.edge source (link.bind Prod.snd) label, link.map Prod.fst) rest

/-- The front of an element up to its body or the end of its line. -/
inductive Opening : Part Heading
  | opening {t c : Token} {tokens behind rest : List Token} {id : Option String} {head : Head} {connector : Option String} :
      Optional (One isName) (t :: tokens) id (c :: behind) → c.kind = .colon → Title behind (head, connector) rest →
      Opening (t :: tokens) ⟨id, t.line, head, connector⟩ rest

/-- The text style of a line for styles. -/
inductive Slashed : Part (Option String)
  | slashed {t : Token} {tokens rest : List Token} {style : Option String} : t.kind = .slash →
      Optional (One (· = .id)) tokens style rest → Slashed (t :: tokens) style rest

/-- A keyword with its colon. -/
inductive Keyword (word : String) : List Token → List Token → Prop
  | keyword {t c : Token} {rest : List Token} : t.kind = .keyword → t.value = word → c.kind = .colon →
      Keyword word (t :: c :: rest) rest

/-- None of the tokens ends the line. -/
def Inline (tokens : List Token) : Prop :=
  ∀ t ∈ tokens, t.kind ≠ .newline ∧ t.kind ≠ .eof

end Grammar

namespace Script

/-- What the entries make of what a body has said before them. A text of props that cannot be read adds nothing. -/
def tells : Script → Body → Body
  | nil, b => b
  | props text rest, b =>
    rest.tells { b with props := some ((b.props.getD .nil).merge true ((Props.read text).toOption.getD .nil)) }
  | metadata text rest, b =>
    rest.tells { b with metadata := some ((b.metadata.getD .nil).overlay (Props.readMetadata text)) }
  | stylesheet line style textStyle rest, b =>
    rest.tells { b with style := style.or b.style, textStyle := (textStyle.map (·, line)).or b.textStyle }
  | element _ _ rest, b => rest.tells b

end Script

namespace Heading

/-- The element that a heading opens under an id. -/
def opens (h : Heading) (id : String) : OpenElement :=
  ⟨id, h.line, h.head, h.connector.bind (Connector.read? ·.toList), .empty⟩

/-- The id of the element, a new one where the text has none. -/
def name (h : Heading) (ids : IdSupply) : String × IdSupply :=
  match h.id with
  | some id => (id, ids)
  | none => ids.draw

end Heading

namespace Script

/-- No entry of its own gives a text style. -/
def Unstyled : Script → Prop
  | nil => True
  | props _ rest | metadata _ rest | element _ _ rest => rest.Unstyled
  | stylesheet _ _ textStyle rest => textStyle = none ∧ rest.Unstyled

/-- The tree that a script stands for, with the ids that are left. -/
def forest : Script → IdSupply → Forest × IdSupply
  | nil, ids => (.nil, ids)
  | props _ rest, ids | metadata _ rest, ids | stylesheet _ _ _ rest, ids => rest.forest ids
  | element h body rest, ids =>
    let (id, ids) := h.name ids
    let (children, ids) := body.forest ids
    let (others, ids) := rest.forest ids
    (.cons { h.opens id with body := body.tells .empty }.declaration children others, ids)

end Script

namespace Grammar

/-- Elements, and in a body entries, with lines ending between them. An element has a body or ends its line. -/
inductive Items : Bool → Part Script
  | nil {inner : Bool} {tokens : List Token} : Items inner tokens .nil tokens
  | newline {inner : Bool} {t : Token} {tokens rest : List Token} {s : Script} : t.kind = .newline →
      Items inner tokens s rest → Items inner (t :: tokens) s rest
  | props {t : Token} {tokens behind rest : List Token} {s : Script} : Keyword "props" tokens (t :: behind) →
      t.kind = .string → Items true behind s rest → Items true tokens (.props t.value s) rest
  | metadata {t : Token} {tokens behind rest : List Token} {s : Script} : Keyword "metadata" tokens (t :: behind) →
      t.kind = .string → Items true behind s rest → Items true tokens (.metadata t.value s) rest
  | stylesheet {t n : Token} {tokens styles texts skipped behind rest : List Token} {style : Option String}
      {textStyle : Option (Option String)} {s : Script} : Keyword "stylesheet" (t :: tokens) styles →
      Optional (One (· = .id)) styles style texts → Optional Slashed texts textStyle (skipped ++ n :: behind) →
      Inline skipped → n.kind = .newline → Items true behind s rest →
      Items true (t :: tokens) (.stylesheet t.line style textStyle.join s) rest
  | bare {inner : Bool} {n : Token} {tokens behind rest : List Token} {h : Heading} {s : Script} :
      Opening tokens h (n :: behind) → n.kind = .newline → Items inner (n :: behind) s rest →
      Items inner tokens (.element h .nil s) rest
  | body {inner : Bool} {l r : Token} {tokens inside behind rest : List Token} {h : Heading} {body s : Script} :
      Opening tokens h (l :: inside) → l.kind = .leftBrace → Items true inside body (r :: behind) → r.kind = .rightBrace →
      (h.head.isEdge = true → body.Unstyled) → Items inner behind s rest → Items inner tokens (.element h body s) rest

/-- The tokens of a whole text, up to its end. -/
def Derives (tokens : List Token) (s : Script) : Prop :=
  ∃ e, e.kind = .eof ∧ Items false tokens s [e]

end Grammar
end LiveDiagram
