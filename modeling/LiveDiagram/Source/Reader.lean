import LiveDiagram.Connector.Style
import LiveDiagram.Context
import LiveDiagram.Props.Codec
import LiveDiagram.Props.Merge
import LiveDiagram.Source.Cursor
import LiveDiagram.Source.Forest

/-! Reading a forest from tokens. The reader keeps the elements whose bodies are open on a stack; each step
takes the tokens of one header, one body entry or one brace. The grammar:

    element  := [ID | STRING] ":" (edge | node)
    edge     := "edge" [endpoint] [connector [endpoint]] [STRING] [body]
    node     := shape [STRING] [body]
    body     := "{" (props | metadata | stylesheet | element)* "}"
-/
namespace LiveDiagram

/-- What a body has said so far. -/
structure Body where
  props : Option Props
  metadata : Option Props
  style : Option String
  /-- The text style with its line. -/
  textStyle : Option (String × Nat)
  children : Forest

def Body.empty : Body := ⟨none, none, none, none, .nil⟩

/-- An element whose body is open. The connector of an edge waits for the props of the body. -/
structure OpenElement where
  id : String
  line : Nat
  head : Head
  connector : Option Connector
  body : Body

namespace OpenElement

/-- The finished declaration. A node takes up the text style; of the props of an edge, those in the body win
over those that its connector stands for. -/
def declaration (e : OpenElement) : Declaration :=
  { id := e.id
    line := e.line
    head := match e.head with
      | .node shape name _ => .node shape name (e.body.textStyle.map Prod.fst)
      | .edge source target label => .edge source target label
    props := match e.connector with
      | some connector => some (connector.props.merge true (e.body.props.getD .nil))
      | none => e.body.props
    metadata := e.body.metadata
    style := e.body.style }

/-- What is wrong with the finished element: an edge has no text style. -/
def finalErrors (e : OpenElement) (errors : Errors) : Errors :=
  match e.head, e.body.textStyle with
  | .edge .., some (_, line) => errors.add line "Edges cannot have textStylesheet"
  | _, _ => errors

end OpenElement

structure Reader where
  cursor : Cursor
  context : Context
  /-- The elements with an open body, the innermost first. -/
  opened : List OpenElement
  finished : Forest

/-- A fault that ends the reading, with what the reading leaves behind. -/
abbrev Halt := Fault × Context

namespace Reader
open Cursor

def isName (kind : TokenKind) : Bool :=
  kind = .id || kind = .string

def isConnector (kind : TokenKind) : Bool :=
  kind = .arrow || kind = .connector

/-- The header of a node behind its colon. -/
def nodeHeader (id : String) (line : Nat) (c : Cursor) : Option OpenElement × Cursor :=
  match c.take? (fun kind => kind = .id || kind = .keyword) with
  | (none, c) => (none, c.fail "Expected node type")
  | (some shape, c) =>
    let (name, c) := c.take? (· = .string)
    (some ⟨id, line, .node shape name none, none, .empty⟩, c.endLine "Unexpected token after node definition")

/-- Whether an edge header goes on with its start: a quoted text is one only before a connector. -/
def startsEndpoint : List Token → Bool
  | [] => false
  | t :: rest => t.kind = .id || (t.kind = .string && (rest.head?.any (isConnector ·.kind)))

/-- The header of an edge behind its keyword. -/
def edgeHeader (id : String) (line : Nat) (c : Cursor) : OpenElement × Cursor :=
  let (source, c) := if startsEndpoint c.rest then c.take? isName else (none, c)
  let (connector, c) := c.take? isConnector
  let (target, c) := if connector.isSome then c.take? isName else (none, c)
  let (label, c) := c.take? (· = .string)
  (⟨id, line, .edge source target label, connector.bind (Connector.read? ·.toList), .empty⟩,
    c.endLine "Unexpected token after edge definition")

/-- Adds a finished element to the innermost open body, or to the forest. -/
def add (r : Reader) (d : Declaration) (children : Forest) : Reader :=
  match r.opened with
  | [] => { r with finished := r.finished.push d children }
  | e :: outer =>
    { r with opened := { e with body := { e.body with children := e.body.children.push d children } } :: outer }

/-- Takes up an element whose header is read: a brace opens its body. -/
def place (r : Reader) (e : OpenElement) (c : Cursor) : Reader :=
  match c.rest with
  | t :: rest =>
    if t.kind = .leftBrace then { r with cursor := { c with rest := rest }, opened := e :: r.opened }
    else { r with cursor := c }.add e.declaration .nil
  | [] => { r with cursor := c }.add e.declaration .nil

/-- Reads a header behind the colon of its id. -/
def header (r : Reader) (id : String) (line : Nat) (c : Cursor) : Reader :=
  match c.rest with
  | t :: rest =>
    if t.kind = .keyword && t.value = "edge" then
      let (e, c) := edgeHeader id line { c with rest := rest }
      r.place e c
    else match nodeHeader id line c with
      | (some e, c) => r.place e c
      | (none, c) => { r with cursor := c }
  | [] => { r with cursor := (nodeHeader id line c).2 }

/-- Closes the innermost open body. -/
def close (r : Reader) : Reader :=
  match r.opened with
  | [] => r
  | e :: outer =>
    { r with opened := outer, cursor := { r.cursor with errors := e.finalErrors r.cursor.errors } }.add
      e.declaration e.body.children

def mapBody (r : Reader) (change : Body → Body) : Reader :=
  match r.opened with
  | [] => r
  | e :: outer => { r with opened := { e with body := change e.body } :: outer }

/-- The text of a `props` or `metadata` entry behind its keyword. -/
def entryText (keyword : String) (c : Cursor) : Option String × Cursor :=
  match c.expect .colon ("Expected \":\" after " ++ keyword ++ ":") with
  | (none, c) => (none, c)
  | (some _, c) => c.expect .string ("Expected string after " ++ keyword ++ ":")

def propsEntry (r : Reader) (c : Cursor) : Except Halt Reader :=
  match entryText "props" c with
  | (none, c) => .ok { r with cursor := c }
  | (some text, c) =>
    let context := r.context.note (Props.readNotes text)
    match Props.read text with
    | .error fault => .error (fault, context)
    | .ok props =>
      .ok ({ r with cursor := c, context := context }.mapBody fun body =>
        { body with props := some ((body.props.getD .nil).merge true props) })

def metadataEntry (r : Reader) (c : Cursor) : Reader :=
  match entryText "metadata" c with
  | (none, c) => { r with cursor := c }
  | (some text, c) =>
    { r with cursor := c, context := r.context.note (Props.readMetadataNotes text) }.mapBody fun body =>
      { body with metadata := some ((body.metadata.getD .nil).overlay (Props.readMetadata text)) }

/-- A `stylesheet` entry behind its keyword; whatever follows on its line is passed over. -/
def stylesheetEntry (r : Reader) (line : Nat) (c : Cursor) : Reader :=
  match c.expect .colon "Expected \":\" after stylesheet:" with
  | (none, c) => { r with cursor := c }
  | (some _, c) =>
    let (style, c) := c.take? (· = .id)
    let (slash, c) := c.take? (· = .slash)
    let (textStyle, c) := if slash.isSome then c.take? (· = .id) else (none, c)
    { r with cursor := { c with rest := skipLine c.rest } }.mapBody fun body =>
      { body with
        style := style.or body.style
        textStyle := (textStyle.map (·, line)).or body.textStyle }

/-- Gives up the line of a token that nothing can start with. -/
def reject (r : Reader) (t : Token) (rest : List Token) (message : String) : Reader :=
  { r with cursor := ⟨skipLine rest, r.cursor.errors.add t.line message⟩ }

/-- Reads an element that starts with its id. -/
def named (r : Reader) (t : Token) (c : Cursor) : Reader :=
  match c.expect .colon "Expected \":\" after element ID" with
  | (none, c) => { r with cursor := c }
  | (some _, c) => r.header t.value t.line c

/-- Reads an element without an id and gives it a fresh one. -/
def anonymous (r : Reader) (t : Token) (c : Cursor) : Reader :=
  let (id, ids) := r.context.ids.draw
  { r with context := { r.context with ids := ids } }.header id t.line c

/-- Reads a body entry that starts with a keyword. -/
def entry (r : Reader) (t : Token) (rest : List Token) (c : Cursor) : Except Halt Reader :=
  if t.value = "props" then r.propsEntry c
  else if t.value = "metadata" then .ok (r.metadataEntry c)
  else if t.value = "stylesheet" then .ok (r.stylesheetEntry t.line c)
  else .ok (r.reject t rest ("Unknown keyword: " ++ t.value))

/-- One step: `t` is the next token and not the end, `rest` what follows it. -/
def step (r : Reader) (t : Token) (rest : List Token) : Except Halt Reader :=
  let c : Cursor := { r.cursor with rest := rest }
  if t.kind = .newline then .ok { r with cursor := c }
  else if isName t.kind then .ok (r.named t c)
  else if t.kind = .colon then .ok (r.anonymous t c)
  else if r.opened.isEmpty then .ok (r.reject t rest ("Expected element ID, got " ++ t.kind.name))
  else if t.kind = .rightBrace then .ok { r with cursor := c }.close
  else if t.kind = .keyword then r.entry t rest c
  else .ok (r.reject t rest ("Unexpected token in body: " ++ t.kind.name))

@[simp] theorem cursor_add (r : Reader) (d : Declaration) (children : Forest) :
    (r.add d children).cursor = r.cursor := by
  unfold add
  split <;> rfl

@[simp] theorem cursor_mapBody (r : Reader) (change : Body → Body) :
    (r.mapBody change).cursor = r.cursor := by
  unfold mapBody
  split <;> rfl

@[simp] theorem rest_close (r : Reader) : r.close.cursor.rest = r.cursor.rest := by
  unfold close
  split <;> simp

theorem length_nodeHeader_le (id : String) (line : Nat) (c : Cursor) :
    (nodeHeader id line c).2.rest.length ≤ c.rest.length := by
  have shape := length_take?_le (fun kind => kind = .id || kind = .keyword) c
  unfold nodeHeader
  split
  · next equal =>
    rw [equal] at shape
    exact Nat.le_trans (length_fail_le _ _) shape
  · next next equal =>
    rw [equal] at shape
    exact Nat.le_trans (length_endLine_le _ _) (Nat.le_trans (length_take?_le _ _) shape)

theorem length_edgeHeader_le (id : String) (line : Nat) (c : Cursor) :
    (edgeHeader id line c).2.rest.length ≤ c.rest.length := by
  have optional (condition : Bool) (accepted : TokenKind → Bool) (c : Cursor) :
      (if condition then c.take? accepted else (none, c)).2.rest.length ≤ c.rest.length := by
    split
    · exact length_take?_le _ _
    · exact Nat.le_refl _
  unfold edgeHeader
  exact Nat.le_trans (length_endLine_le _ _) (Nat.le_trans (length_take?_le _ _)
    (Nat.le_trans (optional _ _ _) (Nat.le_trans (length_take?_le _ _) (optional _ _ _))))

theorem length_place_le (r : Reader) (e : OpenElement) (c : Cursor) :
    (r.place e c).cursor.rest.length ≤ c.rest.length := by
  unfold place
  split
  · next t rest equal =>
    split
    · simp [equal]
    · simp
  · simp

theorem length_header_le (r : Reader) (id : String) (line : Nat) (c : Cursor) :
    (r.header id line c).cursor.rest.length ≤ c.rest.length := by
  have node := length_nodeHeader_le id line c
  unfold header
  split
  · next t rest equal =>
    split
    · have edge := length_edgeHeader_le id line { c with rest := rest }
      refine Nat.le_trans (length_place_le _ _ _) (Nat.le_trans edge ?_)
      simp [equal]
    · split
      · next header =>
        rw [header] at node
        exact Nat.le_trans (length_place_le _ _ _) node
      · next header =>
        rw [header] at node
        exact node
  · exact node

theorem length_entryText_le (keyword : String) (c : Cursor) :
    (entryText keyword c).2.rest.length ≤ c.rest.length := by
  have colon := length_expect_le .colon ("Expected \":\" after " ++ keyword ++ ":") c
  unfold entryText
  split
  · next equal => simpa [equal] using colon
  · next equal =>
    rw [equal] at colon
    exact Nat.le_trans (length_expect_le _ _ _) colon

theorem length_entry_le {r next : Reader} {t : Token} {rest : List Token} {c : Cursor}
    (same : c.rest = rest) (entered : r.entry t rest c = .ok next) :
    next.cursor.rest.length ≤ rest.length := by
  have text (keyword : String) : (entryText keyword c).2.rest.length ≤ rest.length :=
    same ▸ length_entryText_le keyword c
  unfold entry at entered
  split at entered
  · have props := text "props"
    unfold propsEntry at entered
    split at entered
    · next equal =>
      rw [equal] at props
      cases entered
      exact props
    · next equal =>
      rw [equal] at props
      simp only at entered
      split at entered
      · cases entered
      · cases entered
        simpa using props
  split at entered
  · have metadata := text "metadata"
    cases entered
    unfold metadataEntry
    split
    · next equal =>
      rw [equal] at metadata
      exact metadata
    · next equal =>
      rw [equal] at metadata
      simpa using metadata
  split at entered
  · have colon := length_expect_le .colon "Expected \":\" after stylesheet:" c
    cases entered
    unfold stylesheetEntry
    split
    · next equal =>
      rw [equal, same] at colon
      exact colon
    · next next equal =>
      rw [equal, same] at colon
      simp only [cursor_mapBody]
      refine Nat.le_trans (length_skipLine_le _) ?_
      split
      · exact Nat.le_trans (length_take?_le _ _) (Nat.le_trans (length_take?_le _ _)
          (Nat.le_trans (length_take?_le _ _) colon))
      · exact Nat.le_trans (length_take?_le _ _) (Nat.le_trans (length_take?_le _ _) colon)
  · cases entered
    exact length_skipLine_le rest

/-- A step takes the next token at least. -/
theorem length_step_le {r next : Reader} {t : Token} {rest : List Token} (stepped : r.step t rest = .ok next) :
    next.cursor.rest.length ≤ rest.length := by
  unfold step at stepped
  simp only at stepped
  split at stepped
  · cases stepped
    exact Nat.le_refl _
  split at stepped
  · cases stepped
    have colon := length_expect_le .colon "Expected \":\" after element ID" { r.cursor with rest := rest }
    unfold named
    split
    · next equal =>
      rw [equal] at colon
      exact colon
    · next equal =>
      rw [equal] at colon
      exact Nat.le_trans (length_header_le _ _ _ _) colon
  split at stepped
  · cases stepped
    exact length_header_le _ _ _ _
  split at stepped
  · cases stepped
    exact length_skipLine_le rest
  split at stepped
  · cases stepped
    simp
  split at stepped
  · exact length_entry_le rfl stepped
  · cases stepped
    exact length_skipLine_le rest

/-- Closes the bodies that are still open where the text ends, the innermost first. -/
def closeAll (line : Nat) (r : Reader) : List OpenElement → Reader
  | [] => r
  | _ :: outer =>
    closeAll line { r with
      cursor := { r.cursor with errors := r.cursor.errors.add line "Expected closing brace" } }.close outer

/-- Reads to the end. -/
def run (r : Reader) : Except Halt Reader :=
  match unread : r.cursor.rest with
  | [] => .ok (r.closeAll 0 r.opened)
  | t :: rest =>
    if t.kind = .eof then .ok (r.closeAll t.line r.opened)
    else match stepped : r.step t rest with
      | .error halt => .error halt
      | .ok next =>
        have : next.cursor.rest.length < r.cursor.rest.length :=
          unread ▸ Nat.lt_succ_of_le (length_step_le stepped)
        next.run
termination_by r.cursor.rest.length

end Reader

/-- A forest with the errors of its text. -/
structure Parsed where
  forest : Forest
  errors : Errors

namespace Parsed

/-- Reads a text and applies the rules to its forest in turn. -/
def ofText (rules : List Forest.Rule) (text : String) : Pass Parsed := fun context =>
  match (Reader.mk ⟨Token.ofText text, Token.errorsOf text⟩ context [] .nil).run with
  | .error (fault, context) => (.error fault, context)
  | .ok r =>
    let errors := rules.foldl (fun errors rule => errors.merge (rule r.finished)) r.cursor.errors
    (.ok ⟨r.finished, errors⟩, r.context)

/-- The rules that every text is held to unless told otherwise. -/
def standardRules : List Forest.Rule := [Forest.repeatedIds]

end Parsed
end LiveDiagram
