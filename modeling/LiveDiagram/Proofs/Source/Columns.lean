import LiveDiagram.Proofs.Source.Advancing
import LiveDiagram.Proofs.Source.Reading

/-! The columns of tokens. The reader does not look at them: it reads tokens without their columns as it reads the tokens
themselves. -/
namespace LiveDiagram

namespace Token
variable {t : Token}

/-- The token at the start of its line. -/
def leftmost (t : Token) : Token :=
  { t with column := 0 }

@[simp] theorem kind_leftmost : t.leftmost.kind = t.kind := rfl

@[simp] theorem value_leftmost : t.leftmost.value = t.value := rfl

@[simp] theorem line_leftmost : t.leftmost.line = t.line := rfl

end Token

namespace Cursor
variable {c : Cursor}

/-- The cursor without the columns of its tokens. -/
def leftmost (c : Cursor) : Cursor :=
  { c with rest := c.rest.map Token.leftmost }

theorem leftmost_cons {t : Token} {rest : List Token} {errors : Errors} :
    (Cursor.mk (t :: rest) errors).leftmost = ⟨t.leftmost :: rest.map Token.leftmost, errors⟩ := rfl

@[simp] theorem kind_cursor_leftmost : c.leftmost.kind = c.kind := by
  unfold leftmost kind
  cases c.rest <;> rfl

@[simp] theorem line_cursor_leftmost : c.leftmost.line = c.line := by
  unfold leftmost line
  cases c.rest <;> rfl

theorem skipLine_leftmost (tokens : List Token) :
    skipLine (tokens.map Token.leftmost) = (skipLine tokens).map Token.leftmost := by
  induction tokens with
  | nil => rfl
  | cons t rest ih =>
    rw [List.map_cons, skipLine, skipLine, ih, Token.kind_leftmost]
    split
    · rfl
    · split <;> rfl

/-- The rest of the line is passed over alike. -/
theorem skip_leftmost (c : Cursor) :
    { c.leftmost with rest := skipLine c.leftmost.rest } = leftmost { c with rest := skipLine c.rest } :=
  congrArg (Cursor.mk · c.errors) (skipLine_leftmost c.rest)

@[simp] theorem fail_leftmost (message : String) : c.leftmost.fail message = (c.fail message).leftmost := by
  unfold fail
  rw [line_cursor_leftmost]
  exact congrArg (Cursor.mk · _) (skipLine_leftmost c.rest)

@[simp] theorem take?_leftmost (accepted : TokenKind → Bool) :
    c.leftmost.take? accepted = ((c.take? accepted).1, (c.take? accepted).2.leftmost) := by
  obtain ⟨rest, errors⟩ := c
  cases rest with
  | nil => rfl
  | cons t rest =>
    cases known : accepted t.kind <;> simp [leftmost, Reader.take?_cons, known]

@[simp] theorem expect_leftmost (kind : TokenKind) (message : String) :
    c.leftmost.expect kind message = ((c.expect kind message).1, (c.expect kind message).2.leftmost) := by
  unfold expect
  rw [take?_leftmost]
  rcases c.take? (· = kind) with ⟨_ | value, d⟩ <;> simp

@[simp] theorem endLine_leftmost (message : String) : c.leftmost.endLine message = (c.endLine message).leftmost := by
  unfold endLine
  rw [kind_cursor_leftmost, fail_leftmost]
  split <;> rfl

end Cursor

namespace Reader
variable {r : Reader} {c : Cursor}

/-- The reader without the columns of its tokens. -/
def leftmost (r : Reader) : Reader :=
  { r with cursor := r.cursor.leftmost }

theorem startsEndpoint_leftmost (tokens : List Token) : startsEndpoint (tokens.map Token.leftmost) = startsEndpoint tokens := by
  match tokens with
  | [] => rfl
  | [_] => rfl
  | _ :: _ :: _ => rfl

theorem take?_if (condition : Bool) (accepted : TokenKind → Bool) (c : Cursor) :
    (if condition then c.take? accepted else (none, c)) = c.take? (condition && accepted ·) := by
  obtain ⟨rest, errors⟩ := c
  cases condition <;> cases rest <;> rfl

theorem nodeHeader_leftmost (id : String) (line : Nat) (c : Cursor) :
    nodeHeader id line c.leftmost = ((nodeHeader id line c).1, (nodeHeader id line c).2.leftmost) := by
  unfold nodeHeader
  rw [Cursor.take?_leftmost]
  rcases c.take? (fun kind => kind = .id || kind = .keyword) with ⟨_ | shape, d⟩ <;> simp

theorem edgeHeader_leftmost (id : String) (line : Nat) (c : Cursor) :
    edgeHeader id line c.leftmost = ((edgeHeader id line c).1, (edgeHeader id line c).2.leftmost) := by
  unfold edgeHeader
  have starts : startsEndpoint c.leftmost.rest = startsEndpoint c.rest := startsEndpoint_leftmost c.rest
  simp only [starts, take?_if]
  simp only [Cursor.take?_leftmost, Cursor.endLine_leftmost]

@[simp] theorem add_leftmost (d : Declaration) (children : Forest) : r.leftmost.add d children = (r.add d children).leftmost := by
  obtain ⟨cursor, context, opened, finished⟩ := r
  cases opened <;> rfl

@[simp] theorem mapBody_leftmost (change : Body → Body) : r.leftmost.mapBody change = (r.mapBody change).leftmost := by
  obtain ⟨cursor, context, opened, finished⟩ := r
  cases opened <;> rfl

@[simp] theorem close_leftmost : r.leftmost.close = r.close.leftmost := by
  obtain ⟨cursor, context, opened, finished⟩ := r
  cases opened with
  | nil => rfl
  | cons e outer => exact add_leftmost (r := ⟨⟨cursor.rest, e.finalErrors cursor.errors⟩, context, outer, finished⟩) _ _

theorem place_leftmost (e : OpenElement) : r.leftmost.place e c.leftmost = (r.place e c).leftmost := by
  have added := add_leftmost (r := { r with cursor := c }) e.declaration .nil
  obtain ⟨rest, errors⟩ := c
  cases rest with
  | nil => exact added
  | cons t rest =>
    rw [Cursor.leftmost_cons]
    unfold place
    dsimp only
    rw [Token.kind_leftmost]
    split
    · rfl
    · exact added

theorem header_leftmost (id : String) (line : Nat) : r.leftmost.header id line c.leftmost = (r.header id line c).leftmost := by
  have node := nodeHeader_leftmost id line c
  obtain ⟨rest, errors⟩ := c
  cases rest with
  | nil => rfl
  | cons t rest =>
    have edge := edgeHeader_leftmost id line ⟨rest, errors⟩
    rw [Cursor.leftmost_cons] at node ⊢
    unfold header
    dsimp only [Cursor.leftmost] at edge ⊢
    rw [node, edge, Token.kind_leftmost, Token.value_leftmost]
    split
    · exact place_leftmost _
    · rcases nodeHeader id line ⟨t :: rest, errors⟩ with ⟨_ | e, d⟩
      · rfl
      · exact place_leftmost e

theorem entryText_leftmost (keyword : String) (c : Cursor) :
    entryText keyword c.leftmost = ((entryText keyword c).1, (entryText keyword c).2.leftmost) := by
  unfold entryText
  rw [Cursor.expect_leftmost]
  rcases c.expect .colon ("Expected \":\" after " ++ keyword ++ ":") with ⟨_ | value, d⟩
  · rfl
  · exact Cursor.expect_leftmost _ _

theorem propsEntry_leftmost : r.leftmost.propsEntry c.leftmost = (r.propsEntry c).map leftmost := by
  unfold propsEntry
  rw [entryText_leftmost]
  rcases entryText "props" c with ⟨_ | text, d⟩
  · rfl
  · dsimp only
    cases Props.read text with
    | error fault => rfl
    | ok props =>
      have noted := mapBody_leftmost (r := { r with cursor := d, context := r.context.note (Props.readNotes text) })
      exact congrArg Except.ok (noted _)

theorem metadataEntry_leftmost : r.leftmost.metadataEntry c.leftmost = (r.metadataEntry c).leftmost := by
  unfold metadataEntry
  rw [entryText_leftmost]
  rcases entryText "metadata" c with ⟨_ | text, d⟩
  · rfl
  · exact mapBody_leftmost (r := { r with cursor := d, context := r.context.note (Props.readMetadataNotes text) }) _

theorem stylesheetEntry_leftmost (line : Nat) : r.leftmost.stylesheetEntry line c.leftmost = (r.stylesheetEntry line c).leftmost := by
  unfold stylesheetEntry
  rw [Cursor.expect_leftmost]
  rcases c.expect .colon "Expected \":\" after stylesheet:" with ⟨_ | value, d⟩
  · rfl
  · simp only [take?_if]
    simp only [Cursor.take?_leftmost]
    rw [Cursor.skip_leftmost]
    exact mapBody_leftmost (r := { r with cursor := _ }) _

/-! Steps -/

variable {t : Token} {rest : List Token}

theorem reject_leftmost (message : String) :
    r.leftmost.reject t.leftmost (rest.map Token.leftmost) message = (r.reject t rest message).leftmost := by
  unfold reject
  rw [Cursor.skipLine_leftmost]
  rfl

theorem named_leftmost : r.leftmost.named t.leftmost c.leftmost = (r.named t c).leftmost := by
  unfold named
  rw [Cursor.expect_leftmost]
  rcases c.expect .colon "Expected \":\" after element ID" with ⟨_ | value, d⟩
  · rfl
  · exact header_leftmost _ _

theorem anonymous_leftmost : r.leftmost.anonymous t.leftmost c.leftmost = (r.anonymous t c).leftmost :=
  header_leftmost (r := { r with context := { r.context with ids := r.context.ids.draw.2 } }) _ _

theorem entry_leftmost :
    r.leftmost.entry t.leftmost (rest.map Token.leftmost) c.leftmost = (r.entry t rest c).map leftmost := by
  unfold entry
  rw [Token.value_leftmost, propsEntry_leftmost, metadataEntry_leftmost, Token.line_leftmost, stylesheetEntry_leftmost,
    reject_leftmost]
  repeat' split
  all_goals rfl

/-- A step is the same without columns. -/
theorem step_leftmost (r : Reader) (t : Token) (rest : List Token) :
    r.leftmost.step t.leftmost (rest.map Token.leftmost) = (r.step t rest).map leftmost := by
  have cursor : ({ r.leftmost.cursor with rest := rest.map Token.leftmost } : Cursor) =
      Cursor.leftmost { r.cursor with rest := rest } := rfl
  have opened : r.leftmost.opened = r.opened := rfl
  unfold step
  dsimp only
  rw [cursor, named_leftmost, anonymous_leftmost, entry_leftmost, reject_leftmost, reject_leftmost, Token.kind_leftmost,
    opened]
  split
  · rfl
  split
  · rfl
  split
  · rfl
  split
  · rfl
  split
  · exact congrArg Except.ok (close_leftmost (r := { r with cursor := { r.cursor with rest := rest } }))
  split <;> rfl

theorem closeAll_leftmost (line : Nat) (opened : List OpenElement) :
    r.leftmost.closeAll line opened = (r.closeAll line opened).leftmost := by
  induction opened generalizing r with
  | nil => rfl
  | cons e outer ih =>
    rw [closeAll, closeAll, ← ih, ← close_leftmost]
    rfl

/-- A whole reading is the same without columns. -/
theorem run_leftmost (r : Reader) : r.leftmost.run = r.run.map leftmost := by
  induction size : r.cursor.rest.length using Nat.strongRecOn generalizing r with
  | _ n ih =>
    have same : r.leftmost.cursor.rest = r.cursor.rest.map Token.leftmost := rfl
    cases unread : r.cursor.rest with
    | nil =>
      rw [unread] at same
      rw [run_nil same, run_nil unread]
      exact congrArg Except.ok (closeAll_leftmost 0 r.opened)
    | cons t rest =>
      rw [unread] at same
      by_cases ends : t.kind = .eof
      · rw [run_ends same ends, run_ends unread ends]
        exact congrArg Except.ok (closeAll_leftmost t.line r.opened)
      have step := step_leftmost r t rest
      cases stepped : r.step t rest with
      | error halt =>
        rw [stepped] at step
        rw [run_halts same ends step, run_halts unread ends stepped]
        rfl
      | ok next =>
        rw [stepped] at step
        have shorter : next.cursor.rest.length < n := size ▸ length_step_lt unread stepped
        rw [run_step same ends step, run_step unread ends stepped]
        exact ih _ shorter next rfl

end Reader

/-- Texts whose tokens differ in their columns alone are read alike. -/
theorem Parsed.ofText_leftmost {text text' : String}
    (tokens : (Token.ofText text).map Token.leftmost = (Token.ofText text').map Token.leftmost)
    (errors : Token.errorsOf text = Token.errorsOf text') (rules : List Forest.Rule) (context : Context) :
    ofText rules text context = ofText rules text' context := by
  have start : (Reader.mk ⟨Token.ofText text, Token.errorsOf text⟩ context [] .nil).leftmost =
      (Reader.mk ⟨Token.ofText text', Token.errorsOf text'⟩ context [] .nil).leftmost := by
    unfold Reader.leftmost Cursor.leftmost
    dsimp only
    rw [tokens, errors]
  have read := congrArg Reader.run start
  rw [Reader.run_leftmost, Reader.run_leftmost] at read
  unfold ofText
  generalize (Reader.mk ⟨Token.ofText text, Token.errorsOf text⟩ context [] .nil).run = first at read ⊢
  generalize (Reader.mk ⟨Token.ofText text', Token.errorsOf text'⟩ context [] .nil).run = second at read ⊢
  cases first with
  | error halt =>
    cases second with
    | error halt' =>
      cases read
      rfl
    | ok last' => cases read
  | ok last =>
    cases second with
    | error halt' => cases read
    | ok last' =>
      have same := Except.ok.inj read
      have finished : last.finished = last'.finished := (Reader.mk.inj same).2.2.2
      have errors : last.cursor.errors = last'.cursor.errors := (Cursor.mk.inj (Reader.mk.inj same).1).2
      have after : last.context = last'.context := (Reader.mk.inj same).2.1
      dsimp only
      rw [finished, errors, after]

end LiveDiagram
