import LiveDiagram.Source.Token

/-! A cursor: the tokens still to be read and the errors found. A fault of the text costs the rest of its line
and nothing more. No operation here lengthens the rest. -/
namespace LiveDiagram

structure Cursor where
  rest : List Token
  errors : Errors

namespace Cursor

/-- The rest after the next newline token. -/
def skipLine : List Token → List Token
  | [] => []
  | t :: rest =>
    if t.kind = .eof then t :: rest
    else if t.kind = .newline then rest
    else skipLine rest

/-- The kind of the next token; behind the last there is nothing but the end. -/
def kind (c : Cursor) : TokenKind :=
  match c.rest with
  | [] => .eof
  | t :: _ => t.kind

/-- The line of the next token; behind the last there is none, and its number is no line of a text. -/
def line (c : Cursor) : Int :=
  match c.rest with
  | [] => -1
  | t :: _ => t.line

/-- Records a message at the next token and gives up the line. -/
def fail (c : Cursor) (message : String) : Cursor :=
  ⟨skipLine c.rest, c.errors.add c.line message⟩

/-- Takes the next token if its kind is accepted. -/
def take? (accepted : TokenKind → Bool) (c : Cursor) : Option String × Cursor :=
  match c.rest with
  | [] => (none, c)
  | t :: rest => if accepted t.kind then (some t.value, { c with rest := rest }) else (none, c)

/-- Takes a token of one kind, or records the message and gives up the line. -/
def expect (kind : TokenKind) (message : String) (c : Cursor) : Option String × Cursor :=
  match c.take? (· = kind) with
  | (some value, c) => (some value, c)
  | (none, c) => (none, c.fail message)

/-- Checks that the line ends here or a body begins. -/
def endLine (message : String) (c : Cursor) : Cursor :=
  if c.kind = .newline || c.kind = .leftBrace || c.kind = .eof then c else c.fail message

theorem length_skipLine_le (tokens : List Token) : (skipLine tokens).length ≤ tokens.length := by
  induction tokens with
  | nil => simp [skipLine]
  | cons t rest ih =>
    simp only [skipLine]
    split
    · simp
    · split <;> simp only [List.length_cons] <;> omega

theorem length_fail_le (c : Cursor) (message : String) : (c.fail message).rest.length ≤ c.rest.length :=
  length_skipLine_le c.rest

theorem length_take?_le (accepted : TokenKind → Bool) (c : Cursor) :
    (c.take? accepted).2.rest.length ≤ c.rest.length := by
  unfold take?
  split
  · simp
  · next t rest equal =>
    split
    · simp [equal]
    · simp

theorem length_expect_le (kind : TokenKind) (message : String) (c : Cursor) :
    (c.expect kind message).2.rest.length ≤ c.rest.length := by
  have taken := length_take?_le (· = kind) c
  unfold expect
  split
  · next equal => simpa [equal] using taken
  · next next equal =>
    rw [equal] at taken
    exact Nat.le_trans (length_fail_le _ _) taken

theorem length_endLine_le (message : String) (c : Cursor) :
    (c.endLine message).rest.length ≤ c.rest.length := by
  unfold endLine
  split
  · exact Nat.le_refl _
  · exact length_fail_le _ _

end Cursor
end LiveDiagram
