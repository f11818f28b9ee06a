import LiveDiagram.Proofs.Source.Joining
import LiveDiagram.Proofs.Source.Shifted

/-! Reading part of a text in the whole and on its own. Where the lines that follow do not begin with a brace, both readings
go the same way: they find the same elements and the same errors, but for the number of the first line and the names of new
elements. -/
namespace LiveDiagram

/-- The lines of a part of a text: how many lines are in front of it, which it has when it stands alone, and the errors on
the other lines of the whole. -/
structure Span where
  offset : Nat
  region : Nat → Prop
  others : Int → List String

/-- A part of a text: its lines, its end when it stands alone, the tokens behind it in the whole, the ids that both readings
start with, and the elements in front of it. -/
structure Splice extends Span where
  last : Token
  behind : List Token
  alone : IdSupply
  whole : IdSupply
  front : Forest
  ends : last.kind = .eof
  apart : ∀ t ∈ behind.head?, t.kind ≠ .leftBrace

namespace IdSupply

/-- The ids that are left when some have been drawn. -/
def after (ids : IdSupply) (n : Nat) : IdSupply :=
  { ids with used := ids.used + n }

theorem draw_after (ids : IdSupply) (n : Nat) : (ids.after n).draw = (ids.name (ids.used + n), ids.after (n + 1)) := rfl

/-- An id is the same in two readings, or new in both and drawn at the same point. -/
def Matches (ids ids' : IdSupply) (id id' : String) : Prop :=
  id' = id ∨ ∃ n, id = ids.name (ids.used + n) ∧ id' = ids'.name (ids'.used + n)

end IdSupply

/-- A declaration on another line, with another id if its id is new. -/
structure Declaration.Moved (offset : Nat) (ids ids' : IdSupply) (d d' : Declaration) : Prop where
  id : ids.Matches ids' d.id d'.id
  line : d'.line = d.line + offset
  head : d'.head = d.head
  props : d'.props = d.props
  metadata : d'.metadata = d.metadata
  style : d'.style = d.style

/-- A forest on other lines, with other ids for the elements whose ids are new. -/
inductive Forest.Moved (offset : Nat) (ids ids' : IdSupply) : Forest → Forest → Prop
  | nil : Moved offset ids ids' .nil .nil
  | cons {d d' : Declaration} {children children' rest rest' : Forest} : d.Moved offset ids ids' d' →
      Moved offset ids ids' children children' → Moved offset ids ids' rest rest' →
      Moved offset ids ids' (.cons d children rest) (.cons d' children' rest')

theorem Forest.Moved.append {offset : Nat} {ids ids' : IdSupply} {f f' g g' : Forest} (first : f.Moved offset ids ids' f')
    (second : g.Moved offset ids ids' g') : (f ++ g).Moved offset ids ids' (f' ++ g') := by
  induction first with
  | nil => exact second
  | cons own children _ _ ih => exact .cons own children ih

/-! Errors -/

/-- The errors of the part are those on its lines in the whole, and the other lines have the errors that they had. -/
structure Errors.Follows (p : Span) (e e' : Errors) : Prop where
  inside : ∀ l : Nat, p.region l → e'.messages (l + p.offset : Nat) = e.messages l
  outside : ∀ l : Int, (∀ x : Nat, p.region x → l ≠ (x + p.offset : Nat)) → e'.messages l = p.others l
  bounded : ∀ report ∈ e.reports, ∃ l : Nat, p.region l ∧ report.1 = l

theorem Errors.Follows.add {p : Span} {e e' : Errors} (follows : e.Follows p e') {line : Nat} (own : p.region line)
    (message : String) : (e.add line message).Follows p (e'.add (line + p.offset : Nat) message) where
  inside l here := by
    have same : ((l + p.offset : Nat) : Int) = (line + p.offset : Nat) ↔ (l : Int) = line := by omega
    rw [messages_add, messages_add, follows.inside l here]
    simp only [same]
  outside l elsewhere := by
    rw [messages_add_of_ne (elsewhere line own)]
    exact follows.outside l elsewhere
  bounded report member := by
    rcases mem_add_iff.1 member with old | rfl
    · exact follows.bounded report old
    · exact ⟨line, own, rfl⟩

theorem Errors.Follows.lineErrors {p : Span} {e e' : Errors} {first : Nat} {texts : List (List Char)}
    (follows : e.Follows p e') (own : ∀ l, first ≤ l → l < first + texts.length → p.region l) :
    (Token.lineErrors first e texts).Follows p (Token.lineErrors (first + p.offset) e' texts) := by
  induction texts generalizing first e e' with
  | nil => exact follows
  | cons text texts ih =>
    rw [Token.lineErrors, Token.lineErrors, Nat.add_right_comm]
    refine ih ?_ fun l low high => own l (by omega) (by rw [List.length_cons]; omega)
    split
    · exact follows.add (own first (Nat.le_refl _) (by rw [List.length_cons]; omega)) _
    · exact follows

/-- The part has no errors on lines that it does not have. -/
theorem Errors.Follows.messages_eq_nil {p : Span} {e e' : Errors} (follows : e.Follows p e') {l : Int}
    (elsewhere : ∀ x : Nat, p.region x → l ≠ x) : e.messages l = [] := by
  refine List.eq_nil_iff_forall_not_mem.2 fun message member => ?_
  obtain ⟨x, here, same⟩ := follows.bounded _ (mem_messages.1 member)
  exact elsewhere x here same

/-! Cursors -/

namespace Cursor

/-- Two cursors in the part, with the same tokens of it still to be read. -/
structure Tracks (p : Splice) (body : List Token) (c c' : Cursor) : Prop where
  rest : c.rest = body ++ [p.last]
  rest' : c'.rest = body.map (Token.shift p.offset) ++ p.behind
  whole : Token.Whole body
  lines : ∀ t ∈ body, p.region t.line
  errors : c.errors.Follows p.toSpan c'.errors

/-- Both cursors are in the part, or at its end. -/
def Follows (p : Splice) (c c' : Cursor) : Prop :=
  ∃ body, Tracks p body c c'

/-- Both cursors are in the same line of the part. -/
def Inside (p : Splice) (c c' : Cursor) : Prop :=
  ∃ body, body ≠ [] ∧ Tracks p body c c'

variable {p : Splice} {c c' : Cursor}

theorem Inside.follows (inside : c.Inside p c') : c.Follows p c' :=
  let ⟨body, _, tracks⟩ := inside
  ⟨body, tracks⟩

/-- The next token of a line. -/
theorem Inside.exists_cons (inside : c.Inside p c') : ∃ t rest rest' errors errors', c = ⟨t :: rest, errors⟩ ∧
    c' = ⟨t.shift p.offset :: rest', errors'⟩ ∧ t.kind ≠ .eof ∧ p.region t.line ∧ errors.Follows p.toSpan errors' ∧
    Follows p ⟨rest, errors⟩ ⟨rest', errors'⟩ ∧ (t.kind ≠ .newline → Inside p ⟨rest, errors⟩ ⟨rest', errors'⟩) := by
  obtain ⟨body, nonempty, tracks⟩ := inside
  obtain ⟨t, body, rfl⟩ := List.exists_cons_of_ne_nil nonempty
  obtain ⟨_, errors⟩ := c
  obtain ⟨_, errors'⟩ := c'
  obtain ⟨rfl, rfl, whole, lines, follows⟩ := tracks
  have behind : Tracks p body ⟨body ++ [p.last], errors⟩ ⟨body.map (Token.shift p.offset) ++ p.behind, errors'⟩ :=
    ⟨rfl, rfl, whole.tail, fun x member => lines x (List.mem_cons_of_mem t member), follows⟩
  exact ⟨t, _, _, errors, errors', rfl, rfl, whole.proper t List.mem_cons_self, lines t List.mem_cons_self, follows,
    ⟨body, behind⟩, fun inline => ⟨body, whole.ne_nil inline, behind⟩⟩

theorem Follows.report {errors errors' : Errors} (follows : Follows p c c') (same : errors.Follows p.toSpan errors') :
    Follows p { c with errors := errors } { c' with errors := errors' } :=
  let ⟨body, tracks⟩ := follows
  ⟨body, tracks.rest, tracks.rest', tracks.whole, tracks.lines, same⟩

theorem Inside.skip (inside : c.Inside p c') :
    Follows p { c with rest := skipLine c.rest } { c' with rest := skipLine c'.rest } := by
  obtain ⟨body, nonempty, tracks⟩ := inside
  induction body generalizing c c' with
  | nil => exact (nonempty rfl).elim
  | cons t body ih =>
    obtain ⟨_, errors⟩ := c
    obtain ⟨_, errors'⟩ := c'
    obtain ⟨rfl, rfl, whole, lines, follows⟩ := tracks
    have behind : Tracks p body ⟨body ++ [p.last], errors⟩ ⟨body.map (Token.shift p.offset) ++ p.behind, errors'⟩ :=
      ⟨rfl, rfl, whole.tail, fun x member => lines x (List.mem_cons_of_mem t member), follows⟩
    have proper := whole.proper t List.mem_cons_self
    by_cases newline : t.kind = .newline
    · refine ⟨body, ?_⟩
      simpa [skipLine, newline] using behind
    · simpa [skipLine, newline, proper] using ih (whole.ne_nil newline) behind

theorem Inside.fail (inside : c.Inside p c') (message : String) : Follows p (c.fail message) (c'.fail message) := by
  have skipped := inside.skip
  obtain ⟨t, rest, rest', errors, errors', rfl, rfl, _, own, follows, _⟩ := inside.exists_cons
  exact skipped.report (follows.add own message)

theorem Inside.take? (inside : c.Inside p c') (accepted : TokenKind → Bool) (inline : accepted .newline = false) :
    ∃ value d d', c.take? accepted = (value, d) ∧ c'.take? accepted = (value, d') ∧ Inside p d d' := by
  obtain ⟨t, rest, rest', errors, errors', rfl, rfl, _, _, _, _, behind⟩ := inside.exists_cons
  rw [Reader.take?_cons, Reader.take?_cons, Token.kind_shift]
  by_cases known : accepted t.kind = true
  · rw [if_pos known, if_pos known]
    refine ⟨_, _, _, rfl, rfl, behind fun newline => ?_⟩
    rw [newline, inline] at known
    cases known
  · rw [if_neg known, if_neg known]
    exact ⟨_, _, _, rfl, rfl, inside⟩

theorem Inside.expect (inside : c.Inside p c') (kind : TokenKind) (inline : kind ≠ .newline) (message : String) :
    (∃ value d d', c.expect kind message = (some value, d) ∧ c'.expect kind message = (some value, d') ∧ Inside p d d') ∨
      ∃ d d', c.expect kind message = (none, d) ∧ c'.expect kind message = (none, d') ∧ Follows p d d' := by
  obtain ⟨value, d, d', taken, taken', onward⟩ := inside.take? (· = kind) (by simpa using inline.symm)
  rw [Cursor.expect, Cursor.expect, taken, taken']
  cases value with
  | some value => exact .inl ⟨value, d, d', rfl, rfl, onward⟩
  | none => exact .inr ⟨_, _, rfl, rfl, onward.fail message⟩

theorem Inside.endLine (inside : c.Inside p c') (message : String) : Follows p (c.endLine message) (c'.endLine message) := by
  have failed := inside.fail message
  have same : c'.kind = c.kind := by
    obtain ⟨t, rest, rest', errors, errors', rfl, rfl, _⟩ := inside.exists_cons
    rfl
  unfold Cursor.endLine
  rw [same]
  split
  · exact inside.follows
  · exact failed

end Cursor
end LiveDiagram
