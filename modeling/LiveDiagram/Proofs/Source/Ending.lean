import LiveDiagram.Proofs.Source.Lines

/-! The shape of the tokens of a text: lines, each ended by a newline token, and one end behind them. -/
namespace LiveDiagram.Token

variable {t e : Token} {tokens rest more : List Token} {first : Nat}

/-- Tokens of lines, or what is left of them: no end is among them, and the last one ends a line. -/
structure Whole (tokens : List Token) : Prop where
  proper : ∀ t ∈ tokens, t.kind ≠ .eof
  ended : ∀ t ∈ tokens.getLast?, t.kind = .newline

theorem whole_nil : Whole [] := ⟨by simp, by simp⟩

namespace Whole

theorem tail (whole : Whole (t :: rest)) : Whole rest where
  proper x member := whole.proper x (List.mem_cons_of_mem t member)
  ended x last := whole.ended x (List.mem_getLast?_cons last)

/-- A token that does not end its line is not the last one. -/
theorem ne_nil (whole : Whole (t :: rest)) (inline : t.kind ≠ .newline) : rest ≠ [] := by
  rintro rfl
  exact inline (whole.ended t rfl)

theorem append (whole : Whole tokens) (whole' : Whole more) : Whole (tokens ++ more) where
  proper x member := (List.mem_append.1 member).elim (whole.proper x) (whole'.proper x)
  ended x last := by
    rw [List.getLast?_append] at last
    cases later : more.getLast? with
    | none =>
      rw [later] at last
      exact whole.ended x last
    | some y =>
      rw [later] at last
      exact whole'.ended x (later ▸ last)

end Whole

theorem whole_ofLine {text : List Char} : Whole (ofLine first text) where
  proper x member := by
    unfold ofLine at member
    rcases List.mem_append.1 member with inside | last
    · obtain ⟨y, listed, made⟩ := List.mem_filterMap.1 inside
      obtain ⟨⟨kind, value⟩, found, rfl⟩ := Option.map_eq_some_iff.1 made
      obtain ⟨c, rest, same⟩ := exists_piece_of_mem listed
      exact (proper_piece (same ▸ found)).2
    · cases List.mem_singleton.1 last
      simp
  ended x last := by
    unfold ofLine at last
    rw [List.getLast?_append] at last
    cases Option.some.inj last
    rfl

theorem whole_ofLines {texts : List (List Char)} : Whole (ofLines first texts) := by
  induction texts generalizing first with
  | nil => exact whole_nil
  | cons text texts ih => exact whole_ofLine.append ih

/-- What is left of the lines of a text, with its end. -/
def Tail (e : Token) (tokens : List Token) : Prop :=
  ∃ body, tokens = body ++ [e] ∧ Whole body

/-- What is left of a line, with the lines behind it and the end of the text. -/
def Midline (e : Token) (tokens : List Token) : Prop :=
  ∃ body, tokens = body ++ [e] ∧ Whole body ∧ body ≠ []

namespace Midline

theorem toTail (midline : Midline e tokens) : Tail e tokens :=
  let ⟨body, same, whole, _⟩ := midline
  ⟨body, same, whole⟩

theorem tail (midline : Midline e (t :: rest)) : Tail e rest := by
  obtain ⟨body, same, whole, nonempty⟩ := midline
  obtain ⟨x, body, rfl⟩ := List.exists_cons_of_ne_nil nonempty
  cases same
  exact ⟨body, rfl, whole.tail⟩

theorem next (midline : Midline e (t :: rest)) (inline : t.kind ≠ .newline) : Midline e rest := by
  obtain ⟨body, same, whole, nonempty⟩ := midline
  obtain ⟨x, body, rfl⟩ := List.exists_cons_of_ne_nil nonempty
  cases same
  exact ⟨body, rfl, whole.tail, whole.ne_nil inline⟩

theorem proper (midline : Midline e (t :: rest)) : t.kind ≠ .eof := by
  obtain ⟨body, same, whole, nonempty⟩ := midline
  obtain ⟨x, body, rfl⟩ := List.exists_cons_of_ne_nil nonempty
  cases same
  exact whole.proper t List.mem_cons_self

theorem exists_cons (midline : Midline e tokens) : ∃ t rest, tokens = t :: rest := by
  obtain ⟨body, rfl, _, nonempty⟩ := midline
  obtain ⟨x, body, rfl⟩ := List.exists_cons_of_ne_nil nonempty
  exact ⟨x, _, rfl⟩

end Midline

/-- A text that has not been read to its end goes on with a line. -/
theorem Tail.midline (tail : Tail e (t :: rest)) (proper : t.kind ≠ .eof) (ends : e.kind = .eof) : Midline e (t :: rest) := by
  obtain ⟨body, same, whole⟩ := tail
  refine ⟨body, same, whole, ?_⟩
  rintro rfl
  cases same
  exact proper ends

/-- The tokens of a text are those of its lines and its end. -/
theorem exists_ofText (text : String) : ∃ e, e.kind = .eof ∧ ofText text = ofLines 0 (lines text.toList) ++ [e] :=
  ⟨_, rfl, rfl⟩

theorem exists_tail (text : String) : ∃ e, e.kind = .eof ∧ Tail e (ofText text) :=
  let ⟨e, ends, same⟩ := exists_ofText text
  ⟨e, ends, _, same, whole_ofLines⟩

end LiveDiagram.Token
