import LiveDiagram.Proofs.Props.ReadBack

/-! Lines of props that cannot be read. There is one way only to fail: an entry whose value is written as a whole number
with more digits than are converted. -/
namespace LiveDiagram

namespace Codec
variable {value : List Char}

/-- A value written as a whole number of so many digits, which are too many. -/
def Overlong (value : List Char) (digits : Nat) : Prop :=
  ∃ number, Numeral.read? value = some number ∧ number.isInteger = true ∧ number.whole.length = digits ∧
    Fault.digitLimit < digits

/-- A value is taken for a scalar unless it is overlong. -/
theorem scalarOf_ends (value : List Char) :
    ((∃ s, scalarOf value = .ok s) ∧ ∀ digits, ¬Overlong value digits) ∨
      ∃ digits, scalarOf value = .error (.tooManyDigits digits) ∧ Overlong value digits := by
  by_cases long : ∃ digits, Overlong value digits
  · obtain ⟨digits, number, read, integer, rfl, many⟩ := long
    have apart {word : List Char} (other : Numeral.read? word = none) : value ≠ word := by
      rintro rfl
      rw [other] at read
      cases read
    apply Or.inr
    refine ⟨number.whole.length, ?_, number, read, integer, rfl, many⟩
    rw [scalarOf, if_neg (apart (by rfl)), if_neg (apart (by rfl)), read]
    simp only [integer, many, if_true]
  · have short : ∀ digits, ¬Overlong value digits := fun digits overlong => long ⟨digits, overlong⟩
    have taken : ∃ s, scalarOf value = .ok s := exists_scalarOf fun number read integer =>
      Nat.le_of_not_lt fun many => short _ ⟨number, read, integer, rfl, many⟩
    exact .inl ⟨taken, short⟩

/-- Digits that are too many. -/
theorem overlong_digits {digits : List Char} (all : ∀ c ∈ digits, c.isDigit = true)
    (many : Fault.digitLimit < digits.length) : Overlong digits digits.length := by
  have nonempty : digits ≠ [] := List.ne_nil_of_length_pos (Nat.zero_lt_of_lt many)
  have read := (Numeral.read?_digits nonempty fun c member => Text.isDigit_of_isDigit (all c member)).1
  exact ⟨_, read, rfl, rfl, many⟩

theorem Overlong.unique {m n : Nat} (long : Overlong value m) (long' : Overlong value n) : m = n := by
  obtain ⟨number, read, _, rfl, _⟩ := long
  obtain ⟨number', read', _, rfl, _⟩ := long'
  cases read.symm.trans read'
  rfl

/-- An entry under a key that is kept, whose value is overlong and has no escape in it. -/
def Entry.Overlong (digits : Nat) : Entry → Prop
  | .malformed _ => False
  | .pair key value escaped => (path key).any (·.isEmpty) = false ∧ escaped = false ∧ Codec.Overlong value digits

end Codec

namespace Props
open Codec

/-- A line of props with such an entry. -/
def Overflows (text : String) (digits : Nat) : Prop :=
  ∃ entry ∈ entries text.toList, entry.Overlong digits

/-- An entry is added, or passed over, unless it is overlong. -/
theorem enter_ends (p : Props) (entry : Entry) :
    ((∃ q, p.enter entry = .ok q) ∧ ∀ digits, ¬entry.Overlong digits) ∨
      ∃ digits, p.enter entry = .error (.tooManyDigits digits) ∧ entry.Overlong digits := by
  cases entry with
  | malformed part => exact .inl ⟨⟨p, rfl⟩, fun _ => id⟩
  | pair key value escaped =>
    unfold enter
    dsimp only
    cases kept : (path key).any (·.isEmpty) with
    | true =>
      refine .inl ⟨⟨p, rfl⟩, fun digits overlong => ?_⟩
      rw [Entry.Overlong, kept] at overlong
      exact nomatch overlong.1
    | false =>
      cases escaped with
      | true => exact .inl ⟨⟨_, rfl⟩, fun digits overlong => nomatch overlong.2.1⟩
      | false =>
        rcases scalarOf_ends value with ⟨⟨s, taken⟩, short⟩ | ⟨digits, failed, long⟩
        · exact .inl ⟨⟨_, by rw [if_neg Bool.false_ne_true, if_neg Bool.false_ne_true, taken]; rfl⟩,
            fun digits overlong => short digits overlong.2.2⟩
        · exact .inr ⟨digits, by rw [if_neg Bool.false_ne_true, if_neg Bool.false_ne_true, failed]; rfl, kept, rfl, long⟩

/-- The first overlong entry ends the reading of a line of props. -/
theorem read_ends (text : String) :
    ((∃ p, Props.read text = .ok p) ∧ ∀ digits, ¬Overflows text digits) ∨
      ∃ digits, Props.read text = .error (.tooManyDigits digits) ∧ Overflows text digits := by
  have folds (list : List Entry) (p : Props) :
      ((∃ q, list.foldlM enter p = .ok q) ∧ ∀ digits, ¬∃ entry ∈ list, entry.Overlong digits) ∨
        ∃ digits, list.foldlM enter p = .error (.tooManyDigits digits) ∧ ∃ entry ∈ list, entry.Overlong digits := by
    induction list generalizing p with
    | nil => exact .inl ⟨⟨p, rfl⟩, fun _ ⟨_, member, _⟩ => nomatch member⟩
    | cons first list ih =>
      rw [List.foldlM_cons]
      rcases enter_ends p first with ⟨⟨q, entered⟩, short⟩ | ⟨digits, failed, long⟩
      · rw [entered]
        rcases ih q with ⟨read, others⟩ | ⟨digits, failed, entry, member, long⟩
        · refine .inl ⟨read, fun digits ⟨entry, member, overlong⟩ => ?_⟩
          rcases List.mem_cons.1 member with rfl | later
          · exact short digits overlong
          · exact others digits ⟨entry, later, overlong⟩
        · exact .inr ⟨digits, failed, entry, List.mem_cons_of_mem _ member, long⟩
      · rw [failed]
        exact .inr ⟨digits, rfl, first, List.mem_cons_self, long⟩
  exact folds (entries text.toList) nil

/-- A whole number alone under a key. -/
theorem read_digits {digits : List Char} (all : ∀ c ∈ digits, c.isDigit = true)
    (many : Fault.digitLimit < digits.length) :
    Props.read ("x=" ++ String.ofList digits) = .error (.tooManyDigits digits.length) := by
  have solid (c : Char) (member : c ∈ digits) : Text.isBlank c = false ∧ c ≠ '\\' ∧ c ≠ ';' := by
    refine ⟨Text.not_isBlank_of_isDigit (all c member), ?_, ?_⟩ <;> rintro rfl <;> cases all _ member
  have trimmed : Text.Trimmed digits :=
    ⟨fun c head => (solid c (List.mem_of_mem_head? head)).1, fun c last => (solid c (List.mem_of_mem_getLast? last)).1⟩
  obtain ⟨same, escapes⟩ := bare fun c member => (solid c member).2.1
  have closed : Sealed ';' ('x' :: '=' :: digits) := by
    apply Sealed.of_plain
    refine List.forall_mem_cons.2 ⟨by decide, List.forall_mem_cons.2 ⟨by decide, fun c member => (solid c member).2⟩⟩
  have pieces : split ';' ('x' :: '=' :: digits) = ['x' :: '=' :: digits] := by
    have alone := split_append closed []
    rw [List.append_nil] at alone
    rw [alone]
    simp [split, extend]
  have entry : entry? ('x' :: '=' :: digits) = some (.pair ['x'] digits false) := by
    have key : Sealed '=' ['x'] := Sealed.of_plain (by decide)
    have short : Text.Trimmed ['x'] := ⟨by decide, by decide⟩
    have cut := entry?_pair key (List.cons_ne_nil 'x' []) short trimmed
    rwa [same, escapes] at cut
  have only : entries ("x=" ++ String.ofList digits).toList = [.pair ['x'] digits false] := by
    have whole : ("x=" ++ String.ofList digits).toList = 'x' :: '=' :: digits := by simp
    rw [entries, whole, pieces, List.filterMap_cons, entry]
    rfl
  have long : Overlong digits digits.length := overlong_digits all many
  rcases read_ends ("x=" ++ String.ofList digits) with ⟨_, fits⟩ | ⟨n, failed, entry, member, overlong⟩
  · have member : .pair ['x'] digits false ∈ entries ("x=" ++ String.ofList digits).toList := by
      rw [only]
      exact List.mem_singleton_self _
    exact (fits _ ⟨_, member, rfl, rfl, long⟩).elim
  · rw [only] at member
    cases List.mem_singleton.1 member
    rw [failed, overlong.2.2.unique long]

end Props
end LiveDiagram
