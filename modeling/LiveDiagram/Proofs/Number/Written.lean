import LiveDiagram.Number.Numeral
import Mathlib.Data.List.TakeWhile

/-! How binary numbers are written. Their texts are made of digits and few marks, and never of digits and a minus sign
alone, so that no binary number is read as a whole number. -/
namespace LiveDiagram

namespace Numeral
open Text

theorem eq_nil_of_readExponent? {text : List Char} (found : readExponent? text = some none) : text = [] := by
  unfold readExponent? at found
  split at found
  · rfl
  · split at found
    · split at found
      split at found
      · cases found
      · cases Option.some.inj found
    · cases found

/-- A numeral has the digits in front of it as its whole part; behind them stands a point with more digits, or only an exponent
if there is any. -/
theorem exists_of_read? {text : List Char} {n : Numeral} (read : read? text = some n) :
    ∃ unsigned, (text = '-' :: unsigned ∨ text = unsigned) ∧
      ((∃ rest, unsigned.dropWhile isDigit = '.' :: rest ∧ n.fraction = some (rest.takeWhile isDigit)) ∨
        n.fraction = none ∧ readExponent? (unsigned.dropWhile isDigit) = some n.exponent) := by
  have pointed {unsigned rest : List Char} {negative : Bool} (point : unsigned.dropWhile isDigit = '.' :: rest)
      (read : (if (unsigned.takeWhile isDigit).isEmpty && (rest.takeWhile isDigit).isEmpty then none
        else (readExponent? (rest.dropWhile isDigit)).map fun exponent =>
          (⟨negative, unsigned.takeWhile isDigit, some (rest.takeWhile isDigit), exponent⟩ : Numeral)) = some n) :
      ∃ rest, unsigned.dropWhile isDigit = '.' :: rest ∧ n.fraction = some (rest.takeWhile isDigit) := by
    split at read
    · cases read
    · obtain ⟨_, _, rfl⟩ := Option.map_eq_some_iff.1 read
      exact ⟨rest, point, rfl⟩
  have bare {unsigned : List Char} {negative : Bool}
      (read : (if (unsigned.takeWhile isDigit).isEmpty then none
        else (readExponent? (unsigned.dropWhile isDigit)).map fun exponent =>
          (⟨negative, unsigned.takeWhile isDigit, none, exponent⟩ : Numeral)) = some n) :
      n.fraction = none ∧ readExponent? (unsigned.dropWhile isDigit) = some n.exponent := by
    split at read
    · cases read
    · obtain ⟨_, found, rfl⟩ := Option.map_eq_some_iff.1 read
      exact ⟨rfl, found⟩
  unfold read? at read
  split at read
  next negative unsigned same =>
  split at same
  · cases same
    split at read
    · next point => exact ⟨_, .inl rfl, .inl (pointed point read)⟩
    · exact ⟨_, .inl rfl, .inr (bare read)⟩
  · cases same
    split at read
    · next point => exact ⟨_, .inr rfl, .inl (pointed point read)⟩
    · exact ⟨_, .inr rfl, .inr (bare read)⟩

/-- A whole number is written with digits, perhaps behind a minus sign. -/
theorem digits_of_isInteger {text : List Char} {n : Numeral} (read : read? text = some n) (integer : n.isInteger = true) :
    ∀ c ∈ text, c = '-' ∨ isDigit c = true := by
  rw [isInteger, Bool.and_eq_true, Option.isNone_iff_eq_none, Option.isNone_iff_eq_none] at integer
  obtain ⟨unsigned, sign, ⟨rest, _, fraction⟩ | ⟨_, exponent⟩⟩ := exists_of_read? read
  · cases fraction.symm.trans integer.1
  · rw [integer.2] at exponent
    have all : ∀ c ∈ unsigned, isDigit c = true := List.dropWhile_eq_nil_iff.1 (eq_nil_of_readExponent? exponent)
    rcases sign with rfl | rfl
    · exact fun c member => (List.mem_cons.1 member).imp_right (all c)
    · exact fun c member => .inr (all c member)

/-- Only a text with a point is a pointed numeral. -/
theorem point_of_isPointed {text : List Char} {n : Numeral} (read : read? text = some n) (pointed : n.isPointed = true) :
    '.' ∈ text := by
  rw [isPointed, Option.isSome_iff_exists] at pointed
  obtain ⟨digits, same⟩ := pointed
  obtain ⟨unsigned, sign, ⟨rest, point, _⟩ | ⟨fraction, _⟩⟩ := exists_of_read? read
  · have within : '.' ∈ unsigned := (List.dropWhile_sublist isDigit).subset (point ▸ List.mem_cons_self)
    rcases sign with rfl | rfl
    · exact List.mem_cons_of_mem _ within
    · exact within
  · cases same.symm.trans fraction

end Numeral

namespace Binary64

/-- Characters in the text of a number. -/
def Inked (c : Char) : Prop :=
  c.isDigit = true ∨ c ∈ ['.', 'e', '+', '-', 'i', 'n', 'f', 'a']

/-- Characters that are neither digits nor a minus sign, one of which is in the text of each number. -/
def Marked (text : List Char) : Prop :=
  ∃ c ∈ text, c ∈ ['.', 'e', 'n']

theorem inked_of_all {text : List Char}
    (all : text.all (fun c => c.isDigit || ['.', 'e', '+', '-', 'i', 'n', 'f', 'a'].contains c) = true) :
    ∀ c ∈ text, Inked c := by
  intro c member
  have inked := List.all_eq_true.1 all c member
  rw [Bool.or_eq_true, List.contains_iff_mem] at inked
  exact inked

theorem inked_replicate {n : Nat} : ∀ c ∈ List.replicate n '0', Inked c := by
  intro c member
  rw [(List.mem_replicate.1 member).2]
  exact .inl (by decide)

/-- Digits are placed with a point or an exponent mark among them. -/
theorem inked_place {layout : Layout} {digits : List Char} {lead : Int} (all : ∀ c ∈ digits, Inked c) :
    (∀ c ∈ place layout digits lead, Inked c) ∧ Marked (place layout digits lead) := by
  have front (n : Nat) : ∀ c ∈ digits.take n, Inked c := fun c member => all c (List.mem_of_mem_take member)
  have back (n : Nat) : ∀ c ∈ digits.drop n, Inked c := fun c member => all c (List.mem_of_mem_drop member)
  have size (n : Nat) : ∀ c ∈ Nat.toDigits 10 n, Inked c := fun c member =>
    .inl (Nat.isDigit_of_mem_toDigits (by decide) (by decide) member)
  have point : Inked '.' := .inr (by decide)
  have zero : Inked '0' := .inl (by decide)
  have mark : Inked 'e' := .inr (by decide)
  have sign : Inked (if lead < 0 then '-' else '+') := by
    split
    · exact .inr (by decide)
    · exact .inr (by decide)
  unfold place
  split
  · split
    · refine ⟨?_, '.', by simp, by decide⟩
      simp only [List.cons_append, List.forall_mem_cons, List.forall_mem_append]
      exact ⟨zero, point, inked_replicate, all⟩
    · refine ⟨?_, '.', by simp, by decide⟩
      simp only [List.forall_mem_append, List.forall_mem_cons]
      refine ⟨⟨front _, inked_replicate⟩, point, ?_⟩
      split
      · simpa using zero
      · exact back _
  · refine ⟨?_, 'e', by simp, by decide⟩
    simp only [List.forall_mem_append, List.forall_mem_cons]
    refine ⟨⟨⟨front _, ?_⟩, mark, sign, inked_replicate⟩, size _⟩
    split
    · simp
    · exact List.forall_mem_cons.2 ⟨point, back _⟩

/-- The text of a number has only characters of numbers, and a mark among them. -/
theorem inked_text (x : Binary64) : (∀ c ∈ x.text.toList, Inked c) ∧ Marked x.text.toList := by
  cases x with
  | nan => exact ⟨inked_of_all (by decide), 'n', by decide, by decide⟩
  | infinite negative =>
    cases negative
    · exact ⟨inked_of_all (by decide), 'n', by decide, by decide⟩
    · exact ⟨inked_of_all (by decide), 'n', by decide, by decide⟩
  | finite negative mantissa exponent =>
    have signed {body : List Char} (inked : (∀ c ∈ body, Inked c) ∧ Marked body) :
        (∀ c ∈ (String.ofList (if negative then '-' :: body else body)).toList, Inked c) ∧
          Marked (String.ofList (if negative then '-' :: body else body)).toList := by
      rw [String.toList_ofList]
      obtain ⟨all, c, member, mark⟩ := inked
      split
      · exact ⟨List.forall_mem_cons.2 ⟨.inr (by decide), all⟩, c, List.mem_cons_of_mem _ member, mark⟩
      · exact ⟨all, c, member, mark⟩
    refine signed ?_
    split
    · exact ⟨inked_of_all (by decide), '.', by decide, by decide⟩
    · refine inked_place fun c member => .inl ?_
      have within := (List.dropWhile_sublist _).subset (List.mem_reverse.1 member)
      exact Nat.isDigit_of_mem_toDigits (by decide) (by decide) (List.mem_reverse.1 within)

/-- No number is read as a whole number. -/
theorem not_isInteger_text (x : Binary64) {n : Numeral} (read : Numeral.read? x.text.toList = some n) :
    n.isInteger = false := by
  rw [Bool.eq_false_iff]
  intro integer
  obtain ⟨_, c, member, mark⟩ := x.inked_text
  have other : ∀ c ∈ ['.', 'e', 'n'], c ≠ '-' ∧ Text.isDigit c = false := by
    simp only [List.forall_mem_cons]
    exact ⟨by decide, by decide, by decide, by simp⟩
  rcases Numeral.digits_of_isInteger read integer c member with minus | digit
  · exact (other c mark).1 minus
  · rw [(other c mark).2] at digit
    cases digit

end Binary64
end LiveDiagram
