import LiveDiagram.Proofs.Number.Shortest
import LiveDiagram.Proofs.Props.Coding

/-! The texts of binary numbers as values of props. A text with a point in it is read as the number; one with an exponent
alone, like those of what is not finite, is a text. -/
namespace LiveDiagram

namespace Text
variable {digits : List Char} {n : Nat}

theorem isDigit_replicate : ∀ c ∈ List.replicate n '0', c.isDigit = true := by
  intro c member
  rw [(List.mem_replicate.1 member).2]
  decide

theorem digitsValue_append_zeros (all : ∀ c ∈ digits, c.isDigit = true) (n : Nat) :
    digitsValue (digits ++ List.replicate n '0') = 10 ^ n * digitsValue digits := by
  rw [digitsValue_eq (List.forall_mem_append.2 ⟨all, isDigit_replicate⟩), digitsValue_eq all, Nat.ofDigitChars_append,
    Nat.ofDigitChars_replicate_zero]

theorem digitsValue_zeros_append (all : ∀ c ∈ digits, c.isDigit = true) (n : Nat) :
    digitsValue (List.replicate n '0' ++ digits) = digitsValue digits := by
  rw [digitsValue_eq (List.forall_mem_append.2 ⟨isDigit_replicate, all⟩), digitsValue_eq all, Nat.ofDigitChars_append,
    Nat.ofDigitChars_replicate_zero, Nat.mul_zero]

end Text

namespace Numeral
open Text

/-- A text, with a minus sign in front of it or as it is. -/
def withSign (negative : Bool) (body : List Char) : List Char :=
  if negative then '-' :: body else body

variable {whole fraction tail : List Char} {exponent : Option (Bool × List Char)}

/-- Digits on both sides of a point, or none behind it, and perhaps an exponent are a pointed numeral. -/
theorem read?_pointed (negative : Bool) (there : whole ≠ []) (all : ∀ c ∈ whole, isDigit c = true)
    (all' : ∀ c ∈ fraction, isDigit c = true) (ended : ∀ c ∈ tail.head?, isDigit c = false)
    (read : readExponent? tail = some exponent) :
    read? (withSign negative (whole ++ '.' :: (fraction ++ tail))) = some ⟨negative, whole, some fraction, exponent⟩ := by
  have point : isDigit '.' = false := by decide
  have stop : tail.takeWhile isDigit = [] ∧ tail.dropWhile isDigit = tail := by
    cases tail with
    | nil => exact ⟨rfl, rfl⟩
    | cons c tail =>
      have other : ¬isDigit c = true := by simp [ended c rfl]
      exact ⟨List.takeWhile_cons_of_neg other, List.dropWhile_cons_of_neg other⟩
  have front : (whole ++ '.' :: (fraction ++ tail)).takeWhile isDigit = whole := by
    rw [List.takeWhile_append_of_pos all, List.takeWhile_cons_of_neg (by simp [point]), List.append_nil]
  have back : (whole ++ '.' :: (fraction ++ tail)).dropWhile isDigit = '.' :: (fraction ++ tail) := by
    rw [List.dropWhile_append_of_pos all, List.dropWhile_cons_of_neg (by simp [point])]
  have front' : (fraction ++ tail).takeWhile isDigit = fraction := by
    rw [List.takeWhile_append_of_pos all', stop.1, List.append_nil]
  have back' : (fraction ++ tail).dropWhile isDigit = tail := by
    rw [List.dropWhile_append_of_pos all', stop.2]
  have filled : whole.isEmpty = false := List.isEmpty_eq_false_iff.2 there
  cases negative with
  | true =>
    unfold read? withSign
    simp only [if_true, front, back, front', back', filled, Bool.false_and, Bool.false_eq_true, if_false, read, Option.map_some]
  | false =>
    change read? (whole ++ '.' :: (fraction ++ tail)) = _
    unfold read?
    split
    next negative unsigned same =>
    split at same
    · next minus =>
      cases whole with
      | nil => exact (there rfl).elim
      | cons c whole =>
        rw [List.cons_append] at minus
        obtain rfl : c = '-' := (List.cons.inj minus).1
        exact absurd (all '-' List.mem_cons_self) (by decide)
    · cases same
      simp only [front, back, front', back', filled, Bool.false_and, Bool.false_eq_true, if_false, read, Option.map_some]

theorem readExponent?_mark (negative : Bool) {digits : List Char} (there : digits ≠ [])
    (all : ∀ c ∈ digits, isDigit c = true) :
    readExponent? ('e' :: (if negative then '-' else '+') :: digits) = some (some (negative, digits)) := by
  have filled : digits.isEmpty = false := List.isEmpty_eq_false_iff.2 there
  have each : digits.all isDigit = true := List.all_eq_true.2 all
  cases negative with
  | true => simp [readExponent?, filled, each]
  | false => simp [readExponent?, filled, each]

/-- What an exponent adds to the place of the last digit. -/
def power : Option (Bool × List Char) → Int
  | none => 0
  | some (negative, digits) => if negative then -(digitsValue digits : Int) else digitsValue digits

theorem size_decimal {negative : Bool} : (Numeral.mk negative whole (some fraction) exponent).decimal.size =
    digitsValue (whole ++ fraction) * 10 ^ (power exponent - fraction.length) := by
  cases exponent with
  | none => rfl
  | some => rfl

end Numeral

namespace Binary64
open Text
open Numeral (withSign)
variable {layout : Layout} {digits : List Char} {lead : Int}

/-- The size of digits, the first of which is worth `10 ^ lead`. -/
def worth (digits : List Char) (lead : Int) : ℚ :=
  digitsValue digits * 10 ^ (lead + 1 - digits.length)

/-- A text that is read, behind any sign, as a pointed numeral of the given size. -/
def Reads (body : List Char) (size : ℚ) : Prop :=
  ∀ negative : Bool, ∃ n : Numeral, Numeral.read? (withSign negative body) = some n ∧ n.negative = negative ∧
    n.isPointed = true ∧ n.decimal.size = size

theorem reads_pointed {whole fraction tail : List Char} {exponent : Option (Bool × List Char)} {size : ℚ}
    (there : whole ≠ []) (all : ∀ c ∈ whole ++ fraction, c.isDigit = true) (ended : ∀ c ∈ tail.head?, isDigit c = false)
    (read : Numeral.readExponent? tail = some exponent)
    (same : digitsValue (whole ++ fraction) * (10 : ℚ) ^ (Numeral.power exponent - fraction.length) = size) :
    Reads (whole ++ '.' :: (fraction ++ tail)) size := by
  intro negative
  obtain ⟨front, back⟩ := List.forall_mem_append.1 all
  refine ⟨_, Numeral.read?_pointed negative there (fun c member => isDigit_of_isDigit (front c member))
    (fun c member => isDigit_of_isDigit (back c member)) ended read, rfl, rfl, ?_⟩
  rw [Numeral.size_decimal, same]

/-- Digits behind a point. -/
theorem reads_small (all : ∀ c ∈ digits, c.isDigit = true) (below : lead < 0) :
    Reads ('0' :: '.' :: List.replicate (lead.natAbs - 1) '0' ++ digits) (worth digits lead) := by
  have zeros : ['0'] ++ (List.replicate (lead.natAbs - 1) '0' ++ digits) =
      List.replicate (lead.natAbs - 1 + 1) '0' ++ digits := rfl
  have reads := @reads_pointed ['0'] (List.replicate (lead.natAbs - 1) '0' ++ digits) [] none (worth digits lead) (by simp)
    (by rw [zeros]; exact List.forall_mem_append.2 ⟨isDigit_replicate, all⟩) (by simp) rfl
  rw [List.append_nil] at reads
  refine reads ?_
  rw [zeros, digitsValue_zeros_append all, worth]
  congr 2
  rw [Numeral.power, List.length_append, List.length_replicate]
  omega

/-- Digits on both sides of a point, or before it with zeros behind them. -/
theorem reads_plain (there : digits ≠ []) (all : ∀ c ∈ digits, c.isDigit = true) (above : 0 ≤ lead) :
    Reads (digits.take (lead.natAbs + 1) ++ List.replicate (lead.natAbs + 1 - digits.length) '0' ++ '.' ::
      (if (digits.drop (lead.natAbs + 1)).isEmpty then ['0'] else digits.drop (lead.natAbs + 1))) (worth digits lead) := by
  have filled : digits.take (lead.natAbs + 1) ++ List.replicate (lead.natAbs + 1 - digits.length) '0' ≠ [] := by
    simp [there]
  rw [← List.append_nil (ite _ _ _)]
  split
  · next none =>
    have short : digits.length ≤ lead.natAbs + 1 := List.drop_eq_nil_iff.1 (List.isEmpty_iff.1 none)
    have zeros : digits ++ List.replicate (lead.natAbs + 1 - digits.length) '0' ++ ['0'] =
        digits ++ List.replicate (lead.natAbs + 1 - digits.length + 1) '0' := by
      rw [List.append_assoc, List.replicate_succ']
    rw [List.take_of_length_le short] at filled ⊢
    refine reads_pointed filled ?_ (by simp) rfl ?_
    · rw [zeros]
      exact List.forall_mem_append.2 ⟨all, isDigit_replicate⟩
    · rw [zeros, digitsValue_append_zeros all, worth, Nat.cast_mul, mul_comm (Nat.cast _), mul_assoc]
      congr 1
      push_cast
      rw [← zpow_natCast, ← zpow_add₀ (by norm_num)]
      congr 1
      rw [Numeral.power]
      simp
      omega
  · next some =>
    have long : lead.natAbs + 1 < digits.length := by
      rw [List.isEmpty_iff, List.drop_eq_nil_iff] at some
      omega
    rw [Nat.sub_eq_zero_of_le long.le, List.replicate_zero, List.append_nil] at filled ⊢
    refine reads_pointed filled ?_ (by simp) rfl ?_
    · rwa [List.take_append_drop]
    · rw [List.take_append_drop, worth]
      congr 2
      rw [Numeral.power, List.length_drop]
      omega

/-- Digits with a point behind the first, and an exponent. -/
theorem reads_scientific {zeros : Nat} (more : digits.drop 1 ≠ []) (all : ∀ c ∈ digits, c.isDigit = true) :
    Reads (digits.take 1 ++ '.' :: (digits.drop 1 ++ 'e' :: (if lead < 0 then '-' else '+') ::
      (List.replicate zeros '0' ++ Nat.toDigits 10 lead.natAbs))) (worth digits lead) := by
  have there : digits.take 1 ≠ [] := by
    cases digits with
    | nil => exact (more rfl).elim
    | cons => simp
  have size : ∀ c ∈ List.replicate zeros '0' ++ Nat.toDigits 10 lead.natAbs, isDigit c = true := fun c member =>
    isDigit_of_isDigit (List.forall_mem_append.2 ⟨isDigit_replicate, fun _ member =>
      Nat.isDigit_of_mem_toDigits (by decide) (by decide) member⟩ c member)
  have read := Numeral.readExponent?_mark (decide (lead < 0)) (by simp [Nat.toDigits_ne_nil]) size
  simp only [decide_eq_true_eq] at read
  refine reads_pointed there (by rwa [List.take_append_drop]) (by simp; decide) read ?_
  have value : digitsValue (List.replicate zeros '0' ++ Nat.toDigits 10 lead.natAbs) = lead.natAbs := by
    rw [digitsValue_zeros_append fun _ member => Nat.isDigit_of_mem_toDigits (by decide) (by decide) member,
      digitsValue_toDigits]
  have long : 0 < digits.length - 1 := by
    rw [← List.length_drop]
    exact List.length_pos_of_ne_nil more
  rw [List.take_append_drop, worth]
  congr 2
  rw [Numeral.power, value, List.length_drop]
  split
  · next below =>
    rw [decide_eq_true_eq] at below
    omega
  · next above =>
    rw [decide_eq_true_eq] at above
    omega

/-- Digits placed with a point among them are read as what they are worth. -/
theorem reads_place (there : digits ≠ []) (all : ∀ c ∈ digits, c.isDigit = true) (point : '.' ∈ place layout digits lead) :
    Reads (place layout digits lead) (worth digits lead) := by
  unfold place at point ⊢
  split at point
  · next positional =>
    rw [if_pos positional]
    split
    · next below => exact reads_small all below
    · next above => exact reads_plain there all (not_lt.1 above)
  · next exponential =>
    rw [if_neg exponential]
    dsimp only at point ⊢
    by_cases none : (digits.drop 1).isEmpty = true
    · -- without a point in front of the exponent there is none
      exfalso
      rw [if_pos none] at point
      have other (text : List Char) (all : ∀ c ∈ text, c.isDigit = true) : '.' ∉ text := fun member => by
        cases all '.' member
      have sign : '.' ≠ (if lead < 0 then '-' else '+') := by split <;> decide
      have front := other (digits.take 1) fun c member => all c (List.mem_of_mem_take member)
      have size := other (Nat.toDigits 10 lead.natAbs) fun _ member =>
        Nat.isDigit_of_mem_toDigits (by decide) (by decide) member
      have zeros := other _ (@isDigit_replicate (layout.exponentWidth - (Nat.toDigits 10 lead.natAbs).length))
      simp only [List.append_nil, List.mem_append, List.mem_cons] at point
      have mark : ('.' : Char) ≠ 'e' := by decide
      tauto
    · rw [if_neg none]
      have more : digits.drop 1 ≠ [] := fun empty => none (List.isEmpty_iff.2 empty)
      have reads := @reads_scientific digits lead (layout.exponentWidth - (Nat.toDigits 10 lead.natAbs).length) more all
      simpa only [List.append_assoc, List.cons_append] using reads

/-- Zeros at the end are left out. -/
theorem exists_zeros (text : List Char) :
    ∃ n, text = (text.reverse.dropWhile (· == '0')).reverse ++ List.replicate n '0' := by
  refine ⟨(text.reverse.takeWhile (· == '0')).length, ?_⟩
  have zeros : text.reverse.takeWhile (· == '0') = List.replicate (text.reverse.takeWhile (· == '0')).length '0' := by
    refine List.eq_replicate_of_mem fun c member => ?_
    have same := List.mem_takeWhile_imp member
    exact eq_of_beq same
  have split := congrArg List.reverse (List.takeWhile_append_dropWhile (p := (· == '0')) (l := text.reverse))
  rw [List.reverse_append, List.reverse_reverse, zeros, List.reverse_replicate] at split
  exact split.symm

/-- The digits of a decimal number are worth the number. -/
theorem worth_digits {d : Decimal} (positive : d.digits ≠ 0) :
    let digits := ((Nat.toDigits 10 d.digits).reverse.dropWhile (· == '0')).reverse
    digits ≠ [] ∧ (∀ c ∈ digits, c.isDigit = true) ∧
      worth digits (d.exponent + ((Nat.toDigits 10 d.digits).length : Int) - 1) = d.size := by
  intro digits
  obtain ⟨n, split⟩ := exists_zeros (Nat.toDigits 10 d.digits)
  have all : ∀ c ∈ digits ++ List.replicate n '0', c.isDigit = true := fun c member =>
    Nat.isDigit_of_mem_toDigits (by decide) (by decide) (split ▸ member)
  have own := (List.forall_mem_append.1 all).1
  have value : d.digits = 10 ^ n * digitsValue digits := by
    rw [← digitsValue_append_zeros own, ← split, digitsValue_toDigits]
  refine ⟨?_, own, ?_⟩
  · intro none
    rw [none] at value
    exact positive (value.trans (Nat.mul_zero _))
  · have length : (Nat.toDigits 10 d.digits).length = digits.length + n := by
      rw [split, List.length_append, List.length_replicate]
    have last : d.exponent + ((Nat.toDigits 10 d.digits).length : Int) - 1 + 1 - digits.length = n + d.exponent := by
      rw [length]
      push_cast
      ring
    rw [worth, last, Decimal.size, value, Nat.cast_mul, zpow_add₀ (by norm_num), zpow_natCast]
    push_cast
    ring

/-- A pointed numeral of the size is read as the number that it is rounded to. -/
theorem scalarOf_of_reads {body : List Char} {size : ℚ} {s s' : Bool} {m : Nat} {e : Int} (reads : Reads body size)
    (rounds : rounded s size = .finite s' m e) (negative : Bool) :
    Codec.scalarOf (withSign negative body) = .ok (.float (.finite negative m e)) := by
  obtain ⟨n, read, sign, pointed, same⟩ := reads negative
  have number : n.decimal.nearest = .finite negative m e := by
    have sign' : n.decimal.negative = negative := sign
    rw [Decimal.nearest_eq, same, sign']
    exact rounded_sign negative rounds
  have fraction : n.isInteger = false := by
    unfold Numeral.isPointed at pointed
    unfold Numeral.isInteger
    cases digits : n.fraction with
    | none =>
      rw [digits] at pointed
      cases pointed
    | some => rfl
  have word {value : List Char} (none : Numeral.read? value = none) : withSign negative body ≠ value := by
    rintro rfl
    cases read.symm.trans none
  unfold Codec.scalarOf
  rw [if_neg (word rfl), if_neg (word rfl), read]
  simp only [fraction, pointed, number, Bool.false_eq_true, if_false, if_true]

theorem point_of_scalarOf {value : List Char} {x : Binary64} (read : Codec.scalarOf value = .ok (.float x)) : '.' ∈ value := by
  unfold Codec.scalarOf at read
  split at read
  · cases read
  split at read
  · cases read
  split at read
  · next n found =>
    split at read
    · split at read <;> cases read
    · split at read
      · next pointed => exact Numeral.point_of_isPointed found pointed
      · cases read
  · cases read

theorem scalarOf_zero (negative : Bool) :
    Codec.scalarOf (zero negative).text.toList = .ok (.float (zero negative)) := by
  cases negative
  · decide +kernel
  · decide +kernel

/-- A number that is rounded to reads back from its text where there is a point in it, and nowhere else. -/
theorem scalarOf_text {negative : Bool} {r : ℚ} {x : Binary64} (rounds : rounded negative r = x) :
    Codec.scalarOf x.text.toList = .ok (.float x) ↔ '.' ∈ x.text.toList := by
  refine ⟨point_of_scalarOf, fun point => ?_⟩
  cases x with
  | nan => exact absurd point (by decide)
  | infinite sign =>
    cases sign
    · exact absurd point (by decide)
    · exact absurd point (by decide)
  | finite sign m e =>
    have canonical := canonical_of_rounded rounds
    by_cases none : m = 0
    · subst none
      obtain rfl : e = -1074 := canonical.full.resolve_right (by decide)
      exact scalarOf_zero sign
    · have shortest := Decimal.nearest_shortest canonical (Nat.pos_of_ne_zero none)
      rw [Decimal.nearest_eq] at shortest
      have positive : (Decimal.shortest m e).digits ≠ 0 := by
        intro zero
        rw [Decimal.size, zero, Nat.cast_zero, zero_mul, rounded, if_pos le_rfl] at shortest
        exact none (finite.inj shortest).2.1.symm
      obtain ⟨there, all, same⟩ := worth_digits positive
      have text : (finite sign m e).text.toList = withSign sign (place layout
          ((Nat.toDigits 10 (Decimal.shortest m e).digits).reverse.dropWhile (· == '0')).reverse
          ((Decimal.shortest m e).exponent + ((Nat.toDigits 10 (Decimal.shortest m e).digits).length : Int) - 1)) := by
        unfold Binary64.text
        simp only [none, if_false, String.toList_ofList]
        rfl
      rw [text] at point ⊢
      refine scalarOf_of_reads (reads_place there all ?_) (same.symm ▸ shortest) sign
      cases sign
      · exact point
      · exact (List.mem_cons.1 point).resolve_left (by decide)

end Binary64
end LiveDiagram
