import LiveDiagram.Proofs.Number.Rounding
import Mathlib.Data.Nat.Cast.Order.Field

/-! The shortest decimal of a binary number reads back as the number. Seventeen digits always do, so the search ends. -/
namespace LiveDiagram.Decimal

open Binary64 (Canonical scaled scaled_pos scaled_eq)

variable {num den count mantissa : Nat} {exponent : Int} {x : Binary64} {d : Decimal}

/-- The first digit of a number is worth no more than the number. -/
theorem pow_leading_le (there : 0 < num) (positive : 0 < den) : (10 : ℚ) ^ leading num den ≤ num / den := by
  have den' : (0 : ℚ) < den := Nat.cast_pos.2 positive
  unfold leading
  split
  · next above =>
    have quotient : num / den ≠ 0 := (Nat.div_pos above positive).ne'
    have least : (width (num / den) : Int) - 1 = (width (num / den) - 1 : Nat) := by
      have positive := @width_pos (num / den)
      omega
    rw [least, zpow_natCast]
    calc (10 : ℚ) ^ (width (num / den) - 1) ≤ (num / den : Nat) := by exact_mod_cast pow_width_le quotient
      _ ≤ num / den := Nat.cast_div_le
  · next below =>
    rw [Int.negOfNat_eq, zpow_neg, Int.ofNat_eq_natCast, zpow_natCast, le_div_iff₀ den', inv_mul_le_iff₀ (by positivity)]
    -- the ceiling of `den / num` is at most the power
    have ceiling : den ≤ (den + num - 1) / num * num := by
      have split := Nat.div_add_mod (den + num - 1) num
      have rest := Nat.mod_lt (den + num - 1) there
      rw [Nat.mul_comm] at split
      omega
    have bound : (den + num - 1) / num ≤ 10 ^ width ((den + num - 1) / num - 1) := by
      have above := @lt_pow_width ((den + num - 1) / num - 1)
      omega
    exact_mod_cast ceiling.trans (Nat.mul_le_mul_right num bound)

/-! Neighbours -/

theorem nearest_of_neighbour? (found : neighbour? x num den count = some d) : d.nearest = x := by
  unfold neighbour? at found
  obtain ⟨digits, first, rfl⟩ := Option.map_eq_some_iff.1 found
  have reads := List.find?_some first
  exact eq_of_beq reads

/-- A neighbour is found where one of the two reads back. -/
theorem exists_neighbour? (low : Nat)
    (same : low = (scaled 10 num den (leading num den - count + 1)).1 / (scaled 10 num den (leading num den - count + 1)).2)
    (reads : ∃ digits ∈ [low, low + 1], (Decimal.mk false digits (leading num den - count + 1)).nearest = x) :
    ∃ d, neighbour? x num den count = some d := by
  subst same
  obtain ⟨digits, member, reads⟩ := reads
  unfold neighbour?
  dsimp only
  rw [← Option.isSome_iff_exists, Option.isSome_map, List.find?_isSome]
  refine ⟨digits, ?_, beq_iff_eq.2 reads⟩
  split
  · exact member
  · simpa [or_comm] using member

/-- Of a number and the whole numbers around it, one is half away at most. -/
theorem exists_close (num : Nat) (positive : 0 < den) : ∃ digits ∈ [num / den, num / den + 1],
    |(digits : ℚ) - num / den| ≤ 1 / 2 := by
  have low : ((num / den : Nat) : ℚ) ≤ num / den := Nat.cast_div_le
  have high : (num : ℚ) / den < (num / den : Nat) + 1 := by
    rw [div_lt_iff₀ (Nat.cast_pos.2 positive)]
    exact_mod_cast Nat.lt_mul_of_div_lt (Nat.lt_succ_self _) positive
  by_cases near : (num : ℚ) / den - (num / den : Nat) ≤ 1 / 2
  · exact ⟨_, List.mem_cons_self, abs_le.2 ⟨by linarith, by linarith⟩⟩
  · refine ⟨num / den + 1, by simp, abs_le.2 ?_⟩
    push_cast
    constructor <;> linarith

/-- Seventeen digits of a number, rounded to the nearest, are rounded to the number. -/
theorem rounded_of_digits {digits : Nat} {lead : Int} (canonical : Canonical mantissa exponent) (there : 0 < mantissa)
    (first : 10 ^ lead ≤ (mantissa : ℚ) * 2 ^ exponent)
    (close : |(digits : ℚ) - mantissa * 2 ^ exponent / 10 ^ (lead - 16)| ≤ 1 / 2) :
    Binary64.rounded false (digits * 10 ^ (lead - 16)) = .finite false mantissa exponent := by
  have unit := ten_zpow_pos (lead - 16)
  have apart : |(digits : ℚ) * 10 ^ (lead - 16) - mantissa * 2 ^ exponent| ≤ 1 / 2 * 10 ^ (lead - 16) := by
    have shift : (digits : ℚ) * 10 ^ (lead - 16) - mantissa * 2 ^ exponent =
        (digits - mantissa * 2 ^ exponent / 10 ^ (lead - 16)) * 10 ^ (lead - 16) := by
      rw [sub_mul, div_mul_cancel₀ _ unit.ne']
    rw [shift, abs_mul, abs_of_pos unit]
    exact mul_le_mul_of_nonneg_right close unit.le
  refine Binary64.rounded_of_close canonical there ?_
  calc |(digits : ℚ) * 10 ^ (lead - 16) - mantissa * 2 ^ exponent| * 2 ^ 54
      ≤ 1 / 2 * 10 ^ (lead - 16) * 2 ^ 54 := mul_le_mul_of_nonneg_right apart (by positivity)
    _ = 2 ^ 53 * 10 ^ (lead - 16) := by ring
    _ < 10 ^ 16 * 10 ^ (lead - 16) := mul_lt_mul_of_pos_right (by norm_num) unit
    _ = 10 ^ lead := by
      rw [← zpow_natCast, ← zpow_add₀ (by norm_num)]
      congr 1
      push_cast
      ring
    _ ≤ mantissa * 2 ^ exponent := first

/-- Seventeen digits are enough for every number. -/
theorem exists_seventeen (canonical : Canonical mantissa exponent) (there : 0 < mantissa) (num' : 0 < num)
    (den' : 0 < den) (value : (num : ℚ) / den = mantissa * 2 ^ exponent) :
    ∃ d, neighbour? (.finite false mantissa exponent) num den 17 = some d := by
  have last : leading num den - (17 : Nat) + 1 = leading num den - 16 := by omega
  have first := pow_leading_le num' den'
  have positive : 0 < (scaled 10 num den (leading num den - 16)).2 := scaled_pos (by decide) den' _
  obtain ⟨digits, member, close⟩ := exists_close (scaled 10 num den (leading num den - 16)).1 positive
  rw [scaled_eq (by decide), value] at close
  rw [value] at first
  refine exists_neighbour? _ rfl ?_
  rw [last]
  refine ⟨digits, member, ?_⟩
  rw [nearest_eq]
  exact rounded_of_digits canonical there first close

/-- The shortest decimal of a positive number reads back as the number. -/
theorem nearest_shortest (canonical : Canonical mantissa exponent) (there : 0 < mantissa) :
    (shortest mantissa exponent).nearest = .finite false mantissa exponent := by
  have value := @scaled_eq 2 mantissa 1 two_pos (-exponent)
  rw [Nat.cast_one, div_one, zpow_neg, div_inv_eq_mul, Nat.cast_two] at value
  have den' := @scaled_pos 2 mantissa 1 two_pos one_pos (-exponent)
  have num' : 0 < (scaled 2 mantissa 1 (-exponent)).1 := by
    have positive : (0 : ℚ) < mantissa * 2 ^ exponent := mul_pos (Nat.cast_pos.2 there) (Binary64.two_zpow_pos _)
    rw [← value] at positive
    exact Nat.cast_pos.1 ((div_pos_iff_of_pos_right (Nat.cast_pos.2 den')).1 positive)
  obtain ⟨d, found⟩ := exists_seventeen canonical there num' den' value
  unfold shortest Binary64.fraction
  dsimp only
  cases search : ((List.range 17).map (· + 1)).findSome? (neighbour? (.finite false mantissa exponent)
      (scaled 2 mantissa 1 (-exponent)).1 (scaled 2 mantissa 1 (-exponent)).2) with
  | none =>
    rw [List.findSome?_eq_none_iff] at search
    cases found.symm.trans (search 17 (by decide))
  | some d =>
    obtain ⟨count, _, own⟩ := List.exists_of_findSome?_eq_some search
    exact nearest_of_neighbour? own

end LiveDiagram.Decimal
