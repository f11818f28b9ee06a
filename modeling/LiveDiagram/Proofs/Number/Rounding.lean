import LiveDiagram.Number.Decimal
import Mathlib.Algebra.Order.Floor.Semifield
import Mathlib.Algebra.Order.Field.Power
import Mathlib.Data.Int.Log
import Mathlib.Data.Rat.Floor
import Mathlib.Tactic.FieldSimp
import Mathlib.Tactic.Linarith
import Mathlib.Tactic.NormNum
import Mathlib.Tactic.Positivity
import Mathlib.Tactic.Ring

/-! Rounding to binary numbers, as arithmetic on rational numbers. A fraction and a decimal number are rounded once, from the
exact value, so that what is read for a decimal depends on its value alone. -/
namespace LiveDiagram

namespace Binary64
variable {base num den mantissa : Nat} {exponent : Int} {negative : Bool} {r : ℚ}

/-! Powers -/

theorem scaled_pos (radix : 0 < base) (positive : 0 < den) (exponent : Int) : 0 < (scaled base num den exponent).2 := by
  unfold scaled
  dsimp only
  split
  · exact positive
  · exact Nat.mul_pos positive (Nat.pow_pos radix)

theorem scaled_eq (radix : 0 < base) (exponent : Int) :
    ((scaled base num den exponent).1 : ℚ) / (scaled base num den exponent).2 = num / den / (base : ℚ) ^ exponent := by
  have nonzero : (base : ℚ) ≠ 0 := Nat.cast_ne_zero.2 (Nat.pos_iff_ne_zero.1 radix)
  have power : ((Nat.pow base exponent.natAbs : Nat) : ℚ) = (base : ℚ) ^ (exponent.natAbs : Int) := by
    rw [zpow_natCast]
    exact Nat.cast_pow base exponent.natAbs
  unfold scaled
  dsimp only
  split
  · next below =>
    have size : (exponent.natAbs : Int) = -exponent := by omega
    rw [Nat.cast_mul, power, size, zpow_neg]
    field_simp
  · next above =>
    have size : (exponent.natAbs : Int) = exponent := by omega
    rw [Nat.cast_mul, power, size, div_div]

theorem two_zpow_pos (exponent : Int) : (0 : ℚ) < 2 ^ exponent := zpow_pos two_pos exponent

/-- The highest power of two that is at most a number is determined by the powers around it. -/
theorem log_eq (positive : 0 < r) (low : (2 : ℚ) ^ exponent ≤ r) (high : r < (2 : ℚ) ^ (exponent + 1)) :
    Int.log 2 r = exponent := by
  have above := (Int.zpow_le_iff_le_log one_lt_two positive).1 low
  have below := (Int.lt_zpow_iff_log_lt one_lt_two positive).1 high
  omega

theorem magnitude_eq (there : 0 < num) (positive : 0 < den) : magnitude num den = Int.log 2 ((num : ℚ) / den) := by
  have den' : (0 : ℚ) < den := Nat.cast_pos.2 positive
  have num' : (0 : ℚ) < num := Nat.cast_pos.2 there
  have value : (0 : ℚ) < num / den := div_pos num' den'
  have low (n : Nat) (there : 0 < n) : (2 : ℚ) ^ (n.log2 : Int) ≤ n := by
    rw [zpow_natCast]
    exact_mod_cast Nat.log2_self_le (Nat.pos_iff_ne_zero.1 there)
  have high (n : Nat) : (n : ℚ) < 2 ^ ((n.log2 : Int) + 1) := by
    rw [← Nat.cast_succ, zpow_natCast]
    exact_mod_cast Nat.lt_log2_self
  have below : (2 : ℚ) ^ ((num.log2 : Int) - den.log2 - 1) ≤ num / den := by
    rw [sub_sub, zpow_sub₀ two_ne_zero]
    exact div_le_div₀ num'.le (low num there) den' (high den).le
  have above : (num : ℚ) / den < 2 ^ ((num.log2 : Int) - den.log2 + 1) := by
    rw [sub_add_eq_add_sub, zpow_sub₀ two_ne_zero]
    exact div_lt_div₀ (high num) (low den positive) (two_zpow_pos _).le (two_zpow_pos _)
  have guessed : (scaled 2 num den ((num.log2 : Int) - den.log2)).2 ≤ (scaled 2 num den ((num.log2 : Int) - den.log2)).1 ↔
      (2 : ℚ) ^ ((num.log2 : Int) - den.log2) ≤ num / den := by
    have bottom : (0 : ℚ) < (scaled 2 num den ((num.log2 : Int) - den.log2)).2 := Nat.cast_pos.2 (scaled_pos two_pos positive _)
    have ratio := @scaled_eq 2 num den two_pos ((num.log2 : Int) - den.log2)
    rw [← Nat.cast_le (α := ℚ), ← one_le_div bottom, ratio]
    exact one_le_div (two_zpow_pos _)
  unfold magnitude
  dsimp only
  split
  · next fits => exact (log_eq value (guessed.1 fits) above).symm
  · next beyond =>
    rw [guessed, not_le] at beyond
    exact (log_eq value below (by rwa [sub_add_cancel])).symm

/-! Whole numbers -/

/-- The nearest whole number, a half going to the even neighbour. -/
def halfEven (r : ℚ) : Nat :=
  if r - ⌊r⌋₊ < 1 / 2 then ⌊r⌋₊ else if 1 / 2 < r - ⌊r⌋₊ then ⌊r⌋₊ + 1 else ⌊r⌋₊ + ⌊r⌋₊ % 2

theorem roundedQuotient_eq (positive : 0 < den) : roundedQuotient num den = halfEven ((num : ℚ) / den) := by
  have den' : (0 : ℚ) < den := Nat.cast_pos.2 positive
  have low : ⌊(num : ℚ) / den⌋₊ = num / den := Nat.floor_div_eq_div num den
  have rest : (num : ℚ) / den - (num / den : Nat) = (num % den : Nat) / den := by
    have whole : (num : ℚ) = den * (num / den : Nat) + (num % den : Nat) := by
      exact_mod_cast (Nat.div_add_mod num den).symm
    rw [sub_eq_iff_eq_add, div_add' _ _ _ den'.ne', div_left_inj' den'.ne']
    linarith
  have below : ((num % den : Nat) : ℚ) / den < 1 / 2 ↔ 2 * (num % den) < den := by
    rw [div_lt_div_iff₀ den' two_pos, one_mul, mul_comm]
    exact_mod_cast Iff.rfl
  have above : 1 / 2 < ((num % den : Nat) : ℚ) / den ↔ den < 2 * (num % den) := by
    rw [div_lt_div_iff₀ two_pos den', one_mul, mul_comm]
    exact_mod_cast Iff.rfl
  unfold roundedQuotient halfEven
  simp only [low, rest, below, above]

theorem halfEven_eq {n : Nat} (close : |r - n| < 1 / 2) : halfEven r = n := by
  obtain ⟨above, below⟩ := abs_lt.1 close
  by_cases beyond : (n : ℚ) ≤ r
  · have low : ⌊r⌋₊ = n := by
      rw [Nat.floor_eq_iff ((Nat.cast_nonneg n).trans beyond)]
      exact ⟨beyond, by linarith⟩
    unfold halfEven
    rw [low, if_pos (by linarith)]
  · rw [not_le] at beyond
    cases n with
    | zero =>
      have low : ⌊r⌋₊ = 0 := Nat.floor_of_nonpos (by simpa using beyond.le)
      unfold halfEven
      rw [low, if_pos below]
    | succ n =>
      push_cast at above beyond
      have low : ⌊r⌋₊ = n := by
        have bound : (0 : ℚ) ≤ n := Nat.cast_nonneg n
        rw [Nat.floor_eq_iff (by linarith)]
        exact ⟨by linarith, beyond⟩
      unfold halfEven
      rw [low, if_neg (by linarith), if_pos (by linarith)]

theorem halfEven_bounds {low high : Nat} (above : (low : ℚ) ≤ r) (below : r < high) : low ≤ halfEven r ∧ halfEven r ≤ high := by
  have least : low ≤ ⌊r⌋₊ := Nat.le_floor above
  have most : ⌊r⌋₊ < high := (Nat.floor_lt ((Nat.cast_nonneg low).trans above)).2 below
  unfold halfEven
  split
  · omega
  · split <;> omega

/-! Binary numbers -/

/-- The exponent of the last bit that a binary number of this size has. -/
def lastPlace (r : ℚ) : Int :=
  max (Int.log 2 r - 52) (-1074)

theorem lastPlace_spec (positive : 0 < r) :
    r / 2 ^ lastPlace r < 2 ^ 53 ∧ (lastPlace r = -1074 ∨ 2 ^ 52 ≤ r / 2 ^ lastPlace r) := by
  have low := Int.zpow_log_le_self (b := 2) one_lt_two positive
  have high := Int.lt_zpow_succ_log_self (b := 2) one_lt_two r
  rw [Nat.cast_two] at low high
  constructor
  · rw [div_lt_iff₀ (two_zpow_pos _), ← zpow_natCast, ← zpow_add₀ two_ne_zero]
    refine high.trans_le (zpow_le_zpow_right₀ one_le_two ?_)
    unfold lastPlace
    push_cast
    omega
  · rcases max_choice (Int.log 2 r - 52) (-1074) with same | same
    · right
      rw [lastPlace, same, le_div_iff₀ (two_zpow_pos _), ← zpow_natCast, ← zpow_add₀ two_ne_zero]
      simpa using low
    · exact .inl same

theorem lastPlace_eq (positive : 0 < r) (least : -1074 ≤ exponent) (below : r / 2 ^ exponent < 2 ^ 53)
    (above : exponent = -1074 ∨ 2 ^ 52 ≤ r / 2 ^ exponent) : lastPlace r = exponent := by
  have high : Int.log 2 r < exponent + 53 := by
    refine (Int.lt_zpow_iff_log_lt one_lt_two positive).1 ?_
    rw [div_lt_iff₀ (two_zpow_pos _), ← zpow_natCast, ← zpow_add₀ two_ne_zero] at below
    rw [Nat.cast_two, add_comm]
    exact below
  unfold lastPlace
  rcases above with same | above
  · omega
  · have low : exponent + 52 ≤ Int.log 2 r := by
      refine (Int.zpow_le_iff_le_log one_lt_two positive).1 ?_
      rw [le_div_iff₀ (two_zpow_pos _), ← zpow_natCast, ← zpow_add₀ two_ne_zero] at above
      rw [Nat.cast_two, add_comm]
      exact above
    omega

/-- A mantissa of `2 ^ 53` at most with its exponent, as a number. -/
def packed (negative : Bool) (mantissa : Nat) (exponent : Int) : Binary64 :=
  let (mantissa, exponent) :=
    if mantissa = Nat.pow 2 53 then (Nat.pow 2 52, exponent + 1) else (mantissa, exponent)
  if 971 < exponent then .infinite negative else .finite negative mantissa exponent

/-- The binary number nearest to `± r`. -/
def rounded (negative : Bool) (r : ℚ) : Binary64 :=
  if r ≤ 0 then .zero negative else packed negative (halfEven (r / 2 ^ lastPlace r)) (lastPlace r)

theorem nearest_eq (positive : 0 < den) : nearest negative num den = rounded negative (num / den) := by
  have den' : (0 : ℚ) < den := Nat.cast_pos.2 positive
  unfold nearest rounded
  split
  · next zero => rw [zero, Nat.cast_zero, zero_div, if_pos le_rfl]
  · next nonzero =>
    have there : 0 < num := Nat.pos_of_ne_zero nonzero
    have value : (0 : ℚ) < num / den := div_pos (Nat.cast_pos.2 there) den'
    rw [if_neg (not_le.2 value), magnitude_eq there positive]
    change packed negative (roundedQuotient (scaled 2 num den (lastPlace (num / den))).1
      (scaled 2 num den (lastPlace (num / den))).2) (lastPlace (num / den)) = _
    rw [roundedQuotient_eq (scaled_pos two_pos positive _), scaled_eq two_pos, Nat.cast_two]

/-! What rounding gives -/

/-- Mantissas and exponents that rounding gives: all bits are used, but for the least numbers. -/
structure Canonical (mantissa : Nat) (exponent : Int) : Prop where
  mantissa_lt : mantissa < 2 ^ 53
  least : -1074 ≤ exponent
  most : exponent ≤ 971
  full : exponent = -1074 ∨ 2 ^ 52 ≤ mantissa

/-- A mantissa that was rounded up to `2 ^ 53` is halved. -/
theorem packed_eq_finite_iff {m : Nat} {e : Int} {s : Bool} : packed negative mantissa exponent = .finite s m e ↔
    s = negative ∧ e ≤ 971 ∧
      (mantissa = 2 ^ 53 ∧ m = 2 ^ 52 ∧ e = exponent + 1 ∨ mantissa ≠ 2 ^ 53 ∧ m = mantissa ∧ e = exponent) := by
  have finite_iff {m' : Nat} {e' : Int} :
      (if 971 < e' then .infinite negative else .finite negative m' e') = finite s m e ↔
        s = negative ∧ e ≤ 971 ∧ m = m' ∧ e = e' := by
    split
    · next beyond =>
      refine ⟨nofun, fun ⟨_, most, _, same⟩ => ?_⟩
      omega
    · next fits =>
      constructor
      · rintro ⟨⟩
        exact ⟨rfl, not_lt.1 fits, rfl, rfl⟩
      · rintro ⟨rfl, _, rfl, rfl⟩
        rfl
  unfold packed
  by_cases carry : mantissa = Nat.pow 2 53
  · rw [if_pos carry]
    refine finite_iff.trans (and_congr_right fun _ => and_congr_right fun _ => ?_)
    exact ⟨fun same => .inl ⟨carry, same⟩, fun same => (same.resolve_right fun other => other.1 carry).2⟩
  · rw [if_neg carry]
    refine finite_iff.trans (and_congr_right fun _ => and_congr_right fun _ => ?_)
    exact ⟨fun same => .inr ⟨carry, same⟩, fun same => (same.resolve_left fun other => carry other.1).2⟩

theorem packed_of_gt (beyond : 971 < exponent) : packed negative mantissa exponent = .infinite negative := by
  unfold packed
  by_cases carry : mantissa = Nat.pow 2 53
  · rw [if_pos carry]
    exact if_pos (Int.lt_add_one_of_le beyond.le)
  · rw [if_neg carry]
    exact if_pos beyond

theorem rounded_eq (positive : 0 < r) (place : lastPlace r = exponent) :
    rounded negative r = packed negative (halfEven (r / 2 ^ exponent)) exponent := by
  unfold rounded
  rw [if_neg (not_le.2 positive), place]

theorem canonical_of_rounded {m : Nat} {e : Int} {s : Bool} (same : rounded negative r = .finite s m e) : Canonical m e := by
  unfold rounded at same
  split at same
  · cases same
    exact ⟨by decide, le_rfl, by decide, .inl rfl⟩
  · next positive =>
    rw [not_le] at positive
    obtain ⟨below, above⟩ := lastPlace_spec positive
    have upper : halfEven (r / 2 ^ lastPlace r) ≤ 2 ^ 53 := by
      refine (@halfEven_bounds _ 0 _ ?_ (by exact_mod_cast below)).2
      exact_mod_cast (div_pos positive (two_zpow_pos _)).le
    have lower : lastPlace r = -1074 ∨ 2 ^ 52 ≤ halfEven (r / 2 ^ lastPlace r) :=
      above.imp_right fun above => (halfEven_bounds (by exact_mod_cast above) (by exact_mod_cast below)).1
    have least : -1074 ≤ lastPlace r := le_max_right _ _
    obtain ⟨_, most, ⟨_, rfl, rfl⟩ | ⟨fits, rfl, rfl⟩⟩ := packed_eq_finite_iff.1 same
    · exact ⟨by decide, by omega, most, .inr le_rfl⟩
    · exact ⟨Nat.lt_of_le_of_ne upper fits, least, most, lower⟩

/-- The sign has no part in the rounding. -/
theorem rounded_sign {s s' : Bool} (negative : Bool) (same : rounded s r = .finite s' mantissa exponent) :
    rounded negative r = .finite negative mantissa exponent := by
  unfold rounded at same ⊢
  split at same
  · next none =>
    cases same
    rw [if_pos none]
    rfl
  · next some =>
    rw [if_neg some]
    exact packed_eq_finite_iff.2 ⟨rfl, (packed_eq_finite_iff.1 same).2⟩

/-- Beneath a power of two, where the bits are finer, what is closer than half of such a bit is rounded up to the power. -/
theorem rounded_of_beneath (positive : 0 < r) (least : -1074 < exponent) (most : exponent ≤ 971)
    (above : 2 ^ 52 - 1 / 4 < r / 2 ^ exponent) (below : r / 2 ^ exponent < 2 ^ 52) :
    rounded negative r = .finite negative (2 ^ 52) exponent := by
  have finer : r / 2 ^ (exponent - 1) = 2 * (r / 2 ^ exponent) := by
    rw [zpow_sub₀ two_ne_zero, zpow_one]
    field_simp
  have place : lastPlace r = exponent - 1 := by
    refine lastPlace_eq positive (by omega) ?_ (.inr ?_)
    · rw [finer]
      linarith
    · rw [finer]
      linarith
  have up : halfEven (r / 2 ^ (exponent - 1)) = 2 ^ 53 := by
    refine halfEven_eq (abs_lt.2 ?_)
    rw [finer]
    push_cast
    constructor
    · linarith
    · linarith
  rw [rounded_eq positive place, packed_eq_finite_iff]
  exact ⟨rfl, most, .inl ⟨up, rfl, (sub_add_cancel exponent 1).symm⟩⟩

/-- What is closer to a number than a part in `2 ^ 54` is rounded to it: half the distance to the next number, or to the one
before a power of two, is more. -/
theorem rounded_of_close (canonical : Canonical mantissa exponent) (there : 0 < mantissa)
    (close : |r - mantissa * 2 ^ exponent| * 2 ^ 54 < mantissa * 2 ^ exponent) :
    rounded negative r = .finite negative mantissa exponent := by
  have unit := two_zpow_pos exponent
  have near : |r / 2 ^ exponent - mantissa| * 2 ^ 54 < mantissa := by
    have shift : r / 2 ^ exponent - mantissa = (r - mantissa * 2 ^ exponent) / 2 ^ exponent := by
      rw [sub_div, mul_div_cancel_right₀ _ unit.ne']
    rwa [shift, abs_div, abs_of_pos unit, div_mul_eq_mul_div, div_lt_iff₀ unit]
  have most : (mantissa : ℚ) + 1 ≤ 2 ^ 53 := by exact_mod_cast canonical.mantissa_lt
  have half : |r / 2 ^ exponent - mantissa| < 1 / 2 := by linarith
  obtain ⟨above, below⟩ := abs_lt.1 half
  have positive : 0 < r := by
    have least : (1 : ℚ) ≤ mantissa := by exact_mod_cast there
    have size : 0 < r / 2 ^ exponent := by linarith
    exact (div_pos_iff_of_pos_right unit).1 size
  by_cases within : exponent = -1074 ∨ 2 ^ 52 ≤ r / 2 ^ exponent
  · have place : lastPlace r = exponent := lastPlace_eq positive canonical.least (by linarith) within
    rw [rounded_eq positive place, halfEven_eq half, packed_eq_finite_iff]
    exact ⟨rfl, canonical.most, .inr ⟨canonical.mantissa_lt.ne, rfl, rfl⟩⟩
  · -- the number is a power of two, as `r` is beneath all those with this last place
    rw [not_or, not_le] at within
    obtain ⟨higher, beneath⟩ := within
    have power : mantissa = 2 ^ 52 := by
      have full : 2 ^ 52 ≤ mantissa := canonical.full.resolve_left higher
      have upper : (mantissa : ℚ) < (2 ^ 52 + 1 : Nat) := by
        push_cast
        linarith
      have least : mantissa < 2 ^ 52 + 1 := Nat.cast_lt.1 upper
      omega
    subst power
    push_cast at near
    have quarter : |r / 2 ^ exponent - 2 ^ 52| < 1 / 4 := by linarith
    exact rounded_of_beneath positive (lt_of_le_of_ne canonical.least (Ne.symm higher)) canonical.most
      (by linarith [(abs_lt.1 quarter).1]) beneath

theorem rounded_of_large (large : (2 : ℚ) ^ (1024 : Int) ≤ r) : rounded negative r = .infinite negative := by
  have positive : 0 < r := (two_zpow_pos _).trans_le large
  have high : 1024 ≤ Int.log 2 r := (Int.zpow_le_iff_le_log one_lt_two positive).1 (by rwa [Nat.cast_two])
  have place : 971 < lastPlace r := by
    unfold lastPlace
    omega
  rw [rounded_eq positive rfl, packed_of_gt place]

theorem rounded_of_small (positive : 0 < r) (small : r < (2 : ℚ) ^ (-1075 : Int)) : rounded negative r = .zero negative := by
  have low : Int.log 2 r < -1075 := (Int.lt_zpow_iff_log_lt one_lt_two positive).1 (by rwa [Nat.cast_two])
  have place : lastPlace r = -1074 := by
    unfold lastPlace
    omega
  have none : halfEven (r / 2 ^ (-1074 : Int)) = 0 := by
    refine halfEven_eq ?_
    rw [Nat.cast_zero, sub_zero, abs_of_pos (div_pos positive (two_zpow_pos _)), div_lt_iff₀ (two_zpow_pos _)]
    calc r < 2 ^ (-1075 : Int) := small
      _ = 1 / 2 * 2 ^ (-1074 : Int) := by
        rw [show (-1075 : Int) = -1 + -1074 by norm_num, zpow_add₀ two_ne_zero, zpow_neg_one, one_div]
  rw [rounded_eq positive place, none]
  rfl

end Binary64

namespace Decimal
variable {d : Decimal} {n : Nat}

/-- The size of a decimal number. -/
def size (d : Decimal) : ℚ :=
  d.digits * 10 ^ d.exponent

theorem ten_zpow_pos (exponent : Int) : (0 : ℚ) < 10 ^ exponent := zpow_pos (by norm_num) exponent

theorem width_pos : 0 < width n := Nat.length_toDigits_pos

theorem lt_pow_width : n < 10 ^ width n := (Nat.length_toDigits_le_iff (by decide) width_pos).1 le_rfl

theorem pow_width_le (there : n ≠ 0) : 10 ^ (width n - 1) ≤ n := by
  rcases Nat.eq_zero_or_pos (width n - 1) with zero | more
  · rw [zero]
    exact Nat.pos_of_ne_zero there
  · by_contra below
    have short := (Nat.length_toDigits_le_iff (by decide) more).2 (not_le.1 below)
    have positive := @width_pos n
    have : width n ≤ width n - 1 := short
    omega

/-- The size is between two powers of ten. -/
theorem size_bounds (there : d.digits ≠ 0) :
    10 ^ ((width d.digits : Int) + d.exponent - 1) ≤ d.size ∧ d.size < 10 ^ ((width d.digits : Int) + d.exponent) := by
  have ten : (10 : ℚ) ≠ 0 := by norm_num
  have unit := ten_zpow_pos d.exponent
  constructor
  · have below : (10 : ℚ) ^ ((width d.digits : Int) - 1) ≤ d.digits := by
      have exponent : (width d.digits : Int) - 1 = (width d.digits - 1 : Nat) := by
        have positive := @width_pos d.digits
        omega
      rw [exponent, zpow_natCast]
      exact_mod_cast pow_width_le there
    rw [add_sub_right_comm, zpow_add₀ ten]
    exact mul_le_mul_of_nonneg_right below unit.le
  · have above : (d.digits : ℚ) < 10 ^ (width d.digits : Int) := by
      rw [zpow_natCast]
      exact_mod_cast lt_pow_width
    rw [zpow_add₀ ten]
    exact mul_lt_mul_of_pos_right above unit

theorem le_pow_310 : (2 : ℚ) ^ (1024 : Int) ≤ 10 ^ (310 : Int) := by
  have whole : 2 ^ 1024 ≤ 10 ^ 310 := by decide +kernel
  exact_mod_cast whole

theorem pow_325_lt : (10 : ℚ) ^ (-325 : Int) < 2 ^ (-1075 : Int) := by
  have whole : 2 ^ 1075 < 10 ^ 325 := by decide +kernel
  rw [zpow_neg, zpow_neg, inv_lt_inv₀ (ten_zpow_pos _) (Binary64.two_zpow_pos _)]
  exact_mod_cast whole

/-- A decimal number is rounded from its exact value. -/
theorem nearest_eq : d.nearest = Binary64.rounded d.negative d.size := by
  by_cases none : d.digits = 0
  · unfold nearest Binary64.rounded size
    rw [none, Nat.cast_zero, zero_mul, if_pos le_rfl]
    rfl
  · obtain ⟨low, high⟩ := size_bounds none
    have positive : 0 < d.size := (ten_zpow_pos _).trans_le low
    unfold nearest
    dsimp only
    split
    · next under =>
      simp only [none, decide_false, Bool.false_or, decide_eq_true_eq] at under
      refine (Binary64.rounded_of_small positive ?_).symm
      calc d.size < 10 ^ ((width d.digits : Int) + d.exponent) := high
        _ ≤ 10 ^ (-325 : Int) := zpow_le_zpow_right₀ (by norm_num) (by omega)
        _ < 2 ^ (-1075 : Int) := pow_325_lt
    · split
      · next beyond =>
        refine (Binary64.rounded_of_large ?_).symm
        calc (2 : ℚ) ^ (1024 : Int) ≤ 10 ^ (310 : Int) := le_pow_310
          _ ≤ 10 ^ ((width d.digits : Int) + d.exponent - 1) := zpow_le_zpow_right₀ (by norm_num) (by omega)
          _ ≤ d.size := low
      · rw [Binary64.nearest_eq (Binary64.scaled_pos (by decide) one_pos _), Binary64.scaled_eq (by decide), size]
        simp

end Decimal
end LiveDiagram
