import LiveDiagram.Geometry.Basic
import Mathlib.Algebra.Order.Field.Rat
import Mathlib.Data.Int.Cast.Lemmas

/-! The places of quantities on the number line. Quantities are the same when they are at the same place, so
sameness is symmetric and transitive; only what is nowhere is not the same as itself. -/
namespace LiveDiagram

/-- A number `m * 2 ^ e`. -/
def Binary64.dyadic (m e : Int) : ℚ :=
  m * 2 ^ e

theorem Binary64.aligned_eq {m₁ e₁ m₂ e₂ : Int} :
    (Binary64.aligned m₁ e₁ m₂ e₂).1 = (Binary64.aligned m₁ e₁ m₂ e₂).2 ↔
      Binary64.dyadic m₁ e₁ = Binary64.dyadic m₂ e₂ := by
  have nonzero : (2 : ℚ) ^ min e₁ e₂ ≠ 0 := zpow_ne_zero _ two_ne_zero
  have raised (m e : Int) (above : min e₁ e₂ ≤ e) :
      ((m * (Nat.pow 2 (e - min e₁ e₂).natAbs : Nat) : Int) : ℚ) * 2 ^ min e₁ e₂ = Binary64.dyadic m e := by
    have exponent : ((e - min e₁ e₂).natAbs : Int) = e - min e₁ e₂ := Int.natAbs_of_nonneg (by omega)
    have power : (((Nat.pow 2 (e - min e₁ e₂).natAbs : Nat) : Int) : ℚ) = 2 ^ (e - min e₁ e₂) := by
      rw [← exponent, zpow_natCast]
      exact_mod_cast rfl
    unfold Binary64.dyadic
    rw [Int.cast_mul, power, mul_assoc, ← zpow_add₀ two_ne_zero]
    congr 2
    omega
  have first := raised m₁ e₁ (min_le_left e₁ e₂)
  have second := raised m₂ e₂ (min_le_right e₁ e₂)
  rw [← first, ← second, mul_left_inj' nonzero, Int.cast_inj]
  rfl

namespace Quantity

/-- A place on the number line: a number, or beyond the upper or the lower end. -/
abbrev Place := ℚ ⊕ Bool

def place? (a : Quantity) : Option Place :=
  match a.position with
  | .at m e => some (.inl (Binary64.dyadic m e))
  | .above => some (.inr true)
  | .below => some (.inr false)
  | .nowhere => none

theorem same_iff {a b : Quantity} : a.same b = true ↔ ∃ place, a.place? = some place ∧ b.place? = some place := by
  unfold same place?
  cases a.position with
  | «at» m₁ e₁ =>
    cases b.position with
    | «at» m₂ e₂ =>
      have aligned := @Binary64.aligned_eq m₁ e₁ m₂ e₂
      simp only [beq_iff_eq, aligned, Option.some.injEq, exists_eq_left', Sum.inl.injEq]
      exact eq_comm
    | below | above | nowhere => simp
  | below | above | nowhere => cases b.position <;> simp

instance : PartialEquivBEq Quantity where
  symm same := by
    obtain ⟨place, first, second⟩ := same_iff.1 same
    exact same_iff.2 ⟨place, second, first⟩
  trans same same' := by
    obtain ⟨place, first, second⟩ := same_iff.1 same
    obtain ⟨place', second', third⟩ := same_iff.1 same'
    cases second.symm.trans second'
    exact same_iff.2 ⟨place, first, third⟩

end Quantity
end LiveDiagram
