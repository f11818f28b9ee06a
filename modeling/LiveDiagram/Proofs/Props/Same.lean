import LiveDiagram.Proofs.Number.Value
import LiveDiagram.Proofs.Props.Tidy
import Mathlib.Data.Option.Basic

/-! Sameness of dictionaries without repeated keys: the same keys lead to the same values, in whatever order they
stand. It is an equivalence, by induction on the depth of the first dictionary. -/
namespace LiveDiagram

namespace Scalar
variable {a b c : Scalar}

theorem same_iff : a.same b = true ↔
    a = b ∨ ∃ x y, a.quantity? = some x ∧ b.quantity? = some y ∧ x.same y = true := by
  unfold same
  rw [Bool.or_eq_true, beq_iff_eq]
  apply or_congr Iff.rfl
  cases a.quantity? <;> cases b.quantity? <;> simp

theorem same_refl (a : Scalar) : a.same a = true :=
  same_iff.2 (.inl rfl)

theorem same_symm (same : a.same b = true) : b.same a = true := by
  rcases same_iff.1 same with rfl | ⟨x, y, first, second, equal⟩
  · exact same_refl a
  · have back : (y == x) = true := BEq.symm equal
    exact same_iff.2 (.inr ⟨y, x, second, first, back⟩)

theorem same_trans (same : a.same b = true) (same' : b.same c = true) : a.same c = true := by
  rcases same_iff.1 same with rfl | ⟨x, y, first, second, equal⟩
  · exact same'
  · rcases same_iff.1 same' with rfl | ⟨y', z, second', third, equal'⟩
    · exact same
    · cases second.symm.trans second'
      have through : (x == z) = true := BEq.trans equal equal'
      exact same_iff.2 (.inr ⟨x, z, first, third, through⟩)

end Scalar

namespace Props
variable {p q r rest : Props} {k : String} {v : Value}

theorem within_cons : (cons k v rest).within q = true ↔
    (∃ w, q.get? k = some w ∧ v.same w = true) ∧ rest.within q = true := by
  cases v with
  | scalar s =>
    simp only [cons, within, Bool.and_eq_true]
    apply and_congr _ Iff.rfl
    cases q.get? k with
    | none => simp
    | some w => cases w <;> simp [Value.same]
  | dict d =>
    simp only [cons, within, Bool.and_eq_true]
    apply and_congr _ Iff.rfl
    cases q.get? k with
    | none => simp
    | some w => cases w <;> simp [Value.same, same]

/-- One dictionary is within another when each of its entries has a counterpart there. -/
theorem within_iff (tidy : p.Tidy) :
    p.within q = true ↔ ∀ key v, p.get? key = some v → ∃ w, q.get? key = some w ∧ v.same w = true := by
  induction p using byFirst with
  | nil => simp [within, get?]
  | cons k v rest _ ih =>
    obtain ⟨fresh, _, tidy⟩ := tidy_cons.1 tidy
    rw [within_cons, ih tidy]
    constructor
    · rintro ⟨first, others⟩ other u found
      rw [get?_cons] at found
      split at found
      · next same =>
        cases found
        exact same ▸ first
      · exact others other u found
    · intro all
      refine ⟨all k v (by rw [get?_cons, if_pos rfl]), fun other u found => all other u ?_⟩
      -- No key of a tidy dictionary comes again behind its entry.
      have apart : k ≠ other := by
        rintro rfl
        rw [fresh] at found
        cases found
      rw [get?_cons, if_neg apart]
      exact found

/-- Two values under a key, or none under it on either side. -/
abbrev Paired (v w : Option Value) : Prop :=
  Option.Rel (fun v w => Value.same v w = true) v w

theorem same_iff (tidy : p.Tidy) (tidy' : q.Tidy) :
    p.same q = true ↔ ∀ key, Paired (p.get? key) (q.get? key) := by
  unfold same
  rw [Bool.and_eq_true, beq_iff_eq, within_iff tidy]
  constructor
  · rintro ⟨size, inside⟩ key
    have keys : p.keys.Perm q.keys := by
      refine (tidy.nodup_keys.subperm ?_).perm_of_length_le (by rw [length_keys, length_keys, size])
      intro key member
      obtain ⟨v, found⟩ := Option.isSome_iff_exists.1 (mem_keys.1 member)
      obtain ⟨w, found', _⟩ := inside key v found
      exact mem_keys.2 (by rw [found']; rfl)
    cases found : p.get? key with
    | some v =>
      obtain ⟨w, found', same⟩ := inside key v found
      rw [found']
      exact .some same
    | none =>
      have absent : key ∉ q.keys := by
        rw [← keys.mem_iff, mem_keys, found]
        exact Bool.false_ne_true
      rw [mem_keys, Bool.not_eq_true, Option.isSome_eq_false_iff, Option.isNone_iff_eq_none] at absent
      rw [absent]
      exact .none
  · intro paired
    refine ⟨?_, fun key v found => ?_⟩
    · have keys : p.keys.Perm q.keys := by
        refine (List.perm_ext_iff_of_nodup tidy.nodup_keys tidy'.nodup_keys).2 fun key => ?_
        rw [mem_keys, mem_keys]
        have own := paired key
        revert own
        cases p.get? key <;> cases q.get? key <;> simp
      rw [← length_keys, ← length_keys, keys.length_eq]
    · have own := paired key
      rw [found] at own
      revert own
      cases q.get? key <;> simp

/-- What holds of a dictionary when it holds of all dictionaries in its entries holds of all. -/
theorem byEntries {motive : Props → Prop}
    (step : ∀ p, (∀ key d, p.get? key = some (.dict d) → motive d) → motive p) (p : Props) : motive p := by
  have shallower (key : String) (d : Props) : ∀ p : Props, p.get? key = some (.dict d) → sizeOf d < sizeOf p := by
    intro p found
    induction p with
    | nil => cases found
    | leaf k v rest ih =>
      simp only [get?] at found
      split at found
      · cases found
      · have rest := ih found
        simp only [leaf.sizeOf_spec]
        omega
    | node k sub rest _ ih =>
      simp only [get?] at found
      simp only [node.sizeOf_spec]
      split at found
      · cases found
        omega
      · have rest := ih found
        omega
  induction size : sizeOf p using Nat.strongRecOn generalizing p with
  | _ n ih => exact step p fun key d found => ih (sizeOf d) (size ▸ shallower key d p found) d rfl

theorem same_refl (tidy : p.Tidy) : p.same p = true := by
  induction p using byEntries with
  | step p ih =>
    refine (same_iff tidy tidy).2 fun key => ?_
    cases found : p.get? key with
    | none => exact .none
    | some v =>
      refine .some ?_
      cases v with
      | scalar v => exact Scalar.same_refl v
      | dict d => exact ih key d found (tidy.get? found)

theorem same_symm (tidy : p.Tidy) (tidy' : q.Tidy) (same : p.same q = true) : q.same p = true := by
  induction p using byEntries generalizing q with
  | step p ih =>
    rw [same_iff tidy tidy'] at same
    refine (same_iff tidy' tidy).2 fun key => ?_
    have own := same key
    generalize found : p.get? key = v, found' : q.get? key = w at own
    cases own with
    | none => exact .none
    | @some v w equal =>
      refine .some ?_
      cases v <;> cases w
      · exact Scalar.same_symm equal
      · cases equal
      · cases equal
      · exact ih key _ found (tidy.get? found) (tidy'.get? found') equal

theorem same_trans (tidy : p.Tidy) (tidy' : q.Tidy) (tidy'' : r.Tidy) (same : p.same q = true)
    (same' : q.same r = true) : p.same r = true := by
  induction p using byEntries generalizing q r with
  | step p ih =>
    rw [same_iff tidy tidy'] at same
    rw [same_iff tidy' tidy''] at same'
    refine (same_iff tidy tidy'').2 fun key => ?_
    have first := same key
    have second := same' key
    generalize found : p.get? key = u, found' : q.get? key = v, found'' : r.get? key = w at first second
    cases first with
    | none => exact second
    | @some u v equal =>
      cases second with
      | @some _ w equal' =>
        refine .some ?_
        cases u <;> cases v <;> cases w
        · exact Scalar.same_trans equal equal'
        · cases equal'
        · cases equal
        · cases equal
        · cases equal
        · cases equal
        · cases equal'
        · exact ih key _ found (tidy.get? found) (tidy'.get? found') (tidy''.get? found'') equal equal'

end Props
end LiveDiagram
