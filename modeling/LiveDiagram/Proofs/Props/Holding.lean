import LiveDiagram.Proofs.Connector.Residue
import LiveDiagram.Proofs.Props.Repeating

/-! Dictionaries that hold what others say. Merging what is held already changes nothing, and what is merged from parts
that are held is held. -/
namespace LiveDiagram

namespace Props

/-- Whether a dictionary holds all that another one says, further in as well. -/
def Holds : Props → Props → Prop
  | _, nil => True
  | p, leaf k v rest => p.get? k = some (.scalar v) ∧ p.Holds rest
  | p, node k sub rest => (∃ d, p.get? k = some (.dict d) ∧ d.Holds sub) ∧ p.Holds rest

instance decidableHolds : (p q : Props) → Decidable (p.Holds q)
  | _, nil => .isTrue trivial
  | p, leaf k v rest => @instDecidableAnd (p.get? k = some (.scalar v)) (p.Holds rest) inferInstance (decidableHolds p rest)
  | p, node k sub rest =>
    haveI : Decidable (∃ d, p.get? k = some (.dict d) ∧ d.Holds sub) :=
      match found : p.get? k with
      | some (.dict d) =>
        haveI := decidableHolds d sub
        decidable_of_iff (d.Holds sub) (by simp)
      | some (.scalar _) => .isFalse (by simp)
      | none => .isFalse (by simp)
    @instDecidableAnd _ (p.Holds rest) this (decidableHolds p rest)

/-- Whether a dictionary holds what another one says under a key. -/
def HoldsAt (p : Props) (key : String) : Value → Prop
  | .scalar v => p.get? key = some (.scalar v)
  | .dict sub => ∃ d, p.get? key = some (.dict d) ∧ d.Holds sub

variable {p p' q rest : Props} {key k : String} {value v : Value}

theorem holds_cons : p.Holds (cons k v rest) ↔ p.HoldsAt k v ∧ p.Holds rest := by
  cases v <;> rfl

/-- Merging what is held changes nothing. -/
theorem merge_of_holds (holds : p.Holds q) : p.merge true q = p := by
  induction q generalizing p with
  | nil => rfl
  | leaf k v rest ih =>
    rw [merge, Bool.or_true, if_pos rfl, set_eq_self holds.1]
    exact ih holds.2
  | node k sub rest below ih =>
    obtain ⟨⟨d, found, inner⟩, later⟩ := holds
    rw [merge, found]
    dsimp only
    rw [below inner, set_eq_self found]
    exact ih later

theorem Holds.get? (holds : p.Holds q) (found : q.get? key = some value) : p.HoldsAt key value := by
  induction q using byFirst with
  | nil => cases found
  | cons k v rest _ ih =>
    obtain ⟨own, later⟩ := holds_cons.1 holds
    rw [get?_cons] at found
    split at found
    · next same =>
      cases found
      exact same ▸ own
    · exact ih later found

theorem Holds.set (holds : p.Holds q) (own : p.HoldsAt key value) : p.Holds (q.set key value) := by
  induction q using byFirst with
  | nil => exact holds_cons.2 ⟨own, trivial⟩
  | cons k v rest _ ih =>
    obtain ⟨first, later⟩ := holds_cons.1 holds
    rw [set_cons]
    split
    · next same => exact holds_cons.2 ⟨same ▸ own, later⟩
    · exact holds_cons.2 ⟨first, ih later⟩

theorem Holds.erase (holds : p.Holds q) : p.Holds (q.erase key) := by
  induction q using byFirst with
  | nil => trivial
  | cons k v rest _ ih =>
    obtain ⟨first, later⟩ := holds_cons.1 holds
    rw [erase_cons]
    split
    · exact later
    · exact holds_cons.2 ⟨first, ih later⟩

theorem Holds.mono (more : ∀ key value, p.get? key = some value → p'.get? key = some value) (holds : p.Holds q) :
    p'.Holds q := by
  induction q with
  | nil => trivial
  | leaf k v rest ih => exact ⟨more _ _ holds.1, ih holds.2⟩
  | node k sub rest _ ih =>
    obtain ⟨⟨d, found, inner⟩, later⟩ := holds
    exact ⟨⟨d, more _ _ found, inner⟩, ih later⟩

/-- What is merged from parts that are held is held. -/
theorem Holds.merge (holds : p.Holds q) (more : p.Holds p') : p.Holds (q.merge true p') := by
  induction p' generalizing p q with
  | nil => exact holds
  | leaf k v rest ih =>
    rw [Props.merge, Bool.or_true, if_pos rfl]
    exact ih (holds.set more.1) more.2
  | node k sub rest below ih =>
    obtain ⟨⟨d, found, inner⟩, later⟩ := more
    rw [Props.merge]
    refine ih ?_ later
    split
    · next current known =>
      obtain ⟨d', found', held⟩ := holds.get? known
      cases found.symm.trans found'
      exact holds.set ⟨d, found, below held inner⟩
    · split
      · exact holds.set ⟨d, found, below (q := nil) trivial inner⟩
      · exact holds

theorem Tidy.holds (tidy : p.Tidy) : p.Holds p := by
  induction p using byFirst with
  | nil => trivial
  | cons k v rest below ih =>
    obtain ⟨_, inner, later⟩ := tidy_cons.1 tidy
    refine holds_cons.2 ⟨?_, (ih later).mono fun key value => get?_cons_of_tidy tidy⟩
    have own : (cons k v rest).get? k = some v := by rw [get?_cons, if_pos rfl]
    cases v with
    | scalar s => exact own
    | dict d => exact ⟨d, own, below d rfl inner⟩

end Props

namespace Connector
variable {p q : Props}

theorem holds_dropping {key : String} {drop : Props → Props} (holds : p.Holds q)
    (drops : ∀ d d' : Props, d.Holds d' → d.Holds (drop d')) : p.Holds (dropping q key drop) := by
  rcases dropping_cases q key drop with same | same | ⟨d, found, _, same⟩
  · rw [same]
    exact holds
  · rw [same]
    exact holds.erase
  · obtain ⟨d', found', inner⟩ := holds.get? found
    rw [same]
    exact holds.set ⟨d', found', drops d' d inner⟩

/-- What a connector leaves of props is held by them. -/
theorem holds_residue (tidy : p.Tidy) : p.Holds (residue p) := by
  unfold residue
  refine holds_dropping (holds_dropping tidy.holds fun d d' holds => ?_) fun _ _ holds => holds.erase.erase
  exact holds_dropping (holds_dropping holds fun _ _ holds => holds.erase) fun _ _ holds => holds.erase

end Connector
end LiveDiagram
