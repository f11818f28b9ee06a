import LiveDiagram.Props.Merge
import Mathlib.Data.List.Nodup
import Mathlib.Data.List.Perm.Subperm

/-! Dictionaries in which no key stands twice. Setting, erasing, merging and overlaying entries keeps them so. -/
namespace LiveDiagram

/-- No key twice, at any depth. -/
def Props.Tidy : Props → Prop
  | .nil => True
  | .leaf key _ rest => rest.get? key = none ∧ rest.Tidy
  | .node key sub rest => rest.get? key = none ∧ sub.Tidy ∧ rest.Tidy

def Value.Tidy : Value → Prop
  | .scalar _ => True
  | .dict d => d.Tidy

namespace Props
variable {p q rest : Props} {key other k : String} {value v : Value}

/-- Induction over the entries of a dictionary, and the dictionaries in them. -/
theorem byFirst {motive : Props → Prop} (nil : motive .nil)
    (cons : ∀ key value rest, (∀ d, value = .dict d → motive d) → motive rest → motive (cons key value rest))
    (p : Props) : motive p := by
  induction p with
  | nil => exact nil
  | leaf k v rest ih => exact cons k (.scalar v) rest (by simp) ih
  | node k sub rest below ih => exact cons k (.dict sub) rest (by rintro _ ⟨⟩; exact below) ih

theorem nil_or_cons (p : Props) : p = nil ∨ ∃ key value rest, p = cons key value rest := by
  cases p with
  | nil => exact .inl rfl
  | leaf k v rest => exact .inr ⟨k, .scalar v, rest, rfl⟩
  | node k sub rest => exact .inr ⟨k, .dict sub, rest, rfl⟩

theorem get?_cons : (cons key value rest).get? other = if key = other then some value else rest.get? other := by
  cases value <;> rfl

theorem tidy_cons : (cons key value rest).Tidy ↔ rest.get? key = none ∧ value.Tidy ∧ rest.Tidy := by
  cases value
  · simp [cons, Tidy, Value.Tidy]
  · rfl

theorem keys_cons : (cons k v rest).keys = k :: rest.keys := by
  cases v <;> rfl

theorem toList_cons : (cons k v rest).toList = (k, v) :: rest.toList := by
  cases v <;> rfl

theorem set_cons :
    (cons k v rest).set key value = if k = key then cons k value rest else cons k v (rest.set key value) := by
  cases v <;> rfl

theorem erase_cons : (cons k v rest).erase key = if k = key then rest else cons k v (rest.erase key) := by
  cases v <;> rfl

theorem overlay_cons : p.overlay (cons k v rest) = (p.set k v).overlay rest := by
  cases v <;> rfl

theorem get?_set : (p.set key value).get? other = if key = other then some value else p.get? other := by
  induction p using byFirst with
  | nil => exact get?_cons
  | cons k v rest _ ih =>
    rw [set_cons]
    by_cases own : k = key
    · rw [if_pos own, get?_cons, get?_cons, own]
      split <;> rfl
    · rw [if_neg own, get?_cons, get?_cons, ih]
      by_cases same : k = other
      · rw [if_pos same, if_pos same, if_neg (same ▸ Ne.symm own)]
      · rw [if_neg same, if_neg same]

theorem get?_erase_of_ne (apart : key ≠ other) : (p.erase key).get? other = p.get? other := by
  induction p using byFirst with
  | nil => rfl
  | cons k v rest _ ih =>
    rw [erase_cons]
    split
    · next own => rw [get?_cons, if_neg (own ▸ apart)]
    · rw [get?_cons, get?_cons, ih]

namespace Tidy

theorem set (tidy : p.Tidy) (value' : value.Tidy) : (p.set key value).Tidy := by
  induction p using byFirst with
  | nil => exact tidy_cons.2 ⟨rfl, value', trivial⟩
  | cons k v rest _ ih =>
    obtain ⟨fresh, own, others⟩ := tidy_cons.1 tidy
    rw [set_cons]
    split
    · exact tidy_cons.2 ⟨fresh, value', others⟩
    · next apart =>
      refine tidy_cons.2 ⟨?_, own, ih others⟩
      rw [get?_set, if_neg (Ne.symm apart)]
      exact fresh

theorem erase (tidy : p.Tidy) : (p.erase key).Tidy := by
  induction p using byFirst with
  | nil => exact tidy
  | cons k v rest _ ih =>
    obtain ⟨fresh, own, others⟩ := tidy_cons.1 tidy
    rw [erase_cons]
    split
    · exact others
    · next apart => exact tidy_cons.2 ⟨(get?_erase_of_ne (Ne.symm apart)).trans fresh, own, ih others⟩

/-- What a tidy dictionary holds is tidy. -/
theorem get? (tidy : p.Tidy) (found : p.get? key = some value) : value.Tidy := by
  induction p using byFirst with
  | nil => cases found
  | cons k v rest _ ih =>
    obtain ⟨_, own, others⟩ := tidy_cons.1 tidy
    rw [get?_cons] at found
    split at found
    · cases found
      exact own
    · exact ih others found

theorem overlay (tidy : p.Tidy) (more : q.Tidy) : (p.overlay q).Tidy := by
  induction q using byFirst generalizing p with
  | nil => exact tidy
  | cons k v rest _ ih =>
    obtain ⟨_, own, others⟩ := tidy_cons.1 more
    rw [overlay_cons]
    exact ih (tidy.set own) others

theorem merge {override : Bool} (tidy : p.Tidy) (more : q.Tidy) : (p.merge override q).Tidy := by
  induction q generalizing p with
  | nil => exact tidy
  | leaf k v rest ih =>
    unfold Props.merge
    refine ih ?_ more.2
    split
    · exact tidy.set trivial
    · exact tidy
  | node k sub rest below ih =>
    unfold Props.merge
    refine ih ?_ more.2.2
    split
    · next current found => exact tidy.set (below (tidy.get? found) more.2.1)
    · split
      · exact tidy.set (below (p := .nil) trivial more.2.1)
      · exact tidy

end Tidy

/-! Keys -/

theorem mem_keys : key ∈ p.keys ↔ (p.get? key).isSome = true := by
  induction p using byFirst with
  | nil => simp [keys, get?]
  | cons k v rest _ ih =>
    rw [keys_cons, List.mem_cons, ih, get?_cons]
    by_cases own : k = key
    · simp [own]
    · simp [own, Ne.symm own]

theorem length_keys : p.keys.length = p.size := by
  induction p with
  | nil => rfl
  | leaf k v rest ih => exact congrArg (· + 1) ih
  | node k sub rest _ ih => exact congrArg (· + 1) ih

theorem Tidy.nodup_keys (tidy : p.Tidy) : p.keys.Nodup := by
  induction p using byFirst with
  | nil => exact List.nodup_nil
  | cons k v rest _ ih =>
    obtain ⟨fresh, _, others⟩ := tidy_cons.1 tidy
    rw [keys_cons]
    refine List.nodup_cons.2 ⟨?_, ih others⟩
    simp [mem_keys, fresh]

end Props
end LiveDiagram
