import LiveDiagram.Proofs.Props.Tidy

/-! Bringing entries to a dictionary once more. Setting what a key holds leaves a dictionary as it is, and two dictionaries
with the same keys in the same order are equal when they hold the same. -/
namespace LiveDiagram.Props

variable {p q rest : Props} {key k : String} {value v : Value}

/-- Setting what a key holds already changes nothing. -/
theorem set_eq_self (held : p.get? key = some value) : p.set key value = p := by
  induction p using byFirst with
  | nil => cases held
  | cons k v rest _ ih =>
    rw [get?_cons] at held
    rw [set_cons]
    split at held
    · next own =>
      cases held
      rw [if_pos own]
    · next other => rw [if_neg other, ih held]

/-- What the later entries of a tidy dictionary hold, the dictionary holds. -/
theorem get?_cons_of_tidy (tidy : (cons k v rest).Tidy) (inside : rest.get? key = some value) :
    (cons k v rest).get? key = some value := by
  rw [get?_cons, if_neg, inside]
  rintro rfl
  rw [(tidy_cons.1 tidy).1] at inside
  cases inside

theorem keys_set (known : key ∈ p.keys) : (p.set key value).keys = p.keys := by
  induction p using byFirst with
  | nil => cases known
  | cons k v rest _ ih =>
    rw [keys_cons, List.mem_cons] at known
    rw [set_cons]
    split
    · rw [keys_cons, keys_cons]
    · next other => rw [keys_cons, keys_cons, ih (known.resolve_left (Ne.symm other))]

theorem mem_keys_set : k ∈ (p.set key value).keys ↔ key = k ∨ k ∈ p.keys := by
  rw [mem_keys, mem_keys, get?_set]
  split <;> simp [*]

theorem keys_overlay (known : ∀ key ∈ q.keys, key ∈ p.keys) : (p.overlay q).keys = p.keys := by
  induction q using byFirst generalizing p with
  | nil => rfl
  | cons k v rest _ ih =>
    rw [keys_cons] at known
    rw [overlay_cons, ih fun key inside => mem_keys_set.2 (.inr (known key (List.mem_cons_of_mem k inside))),
      keys_set (known k List.mem_cons_self)]

theorem get?_overlay (tidy : q.Tidy) : (p.overlay q).get? key = (q.get? key).or (p.get? key) := by
  induction q using byFirst generalizing p with
  | nil => rfl
  | cons k v rest _ ih =>
    obtain ⟨fresh, _, tidy⟩ := tidy_cons.1 tidy
    rw [overlay_cons, ih tidy, get?_set, get?_cons]
    split
    · next own =>
      subst own
      rw [fresh]
      rfl
    · rfl

/-- A tidy dictionary is known by its keys and what they hold. -/
theorem ext_keys (tidy : p.Tidy) (tidy' : q.Tidy) (keys : p.keys = q.keys) (held : ∀ key, p.get? key = q.get? key) :
    p = q := by
  induction p using byFirst generalizing q with
  | nil =>
    obtain rfl | ⟨k', v', rest', rfl⟩ := nil_or_cons q
    · rfl
    · rw [keys_cons] at keys
      cases keys
  | cons k v rest _ ih =>
    rw [keys_cons] at keys
    obtain rfl | ⟨k', v', rest', rfl⟩ := nil_or_cons q
    · cases keys
    rw [keys_cons, List.cons.injEq] at keys
    obtain ⟨rfl, later⟩ := keys
    simp only [get?_cons] at held
    have own : v = v' := by simpa using held k
    obtain ⟨fresh, _, tidy⟩ := tidy_cons.1 tidy
    obtain ⟨fresh', _, tidy'⟩ := tidy_cons.1 tidy'
    rw [own, ih tidy tidy' later fun key => ?_]
    by_cases same : k = key
    · rw [← same, fresh, fresh']
    · simpa only [same, if_false] using held key

end LiveDiagram.Props
