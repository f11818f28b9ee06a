import LiveDiagram.Assoc
import Mathlib.Data.List.Nodup

/-! Looking up what was put into an association list. -/
namespace LiveDiagram.Assoc

variable {κ β : Type} [DecidableEq κ] {entries more : List (κ × β)} {key x : κ} {value : β}
  {change : Option β → β}

theorem mem_put {entry : κ × β} (member : entry ∈ put entries key value) :
    entry ∈ entries ∨ entry = (key, value) := by
  induction entries with
  | nil => exact .inr (List.mem_singleton.1 member)
  | cons first rest ih =>
    unfold put alter at member
    split at member
    · next same =>
      rcases List.mem_cons.1 member with new | old
      · exact .inr (new.trans (by rw [same]))
      · exact .inl (List.mem_cons_of_mem _ old)
    · rcases List.mem_cons.1 member with old | later
      · exact .inl (List.mem_cons.2 (.inl old))
      · exact (ih later).imp_left fun old => List.mem_cons_of_mem _ old

theorem mem_putAll {entry : κ × β} (member : entry ∈ putAll entries more) : entry ∈ entries ∨ entry ∈ more := by
  induction more generalizing entries with
  | nil => exact .inl member
  | cons first rest ih =>
    rcases ih member with placed | later
    · rcases mem_put placed with old | rfl
      · exact .inl old
      · exact .inr List.mem_cons_self
    · exact .inr (List.mem_cons_of_mem _ later)

/-- A key stays in its place, and a new one goes last. -/
theorem keys_alter : (alter key change entries).map Prod.fst =
    if key ∈ entries.map Prod.fst then entries.map Prod.fst else entries.map Prod.fst ++ [key] := by
  induction entries with
  | nil => simp [alter]
  | cons first rest ih =>
    unfold alter
    by_cases same : first.1 = key
    · simp [same]
    · rw [if_neg same, List.map_cons, ih, List.map_cons]
      by_cases later : key ∈ rest.map Prod.fst
      · rw [if_pos later, if_pos (List.mem_cons_of_mem _ later)]
      · rw [if_neg later, if_neg (by simp [later, Ne.symm same]), List.cons_append]

theorem mem_keys_alter : x ∈ (alter key change entries).map Prod.fst ↔ x ∈ entries.map Prod.fst ∨ x = key := by
  rw [keys_alter]
  split
  · next known => exact ⟨.inl, fun either => either.elim id (· ▸ known)⟩
  · rw [List.mem_append, List.mem_singleton]

theorem mem_keys_put : x ∈ (put entries key value).map Prod.fst ↔ x ∈ entries.map Prod.fst ∨ x = key :=
  mem_keys_alter

theorem nodup_keys_put (distinct : (entries.map Prod.fst).Nodup) : ((put entries key value).map Prod.fst).Nodup := by
  induction entries with
  | nil => exact List.nodup_singleton key
  | cons first rest ih =>
    rw [List.map_cons, List.nodup_cons] at distinct
    unfold put alter
    split
    · exact List.nodup_cons.2 distinct
    · next other =>
      refine List.nodup_cons.2 ⟨fun member => ?_, ih distinct.2⟩
      rcases mem_keys_put.1 member with old | same
      · exact distinct.1 old
      · exact other same

theorem mem_keys_putAll : x ∈ (putAll entries more).map Prod.fst ↔ x ∈ entries.map Prod.fst ∨ x ∈ more.map Prod.fst := by
  induction more generalizing entries with
  | nil => simp [putAll]
  | cons first rest ih =>
    refine ih.trans ?_
    rw [mem_keys_put, List.map_cons, List.mem_cons, or_assoc]

theorem nodup_keys_putAll (distinct : (entries.map Prod.fst).Nodup) : ((putAll entries more).map Prod.fst).Nodup := by
  induction more generalizing entries with
  | nil => exact distinct
  | cons first rest ih => exact ih (nodup_keys_put distinct)

/-- A new key goes last. -/
theorem put_of_not_mem (fresh : key ∉ entries.map Prod.fst) : put entries key value = entries ++ [(key, value)] := by
  induction entries with
  | nil => rfl
  | cons first rest ih =>
    rw [List.map_cons, List.mem_cons, not_or] at fresh
    unfold put at ih ⊢
    rw [alter, if_neg fun same => fresh.1 same.symm, ih fresh.2, List.cons_append]

/-- Entries with new keys go last, in their order. -/
theorem putAll_of_nodup (distinct : ((entries ++ more).map Prod.fst).Nodup) : putAll entries more = entries ++ more := by
  induction more generalizing entries with
  | nil => exact (List.append_nil entries).symm
  | cons first rest ih =>
    obtain ⟨key, value⟩ := first
    rw [List.append_cons] at distinct ⊢
    have fresh : key ∉ entries.map Prod.fst := by
      rw [List.map_append, List.map_append, List.append_assoc] at distinct
      exact fun member => (List.nodup_append.1 distinct).2.2 key member key List.mem_cons_self rfl
    rw [← ih distinct, ← put_of_not_mem fresh]
    rfl

theorem get?_alter : get? (alter key change entries) x = if x = key then some (change (get? entries key)) else get? entries x := by
  have same {k : κ} {v : β} {rest : List (κ × β)} : get? ((k, v) :: rest) k = some v := by simp [get?]
  have other {k k' : κ} {v : β} {rest : List (κ × β)} (apart : k ≠ k') : get? ((k, v) :: rest) k' = get? rest k' := by
    simp [get?, apart]
  induction entries with
  | nil =>
    by_cases here : x = key
    · rw [here, alter, same, if_pos rfl]
      rfl
    · rw [alter, other (Ne.symm here), if_neg here]
  | cons first rest ih =>
    obtain ⟨k, v⟩ := first
    unfold alter
    by_cases mine : k = key
    · subst mine
      rw [if_pos rfl, same]
      by_cases here : x = k
      · rw [here, same, if_pos rfl]
      · rw [other (Ne.symm here), other (Ne.symm here), if_neg here]
    · rw [if_neg mine, other mine]
      by_cases first : k = x
      · subst first
        rw [same, if_neg mine, same]
      · rw [other first, ih, other first]

theorem mem_of_get? (found : get? entries key = some value) : (key, value) ∈ entries := by
  obtain ⟨entry, lookup, rfl⟩ := Option.map_eq_some_iff.1 found
  have named := List.find?_some lookup
  rw [decide_eq_true_eq] at named
  exact named ▸ List.mem_of_find?_eq_some lookup

theorem get?_eq_some_iff (distinct : (entries.map Prod.fst).Nodup) :
    get? entries key = some value ↔ (key, value) ∈ entries := by
  refine ⟨mem_of_get?, fun member => ?_⟩
  induction entries with
  | nil => cases member
  | cons first rest ih =>
    rw [List.map_cons, List.nodup_cons] at distinct
    rcases List.mem_cons.1 member with rfl | later
    · simp [get?]
    · have other : first.1 ≠ key := fun same => distinct.1 (same ▸ List.mem_map_of_mem (f := Prod.fst) later)
      rw [← ih distinct.2 later]
      simp [get?, other]

theorem get?_put : get? (put entries key value) x = if x = key then some value else get? entries x :=
  get?_alter

/-- One value for several keys. -/
theorem get?_foldl_put {γ : Type} {xs : List γ} {keyOf : γ → κ} :
    get? (xs.foldl (fun found x => put found (keyOf x) value) entries) key =
      if key ∈ xs.map keyOf then some value else get? entries key := by
  induction xs generalizing entries with
  | nil => simp
  | cons x rest ih =>
    rw [List.foldl_cons, ih, get?_put]
    by_cases later : key ∈ rest.map keyOf
    · simp [later]
    · by_cases own : key = keyOf x <;> simp [later, own]

theorem nodup_keys_foldl_put {γ : Type} {xs : List γ} {keyOf : γ → κ} (distinct : (entries.map Prod.fst).Nodup) :
    ((xs.foldl (fun found x => put found (keyOf x) value) entries).map Prod.fst).Nodup := by
  induction xs generalizing entries with
  | nil => exact distinct
  | cons x rest ih => exact ih (nodup_keys_put distinct)

end LiveDiagram.Assoc
