import LiveDiagram.Props.Codec
import LiveDiagram.Proofs.Props.Tidy

/-! The leaves of a dictionary with their paths. Setting them one after the other in a dictionary that knows none of the
keys puts the entries behind those that are there. -/
namespace LiveDiagram.Props

variable {p q : Props} {key : String} {value other : Value}

/-- The scalars of a dictionary with the keys that lead to them, depth first. -/
def leaves : Props → List (List String × Scalar)
  | nil => []
  | leaf key value rest => ([key], value) :: rest.leaves
  | node key sub rest => sub.leaves.map (fun l => (key :: l.1, l.2)) ++ rest.leaves

/-- No empty dictionary inside. -/
def Full : Props → Prop
  | nil => True
  | leaf _ _ rest => rest.Full
  | node _ sub rest => sub ≠ nil ∧ sub.Full ∧ rest.Full

/-- Sets scalars at their paths, one after the other. -/
def assign (p : Props) (entries : List (List String × Scalar)) : Props :=
  entries.foldl (fun p entry => p.setPath entry.1 entry.2) p

/-- Whether the first dictionary knows no key of the second. -/
def Apart (p q : Props) : Prop :=
  ∀ key, (q.get? key).isSome = true → p.get? key = none

theorem toList_inj (same : p.toList = q.toList) : p = q := by
  induction p using byFirst generalizing q with
  | nil =>
    obtain rfl | ⟨k', v', rest', rfl⟩ := nil_or_cons q
    · rfl
    · rw [toList_cons] at same
      cases same
  | cons k v rest _ ih =>
    rw [toList_cons] at same
    obtain rfl | ⟨k', v', rest', rfl⟩ := nil_or_cons q
    · cases same
    · rw [toList_cons, List.cons.injEq, Prod.mk.injEq] at same
      obtain ⟨⟨rfl, rfl⟩, later⟩ := same
      rw [ih later]

/-- A new key goes last. -/
theorem toList_set (fresh : p.get? key = none) : (p.set key value).toList = p.toList ++ [(key, value)] := by
  induction p using byFirst with
  | nil => exact toList_cons
  | cons k v rest _ ih =>
    rw [get?_cons] at fresh
    split at fresh
    · cases fresh
    · next apart => rw [set_cons, if_neg apart, toList_cons, toList_cons, ih fresh, List.cons_append]

theorem set_set : (p.set key value).set key other = p.set key other := by
  induction p using byFirst with
  | nil => exact set_cons.trans (if_pos rfl)
  | cons k v rest _ ih =>
    rw [set_cons, set_cons]
    by_cases own : k = key
    · rw [if_pos own, if_pos own, set_cons, if_pos own]
    · rw [if_neg own, if_neg own, set_cons, if_neg own, ih]

theorem Apart.set (apart : p.Apart q) (fresh : q.get? key = none) : (p.set key value).Apart q := by
  intro k known
  have other : key ≠ k := by
    rintro rfl
    rw [fresh] at known
    cases known
  rw [get?_set, if_neg other]
  exact apart k known

theorem apart_cons {k : String} {v : Value} {rest : Props} (apart : p.Apart (cons k v rest)) :
    p.get? k = none ∧ p.Apart rest := by
  constructor
  · exact apart k (by rw [get?_cons, if_pos rfl]; rfl)
  · intro key known
    apply apart key
    rw [get?_cons]
    split
    · rfl
    · exact known

theorem apart_nil : nil.Apart p := fun _ _ => rfl

/-- New entries are laid behind those that are there. -/
theorem toList_overlay (tidy : q.Tidy) (apart : p.Apart q) : (p.overlay q).toList = p.toList ++ q.toList := by
  induction q using byFirst generalizing p with
  | nil => exact (List.append_nil _).symm
  | cons k v rest _ ih =>
    obtain ⟨fresh, others⟩ := apart_cons apart
    obtain ⟨first, _, tidy⟩ := tidy_cons.1 tidy
    rw [overlay_cons, ih tidy (others.set first), toList_set fresh, List.append_assoc, toList_cons, List.singleton_append]

theorem nil_overlay (tidy : p.Tidy) : nil.overlay p = p :=
  toList_inj (toList_overlay tidy apart_nil)

/-- Merging new entries lays them behind those that are there. -/
theorem merge_of_apart {override : Bool} (tidy : q.Tidy) (apart : p.Apart q) : p.merge override q = p.overlay q := by
  induction q generalizing p with
  | nil => rfl
  | leaf key v rest ih =>
    obtain ⟨fresh, others⟩ := apart_cons (v := .scalar v) apart
    rw [merge, overlay, contains, fresh, Option.isSome_none, Bool.not_false, Bool.true_or, if_pos rfl]
    exact ih tidy.2 (others.set tidy.1)
  | node key sub rest below ih =>
    obtain ⟨fresh, others⟩ := apart_cons (v := .dict sub) apart
    have whole : nil.merge override sub = sub := (below tidy.2.1 apart_nil).trans (nil_overlay tidy.2.1)
    rw [merge, overlay, fresh]
    simp only [givesWay, if_true, whole]
    exact ih tidy.2.2 (others.set tidy.1)

theorem nil_merge {override : Bool} (tidy : p.Tidy) : nil.merge override p = p :=
  (merge_of_apart tidy apart_nil).trans (nil_overlay tidy)

/-! Paths -/

/-- The dictionary under a key, the empty one where there is none. -/
def dictAt (p : Props) (key : String) : Props :=
  match p.get? key with
  | some (.dict d) => d
  | _ => nil

theorem dictAt_set {d : Props} : (p.set key (.dict d)).dictAt key = d := by
  rw [dictAt, get?_set, if_pos rfl]

theorem setPath_cons {path : List String} (nonempty : path ≠ []) (v : Scalar) :
    p.setPath (key :: path) v = p.set key (.dict ((p.dictAt key).setPath path v)) := by
  cases path with
  | nil => exact (nonempty rfl).elim
  | cons next path => rfl

/-- What is assigned below a key makes up the dictionary there. -/
theorem assign_below {entries : List (List String × Scalar)} (nonempty : entries ≠ [])
    (paths : ∀ entry ∈ entries, entry.1 ≠ []) :
    p.assign (entries.map fun l => (key :: l.1, l.2)) = p.set key (.dict ((p.dictAt key).assign entries)) := by
  induction entries generalizing p with
  | nil => exact (nonempty rfl).elim
  | cons entry more ih =>
    have own := paths entry List.mem_cons_self
    have step : p.assign ((entry :: more).map fun l => (key :: l.1, l.2)) =
        (p.set key (.dict ((p.dictAt key).setPath entry.1 entry.2))).assign
          (more.map fun l => (key :: l.1, l.2)) := by
      rw [← setPath_cons own entry.2]
      rfl
    rw [step]
    cases more with
    | nil => rfl
    | cons next more =>
      rw [ih (List.cons_ne_nil _ _) fun x member => paths x (List.mem_cons_of_mem entry member), dictAt_set, set_set]
      rfl

theorem leaves_ne_nil (full : p.Full) (nonempty : p ≠ nil) : p.leaves ≠ [] := by
  induction p with
  | nil => exact (nonempty rfl).elim
  | leaf => exact List.cons_ne_nil _ _
  | node key sub rest below _ =>
    intro none
    exact below full.2.1 full.1 (List.map_eq_nil_iff.1 (List.append_eq_nil_iff.1 none).1)

theorem path_ne_nil {entry : List String × Scalar} (member : entry ∈ p.leaves) : entry.1 ≠ [] := by
  induction p with
  | nil => cases member
  | leaf key v rest ih =>
    rcases List.mem_cons.1 member with rfl | later
    · exact List.cons_ne_nil _ _
    · exact ih later
  | node key sub rest _ ih =>
    rcases List.mem_append.1 member with inside | later
    · obtain ⟨l, _, rfl⟩ := List.mem_map.1 inside
      exact List.cons_ne_nil _ _
    · exact ih later

/-- What holds of the leaves of a dictionary holds of those below each key. -/
theorem forall_leaves_node {holds : Scalar → Prop} {sub rest : Props} :
    (∀ l ∈ (node key sub rest).leaves, holds l.2) ↔ (∀ l ∈ sub.leaves, holds l.2) ∧ ∀ l ∈ rest.leaves, holds l.2 := by
  rw [leaves, List.forall_mem_append, List.forall_mem_map]

/-- Assigning all leaves of a dictionary lays its entries behind those that are there. -/
theorem assign_leaves (tidy : q.Tidy) (full : q.Full) (apart : p.Apart q) : p.assign q.leaves = p.overlay q := by
  induction q generalizing p with
  | nil => rfl
  | leaf key v rest ih =>
    obtain ⟨fresh, others⟩ := apart_cons (v := .scalar v) apart
    exact ih tidy.2 full (others.set tidy.1)
  | node key sub rest inner ih =>
    obtain ⟨fresh, others⟩ := apart_cons (v := .dict sub) apart
    have empty : p.dictAt key = nil := by rw [dictAt, fresh]
    have whole : nil.assign sub.leaves = sub := (inner tidy.2.1 full.2.1 apart_nil).trans (nil_overlay tidy.2.1)
    have first : p.assign (sub.leaves.map fun l => (key :: l.1, l.2)) = p.set key (.dict sub) := by
      rw [assign_below (leaves_ne_nil full.2.1 full.1) fun entry member => path_ne_nil member, empty, whole]
    rw [leaves, assign, List.foldl_append]
    change (p.assign (sub.leaves.map fun l => (key :: l.1, l.2))).assign rest.leaves = _
    rw [first]
    exact ih tidy.2.2 full.2.2 (others.set tidy.1)

theorem nil_assign (tidy : p.Tidy) (full : p.Full) : nil.assign p.leaves = p :=
  (assign_leaves tidy full apart_nil).trans (nil_overlay tidy)

end LiveDiagram.Props
