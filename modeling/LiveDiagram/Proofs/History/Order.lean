import LiveDiagram.Proofs.Assoc
import LiveDiagram.Proofs.Edit.Sweeping
import LiveDiagram.Proofs.History.Restore

/-! The order of the topmost elements when states are restored. What leaves is struck out, what has to be created goes last,
and what has a parent in its state leaves the top again; nothing returns to its former place. -/
namespace LiveDiagram

variable {α : Type}

namespace Document
variable {d : Document α} {s : Snapshot α} {present : List (Snapshot α)} {x : String}

theorem top_filled : (d.filled s).top = d.top := by
  unfold filled
  dsimp only
  split <;> rfl

theorem top_revived : (d.revived s).top = if d.contains s.id then d.top else d.top ++ [s.id] := by
  unfold revived
  rw [top_filled]
  split <;> rfl

theorem top_arranged : (d.arranged s).top = d.top := rfl

theorem top_rejoined : (d.rejoined s).top = d.top := by
  unfold rejoined
  split
  · exact top_connect
  · rfl

/-- What has to be created goes last, in the order of the states. -/
theorem top_foldl_revived (distinct : (present.map Snapshot.id).Nodup) :
    (present.foldl (fun d s => d.revived s) d).top = d.top ++ (present.map Snapshot.id).filter (!d.contains ·) := by
  induction present generalizing d with
  | nil => exact (List.append_nil _).symm
  | cons s rest ih =>
    rw [List.map_cons, List.nodup_cons] at distinct
    have others : (rest.map Snapshot.id).filter (!(d.revived s).contains ·) = (rest.map Snapshot.id).filter (!d.contains ·) := by
      refine List.filter_congr fun x member => ?_
      have apart : x ≠ s.id := fun same => distinct.1 (same ▸ member)
      rw [Bool.eq_iff_iff, Bool.not_eq_true', Bool.not_eq_true', ← Bool.not_eq_true, ← Bool.not_eq_true, contains_revived]
      simp [apart]
    rw [List.foldl_cons, ih distinct.2, others, top_revived, List.map_cons, List.filter_cons]
    cases d.contains s.id <;> simp

/-- A state with a parent that is there takes its element from the top, and one without leaves the top as it is. -/
theorem top_settled (consistent : d.Consistent) (homeless : s.parent.any d.contains = false → s.id ∈ d.top) :
    (d.settled s).top = d.top.filter fun x => !(x = s.id && s.parent.any d.contains) := by
  have parent : s.parent.any d.contains = (s.parent.filter d.contains).isSome := by
    cases s.parent with
    | none => rfl
    | some p => cases there : d.contains p <;> simp [there]
  unfold settled
  dsimp only
  rw [parent] at homeless ⊢
  generalize s.parent.filter d.contains = home at homeless ⊢
  cases home with
  | none =>
    have topmost := homeless rfl
    have alone : d.parentOf s.id = none := ((consistent.mem_top s.id).1 topmost).2.1
    simp [alone, topmost]
  | some p =>
    have away : d.top.filter (fun x => !(x = s.id && (some p).isSome)) = d.top.erase s.id := by
      rw [consistent.top_nodup.erase_eq_filter]
      exact List.filter_congr fun x _ => by by_cases own : x = s.id <;> simp [own]
    rw [away]
    by_cases moved : d.parentOf s.id = some p
    · have outside : s.id ∉ d.top := fun topmost => by
        rw [((consistent.mem_top s.id).1 topmost).2.1] at moved
        cases moved
      simp [moved, List.erase_of_not_mem outside]
    · rw [if_pos (by simp [moved]), top_attach, top_detach]
      split
      · simp
      · next nested =>
        have outside : s.id ∉ d.top := fun topmost => nested ((consistent.mem_top s.id).1 topmost).2.1
        simp [List.erase_of_not_mem outside]

/-- What is there once elements have been brought back. -/
def ThereWith (d : Document α) (present : List (Snapshot α)) (x : String) : Bool :=
  d.contains x || (present.map Snapshot.id).contains x

/-- Some state asks for the element to be below one of these. -/
def Housed (there : String → Bool) (present : List (Snapshot α)) (x : String) : Bool :=
  present.any fun s => x = s.id && s.parent.any there

theorem top_foldl_settled (consistent : d.Consistent) (there : ∀ s ∈ present, d.contains s.id = true)
    (homeless : ∀ s ∈ present, s.parent.any d.contains = false → s.id ∈ d.top) (distinct : (present.map Snapshot.id).Nodup) :
    (present.foldl (fun d s => d.settled s) d).top = d.top.filter (!Housed d.contains present ·) := by
  induction present generalizing d with
  | nil => simp [Housed]
  | cons s rest ih =>
    rw [List.map_cons, List.nodup_cons] at distinct
    have same : (d.settled s).contains = d.contains := funext fun _ => contains_settled
    have top := top_settled consistent (homeless s List.mem_cons_self)
    have consistent' := consistent.settled (there s List.mem_cons_self)
    rw [List.foldl_cons, ih consistent' (fun s' member => ?_) (fun s' member alone => ?_) distinct.2, top, List.filter_filter]
    · refine List.filter_congr fun x _ => ?_
      simp only [Housed, List.any_cons, same, Bool.not_or, Bool.and_comm]
    · rw [same]
      exact there s' (List.mem_cons_of_mem s member)
    · have apart : s'.id ≠ s.id := fun own => distinct.1 (own ▸ List.mem_map_of_mem member)
      rw [same] at alone
      rw [top, List.mem_filter]
      exact ⟨homeless s' (List.mem_cons_of_mem s member) alone, by simp [apart]⟩

theorem contains_arranged : (d.arranged s).contains x = d.contains x :=
  contains_modify fun _ => rfl

theorem contains_rejoined : (d.rejoined s).contains x = d.contains x := by
  unfold rejoined
  split
  · unfold contains
    rw [find?_connect]
    exact contains_modify fun _ => rfl
  · rfl

theorem contains_foldl_revived (consistent : d.Consistent) :
    (present.foldl (fun d s => d.revived s) d).contains = d.ThereWith present := by
  funext x
  rw [Bool.eq_iff_iff, (consistent_foldl_revived present consistent).2, ThereWith, Bool.or_eq_true, List.contains_iff_mem]

/-- Only the first phase brings elements in. -/
theorem contains_restored (consistent : d.Consistent) : (d.restored present).contains = d.ThereWith present := by
  rw [← contains_foldl_revived consistent]
  unfold restored
  dsimp only
  refine (foldl_keeps (fun _ _ => funext fun _ => contains_rejoined) present).trans ?_
  refine (foldl_keeps (fun _ _ => funext fun _ => contains_arranged) present).trans ?_
  exact foldl_keeps (fun _ _ => funext fun _ => contains_settled) present

/-- The topmost elements once states are restored: those from before and then the ones that had to be created, without those
that are below others. An element whose parent is not there is taken to be at the top, or not there yet. -/
theorem top_restored (consistent : d.Consistent) (distinct : (present.map Snapshot.id).Nodup)
    (homeless : ∀ s ∈ present, s.parent.any (d.ThereWith present) = false → d.contains s.id = true → s.id ∈ d.top) :
    (d.restored present).top = (d.top ++ (present.map Snapshot.id).filter (!d.contains ·)).filter
      (!Housed (d.ThereWith present) present ·) := by
  obtain ⟨consistent', there⟩ := consistent_foldl_revived present consistent
  have top := top_foldl_revived (d := d) distinct
  have known : (present.foldl (fun d s => d.revived s) d).contains = d.ThereWith present := contains_foldl_revived consistent
  have settled := top_foldl_settled consistent' (fun s member => (there s.id).2 (.inr (List.mem_map_of_mem member)))
    (fun s member alone => ?_) distinct
  · rw [known, top] at settled
    rw [← settled]
    unfold restored
    dsimp only
    exact (foldl_keeps (fun _ _ => top_rejoined) present).trans (foldl_keeps (fun _ _ => top_arranged) present)
  · rw [known] at alone
    rw [top, List.mem_append]
    cases old : d.contains s.id with
    | true => exact .inl (homeless s member alone old)
    | false => exact .inr (List.mem_filter.2 ⟨List.mem_map_of_mem member, by simp [old]⟩)

end Document

namespace Edit
variable [Coordinate α] {t t' : Transaction α}

/-- Removing elements as far as they are there strikes out of the top those that are gone. -/
theorem top_removals {β : Type} {entries : List (String × β)} (consistent : t.document.Consistent)
    (given : Gives (entries.forM fun (id, _) => removeIfPresent id) t () t') :
    t'.document.top = t.document.top.filter t'.document.contains := by
  have went : t'.document.Consistent ∧ (∀ x, t'.document.contains x = true → t.document.contains x = true) ∧
      t'.document.top = t.document.top.filter t'.document.contains := by
    refine given.forM (fun u => u.document.Consistent ∧ (∀ x, u.document.contains x = true → t.document.contains x = true) ∧
      u.document.top = t.document.top.filter u.document.contains) ?_ ?_
    · exact ⟨consistent, fun _ there => there, (List.filter_eq_self.2 fun x topmost => ((consistent.mem_top x).1 topmost).1).symm⟩
    · rintro ⟨id, _⟩ _ u u' ⟨consistent, former, top⟩ given
      simp only [removeIfPresent, gives_bind, gives_document] at given
      obtain ⟨_, _, ⟨rfl, rfl⟩, given⟩ := given
      split at given
      · have swept := remove_swept consistent given
        have steps := (remove_steps ⟨true, true⟩ consistent given).2.1
        have stays (x : String) := swept.cleared.contains (x := x)
        refine ⟨consistent.steps steps, fun x there => former x ((stays x).1 there).1, ?_⟩
        rw [swept.top, top, List.filter_filter]
        refine List.filter_congr fun x _ => ?_
        rw [Bool.eq_iff_iff, stays]
        simp [and_comm]
      · rw [← (gives_pure.1 given).2]
        exact ⟨consistent, former, top⟩
  exact went.2.2

end Edit

/-! The order of the states -/

theorem Action.merged_of_nodup {part : ChangeSet α → States α} {sets : List (ChangeSet α)}
    (distinct : ((sets.flatMap part).map Prod.fst).Nodup) : merged part sets = sets.flatMap part := by
  have general : ∀ (sets : List (ChangeSet α)) (all : States α), ((all ++ sets.flatMap part).map Prod.fst).Nodup →
      sets.foldl (fun all set => Assoc.putAll all (part set)) all = all ++ sets.flatMap part := by
    intro sets
    induction sets with
    | nil => exact fun all _ => (List.append_nil all).symm
    | cons set rest ih =>
      intro all distinct
      rw [List.flatMap_cons, ← List.append_assoc] at distinct ⊢
      have first : ((all ++ part set).map Prod.fst).Nodup := by
        rw [List.map_append] at distinct
        exact (List.nodup_append.1 distinct).1
      rw [List.foldl_cons, Assoc.putAll_of_nodup first, ih _ distinct]
  exact general sets [] distinct

namespace Diff
variable [Coordinate α] {diff : Diff α}

/-- No change is of two kinds, and no two changes have the same id. -/
theorem nodup_parts (distinct : (diff.map Change.id).Nodup) :
    ((diff.removed ++ diff.added ++ diff.updated).map Change.id).Nodup := by
  have part (p : Change α → Bool) : ((diff.filter p).map Change.id).Nodup := distinct.sublist (List.filter_sublist.map Change.id)
  have apart {p q : Change α → Bool} (other : ∀ c, p c = true → q c = false) :
      ∀ x ∈ (diff.filter p).map Change.id, ∀ y ∈ (diff.filter q).map Change.id, x ≠ y := by
    rintro _ member _ member' same
    obtain ⟨c, inside, rfl⟩ := List.mem_map.1 member
    obtain ⟨c', inside', rfl⟩ := List.mem_map.1 member'
    rw [List.mem_filter] at inside inside'
    obtain rfl : c = c' := List.inj_on_of_nodup_map distinct inside.1 inside'.1 same
    rw [other c inside.2] at inside'
    cases inside'.2
  rw [List.map_append, List.map_append, List.nodup_append, List.nodup_append]
  refine ⟨⟨part _, part _, apart fun c removed => ?_⟩, part _, fun x member => ?_⟩
  · obtain ⟨_, before, after⟩ := c
    cases before <;> cases after <;> simp_all [isRemoved, isAdded]
  · rcases List.mem_append.1 member with removed | added
    · refine apart (fun c removed => ?_) x removed
      obtain ⟨_, before, after⟩ := c
      cases before <;> cases after <;> simp_all [isRemoved, isUpdated]
    · refine apart (fun c added => ?_) x added
      obtain ⟨_, before, after⟩ := c
      cases before <;> cases after <;> simp_all [isAdded, isUpdated]

/-- The step of a transaction lists the states of what it removed, then of what it added, then of what it updated. -/
theorem before_compound (distinct : (diff.map Change.id).Nodup) (description : String) :
    (Action.compound description diff.sets).before =
      (diff.removed ++ diff.added ++ diff.updated).map fun c => (c.id, c.before) := by
  have flat : diff.sets.flatMap ChangeSet.before =
      (diff.removed ++ diff.added ++ diff.updated).map fun c => (c.id, c.before) := by
    simp only [sets, List.filter_cons, List.filter_nil]
    cases diff.removed <;> cases diff.added <;> cases diff.updated <;> simp [ChangeSet.before]
  refine (Action.merged_of_nodup ?_).trans flat
  rw [flat, List.map_map]
  exact nodup_parts distinct

omit [Coordinate α] in
theorem before_of_removed {c : Change α} (removed : c ∈ diff.removed) : c.before.isSome = true :=
  (Bool.and_eq_true_iff.1 (List.mem_filter.1 removed).2).1

omit [Coordinate α] in
theorem before_of_added {c : Change α} (added : c ∈ diff.added) : c.before = none :=
  Option.isNone_iff_eq_none.1 (Bool.and_eq_true_iff.1 (List.mem_filter.1 added).2).1

theorem before_of_updated {c : Change α} (updated : c ∈ diff.updated) : c.before.isSome = true := by
  obtain ⟨own, updated⟩ := List.mem_filter.1 updated
  obtain ⟨_, before, after⟩ := c
  cases before <;> simp_all [isUpdated]

/-- Absent before the step is what it added. -/
theorem absent_before (distinct : (diff.map Change.id).Nodup) (description : String) :
    (((Action.compound description diff.sets).before).filter (·.2.isNone)).map Prod.fst = ids diff.added := by
  have dropped {l : Diff α} (present : ∀ c ∈ l, c.before.isSome = true) :
      (l.map fun c => (c.id, c.before)).filter (·.2.isNone) = [] := by
    simpa [List.filter_eq_nil_iff, Option.isSome_iff_ne_none] using present
  have added : (diff.added.map fun c => (c.id, c.before)).filter (·.2.isNone) = diff.added.map fun c => (c.id, c.before) := by
    simpa [List.filter_eq_self] using fun c => before_of_added (c := c)
  rw [before_compound distinct, List.map_append, List.map_append, List.filter_append, List.filter_append, added,
    dropped fun _ => before_of_removed, dropped fun _ => before_of_updated, List.nil_append, List.append_nil, List.map_map]
  rfl

/-- Present before the step is what it removed and what it updated. -/
theorem present_before (distinct : (diff.map Change.id).Nodup) (named : ∀ c ∈ diff, ∀ s, c.before = some s → s.id = c.id)
    (description : String) : (Edit.presentOf (Action.compound description diff.sets).before).map Snapshot.id =
      ids diff.removed ++ ids diff.updated := by
  have kept (l : Diff α) (part : l ⊆ diff) (present : ∀ c ∈ l, c.before.isSome = true) :
      ((l.map fun c => (c.id, c.before)).filterMap Prod.snd).map Snapshot.id = ids l := by
    rw [List.filterMap_map, List.map_filterMap, ids, ← List.filterMap_eq_map]
    refine List.filterMap_congr fun c member => ?_
    obtain ⟨s, before⟩ := Option.isSome_iff_exists.1 (present c member)
    simp [before, named c (part member) s before]
  have added : (diff.added.map fun c => (c.id, c.before)).filterMap Prod.snd = [] := by
    simpa [List.filterMap_map, List.filterMap_eq_nil_iff] using fun c => before_of_added (c := c)
  have removed := kept diff.removed (List.filter_subset_self diff) fun _ => before_of_removed
  have updated := kept diff.updated (List.filter_subset_self diff) fun _ => before_of_updated
  rw [Edit.presentOf, before_compound distinct, List.map_append, List.map_append, List.filterMap_append, List.filterMap_append,
    added, List.append_nil, List.map_append, removed, updated]

end Diff
end LiveDiagram
