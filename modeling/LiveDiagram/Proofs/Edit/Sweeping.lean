import LiveDiagram.Proofs.Edit.Labels

/-! Removing several elements, one after the other. They leave with all that was below them in the beginning, and the
labels of an edge that stay need no choosing. -/
namespace LiveDiagram

variable {α : Type} [Coordinate α]

/-- Elements have left with all below them. -/
structure Document.Swept (d : Document α) (roots ids : List String) (d' : Document α) : Prop where
  there : ∀ r ∈ roots, d.contains r = true
  below : ∀ x, x ∈ ids ↔ ∃ r ∈ roots, x ∈ d.subtree r
  cleared : d.Cleared ids d'
  top : d'.top = d.top.filter (!ids.contains ·)

namespace Document.Swept
variable {d d' d'' : Document α} {roots ids roots' ids' : List String} {x p : String}

theorem refl (d : Document α) : d.Swept [] [] d where
  there := by simp
  below := by simp
  cleared := .refl d
  top := by simp

theorem mem_of_parent (swept : d.Swept roots ids d') (consistent : d.Consistent) (nested : d.parentOf x = some p)
    (leaves : p ∈ ids) : x ∈ ids := by
  obtain ⟨r, root, inside⟩ := (swept.below p).1 leaves
  exact (swept.below x).2 ⟨r, root, mem_subtree_of_parent consistent nested inside⟩

theorem trans (first : d.Swept roots ids d') (second : d'.Swept roots' ids' d'') (consistent : d.Consistent)
    (consistent' : d'.Consistent) : d.Swept (roots ++ roots') (ids' ++ ids) d'' := by
  have whole (parent child : String) (nested : d.parentOf child = some parent) (leaves : parent ∈ ids) : child ∈ ids :=
    first.mem_of_parent consistent nested leaves
  refine ⟨?_, fun x => ?_, first.cleared.trans second.cleared, ?_⟩
  · intro r root
    rcases List.mem_append.1 root with early | late
    · exact first.there r early
    · exact (first.cleared.contains.1 (second.there r late)).1
  · simp only [List.mem_append, second.below, first.below]
    constructor
    · rintro (⟨r, late, inside⟩ | ⟨r, early, inside⟩)
      · have stays := (first.cleared.contains.1 (contains_of_mem_subtree consistent' (second.there r late) inside)).2
        exact ⟨r, .inr late, (first.cleared.mem_subtree consistent consistent' whole stays).1 inside⟩
      · exact ⟨r, .inl early, inside⟩
    · rintro ⟨r, early | late, inside⟩
      · exact .inr ⟨r, early, inside⟩
      · by_cases gone : x ∈ ids
        · exact .inr ((first.below x).1 gone)
        · exact .inl ⟨r, late, (first.cleared.mem_subtree consistent consistent' whole gone).2 inside⟩
  · rw [second.top, first.top, List.filter_filter]
    refine List.filter_congr fun x _ => ?_
    simp

/-- The labels of an element that stay are those that did not leave. -/
theorem labelIn_iff (swept : d.Swept roots ids d') : d'.LabelIn p x ↔ d.LabelIn p x ∧ x ∉ ids := by
  unfold LabelIn
  rw [swept.cleared]
  by_cases leaves : x ∈ ids
  · simp [leaves]
  · simp only [leaves, if_false, Option.map_eq_some_iff, not_false_eq_true, and_true]
    constructor
    · rintro ⟨_, ⟨e, found, rfl⟩, labelled, parent⟩
      exact ⟨e, found, (isLabelled_bereft e).symm.trans labelled, (parent_bereft e).symm.trans parent⟩
    · rintro ⟨e, found, labelled, parent⟩
      exact ⟨_, ⟨e, found, rfl⟩, (isLabelled_bereft e).trans labelled, (parent_bereft e).trans parent⟩

end Document.Swept

namespace Edit
variable {t t' : Transaction α} {id : String} {b : Unit}

theorem remove_swept (consistent : t.document.Consistent) (given : Gives (remove id) t b t') :
    t.document.Swept [id] (t.document.subtree id) t'.document := by
  obtain ⟨present, _, cleared, top⟩ := remove_steps ⟨true, false⟩ consistent given
  -- Of the topmost elements only the root itself can be in its subtree.
  have alone (x : String) (topmost : x ∈ t.document.top) : x ∈ t.document.subtree id ↔ x = id := by
    refine ⟨fun inside => ?_, fun same => same ▸ Document.mem_subtree_self⟩
    by_contra other
    obtain ⟨p, _, nested⟩ := Document.exists_parent_mem_subtree consistent inside other
    rw [((consistent.mem_top x).1 topmost).2.1] at nested
    cases nested
  have kept : t.document.top.erase id = t.document.top.filter (!(t.document.subtree id).contains ·) := by
    rw [consistent.top_nodup.erase_eq_filter]
    refine List.filter_congr fun x topmost => ?_
    rw [Bool.eq_iff_iff]
    simp [alone x topmost]
  refine ⟨by simpa using present, by simp, cleared, ?_⟩
  rw [top, ← kept]
  split
  · rfl
  · next nested =>
    exact (List.erase_of_not_mem fun topmost => nested ((consistent.mem_top id).1 topmost).2.1).symm

theorem removeAll_swept {labels : List (Element α)} (consistent : t.document.Consistent)
    (given : Gives (labels.forM fun label => remove label.id) t () t') :
    ∃ ids, t.document.Swept (labels.map Element.id) ids t'.document := by
  induction labels generalizing t with
  | nil => exact ⟨[], (gives_forM_nil.1 given) ▸ .refl _⟩
  | cons label rest ih =>
    obtain ⟨u, removed, others⟩ := gives_forM_cons.1 given
    have consistent' : u.document.Consistent := consistent.steps (remove_steps ⟨true, false⟩ consistent removed).2.1
    obtain ⟨ids, swept⟩ := ih consistent' others
    exact ⟨_, (remove_swept consistent removed).trans swept consistent consistent'⟩

/-- Choosing the labels that an edge has changes nothing. -/
theorem gives_rechoose {standard : LabelPlacement α} {edge : String} {chosen : List String}
    (consistent : t.document.Consistent) (all : ∀ x, t.document.LabelIn edge x → x ∈ chosen)
    (only : ∀ x ∈ chosen, t.document.contains x = true → t.document.LabelIn edge x) :
    Gives (chooseLabels standard edge chosen) t () t := by
  refine gives_chooseLabels_still (fun e label => all e.id ?_) fun x member e found => ?_
  · exact (Document.mem_labelIds consistent).1 (List.mem_map_of_mem label)
  · obtain ⟨p, found', label⟩ := only x member (Document.contains_of_find? found)
    cases found.symm.trans found'
    exact label

end Edit
end LiveDiagram
