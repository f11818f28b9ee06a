import LiveDiagram.Proofs.History.Run

/-! What a pass reports of its changes: in its outcome, to the listeners and in the history. An element that the pass
did not record is as it was before, and of one that it did record the first state is known, so nothing is left out
and nothing is reported that stayed the same. -/
namespace LiveDiagram

variable {α : Type} [Coordinate α]

/-- An id that leads to a state in each document, and the later one has other values than the earlier one. -/
def Document.DiffersAt (before after : Document α) (x : String) : Prop :=
  ∃ s s', before.state? x = some s ∧ after.state? x = some s' ∧ s'.same s = false

instance (before after : Document α) (x : String) : Decidable (before.DiffersAt after x) :=
  decidable_of_iff ((before.state? x).any fun s => (after.state? x).any fun s' => !s'.same s) <| by
    simp only [Option.any_eq_true, Bool.not_eq_true', Document.DiffersAt]
    exact ⟨fun ⟨s, first, s', second, other⟩ => ⟨s, s', first, second, other⟩,
      fun ⟨s, s', first, second, other⟩ => ⟨s, first, s', second, other⟩⟩

namespace Recorded
variable {d : Document α} {t : Transaction α} {x : String}

/-- The changes of a transaction are those of the recorded elements, from the state at its beginning to the present
one. -/
theorem mem_diff (recorded : Recorded d t) {before after : Option (Snapshot α)} :
    (⟨x, before, after⟩ : Change α) ∈ t.diff ↔
      t.ledger.covers x = true ∧ before = d.state? x ∧ after = t.document.state? x := by
  constructor
  · exact fun member => recorded.knows.of_mem_diff member
  · rintro ⟨covered, rfl, rfl⟩
    obtain ⟨before, member⟩ := recorded.knows.exists_mem_diff covered
    obtain ⟨_, first, _⟩ := recorded.knows.of_mem_diff member
    exact first ▸ member

theorem mem_ids_filter (recorded : Recorded d t) (kind : Change α → Bool) :
    x ∈ Diff.ids (t.diff.filter kind) ↔
      t.ledger.covers x = true ∧ kind ⟨x, d.state? x, t.document.state? x⟩ = true := by
  simp only [Diff.ids, List.mem_map, List.mem_filter]
  constructor
  · rintro ⟨⟨id, before, after⟩, ⟨member, own⟩, rfl⟩
    obtain ⟨covered, rfl, rfl⟩ := recorded.mem_diff.1 member
    exact ⟨covered, own⟩
  · rintro ⟨covered, own⟩
    exact ⟨⟨x, d.state? x, t.document.state? x⟩, ⟨recorded.mem_diff.2 ⟨covered, rfl, rfl⟩, own⟩, rfl⟩

theorem nodup_ids_filter (recorded : Recorded d t) (kind : Change α → Bool) :
    (Diff.ids (t.diff.filter kind)).Nodup :=
  recorded.nodup_diff.sublist (List.filter_sublist.map Change.id)

/-- An element with another state than at the beginning is recorded. -/
theorem covers_of_ne (recorded : Recorded d t) (other : t.document.state? x ≠ d.state? x) :
    t.ledger.covers x = true := by
  by_contra uncovered
  exact other (recorded.unrecorded x (Bool.not_eq_true _ ▸ uncovered))

theorem mem_added (recorded : Recorded d t) :
    x ∈ Diff.ids t.diff.added ↔ d.contains x = false ∧ t.document.contains x = true := by
  refine (recorded.mem_ids_filter _).trans ?_
  rw [Document.contains_eq_state?, Document.contains_eq_state?]
  simp only [Diff.isAdded, Bool.and_eq_true, Option.isNone_iff_eq_none, Option.isSome_eq_false_iff]
  refine ⟨And.right, fun turned => ⟨recorded.covers_of_ne fun same => ?_, turned⟩⟩
  rw [same, turned.1] at turned
  cases turned.2

theorem mem_removed (recorded : Recorded d t) :
    x ∈ Diff.ids t.diff.removed ↔ d.contains x = true ∧ t.document.contains x = false := by
  refine (recorded.mem_ids_filter _).trans ?_
  rw [Document.contains_eq_state?, Document.contains_eq_state?]
  simp only [Diff.isRemoved, Bool.and_eq_true, Option.isNone_iff_eq_none, Option.isSome_eq_false_iff]
  refine ⟨And.right, fun turned => ⟨recorded.covers_of_ne fun same => ?_, turned⟩⟩
  rw [← same, turned.2] at turned
  cases turned.1

omit [Coordinate α] in
theorem isUpdated_iff [Coordinate α] {before after : Option (Snapshot α)} :
    Diff.isUpdated ⟨x, before, after⟩ = true ↔ ∃ s s', before = some s ∧ after = some s' ∧ s'.same s = false := by
  cases before <;> cases after <;> simp [Diff.isUpdated]

theorem mem_updated (recorded : Recorded d t) :
    x ∈ Diff.ids t.diff.updated ↔ t.ledger.covers x = true ∧ d.DiffersAt t.document x :=
  (recorded.mem_ids_filter _).trans (and_congr Iff.rfl isUpdated_iff)

/-- Outside the reported ids the states are those of the beginning, or have the same values. -/
theorem agreesAt (recorded : Recorded d t) (added : x ∉ Diff.ids t.diff.added) (removed : x ∉ Diff.ids t.diff.removed)
    (updated : x ∉ Diff.ids t.diff.updated) : t.document.AgreesAt d x := by
  by_cases same : t.document.state? x = d.state? x
  · exact Document.agreesAt_of_eq same
  have covered := recorded.covers_of_ne same
  rw [recorded.mem_added, Document.contains_eq_state?, Document.contains_eq_state?] at added
  rw [recorded.mem_removed, Document.contains_eq_state?, Document.contains_eq_state?] at removed
  rw [recorded.mem_updated] at updated
  unfold Document.AgreesAt
  cases before : d.state? x with
  | none =>
    cases after : t.document.state? x with
    | none => exact .none
    | some s' => simp [before, after] at added
  | some s =>
    cases after : t.document.state? x with
    | none => simp [before, after] at removed
    | some s' =>
      refine .some (.inr ?_)
      by_contra differs
      exact updated ⟨covered, s, s', before, after, Bool.not_eq_true _ ▸ differs⟩

end Recorded

/-- A pass puts a step into the history when its outcome names a change. -/
theorem Diff.isEmpty_sets {diff : Diff α} : diff.sets.isEmpty = !diff.outcome.changed := by
  have length {xs : Diff α} : (ids xs).mergeSort.isEmpty = xs.isEmpty := by
    rw [Bool.eq_iff_iff, List.isEmpty_iff_length_eq_zero, List.length_mergeSort, ids, List.length_map,
      List.isEmpty_iff_length_eq_zero]
  simp only [sets, outcome, Outcome.changed, length, List.filter_cons, List.filter_nil]
  cases diff.removed.isEmpty <;> cases diff.added.isEmpty <;> cases diff.updated.isEmpty <;> rfl

/-- The transaction of a pass: what it recorded, and where it left the document. -/
theorem Work.recorded_reconcile {config : Config α} {f : Forest} {d : Document α} {context : Context}
    {outcome : Outcome} {w : Workspace α} (consistent : d.Consistent)
    (given : Gives (Work.reconcile config f) ⟨d, context⟩ outcome w) :
    ∃ t, Recorded d t ∧ (∀ x, w.document.state? x = t.document.state? x) ∧ outcome = t.diff.outcome ∧
      w.document.history =
        (if outcome.changed then d.history.push (.compound "Update diagram" t.diff.sets) else d.history) ∧
      w.document.heard = d.heard ++ t.diff.events d.listeners := by
  obtain ⟨t, heard, steps, concluded, rfl, rfl⟩ := Work.gives_reconcile consistent given ⟨false, false⟩ (by simp)
  have recorded : Recorded d t := (Recorded.opened d context).steps consistent rfl steps
  refine ⟨t, recorded, ?_, rfl, ?_, ?_⟩
  · have same : Document.SameContent (Reconcile.conclude t.diff (t.document.told (d.heard ++ t.diff.events d.listeners)))
        (t.document.told (d.heard ++ t.diff.events d.listeners)) := Reconcile.conclude_same
    rw [← concluded] at same
    exact Document.state?_of_same (Document.find?_of_same same.elements)
  · have kept : (t.document.told (d.heard ++ t.diff.events d.listeners)).history = d.history := steps.history_eq
    rw [concluded, Reconcile.history_conclude, kept, Diff.isEmpty_sets]
    cases t.diff.outcome.changed <;> rfl
  · rw [concluded, Reconcile.conclude, Document.recordDiff]
    split <;> rfl

/-- The outcome of a pass by what it leads from and to. A state that differs is told as updated unless it is the very one
from before, which differs from itself where a position is not a number. -/
theorem Work.outcome_reconcile {config : Config α} {f : Forest} {d : Document α} {context : Context}
    {outcome : Outcome} {w : Workspace α} (consistent : d.Consistent)
    (given : Gives (Work.reconcile config f) ⟨d, context⟩ outcome w) :
    (outcome.added.Nodup ∧ ∀ x, x ∈ outcome.added ↔ d.contains x = false ∧ w.document.contains x = true) ∧
      (outcome.removed.Nodup ∧ ∀ x, x ∈ outcome.removed ↔ d.contains x = true ∧ w.document.contains x = false) ∧
      outcome.updated.Nodup ∧ (∀ x ∈ outcome.updated, d.DiffersAt w.document x) ∧
      ∀ x, d.DiffersAt w.document x → x ∈ outcome.updated ∨ w.document.state? x = d.state? x := by
  obtain ⟨t, recorded, states, rfl, _⟩ := Work.recorded_reconcile consistent given
  have there (x : String) : w.document.contains x = t.document.contains x := by
    rw [Document.contains_eq_state?, Document.contains_eq_state?, states]
  have differs (x : String) : d.DiffersAt w.document x ↔ d.DiffersAt t.document x := by
    simp only [Document.DiffersAt, states]
  have sorted {ids : List String} (distinct : ids.Nodup) : ids.mergeSort.Nodup :=
    (List.mergeSort_perm ids _).nodup_iff.2 distinct
  refine ⟨⟨sorted (recorded.nodup_ids_filter _), fun x => ?_⟩, ⟨sorted (recorded.nodup_ids_filter _), fun x => ?_⟩,
    sorted (recorded.nodup_ids_filter _), fun x => ?_, fun x => ?_⟩
  · rw [there]
    exact List.mem_mergeSort.trans recorded.mem_added
  · rw [there]
    exact List.mem_mergeSort.trans recorded.mem_removed
  · rw [differs]
    exact fun member => (recorded.mem_updated.1 (List.mem_mergeSort.1 member)).2
  · rw [differs, states]
    intro other
    by_cases same : t.document.state? x = d.state? x
    · exact .inr same
    · exact .inl (List.mem_mergeSort.2 (recorded.mem_updated.2 ⟨recorded.covers_of_ne same, other⟩))

end LiveDiagram
