import LiveDiagram.Session
import LiveDiagram.Proofs.History.Navigation
import LiveDiagram.Proofs.History.Recording
import LiveDiagram.Proofs.Number.Value
import LiveDiagram.Proofs.Reconcile.Pass

/-! Runs of passes, pasted styles, undo and redo. Every document of a run is navigable: a pass or a pasted style puts
an action between the documents before and after it into the history, or leaves them alike. -/
namespace LiveDiagram

variable {α : Type} [Coordinate α]

/-- Runs from an empty document, of any length and in any order, as long as each call returns. Dictionaries have no
key twice, and no pass removes an element and creates one with its id. -/
inductive Run : Document α → Trail α → Prop
  | empty (bounds : Bounds α) : Run (Document.empty bounds) .empty
  | pass {d : Document α} {trail : Trail α} {config : Config α} {f : Forest} {context : Context} {outcome : Outcome}
      {w : Workspace α} :
      Run d trail → f.Tidy → Gives (Work.reconcile config f) ⟨d, context⟩ outcome w →
      (∀ h ∈ d.handles, ∀ h' ∈ w.document.handles, h.id = h'.id → h = h') →
      Run w.document (trail.note d w.document)
  | paste {d : Document α} {trail : Trail α} {s : Session α} {ids : List String} {context : Context} {changed : Bool}
      {w : Workspace α} :
      Run d trail → (∀ style, s.copiedStyle = some style → style.Tidy) →
      Gives (s.pasteStyleOn ids) ⟨d, context⟩ changed w → Run w.document (trail.note d w.document)
  | undo {d : Document α} {trail : Trail α} {context : Context} {action : Option (Action α)} {w : Workspace α} :
      Run d trail → Gives Work.undo ⟨d, context⟩ action w → Run w.document trail.back
  | redo {d : Document α} {trail : Trail α} {context : Context} {action : Option (Action α)} {w : Workspace α} :
      Run d trail → Gives Work.redo ⟨d, context⟩ action w → Run w.document trail.forth

open Document (SameContent)

omit [Coordinate α] in
theorem Document.told_same (d : Document α) (heard : List Event) : SameContent (d.told heard) d :=
  ⟨rfl, rfl, rfl, rfl⟩

namespace Reconcile
variable {diff : Diff α} {d : Document α}

theorem conclude_same : SameContent (conclude diff d) d := by
  unfold conclude Document.recordDiff
  dsimp only
  split <;> exact ⟨rfl, rfl, rfl, rfl⟩

/-- A pass that changed something comes into the history. -/
theorem history_conclude : (conclude diff d).history =
    if diff.sets.isEmpty then d.history else d.history.push (.compound "Update diagram" diff.sets) := by
  unfold conclude Document.recordDiff
  dsimp only
  split <;> rfl

end Reconcile

namespace Session
variable {s : Session α} {ids : List String} {w w' : Workspace α} {changed : Bool}

/-- Pasting a style does nothing, or goes by steps that keep all elements, and puts its updates into the history if
there are any. -/
theorem gives_pasteStyleOn (given : Gives (s.pasteStyleOn ids) w changed w')
    (tidy : ∀ style, s.copiedStyle = some style → style.Tidy) :
    w'.document = w.document ∨ ∃ t, Steps ⟨false, true⟩ ⟨w.document, .opened α true, w.context⟩ t ∧
      t.document.handles = w.document.handles ∧ SameContent w'.document t.document ∧
      w'.document.history = if t.diff.updated.isEmpty then w.document.history
        else w.document.history.push (.single ⟨.update, t.diff.updated⟩) := by
  unfold pasteStyleOn at given
  split at given
  · exact .inl (congrArg Workspace.document (gives_pure.1 given).2.symm)
  next style copied =>
  have own : style.Tidy := tidy style (Option.filter_eq_some_iff.1 copied).1
  simp only [gives_bind, Work.gives_transact] at given
  obtain ⟨diff, _, ⟨t', ⟨_, t, edited, committed⟩, rfl⟩, given⟩ := given
  obtain ⟨_, rfl, told⟩ := Edit.gives_commit committed
  obtain ⟨steps, handles⟩ : Steps ⟨false, true⟩ ⟨w.document, .opened α true, w.context⟩ t ∧
      t.document.handles = w.document.handles := by
    refine edited.forM (fun u => Steps ⟨false, true⟩ ⟨w.document, .opened α true, w.context⟩ u ∧
      u.document.handles = w.document.handles) ⟨.refl, rfl⟩ ?_
    rintro id _ u u' ⟨before, same⟩ round
    simp only [gives_bind, Edit.gives_element] at round
    obtain ⟨e, _, ⟨found, rfl⟩, edit⟩ := round
    refine ⟨before.trans (Edit.editMetadata_steps ⟨false, true⟩ edit fun _ p kept => ?_), ?_⟩
    · apply kept.overlay
      split
      · exact own
      · exact own.erase
    · obtain ⟨_, _, _, rfl⟩ := Edit.gives_update.1 edit
      rw [← same]
      exact Document.handles_modify fun _ => rfl
  have told' : SameContent t'.document t.document ∧ t'.document.history = w.document.history := by
    rw [told]
    exact ⟨t.document.told_same _, steps.history_eq⟩
  refine .inr ⟨t, steps, handles, ?_⟩
  split at given
  · next idle =>
    obtain ⟨_, rfl⟩ := gives_pure.1 given
    rw [if_pos idle]
    exact told'
  · next acted =>
    simp only [gives_bind, Work.gives_change, gives_pure] at given
    obtain ⟨_, _, rfl, _, rfl⟩ := given
    rw [if_neg acted]
    refine ⟨⟨told'.1.1, told'.1.2, told'.1.3, told'.1.4⟩, ?_⟩
    rw [← told'.2]
    rfl

end Session

omit [Coordinate α] in
/-- Elements with one id are the same element where no id changed hands. -/
theorem Document.births_eq {d d' : Document α} (same : ∀ h ∈ d.handles, ∀ h' ∈ d'.handles, h.id = h'.id → h = h')
    (x : String) (e f : Element α) (found : d.find? x = some e) (found' : d'.find? x = some f) : e.birth = f.birth := by
  have equal : e.handle = f.handle := by
    refine same _ (List.mem_map_of_mem (Document.mem_of_find? found)) _
      (List.mem_map_of_mem (Document.mem_of_find? found')) ?_
    exact (Document.find?_eq_some_id found).trans (Document.find?_eq_some_id found').symm
  exact congrArg Handle.birth equal

/-- The action of a pass that removes no element to create one with its id lies between the documents before and after
it, and comes into the history if it lists anything. -/
theorem Work.bridge_reconcile [PartialEquivBEq α] {config : Config α} {f : Forest} {d : Document α} {context : Context}
    {outcome : Outcome} {w : Workspace α} (consistent : d.Consistent) (tidy : d.Tidy) (tidy' : f.Tidy)
    (given : Gives (Work.reconcile config f) ⟨d, context⟩ outcome w)
    (once : ∀ h ∈ d.handles, ∀ h' ∈ w.document.handles, h.id = h'.id → h = h') :
    ∃ diff : Diff α, Bridge (Action.compound "Update diagram" diff.sets).before
        (Action.compound "Update diagram" diff.sets).after d w.document ∧
      w.document.history = (if diff.sets.isEmpty then d.history
        else d.history.push (.compound "Update diagram" diff.sets)) ∧ outcome = diff.outcome := by
  obtain ⟨u, heard, steps, concluded, _, outcome⟩ :=
    Work.gives_reconcile consistent given ⟨false, true⟩ fun _ => tidy'
  have recorded : Recorded d u := (Recorded.opened d context).steps consistent rfl steps
  have same : SameContent w.document u.document := by
    have same : SameContent (Reconcile.conclude u.diff (u.document.told heard)) (u.document.told heard) :=
      Reconcile.conclude_same
    rw [← concluded] at same
    exact ⟨same.1, same.2, same.3, same.4⟩
  have history := congrArg Document.history concluded
  have told : (u.document.told heard).history = d.history := steps.history_eq
  rw [Reconcile.history_conclude, told] at history
  refine ⟨u.diff, ?_, history, outcome⟩
  exact recorded.bridge_compound "Update diagram" consistent ((consistent.steps steps).of_same same) tidy
    ((tidy.steps rfl steps).congr same.elements) (Document.find?_of_same same.elements) (Document.births_eq once)

namespace Navigable
variable {d d' : Document α} {trail : Trail α} {context : Context} {w : Workspace α}

variable [PartialEquivBEq α]

/-- An action between the documents comes into the history, or none does where it lists nothing. -/
theorem turn {action : Action α} {idle : Bool} (navigable : Navigable d trail)
    (bridge : Bridge action.before action.after d d')
    (history : d'.history = if idle then d.history else d.history.push action)
    (nothing : idle = true → action.before = [] ∧ action.after = []) : Navigable d' (trail.note d d') := by
  cases idle with
  | false => exact navigable.act bridge history
  | true =>
    obtain ⟨before, after⟩ := nothing rfl
    rw [before, after] at bridge
    exact navigable.idle bridge.consistent' bridge.tidy' bridge.symm.alike_of_nil history

/-- A pass that removes no element to create one with its id leads on to a navigable document. -/
theorem pass {config : Config α} {f : Forest} {outcome : Outcome} (navigable : Navigable d trail) (tidy : f.Tidy)
    (given : Gives (Work.reconcile config f) ⟨d, context⟩ outcome w)
    (once : ∀ h ∈ d.handles, ∀ h' ∈ w.document.handles, h.id = h'.id → h = h') :
    Navigable w.document (trail.note d w.document) := by
  obtain ⟨diff, bridge, history, _⟩ := Work.bridge_reconcile navigable.consistent navigable.tidy tidy given once
  refine navigable.turn bridge history fun empty => ?_
  rw [List.isEmpty_iff.1 empty]
  exact ⟨rfl, rfl⟩

/-- A pasted style leads on to a navigable document. -/
theorem paste {s : Session α} {ids : List String} {changed : Bool} (navigable : Navigable d trail)
    (tidy : ∀ style, s.copiedStyle = some style → style.Tidy)
    (given : Gives (s.pasteStyleOn ids) ⟨d, context⟩ changed w) :
    Navigable w.document (trail.note d w.document) := by
  rcases Session.gives_pasteStyleOn given tidy with unchanged | ⟨t, steps, handles, same, history⟩
  · rw [unchanged]
    exact navigable.idle navigable.consistent navigable.tidy (.refl d) rfl
  · have recorded : Recorded d t := (Recorded.opened d context).steps navigable.consistent rfl steps
    have handles' : w.document.handles = d.handles := by
      rw [← handles]
      exact congrArg (List.map Element.handle) same.elements
    have consistent' := (navigable.consistent.steps steps).of_same same
    have bridge := recorded.bridge_updated navigable.consistent consistent' navigable.tidy
      ((navigable.tidy.steps rfl steps).congr same.elements) (Document.find?_of_same same.elements)
      (Document.births_eq fun h member h' member' named => ?_) fun x => ?_
    · refine navigable.turn bridge history fun empty => ?_
      rw [List.isEmpty_iff.1 empty]
      exact ⟨rfl, rfl⟩
    · rw [handles'] at member'
      exact List.inj_on_of_nodup_map navigable.consistent.ids_nodup member member' named
    · rw [Bool.eq_iff_iff, Document.contains_iff_mem, Document.contains_iff_mem, handles']

end Navigable

namespace Run
variable {d : Document α} {trail : Trail α}

/-- Every document of a run is navigable. -/
theorem navigable [PartialEquivBEq α] (run : Run d trail) : Navigable d trail := by
  induction run with
  | empty bounds => exact ⟨Document.consistent_empty bounds, by simp [Document.Tidy, Document.find?, Document.empty], .nil _, .nil _⟩
  | pass _ tidy given once ih => exact ih.pass tidy given once
  | paste _ tidy given ih => exact ih.paste tidy given
  | @undo d trail context action w _ given ih =>
    obtain ⟨_, _, given', onward, _⟩ := ih.undo context
    exact (given.unique given').2 ▸ onward
  | @redo d trail context action w _ given ih =>
    obtain ⟨_, _, given', onward, _⟩ := ih.redo context
    exact (given.unique given').2 ▸ onward

end Run
end LiveDiagram
