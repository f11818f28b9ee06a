import LiveDiagram.Proofs.Reconcile.Report

/-! Taking back a pass right away. The step of a pass lists the states that differ, and an undo leads back to them;
that is enough as long as no element was removed and another one created under its id. -/
namespace LiveDiagram

variable {α : Type} [Coordinate α]

/-- After a pass that changed something and created no element under the id of one that it removed, an undo returns. It
takes the step of the pass back, and all ids lead to elements in the states from before the pass, or nowhere as
before. -/
theorem Work.undo_reverts [PartialEquivBEq α] {config : Config α} {f : Forest} {d : Document α} {context : Context}
    {outcome : Outcome} {w : Workspace α} (consistent : d.Consistent) (tidy : d.Tidy) (tidy' : f.Tidy)
    (given : Gives (Work.reconcile config f) ⟨d, context⟩ outcome w) (changed : outcome.changed = true)
    (once : ∀ h ∈ d.handles, ∀ h' ∈ w.document.handles, h.id = h'.id → h = h') :
    ∃ action v, Gives Work.undo w (some action) v ∧ v.document.Agrees d ∧
      v.document.history = ⟨d.history.undoable, [action]⟩ := by
  obtain ⟨diff, bridge, history, rfl⟩ := Work.bridge_reconcile consistent tidy tidy' given once
  rw [Diff.isEmpty_sets, changed] at history
  let action : Action α := .compound "Update diagram" diff.sets
  have pushed : w.document.history = d.history.push action := history
  have popped : Document.SameContent (Work.popUndo w.document d.history.undoable) w.document := ⟨rfl, rfl, rfl, rfl⟩
  -- One action back from the document after the pass, and none forth from it.
  have ahead : Thread Action.before Action.after Turn.after Turn.before w.document [action] [⟨d, w.document⟩] :=
    .cons (.refl w.document) bridge (.nil d)
  obtain ⟨turn, rest, t, turns, restored, kept, reaches⟩ :=
    ahead.leap bridge.consistent' bridge.tidy' popped (.nil w.document) w.context
  cases turns
  obtain ⟨_, _, alike, _⟩ := reaches (Work.pushRedo t.document action) ⟨rfl, rfl, rfl, rfl⟩
  refine ⟨action, ⟨Work.pushRedo t.document action, t.context⟩, ?_, alike.states, ?_⟩
  · exact Work.gives_undo.2 (.inr ⟨action, d.history.undoable, t, congrArg History.undoable pushed, rfl, restored, rfl⟩)
  · have redoable : w.document.history.redoable = [] := congrArg History.redoable pushed
    change History.mk t.document.history.undoable (action :: t.document.history.redoable) = _
    rw [kept]
    change History.mk d.history.undoable (action :: w.document.history.redoable) = _
    rw [redoable]

/-- An undo takes back a pass that nests a node under another one. -/
theorem Work.undo_reverts_node :
    ∃ (d : Document Quantity) (w : Workspace Quantity), d.contains "a" = true ∧ w.document.contains "b" = true ∧
      ∃ action v, Gives Work.undo w (some action) v ∧ v.document.Agrees d := by
  let a : Declaration := ⟨"a", 1, .node "rect" none none, none, none, none⟩
  let b : Declaration := ⟨"b", 2, .node "rect" none none, none, none, none⟩
  let d : Document Quantity := Document.empty Document.page
  let v := ((Work.reconcile .standard (.cons a .nil .nil)).run ⟨d, ⟨⟨fun _ => "", 0⟩, []⟩⟩).2
  let w := ((Work.reconcile .standard (.cons a (.cons b .nil .nil) .nil)).run ⟨v.document, v.context⟩).2
  have tidy (g : Forest) (plain : ∀ h ∈ g.preorder, h.props = none ∧ h.metadata = none) : g.Tidy := by
    intro h member
    obtain ⟨props, metadata⟩ := plain h member
    exact ⟨by simp [props], by simp [metadata]⟩
  have run : Run v.document (Trail.note d v.document .empty) := by
    obtain ⟨o, first, _⟩ : ∃ o, Gives (Work.reconcile .standard (.cons a .nil .nil)) ⟨d, _⟩ o v ∧ _ :=
      exists_gives (fun _ => true) (by decide +kernel)
    exact .pass (.empty Document.page) (tidy _ (by decide)) first (by simp [d, Document.empty, Document.handles])
  obtain ⟨o, second, changed⟩ : ∃ o, Gives (Work.reconcile .standard (.cons a (.cons b .nil .nil) .nil))
      ⟨v.document, v.context⟩ o w ∧ o.changed = true := exists_gives Outcome.changed (by decide +kernel)
  have navigable := run.navigable
  obtain ⟨action, u, undone, back, _⟩ := Work.undo_reverts navigable.consistent navigable.tidy (tidy _ (by decide))
    second changed (by decide +kernel)
  exact ⟨v.document, w, by decide +kernel, by decide +kernel, action, u, undone, back⟩

/-- An undo does not lead back over a pass that removes a node and creates one under its id. An edge that was at the node
before the pass is free after the undo. -/
theorem Work.undo_misses_reborn :
    ∃ (context : Context) (w₁ w₂ w₃ : Workspace Quantity) (action : Action Quantity),
      (∃ errors, Gives (Work.applyText "a: rect \x7b\n  n: rect\n\x7d\ne: edge n --") ⟨Document.empty Document.page, context⟩
        errors w₁ ∧ errors.isEmpty = true) ∧
      (∃ errors, Gives (Work.applyText "x: rect \x7b\n  n: rect\n\x7d\ne: edge n --") w₁ errors w₂ ∧
        errors.isEmpty = true) ∧
      Gives Work.undo w₂ (some action) w₃ ∧ w₁.document.endOf .start "e" = some (.atCenter "n") ∧
      ¬ w₃.document.Agrees w₁.document := by
  let context : Context := ⟨⟨fun _ => "", 0⟩, []⟩
  let start : Workspace Quantity := ⟨Document.empty Document.page, context⟩
  let w₁ := ((Work.applyText "a: rect \x7b\n  n: rect\n\x7d\ne: edge n --").run start).2
  let w₂ := ((Work.applyText "x: rect \x7b\n  n: rect\n\x7d\ne: edge n --").run w₁).2
  let w₃ := (Work.undo.run w₂).2
  obtain ⟨action?, undone, acted⟩ : ∃ action?, Gives Work.undo w₂ action? w₃ ∧ action?.isSome = true :=
    exists_gives Option.isSome (by decide +kernel)
  obtain ⟨action, rfl⟩ := Option.isSome_iff_exists.1 acted
  refine ⟨context, w₁, w₂, w₃, action, exists_gives Errors.isEmpty (by decide +kernel),
    exists_gives Errors.isEmpty (by decide +kernel), undone, by decide +kernel, fun agrees => ?_⟩
  have apart : (w₃.document.endOf .start "e").map Endpoint.link? ≠ (w₁.document.endOf .start "e").map Endpoint.link? := by
    decide +kernel
  exact apart (agrees "e").link_endOf

end LiveDiagram
