import LiveDiagram.Document.Transaction
import LiveDiagram.Proofs.Endings

/-! What work on a document leaves when it ends. -/
namespace LiveDiagram.Work

variable {α : Type} {w w' : Workspace α}

theorem gives_document {d : Document α} : Gives Work.document w d w' ↔ d = w.document ∧ w = w' := by
  simp only [Work.document, gives_bind, gives_get, gives_pure]
  grind

theorem gives_change {f : Document α → Document α} {b : Unit} :
    Gives (Work.change f) w b w' ↔ w' = { w with document := f w.document } :=
  gives_modify

theorem gives_transact {β : Type} {tracking : Bool} {edit : Edit α β} {b : β} :
    Gives (Work.transact tracking edit) w b w' ↔
      ∃ t, Gives edit ⟨w.document, .opened α tracking, w.context⟩ b t ∧ w' = ⟨t.document, t.context⟩ := by
  have unfolded : ((Work.transact tracking edit).run w : Except Fault β × Workspace α) =
      (edit.run ⟨w.document, .opened α tracking, w.context⟩ : Except Fault β × Transaction α).map id
        fun t => ⟨t.document, t.context⟩ := rfl
  unfold Gives
  rw [unfolded]
  generalize (edit.run ⟨w.document, .opened α tracking, w.context⟩ : Except Fault β × Transaction α) = ran
  rcases ran with ⟨result, t⟩
  constructor
  · intro same
    cases same
    exact ⟨t, rfl, rfl⟩
  · rintro ⟨_, same, rfl⟩
    cases same
    rfl

/-- An edit ends in a transaction as it does alone, and leaves the document and the context as they are then. -/
theorem ends_transact {β : Type} {tracking : Bool} {edit : Edit α β} {returns : β → Transaction α → Prop}
    {stops : Fault → Transaction α → Prop}
    (ends : Ends edit ⟨w.document, .opened α tracking, w.context⟩ returns stops) :
    Ends (Work.transact tracking edit) w (fun b w' => ∃ t, returns b t ∧ w' = ⟨t.document, t.context⟩)
      fun fault w' => ∃ t, stops fault t ∧ w' = ⟨t.document, t.context⟩ := by
  have unfolded : ((Work.transact tracking edit).run w : Except Fault β × Workspace α) =
      (edit.run ⟨w.document, .opened α tracking, w.context⟩ : Except Fault β × Transaction α).map id
        fun t => ⟨t.document, t.context⟩ := rfl
  rcases ends with ⟨b, t, given, holds⟩ | ⟨fault, t, stopped, holds⟩
  · exact .inl ⟨b, _, gives_transact.2 ⟨t, given, rfl⟩, t, holds, rfl⟩
  · refine .inr ⟨fault, ⟨t.document, t.context⟩, ?_, t, holds, rfl⟩
    unfold Stops at stopped ⊢
    rw [unfolded, stopped]
    rfl

end LiveDiagram.Work
