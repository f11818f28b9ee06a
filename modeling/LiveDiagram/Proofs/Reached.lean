import LiveDiagram.Number.Quantity
import LiveDiagram.Proofs.History.Sane

/-! The documents that edits, passes, undo and redo lead to. In each of them the four copies of the containment
and the arcs of the edges agree. -/
namespace LiveDiagram

variable {α : Type} [Coordinate α]

/-- The edits of live elements that a document offers. An end is given at a node that is there or free. -/
inductive Primitive (d : Document α) : Edit α Unit → Prop
  | add (id : String) (content : Content α) (props metadata : Props) (parent : Option Handle) :
      (∀ relation p, (Element.new id content props metadata).end? relation = some p → d.Fits p) →
      (∀ holder, parent = some holder → d.isLive holder = true) →
      Primitive d (Edit.insert (.new id content props metadata) parent)
  | addChild (parent child : String) : d.contains child = true → Primitive d (Edit.nest parent child)
  | removeChild (parent child : String) : Primitive d (Edit.removeFrom parent child)
  | remove (id : String) : Primitive d (Edit.remove id)
  | setStart (edge : String) (p : Endpoint α) : d.Fits p → Primitive d (Edit.moveStart edge p)
  | setStop (edge : String) (p : Endpoint α) : d.Fits p → Primitive d (Edit.moveStop edge p)
  | addLabel (edge node : String) (label : LabelPlacement α) : Primitive d (Edit.markLabel edge node label)
  | setLabels (standard : LabelPlacement α) (edge : String) (nodes : List String) :
      Primitive d (Edit.chooseLabels standard edge nodes)
  | setText (id text : String) : Primitive d (Edit.putText id text)
  | setType (id type : String) : Primitive d (Edit.putType id type)
  | updateProps (id : String) (change : Props → Props) : Primitive d (Edit.editProps id change)
  | updateMetadata (id : String) (change : Props → Props) : Primitive d (Edit.editMetadata id change)
  | putLabel (config : Config α) (edge text : String) (keep : List String) :
      Primitive d (discard (Edit.putLabel config edge text keep))

/-- Documents reached from an empty one by edits in any transactions, passes over any forests, undo and redo, as
long as each of them returns. -/
inductive Reached : Document α → Prop
  | empty (bounds : Bounds α) : Reached (Document.empty bounds)
  | edit {d : Document α} {e : Edit α Unit} {ledger : Ledger α} {context : Context} {t : Transaction α} :
      Reached d → Primitive d e → Gives e ⟨d, ledger, context⟩ () t → Reached t.document
  | pass {d : Document α} {config : Config α} {f : Forest} {context : Context} {outcome : Outcome} {w : Workspace α} :
      Reached d → Gives (Work.reconcile config f) ⟨d, context⟩ outcome w → Reached w.document
  | undo {d : Document α} {context : Context} {action : Option (Action α)} {w : Workspace α} :
      Reached d → Gives Work.undo ⟨d, context⟩ action w → Reached w.document
  | redo {d : Document α} {context : Context} {action : Option (Action α)} {w : Workspace α} :
      Reached d → Gives Work.redo ⟨d, context⟩ action w → Reached w.document

/-- Every primitive goes by steps. -/
theorem Primitive.steps {t t' : Transaction α} {e : Edit α Unit} {b : Unit} (primitive : Primitive t.document e)
    (consistent : t.document.Consistent) (given : Gives e t b t') : Steps ⟨true, false⟩ t t' := by
  cases primitive with
  | add id content props metadata parent fits live =>
    refine (Edit.insert_steps ⟨true, false⟩ consistent rfl rfl fits ?_ (by simp) given).2.2.2
    exact fun holder same => consistent.births_lt holder (Document.isLive_iff.1 (live holder same))
  | addChild parent child present => exact Edit.nest_steps ⟨true, false⟩ given present rfl
  | removeChild parent child =>
    simp only [Edit.removeFrom, gives_bind, Edit.gives_element] at given
    obtain ⟨_, _, ⟨_, rfl⟩, _, _, ⟨_, rfl⟩, given⟩ := given
    split at given
    · simp at given
    · exact (Edit.remove_steps ⟨true, false⟩ consistent given).2.1
  | remove id => exact (Edit.remove_steps ⟨true, false⟩ consistent given).2.1
  | setStart edge p fits => exact Edit.moveStart_steps ⟨true, false⟩ consistent fits given
  | setStop edge p fits => exact Edit.moveStop_steps ⟨true, false⟩ consistent fits given
  | addLabel edge node label => exact (Edit.markLabel_steps ⟨true, false⟩ (.inl rfl) given).1
  | setLabels standard edge nodes => exact Edit.chooseLabels_steps ⟨true, false⟩ (.inl rfl) given
  | setText id text => exact Edit.putText_steps ⟨true, false⟩ given
  | setType id type => exact Edit.putType_steps ⟨true, false⟩ given
  | updateProps id change => exact Edit.editProps_steps ⟨true, false⟩ given (by simp)
  | updateMetadata id change => exact Edit.editMetadata_steps ⟨true, false⟩ given (by simp)
  | putLabel config edge text keep =>
    obtain ⟨_, given⟩ := gives_discard.1 given
    exact Edit.putLabel_steps ⟨true, false⟩ consistent given

theorem Reconcile.consistent_conclude {d : Document α} {diff : Diff α} (consistent : d.Consistent) :
    (Reconcile.conclude diff d).Consistent := by
  unfold Reconcile.conclude Document.recordDiff
  dsimp only
  split <;> exact Document.Sound.congr consistent rfl rfl rfl rfl

theorem Reconcile.sane_conclude {t : Transaction α} {heard : List Event} (consistent : t.document.Consistent)
    (recorded : States.Sane t.ledger.before) (sane : t.document.history.Sane) :
    (Reconcile.conclude t.diff (t.document.told heard)).history.Sane := by
  obtain ⟨before, after⟩ := Transaction.sane_diff consistent recorded
  exact Document.sane_recordDiff sane before after

theorem Reached.sound {d : Document α} (reached : Reached d) : d.Consistent ∧ d.history.Sane := by
  induction reached with
  | empty bounds =>
    exact ⟨Document.consistent_empty bounds, by simp [Document.empty, History.empty, History.Sane]⟩
  | edit _ primitive given ih =>
    have steps := primitive.steps ih.1 given
    exact ⟨ih.1.steps steps, steps.history_eq ▸ ih.2⟩
  | pass _ given ih =>
    obtain ⟨u, heard, steps, concluded, _⟩ := Work.gives_reconcile ih.1 given ⟨false, false⟩ (by simp)
    have consistent : u.document.Consistent := ih.1.steps steps
    have recorded : States.Sane u.ledger.before := steps.sane ih.1 (by simp [States.Sane, Ledger.opened])
    rw [concluded]
    exact ⟨Reconcile.consistent_conclude (consistent.congr rfl rfl rfl rfl),
      Reconcile.sane_conclude consistent recorded (steps.history_eq ▸ ih.2)⟩
  | undo _ given ih =>
    rcases Work.gives_undo.1 given with ⟨_, _, rfl⟩ | ⟨action, rest, t, undoable, _, restored, rfl⟩
    · exact ih
    · -- Restoring leaves the history alone, so that the action goes over as it was recorded.
      obtain ⟨own, moved⟩ := ih.2.undo undoable
      have popped : (Work.popUndo _ rest).Consistent := Document.Sound.congr ih.1 rfl rfl rfl rfl
      have history := Edit.history_restore popped restored
      refine ⟨(Edit.consistent_restore popped own.1 restored).congr rfl rfl rfl rfl, ?_⟩
      simp only [Work.pushRedo, history, Work.popUndo]
      exact moved
  | redo _ given ih =>
    rcases Work.gives_redo.1 given with ⟨_, _, rfl⟩ | ⟨action, rest, t, redoable, _, restored, rfl⟩
    · exact ih
    · obtain ⟨own, moved⟩ := ih.2.redo redoable
      have popped : (Work.popRedo _ rest).Consistent := Document.Sound.congr ih.1 rfl rfl rfl rfl
      have history := Edit.history_restore popped restored
      refine ⟨(Edit.consistent_restore popped own.2 restored).congr rfl rfl rfl rfl, ?_⟩
      simp only [Work.pushUndo, history, Work.popRedo]
      exact moved

namespace Document.Consistent
variable {d : Document α} {e : Element α}

omit [Coordinate α] in
theorem find?_of_mem (consistent : d.Consistent) (member : e ∈ d.elements) : d.find? e.id = some e :=
  Document.find?_of_mem consistent.ids_nodup member

omit [Coordinate α] in
theorem contains_parent (consistent : d.Consistent) {child parent : String} (nested : d.parentOf child = some parent) :
    d.contains parent = true :=
  contains_of_mem_childIds ((consistent.mem_children parent child).2 nested)

end Document.Consistent

end LiveDiagram
