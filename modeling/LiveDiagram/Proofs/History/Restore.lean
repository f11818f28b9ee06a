import LiveDiagram.Proofs.Edit.Remove
import LiveDiagram.Proofs.Edit.Transact
import LiveDiagram.Proofs.History.Phases

/-! Restoring states leaves the invariant intact, as long as no state names a child twice. -/
namespace LiveDiagram

variable {α : Type}

/-- No state names a child twice. -/
def States.Sane (states : States α) : Prop :=
  ∀ id s, (id, some s) ∈ states → s.children.Nodup

namespace Document
variable {d : Document α} {s : Snapshot α} {x : String}

theorem contains_filled : (d.filled s).contains x = d.contains x := by
  have entries : (d.modify s.id fun e => { e with props := s.props, metadata := s.metadata }).contains x =
      d.contains x := contains_modify fun _ => rfl
  unfold Document.filled
  dsimp only
  split
  · rw [contains_modify Element.keepsPlace_mapNode.id]
    exact entries
  · exact entries

theorem contains_revived : (d.revived s).contains x = true ↔ d.contains x = true ∨ x = s.id := by
  unfold Document.revived
  rw [contains_filled]
  split
  · next present =>
    constructor
    · exact .inl
    · rintro (there | rfl)
      · exact there
      · exact present
  · exact contains_register

theorem contains_settled : (d.settled s).contains x = d.contains x := by
  unfold Document.settled
  dsimp only
  split
  · exact contains_attach
  · rfl

/-- Reviving elements, all are there at the end. -/
theorem consistent_foldl_revived (present : List (Snapshot α)) (consistent : d.Consistent) :
    (present.foldl (fun d s => d.revived s) d).Consistent ∧
      ∀ x, (present.foldl (fun d s => d.revived s) d).contains x = true ↔
        d.contains x = true ∨ x ∈ present.map Snapshot.id := by
  induction present generalizing d with
  | nil => exact ⟨consistent, by simp⟩
  | cons s rest ih =>
    obtain ⟨after, there⟩ := ih (consistent.revived (s := s))
    refine ⟨after, fun x => (there x).trans ?_⟩
    rw [contains_revived, List.map_cons, List.mem_cons, or_assoc]

theorem consistent_foldl_settled (present : List (Snapshot α)) (consistent : d.Consistent)
    (there : ∀ s ∈ present, d.contains s.id = true) : (present.foldl (fun d s => d.settled s) d).Consistent := by
  induction present generalizing d with
  | nil => exact consistent
  | cons s rest ih =>
    refine ih (consistent.settled (there s List.mem_cons_self)) fun s' member => ?_
    rw [contains_settled]
    exact there s' (List.mem_cons_of_mem s member)

theorem consistent_foldl_arranged (present : List (Snapshot α)) (consistent : d.Consistent)
    (distinct : ∀ s ∈ present, s.children.Nodup) : (present.foldl (fun d s => d.arranged s) d).Consistent := by
  induction present generalizing d with
  | nil => exact consistent
  | cons s rest ih =>
    exact ih (consistent.arranged (distinct s List.mem_cons_self)) fun s' member =>
      distinct s' (List.mem_cons_of_mem s member)

theorem consistent_foldl_rejoined (present : List (Snapshot α)) (consistent : d.Consistent) :
    (present.foldl (fun d s => d.rejoined s) d).Consistent := by
  induction present generalizing d with
  | nil => exact consistent
  | cons s rest ih => exact ih (consistent.rejoined (s := s))

/-- The phases of a restore, once what is to be absent has gone. -/
def restored (present : List (Snapshot α)) (d : Document α) : Document α :=
  let d := present.foldl (fun d s => d.revived s) d
  let d := present.foldl (fun d s => d.settled s) d
  let d := present.foldl (fun d s => d.arranged s) d
  present.foldl (fun d s => d.rejoined s) d

theorem surroundings_restored (present : List (Snapshot α)) : (d.restored present).surroundings = d.surroundings := by
  unfold restored
  dsimp only
  rw [foldl_keeps fun _ _ => surroundings_rejoined, foldl_keeps fun _ _ => surroundings_arranged,
    foldl_keeps fun _ _ => surroundings_settled, foldl_keeps fun _ _ => surroundings_revived]

theorem Consistent.restored {present : List (Snapshot α)} (consistent : d.Consistent)
    (distinct : ∀ s ∈ present, s.children.Nodup) : (d.restored present).Consistent := by
  obtain ⟨revived, there⟩ := consistent_foldl_revived present consistent
  have settled := consistent_foldl_settled present revived fun s member =>
    (there s.id).2 (.inr (List.mem_map_of_mem member))
  exact consistent_foldl_rejoined present (consistent_foldl_arranged present settled distinct)

end Document

namespace Edit
variable [Coordinate α] {t t' : Transaction α} {b : Unit}

theorem removeIfPresent_steps {id : String} (consistent : t.document.Consistent)
    (given : Gives (removeIfPresent id) t b t') : Steps ⟨true, true⟩ t t' := by
  simp only [removeIfPresent, gives_bind, gives_document] at given
  obtain ⟨_, _, ⟨rfl, rfl⟩, given⟩ := given
  split at given
  · exact (remove_steps ⟨true, true⟩ consistent given).2.1
  · exact (gives_pure.1 given).2 ▸ .refl

/-- The states of elements that are to be there. -/
def presentOf (states : States α) : List (Snapshot α) :=
  states.filterMap Prod.snd

/-- A restore that returns removes what is to be absent, and then goes through its phases. -/
theorem gives_restore {states : States α} (given : Gives (restore states) t b t') :
    ∃ u, Gives ((states.filter (·.2.isNone)).forM fun (id, _) => removeIfPresent id) t () u ∧
      t'.document = (u.document.restored (presentOf states)).emit .restored (states.map Prod.fst) := by
  simp only [restore, gives_bind, gives_change] at given
  obtain ⟨_, u, removed, _, v, revived, _, w, settled, _, x, arranged, _, y, rejoined, rfl⟩ := given
  refine ⟨u, removed, ?_⟩
  rw [foldl_of_gives_forM (fun _ _ _ => gives_rejoin) rejoined,
    foldl_of_gives_forM (fun _ _ _ => gives_arrange.1) arranged,
    foldl_of_gives_forM (fun _ _ _ => gives_settle.1) settled,
    foldl_of_gives_forM (fun _ _ _ => gives_revive) revived]
  rfl

theorem consistent_restore {states : States α} (consistent : t.document.Consistent) (sane : states.Sane)
    (given : Gives (restore states) t b t') : t'.document.Consistent := by
  obtain ⟨u, removed, same⟩ := gives_restore given
  have bereft : u.document.Consistent := by
    refine removed.forM (fun u => u.document.Consistent) consistent ?_
    exact fun _ _ v v' consistent removed => consistent.steps (removeIfPresent_steps consistent removed)
  rw [same]
  refine Document.Sound.congr (bereft.restored ?_) rfl rfl rfl rfl
  intro s member
  obtain ⟨⟨id, _⟩, entry, rfl⟩ := List.mem_filterMap.1 member
  exact sane id s entry

/-- Restoring leaves the history alone. -/
theorem history_restore {states : States α} (consistent : t.document.Consistent)
    (given : Gives (restore states) t b t') : t'.document.history = t.document.history := by
  obtain ⟨u, removed, same⟩ := gives_restore given
  have bereft : u.document.Consistent ∧ u.document.history = t.document.history := by
    refine removed.forM (fun u => u.document.Consistent ∧ u.document.history = t.document.history)
      ⟨consistent, rfl⟩ ?_
    rintro _ _ v v' ⟨consistent, same⟩ removed
    have steps := removeIfPresent_steps consistent removed
    exact ⟨consistent.steps steps, steps.history_eq.trans same⟩
  have phases : (u.document.restored (presentOf states)).history = u.document.history :=
    congrArg Document.Surroundings.history (Document.surroundings_restored (presentOf states))
  rw [same]
  exact phases.trans bereft.2

end Edit

namespace Work
variable [Coordinate α] {w w' : Workspace α} {result : Option (Action α)}

/-- The document with the next action taken off what can be undone. -/
def popUndo (d : Document α) (rest : List (Action α)) : Document α :=
  { d with history := { d.history with undoable := rest } }

def pushUndo (d : Document α) (action : Action α) : Document α :=
  { d with history := { d.history with undoable := action :: d.history.undoable } }

/-- The document with the next action taken off what can be redone. -/
def popRedo (d : Document α) (rest : List (Action α)) : Document α :=
  { d with history := { d.history with redoable := rest } }

def pushRedo (d : Document α) (action : Action α) : Document α :=
  { d with history := { d.history with redoable := action :: d.history.redoable } }

/-- A step along the history does nothing where no action waits, and otherwise takes the next one off, restores the
states on its far side and puts it on the other list. -/
theorem gives_turn (waiting : Document α → List (Action α)) (pop : Document α → List (Action α) → Document α)
    (push : Document α → Action α → Document α) (states : Action α → States α) :
    Gives (do
      match waiting (← document) with
      | [] => return none
      | action :: rest =>
        change (pop · rest)
        transact false (Edit.restore (states action))
        change (push · action)
        return some action) w result w' ↔
    (waiting w.document = [] ∧ result = none ∧ w' = w) ∨
      ∃ action rest t, waiting w.document = action :: rest ∧ result = some action ∧
        Gives (Edit.restore (states action)) ⟨pop w.document rest, .opened α false, w.context⟩ () t ∧
        w' = ⟨push t.document action, t.context⟩ := by
  simp only [gives_bind, gives_document]
  cases next : waiting w.document with
  | nil =>
    constructor
    · rintro ⟨_, _, ⟨rfl, rfl⟩, given⟩
      simp only [next, gives_pure] at given
      exact .inl ⟨rfl, given.1, given.2.symm⟩
    · rintro (⟨_, rfl, rfl⟩ | ⟨_, _, _, same, _⟩)
      · exact ⟨_, _, ⟨rfl, rfl⟩, by simp [next]⟩
      · cases same
  | cons action rest =>
    constructor
    · rintro ⟨_, _, ⟨rfl, rfl⟩, given⟩
      simp only [next, gives_bind, gives_transact, gives_change, gives_pure] at given
      obtain ⟨_, _, rfl, _, _, ⟨t, restored, rfl⟩, _, _, rfl, rfl, rfl⟩ := given
      exact .inr ⟨action, rest, t, rfl, rfl, restored, rfl⟩
    · rintro (⟨same, _⟩ | ⟨_, _, t, same, rfl, restored, rfl⟩)
      · cases same
      · cases same
        refine ⟨_, _, ⟨rfl, rfl⟩, ?_⟩
        simp only [next, gives_bind, gives_transact, gives_change, gives_pure]
        exact ⟨(), _, rfl, (), _, ⟨t, restored, rfl⟩, (), _, rfl, trivial, rfl⟩

/-- An undo that returns does nothing, or takes an action off and restores the states before it. -/
theorem gives_undo : Gives Work.undo w result w' ↔
    (w.document.history.undoable = [] ∧ result = none ∧ w' = w) ∨
      ∃ action rest t, w.document.history.undoable = action :: rest ∧ result = some action ∧
        Gives (Edit.restore action.before) ⟨popUndo w.document rest, .opened α false, w.context⟩ () t ∧
        w' = ⟨pushRedo t.document action, t.context⟩ :=
  gives_turn (·.history.undoable) popUndo pushRedo Action.before

/-- A redo that returns does nothing, or takes an action off and restores the states after it. -/
theorem gives_redo : Gives Work.redo w result w' ↔
    (w.document.history.redoable = [] ∧ result = none ∧ w' = w) ∨
      ∃ action rest t, w.document.history.redoable = action :: rest ∧ result = some action ∧
        Gives (Edit.restore action.after) ⟨popRedo w.document rest, .opened α false, w.context⟩ () t ∧
        w' = ⟨pushUndo t.document action, t.context⟩ :=
  gives_turn (·.history.redoable) popRedo pushUndo Action.after

end Work
end LiveDiagram
