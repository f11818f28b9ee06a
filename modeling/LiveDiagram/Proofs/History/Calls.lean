import LiveDiagram.Proofs.Document.Brought
import LiveDiagram.Proofs.History.Kinds
import LiveDiagram.Proofs.Reached

/-! Calls to undo and redo, however the calls before them ended. A call moves its action to the other list, or it stops
at a state of the other kind, and then the action is struck from the history; it stops only where some pass has given
an id to an element of the other kind. -/
namespace LiveDiagram

variable {α : Type}

/-- An action has states of both kinds under one id, the one before and the other after it. -/
def Action.Switches (action : Action α) : Prop :=
  ∃ x s s', (x, some s) ∈ action.before ∧ (x, some s') ∈ action.after ∧ s.kind ≠ s'.kind

namespace States
variable {states states' : States α} {kinds kinds' : Kinds} {x : String}

/-- States of elements with these kinds. -/
def Tell (states : States α) (kinds : Kinds) : Prop :=
  ∀ x state, (x, state) ∈ states → state.map Snapshot.kind = kinds x ∧ ∀ s, state = some s → s.id = x

/-- States of the same ids for two assignments of kinds, which differ only where one of them has no element. -/
structure Turn (states states' : States α) (kinds kinds' : Kinds) : Prop where
  tell : states.Tell kinds
  tell' : states'.Tell kinds'
  ids : ∀ x, x ∈ states.ids ↔ x ∈ states'.ids
  others : ∀ x, x ∉ states.ids → kinds x = kinds' x
  steady : ∀ x s s', (x, some s) ∈ states → (x, some s') ∈ states' → s.kind = s'.kind

theorem Turn.symm (turn : Turn states states' kinds kinds') : Turn states' states kinds' kinds where
  tell := turn.tell'
  tell' := turn.tell
  ids x := (turn.ids x).symm
  others x unlisted := (turn.others x (mt (turn.ids x).1 unlisted)).symm
  steady x s s' listed listed' := (turn.steady x s' s listed' listed).symm

theorem exists_of_mem_ids (member : x ∈ states.ids) : ∃ state, (x, state) ∈ states := by
  obtain ⟨⟨_, state⟩, listed, rfl⟩ := List.mem_map.1 member
  exact ⟨state, listed⟩

/-- A document that obeys the kinds of the one list is brought to the states of the other. -/
theorem Turn.restores [Coordinate α] {t : Transaction α} (turn : Turn states states' kinds kinds')
    (consistent : t.document.Consistent) (idle : t.ledger.Idle) (obeys : t.document.Obeys kinds) :
    ∃ t', Gives (Edit.restore states') t () t' ∧ t'.document.Obeys kinds' := by
  refine Edit.restore_obeys consistent idle (fun s present => ?_) fun x k stays kind => ?_
  · obtain ⟨x, listed⟩ := mem_presentOf.1 present
    obtain ⟨kind, named⟩ := turn.tell' x _ listed
    rw [named s rfl]
    exact kind.symm
  · have own := obeys x k kind
    by_cases listed : x ∈ states.ids
    · obtain ⟨state, member⟩ := exists_of_mem_ids listed
      obtain ⟨state', member'⟩ := exists_of_mem_ids ((turn.ids x).1 listed)
      have before := (turn.tell x state member).1
      rw [own] at before
      obtain ⟨s, rfl, rfl⟩ := Option.map_eq_some_iff.1 before
      cases state' with
      | none => exact (stays member').elim
      | some s' => rw [← (turn.tell' x _ member').1, turn.steady x s s' member member', Option.map_some]
    · rw [← turn.others x listed, own]

end States

/-- An action takes the elements of one kind each to those of another assignment, without a switch. -/
abbrev Action.Redoes (action : Action α) (kinds kinds' : Kinds) : Prop :=
  States.Turn action.before action.after kinds kinds'

abbrev Action.Undoes (action : Action α) (kinds kinds' : Kinds) : Prop :=
  States.Turn action.after action.before kinds kinds'

/-- Actions that can be gone through one after the other, from elements with these kinds. -/
def Chained (step : Action α → Kinds → Kinds → Prop) : List (Action α) → Kinds → Prop
  | [], _ => True
  | action :: rest, kinds => ∃ kinds', step action kinds kinds' ∧ Chained step rest kinds'

namespace Work
variable [Coordinate α] {w w' : Workspace α} {action : Action α} {rest : List (Action α)}

/-! One call -/

/-- What a call does once its action is taken off the one list: it restores the states and then puts the action on the
other list. -/
def carryOut (action : Action α) (states : States α) (push : Document α → Document α) :
    Work α (Option (Action α)) := do
  transact false (Edit.restore states)
  change push
  return some action

/-- What the invariant asks of a document and its history. -/
def Sound (d : Document α) : Prop :=
  d.Consistent ∧ d.history.Sane

section
variable {states states' : States α} {push : Document α → Document α} {kinds kinds' : Kinds}

theorem carryOut_ends (consistent : w.document.Consistent) (sane : states.Sane) :
    Ends (carryOut action states push) w
      (fun result w' => result = some action ∧ ∃ d : Document α, d.Consistent ∧ d.history = w.document.history ∧
        w'.document = push d)
      fun fault w' => (∃ field, fault = .missingField field) ∧ w'.document.Consistent ∧
        w'.document.history = w.document.history := by
  have restored := Edit.restore_ends (t := ⟨w.document, .opened α false, w.context⟩) consistent sane .opened
  refine .bind ((ends_transact restored).mono (fun _ u given _ => ?_) ?_) fun _ u _ (left : u.document.Consistent ∧
    u.document.history = w.document.history) => ?_
  · obtain ⟨t, brought, rfl⟩ := gives_transact.1 given
    exact ⟨Edit.consistent_restore consistent sane brought, Edit.history_restore (t := ⟨_, _, _⟩) consistent brought⟩
  · rintro fault _ ⟨t, stopped, rfl⟩
    exact stopped
  · exact .andThen (b := ()) (gives_change.2 rfl)
      (.of_gives (gives_pure.2 ⟨rfl, rfl⟩) ⟨rfl, u.document, left.1, left.2, rfl⟩)

theorem carryOut_returns (action : Action α) (push : Document α → Document α) (consistent : w.document.Consistent) (turn : States.Turn states' states kinds kinds')
    (obeys : w.document.Obeys kinds) :
    ∃ w' d, Gives (carryOut action states push) w (some action) w' ∧ d.Obeys kinds' ∧ w'.document = push d := by
  obtain ⟨t, restored, obeys'⟩ :=
    turn.restores (t := ⟨w.document, .opened α false, w.context⟩) consistent .opened obeys
  exact ⟨_, t.document, gives_bind.2 ⟨(), _, gives_transact.2 ⟨t, restored, rfl⟩,
    gives_bind.2 ⟨(), _, gives_change.2 rfl, gives_pure.2 ⟨rfl, rfl⟩⟩⟩, obeys', rfl⟩

end

/-- What an undo that finds an action does. -/
theorem ends_undo {returns : Option (Action α) → Workspace α → Prop} {stops : Fault → Workspace α → Prop}
    (undoable : w.document.history.undoable = action :: rest)
    (ends : Ends (carryOut action action.before (pushRedo · action)) ⟨popUndo w.document rest, w.context⟩ returns stops) :
    Ends Work.undo w returns stops := by
  unfold Work.undo
  refine .andThen (gives_document.2 ⟨rfl, rfl⟩) ?_
  rw [undoable]
  exact .andThen (b := ()) (gives_change.2 rfl) ends

/-- What a redo that finds an action does. -/
theorem ends_redo {returns : Option (Action α) → Workspace α → Prop} {stops : Fault → Workspace α → Prop}
    (redoable : w.document.history.redoable = action :: rest)
    (ends : Ends (carryOut action action.after (pushUndo · action)) ⟨popRedo w.document rest, w.context⟩ returns stops) :
    Ends Work.redo w returns stops := by
  unfold Work.redo
  refine .andThen (gives_document.2 ⟨rfl, rfl⟩) ?_
  rw [redoable]
  exact .andThen (b := ()) (gives_change.2 rfl) ends

/-- An undo moves its action to what can be redone, or strikes it where a state of the other kind stops it. -/
theorem undo_ends (sound : Sound w.document) (undoable : w.document.history.undoable = action :: rest) :
    Ends Work.undo w
      (fun result w' => result = some action ∧ Sound w'.document ∧
        w'.document.history = ⟨rest, action :: w.document.history.redoable⟩)
      fun fault w' => (∃ field, fault = .missingField field) ∧ Sound w'.document ∧
        w'.document.history = ⟨rest, w.document.history.redoable⟩ := by
  obtain ⟨own, moved⟩ := sound.2.undo undoable
  have popped : (popUndo w.document rest).Consistent := Document.Sound.congr sound.1 rfl rfl rfl rfl
  refine ends_undo undoable ((carryOut_ends (w := ⟨_, w.context⟩) popped own.1).mono ?_ ?_)
  · rintro result w' _ ⟨rfl, d, consistent, history, pushed⟩
    have after : w'.document.history = ⟨rest, action :: w.document.history.redoable⟩ := by
      rw [pushed]
      simp only [pushRedo, history]
    refine ⟨rfl, ⟨?_, after ▸ moved⟩, after⟩
    rw [pushed]
    exact consistent.congr rfl rfl rfl rfl
  · rintro fault w' ⟨missing, consistent, history⟩
    refine ⟨missing, ⟨consistent, ?_⟩, history⟩
    rw [history]
    exact ⟨moved.1, fun other member => moved.2 other (List.mem_cons_of_mem action member)⟩

/-- A redo moves its action to what can be undone, or strikes it where a state of the other kind stops it. -/
theorem redo_ends (sound : Sound w.document) (redoable : w.document.history.redoable = action :: rest) :
    Ends Work.redo w
      (fun result w' => result = some action ∧ Sound w'.document ∧
        w'.document.history = ⟨action :: w.document.history.undoable, rest⟩)
      fun fault w' => (∃ field, fault = .missingField field) ∧ Sound w'.document ∧
        w'.document.history = ⟨w.document.history.undoable, rest⟩ := by
  obtain ⟨own, moved⟩ := sound.2.redo redoable
  have popped : (popRedo w.document rest).Consistent := Document.Sound.congr sound.1 rfl rfl rfl rfl
  refine ends_redo redoable ((carryOut_ends (w := ⟨_, w.context⟩) popped own.2).mono ?_ ?_)
  · rintro result w' _ ⟨rfl, d, consistent, history, pushed⟩
    have after : w'.document.history = ⟨action :: w.document.history.undoable, rest⟩ := by
      rw [pushed]
      simp only [pushUndo, history]
    refine ⟨rfl, ⟨?_, after ▸ moved⟩, after⟩
    rw [pushed]
    exact consistent.congr rfl rfl rfl rfl
  · rintro fault w' ⟨missing, consistent, history⟩
    refine ⟨missing, ⟨consistent, ?_⟩, history⟩
    rw [history]
    exact ⟨fun other member => moved.1 other (List.mem_cons_of_mem action member), moved.2⟩

theorem undo_of_nil (undoable : w.document.history.undoable = []) : Gives Work.undo w none w :=
  gives_undo.2 (.inl ⟨undoable, rfl, rfl⟩)

theorem redo_of_nil (redoable : w.document.history.redoable = []) : Gives Work.redo w none w :=
  gives_redo.2 (.inl ⟨redoable, rfl, rfl⟩)

/-! Many calls -/

/-- What calls to undo and redo lead to, those that stop as well as those that return. -/
inductive Roams (w₀ : Workspace α) : Workspace α → Prop
  | start : Roams w₀ w₀
  | undo {w : Workspace α} : Roams w₀ w → Roams w₀ (Work.undo.run w : Except Fault (Option (Action α)) × Workspace α).2
  | redo {w : Workspace α} : Roams w₀ w → Roams w₀ (Work.redo.run w : Except Fault (Option (Action α)) × Workspace α).2

theorem Roams.sound {w₀ : Workspace α} (roams : Roams w₀ w) (sound : Sound w₀.document) : Sound w.document := by
  induction roams with
  | start => exact sound
  | @undo w _ ih =>
    refine Ends.left (fun w' : Workspace α => Sound w'.document) ?_
    cases undoable : w.document.history.undoable with
    | nil => exact .of_gives (undo_of_nil undoable) ih
    | cons action rest =>
      exact (undo_ends ih undoable).mono (fun _ _ _ ended => ended.2.1) fun _ _ ended => ended.2.1
  | @redo w _ ih =>
    refine Ends.left (fun w' : Workspace α => Sound w'.document) ?_
    cases redoable : w.document.history.redoable with
    | nil => exact .of_gives (redo_of_nil redoable) ih
    | cons action rest =>
      exact (redo_ends ih redoable).mono (fun _ _ _ ended => ended.2.1) fun _ _ ended => ended.2.1

/-- The elements have kinds from which all actions of the history can be gone through. -/
structure Steered (w : Workspace α) : Prop where
  sound : Sound w.document
  kinds : ∃ kinds, w.document.Obeys kinds ∧ Chained Action.Undoes w.document.history.undoable kinds ∧
    Chained Action.Redoes w.document.history.redoable kinds

theorem Steered.undo (steered : Steered w) (undoable : w.document.history.undoable = action :: rest) :
    ∃ w', Gives Work.undo w (some action) w' ∧ Steered w' := by
  obtain ⟨kinds, obeys, back, forth⟩ := steered.kinds
  rw [undoable] at back
  obtain ⟨kinds', turn, back⟩ := back
  have popped : (popUndo w.document rest).Consistent := Document.Sound.congr steered.sound.1 rfl rfl rfl rfl
  obtain ⟨v, d, carried, obeys', pushed⟩ := carryOut_returns (w := ⟨popUndo w.document rest, w.context⟩)
    action (pushRedo · action) popped turn obeys
  have ends : Ends Work.undo w (fun result w' => result = some action ∧ w' = v) fun _ _ => False :=
    ends_undo undoable (.of_gives carried ⟨rfl, rfl⟩)
  obtain ⟨_, v', given, rfl, rfl⟩ : ∃ result w', Gives Work.undo w result w' ∧ result = some action ∧ w' = v :=
    ends.resolve_right fun ⟨_, _, _, impossible⟩ => impossible
  obtain ⟨_, sound, history⟩ := (undo_ends steered.sound undoable).of_ends given
  refine ⟨v', given, sound, kinds', ?_, history ▸ back, ?_⟩
  · rw [pushed]
    exact obeys'.congr fun _ => rfl
  · rw [history]
    exact ⟨kinds, turn.symm, forth⟩

theorem Steered.redo (steered : Steered w) (redoable : w.document.history.redoable = action :: rest) :
    ∃ w', Gives Work.redo w (some action) w' ∧ Steered w' := by
  obtain ⟨kinds, obeys, back, forth⟩ := steered.kinds
  rw [redoable] at forth
  obtain ⟨kinds', turn, forth⟩ := forth
  have popped : (popRedo w.document rest).Consistent := Document.Sound.congr steered.sound.1 rfl rfl rfl rfl
  obtain ⟨v, d, carried, obeys', pushed⟩ := carryOut_returns (w := ⟨popRedo w.document rest, w.context⟩)
    action (pushUndo · action) popped turn obeys
  have ends : Ends Work.redo w (fun result w' => result = some action ∧ w' = v) fun _ _ => False :=
    ends_redo redoable (.of_gives carried ⟨rfl, rfl⟩)
  obtain ⟨_, v', given, rfl, rfl⟩ : ∃ result w', Gives Work.redo w result w' ∧ result = some action ∧ w' = v :=
    ends.resolve_right fun ⟨_, _, _, impossible⟩ => impossible
  obtain ⟨_, sound, history⟩ := (redo_ends steered.sound redoable).of_ends given
  refine ⟨v', given, sound, kinds', ?_, ?_, history ▸ forth⟩
  · rw [pushed]
    exact obeys'.congr fun _ => rfl
  · rw [history]
    exact ⟨kinds, turn.symm, back⟩

theorem Roams.steered {w₀ : Workspace α} (roams : Roams w₀ w) (steered : Steered w₀) : Steered w := by
  induction roams with
  | start => exact steered
  | @undo w _ ih =>
    refine Ends.left Steered ?_
    cases undoable : w.document.history.undoable with
    | nil => exact .of_gives (undo_of_nil undoable) ih
    | cons action rest =>
      obtain ⟨w', given, steered⟩ := ih.undo undoable
      exact .of_gives given steered
  | @redo w _ ih =>
    refine Ends.left Steered ?_
    cases redoable : w.document.history.redoable with
    | nil => exact .of_gives (redo_of_nil redoable) ih
    | cons action rest =>
      obtain ⟨w', given, steered⟩ := ih.redo redoable
      exact .of_gives given steered

/-! The history that texts bring about -/

/-- The action of a pass that switches no kinds leads between the kinds before and after it. -/
theorem undoes_reconcile {config : Config α} {f : Forest} {outcome : Outcome} (consistent : w.document.Consistent)
    (given : Gives (Work.reconcile config f) w outcome w') :
    ∃ action : Action α, w'.document.history =
        (if outcome.changed then w.document.history.push action else w.document.history) ∧
      (¬action.Switches → action.Undoes w'.document.kindOf w.document.kindOf) ∧
      (outcome.changed = false → w'.document.kindOf = w.document.kindOf) := by
  obtain ⟨t, recorded, states, rfl, history, _⟩ := Work.recorded_reconcile consistent given
  have named {d : Document α} {x : String} {s : Snapshot α} (state : d.state? x = some s) : s.id = x := by
    obtain ⟨e, found, rfl⟩ := Option.map_eq_some_iff.1 state
    exact Document.find?_eq_some_id found
  let action : Action α := .compound "Update diagram" t.diff.sets
  have ids (x : String) : x ∈ action.before.ids ↔ ∃ c ∈ t.diff, c.id = x ∧ Diff.Listed c :=
    Action.mem_ids_compound ChangeSet.ids_before
  have ids' (x : String) : x ∈ action.after.ids ↔ ∃ c ∈ t.diff, c.id = x ∧ Diff.Listed c :=
    Action.mem_ids_compound ChangeSet.ids_after
  have others (x : String) (unlisted : x ∉ action.before.ids) : w'.document.kindOf x = w.document.kindOf x := by
    rw [Document.kindOf_eq_state?, Document.kindOf_eq_state?, states]
    cases covered : t.ledger.covers x with
    | false => rw [recorded.unrecorded x covered]
    | true =>
      have member : (⟨x, w.document.state? x, t.document.state? x⟩ : Change α) ∈ t.diff :=
        recorded.mem_diff.2 ⟨covered, rfl, rfl⟩
      rcases Diff.not_listed fun listed => unlisted ((ids x).2 ⟨_, member, rfl, listed⟩) with ⟨before, after⟩ |
        ⟨a, b, before, after, same⟩
      · rw [show w.document.state? x = none from before, show t.document.state? x = none from after]
      · rw [show w.document.state? x = some a from before, show t.document.state? x = some b from after]
        exact congrArg some (Snapshot.kind_of_same same)
  refine ⟨action, history, fun steady => ⟨?_, ?_, fun x => (ids' x).trans (ids x).symm, fun x unlisted => ?_, ?_⟩, ?_⟩
  · intro x state listed
    obtain ⟨c, member, same⟩ := Action.mem_after_compound listed
    cases same
    obtain ⟨_, _, after⟩ := recorded.mem_diff.1 member
    rw [after, Document.kindOf_eq_state?, states]
    exact ⟨rfl, fun s => named⟩
  · intro x state listed
    obtain ⟨c, member, same⟩ := Action.mem_before_compound listed
    cases same
    obtain ⟨_, before, _⟩ := recorded.mem_diff.1 member
    rw [before, Document.kindOf_eq_state?]
    exact ⟨rfl, fun s => named⟩
  · exact others x (mt ((ids x).trans (ids' x).symm).1 unlisted)
  · intro x s s' after before
    by_contra other
    exact steady ⟨x, s', s, before, after, fun same => other same.symm⟩
  · intro idle
    have none : t.diff.sets = [] := List.isEmpty_iff.1 (by rw [Diff.isEmpty_sets, idle]; rfl)
    funext x
    refine others x fun listed => ?_
    have empty : action.before.ids = [] := by
      change States.ids (Action.merged ChangeSet.before t.diff.sets) = []
      rw [none]
      rfl
    rw [empty] at listed
    cases listed

theorem OfTexts.reached {w : Workspace α} (texts : OfTexts w) : Reached w.document := by
  induction texts with
  | empty bounds => exact .empty bounds
  | apply _ given clean ih =>
    obtain ⟨parsed, context, outcome, _, _, reconciled⟩ := (Work.gives_applyText clean).1 given
    exact .pass ih reconciled

/-- Texts that switch no kinds leave a history that can be gone through. -/
theorem OfTexts.chained (texts : OfTexts w) (steady : ∀ a ∈ w.document.history.undoable, ¬a.Switches) :
    w.document.history.redoable = [] ∧ Chained Action.Undoes w.document.history.undoable w.document.kindOf := by
  induction texts with
  | empty => exact ⟨rfl, trivial⟩
  | @apply w w' _ _ texts given clean ih =>
    obtain ⟨parsed, context, outcome, _, _, reconciled⟩ := (Work.gives_applyText clean).1 given
    obtain ⟨action, history, undoes, idle⟩ :=
      undoes_reconcile (w := { w with context := context }) texts.brought.consistent reconciled
    rw [history] at steady ⊢
    cases changed : outcome.changed with
    | false =>
      rw [changed] at steady
      rw [idle changed]
      exact ih steady
    | true =>
      rw [changed] at steady
      obtain ⟨_, chained⟩ := ih fun a member => steady a (List.mem_cons_of_mem action member)
      exact ⟨rfl, _, undoes (steady action List.mem_cons_self), chained⟩

/-- After texts that were brought in without errors, and calls to undo and redo that may have stopped, every call with
nothing to take does nothing. Every other call returns and moves its action to the other list, or a state of the other
kind lacks a field; then the action is struck, the other list is as before, and one of the passes has given an id to an
element of the other kind. -/
theorem OfTexts.calls_end {w₀ w : Workspace α} (texts : OfTexts w₀) (roams : Roams w₀ w) :
    (w.document.history.undoable = [] → Gives Work.undo w none w) ∧
    (w.document.history.redoable = [] → Gives Work.redo w none w) ∧
    (∀ action rest, w.document.history.undoable = action :: rest →
      (∃ w', Gives Work.undo w (some action) w' ∧
        w'.document.history = ⟨rest, action :: w.document.history.redoable⟩) ∨
      ∃ field w', Stops Work.undo w (.missingField field) w' ∧
        w'.document.history = ⟨rest, w.document.history.redoable⟩ ∧ ∃ a ∈ w₀.document.history.undoable, a.Switches) ∧
    ∀ action rest, w.document.history.redoable = action :: rest →
      (∃ w', Gives Work.redo w (some action) w' ∧
        w'.document.history = ⟨action :: w.document.history.undoable, rest⟩) ∨
      ∃ field w', Stops Work.redo w (.missingField field) w' ∧
        w'.document.history = ⟨w.document.history.undoable, rest⟩ ∧ ∃ a ∈ w₀.document.history.undoable, a.Switches := by
  have sound₀ : Sound w₀.document := texts.reached.sound
  have sound := roams.sound sound₀
  -- Without a switch each call is known to return, so that a call that stops tells of one.
  by_cases switches : ∃ a ∈ w₀.document.history.undoable, a.Switches
  · refine ⟨undo_of_nil, redo_of_nil, fun action rest undoable => ?_, fun action rest redoable => ?_⟩
    · rcases undo_ends sound undoable with ⟨_, w', given, rfl, _, history⟩ | ⟨_, w', stopped, ⟨field, rfl⟩, _, history⟩
      · exact .inl ⟨w', given, history⟩
      · exact .inr ⟨field, w', stopped, history, switches⟩
    · rcases redo_ends sound redoable with ⟨_, w', given, rfl, _, history⟩ | ⟨_, w', stopped, ⟨field, rfl⟩, _, history⟩
      · exact .inl ⟨w', given, history⟩
      · exact .inr ⟨field, w', stopped, history, switches⟩
  · obtain ⟨nothing, chained⟩ := texts.chained fun a member switch => switches ⟨a, member, switch⟩
    have steered : Steered w := roams.steered ⟨sound₀, _, fun _ _ => id, chained, nothing ▸ trivial⟩
    refine ⟨undo_of_nil, redo_of_nil, fun action rest undoable => .inl ?_, fun action rest redoable => .inl ?_⟩
    · obtain ⟨w', given, _⟩ := steered.undo undoable
      exact ⟨w', given, ((undo_ends sound undoable).of_ends given).2.2⟩
    · obtain ⟨w', given, _⟩ := steered.redo redoable
      exact ⟨w', given, ((redo_ends sound redoable).of_ends given).2.2⟩

/-- After a call that stopped at a switch, the next one takes the action before it back. -/
theorem OfTexts.calls_end_switched : ∃ (w₀ w w' : Workspace Quantity) (action : Action Quantity), OfTexts w₀ ∧
    Roams w₀ w ∧ Gives Work.undo w (some action) w' ∧ w'.document.history = ⟨[], [action]⟩ ∧
      ∃ a ∈ w₀.document.history.undoable, a.Switches := by
  let w₀ := (Workspace.blank.taking "a: rect \x7b\n  x: rect\n\x7d").taking "x: edge"
  have texts : OfTexts w₀ := .taking (.taking (.empty _ _) (by decide +kernel)) (by decide +kernel)
  have stopped : Stops Work.undo w₀ (.missingField "start") _ := exists_stops (by decide +kernel)
  have roams : Roams w₀ (Work.undo.run w₀).2 := .undo .start
  have first : w₀.document.history.undoable.length = 2 := by decide +kernel
  have second : (Work.undo.run w₀).2.document.history.undoable.length = 1 := by decide +kernel
  have third : (Work.undo.run w₀).2.document.history.redoable = [] := by decide +kernel
  obtain ⟨result, next, _⟩ := exists_gives (e := Work.undo) (t := (Work.undo.run w₀).2) (fun _ => true) (by decide +kernel)
  obtain ⟨_, _, calls, _⟩ := OfTexts.calls_end texts .start
  obtain ⟨_, _, calls', _⟩ := OfTexts.calls_end texts roams
  cases undoable : w₀.document.history.undoable with
  | nil => simp [undoable] at first
  | cons action rest =>
    cases undoable' : (Work.undo.run w₀).2.document.history.undoable with
    | nil => simp [undoable'] at second
    | cons action' rest' =>
      rcases calls action rest undoable with ⟨_, returned, _⟩ | ⟨_, _, _, _, switch⟩
      · cases returned.symm.trans stopped
      rcases calls' action' rest' undoable' with ⟨w', returned, history⟩ | ⟨_, _, stopped', _⟩
      · rw [undoable'] at second
        obtain rfl : rest' = [] := List.eq_nil_of_length_eq_zero (Nat.succ.inj second)
        exact ⟨w₀, _, w', action', texts, roams, returned, third ▸ history, switch⟩
      · cases next.symm.trans stopped'

/-- A pass that gives the id of a removed node to an edge cannot be undone: the call stops when it has brought back what
was around the node, and its action is lost. -/
theorem OfTexts.undo_stops_midway : ∃ w w' : Workspace Quantity, OfTexts w ∧
    Stops Work.undo w (.missingField "start") w' ∧ w.document.history.undoable.length = 2 ∧
      w'.document.history.undoable.length = 1 ∧ w'.document.history.redoable = [] ∧
      w.document.contains "a" = false ∧ w'.document.contains "a" = true := by
  let w := (Workspace.blank.taking "a: rect \x7b\n  x: rect\n\x7d").taking "x: edge"
  have texts : OfTexts w := .taking (.taking (.empty _ _) (by decide +kernel)) (by decide +kernel)
  exact ⟨w, _, texts, exists_stops (by decide +kernel), by decide +kernel, by decide +kernel, by decide +kernel,
    by decide +kernel, by decide +kernel⟩

end Work
end LiveDiagram
