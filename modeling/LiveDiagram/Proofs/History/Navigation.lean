import LiveDiagram.Proofs.History.Bridge
import LiveDiagram.Proofs.History.Restore

/-! Going back and forth along a history. Each action has a turn, which is the whole document just before and just
after it. A document is navigable if its actions lead from turn to turn in both directions; undo and redo keep it so,
and lead to the documents of the turns, as states compare. -/
namespace LiveDiagram

/-- The documents just before and just after an action. -/
structure Turn (α : Type) where
  before : Document α
  after : Document α

/-- The turns that can be undone and those that can be redone, each with the next one first. -/
structure Trail (α : Type) where
  past : List (Turn α)
  future : List (Turn α)

namespace Trail
variable {α : Type}

def empty : Trail α := ⟨[], []⟩

/-- Takes up a turn if an action came into the history, which ends all chances to redo. -/
def note (before after : Document α) (trail : Trail α) : Trail α :=
  if before.history.undoable.length < after.history.undoable.length then ⟨⟨before, after⟩ :: trail.past, []⟩
  else trail

def back (trail : Trail α) : Trail α :=
  match trail.past with
  | [] => trail
  | turn :: past => ⟨past, turn :: trail.future⟩

def forth (trail : Trail α) : Trail α :=
  match trail.future with
  | [] => trail
  | turn :: future => ⟨turn :: trail.past, future⟩

variable {trail : Trail α}

end Trail

variable {α : Type} [Coordinate α]

/-- Actions that lead from a document over the turns of a trail, one after the other. -/
inductive Thread (back forth : Action α → States α) (near far : Turn α → Document α) :
    Document α → List (Action α) → List (Turn α) → Prop
  | nil (d : Document α) : Thread back forth near far d [] []
  | cons {d : Document α} {action : Action α} {actions : List (Action α)} {turn : Turn α} {turns : List (Turn α)} :
      d.Alike (near turn) → Bridge (back action) (forth action) (far turn) (near turn) →
      Thread back forth near far (far turn) actions turns →
      Thread back forth near far d (action :: actions) (turn :: turns)

namespace Thread
variable {back forth : Action α → States α} {near far : Turn α → Document α} {d d' : Document α}
  {actions : List (Action α)} {turns : List (Turn α)}

/-- Documents that are alike have the same way before them. -/
theorem congr [PartialEquivBEq α] (thread : Thread back forth near far d actions turns) (tidy : d.Tidy)
    (tidy' : d'.Tidy) (alike : d'.Alike d) : Thread back forth near far d' actions turns := by
  cases thread with
  | nil => exact .nil d'
  | cons here bridge rest => exact .cons (alike.trans tidy' tidy bridge.tidy' here) bridge rest

end Thread

/-- A document whose history leads over the turns of a trail in both directions. -/
structure Navigable (d : Document α) (trail : Trail α) : Prop where
  consistent : d.Consistent
  tidy : d.Tidy
  past : Thread Action.before Action.after Turn.after Turn.before d d.history.undoable trail.past
  future : Thread Action.after Action.before Turn.before Turn.after d d.history.redoable trail.future

namespace Document
variable {d d' : Document α}

omit [Coordinate α] in
theorem find?_of_same (same : d'.elements = d.elements) (x : String) : d'.find? x = d.find? x := by
  unfold find?
  rw [same]

theorem alike_of_elements (same : d'.elements = d.elements) : d'.Alike d := by
  refine ⟨fun x => agreesAt_of_eq (state?_of_same (find?_of_same same) x), fun x => ?_⟩
  unfold boxOf
  rw [find?_of_same same]

omit [Coordinate α] in
theorem Tidy.congr (tidy : d.Tidy) (same : d'.elements = d.elements) : d'.Tidy := by
  intro x e found
  rw [find?_of_same same] at found
  exact tidy x e found

/-- Documents with the same elements, arcs and places. -/
structure SameContent (d' d : Document α) : Prop where
  elements : d'.elements = d.elements
  links : d'.links = d.links
  top : d'.top = d.top
  births : d'.births = d.births

omit [Coordinate α] in
theorem Consistent.of_same (consistent : d.Consistent) (same : SameContent d' d) : d'.Consistent :=
  Sound.congr consistent same.elements same.links same.top same.births

end Document

open Document (SameContent)

namespace Thread
variable {back forth : Action α → States α} {near far : Turn α → Document α} {d d' : Document α}
  {action : Action α} {actions actions' : List (Action α)} {turns turns' : List (Turn α)}

/-- A restore of the next action of a thread returns. It leads to a document like the next one, from where the thread
goes on, and the way back begins with the same action. -/
theorem leap [PartialEquivBEq α] (consistent : d.Consistent) (tidy : d.Tidy) (same : SameContent d' d)
    (ahead : Thread back forth near far d (action :: actions) turns)
    (behind : Thread forth back far near d actions' turns') (context : Context) :
    ∃ turn rest t, turns = turn :: rest ∧ Gives (Edit.restore (back action)) ⟨d', .opened α false, context⟩ () t ∧
      t.document.history = d'.history ∧
      ∀ d'', SameContent d'' t.document → d''.Consistent ∧ d''.Tidy ∧ d''.Alike (far turn) ∧
        Thread back forth near far d'' actions rest ∧
        Thread forth back far near d'' (action :: actions') (turn :: turns') := by
  cases ahead with
  | @cons _ _ _ turn rest here bridge onward =>
    have alike : d'.Alike (near turn) :=
      (Document.alike_of_elements same.elements).trans (tidy.congr same.elements) tidy bridge.tidy' here
    have consistent' : d'.Consistent := consistent.of_same same
    have tidy' : d'.Tidy := tidy.congr same.elements
    have lead := bridge.lead alike consistent'
    obtain ⟨t, given, after, history, others, absent, reborn⟩ :=
      lead.restored (t := ⟨d', .opened α false, context⟩) Ledger.Idle.opened rfl
    have restored : Bridge.Restored (back action) (far turn) d' t.document := ⟨after, others, absent, reborn⟩
    have tidy'' := bridge.tidy_restored tidy' restored
    refine ⟨turn, rest, t, rfl, given, history, fun d'' same' => ?_⟩
    have like := Document.alike_of_elements same'.elements
    have last : d''.Tidy := tidy''.congr same'.elements
    have reached : d''.Alike (far turn) :=
      like.trans last tidy'' bridge.tidy (bridge.alike_restored alike consistent' tidy' restored)
    refine ⟨after.of_same same', last, reached, onward.congr bridge.tidy last reached, ?_⟩
    exact .cons reached bridge.symm (behind.congr tidy bridge.tidy' (here.symm tidy bridge.tidy'))

theorem nil_iff (thread : Thread back forth near far d actions turns) : actions = [] ↔ turns = [] := by
  cases thread with
  | nil => simp
  | cons => simp

end Thread

namespace Navigable
variable {d d' : Document α} {trail : Trail α} {action : Action α}

/-- Where nothing came into the history, documents are alike. -/
theorem idle [PartialEquivBEq α] (navigable : Navigable d trail) (consistent : d'.Consistent) (tidy : d'.Tidy)
    (alike : d'.Alike d) (same : d'.history = d.history) : Navigable d' (trail.note d d') := by
  have still : trail.note d d' = trail := by
    unfold Trail.note
    rw [same, if_neg (Nat.lt_irrefl _)]
  rw [still]
  exact ⟨consistent, tidy, same ▸ navigable.past.congr navigable.tidy tidy alike,
    same ▸ navigable.future.congr navigable.tidy tidy alike⟩

/-- A new action is the next one to undo, and the last one. -/
theorem act (navigable : Navigable d trail) (bridge : Bridge action.before action.after d d')
    (pushed : d'.history = d.history.push action) : Navigable d' (trail.note d d') := by
  have noted : trail.note d d' = ⟨⟨d, d'⟩ :: trail.past, []⟩ := by
    have longer : d.history.undoable.length < d'.history.undoable.length := by
      rw [pushed]
      exact Nat.lt_succ_self _
    unfold Trail.note
    rw [if_pos longer]
  rw [noted]
  refine ⟨bridge.consistent', bridge.tidy', ?_, ?_⟩
  · rw [pushed]
    exact .cons (.refl d') bridge navigable.past
  · rw [pushed]
    exact .nil d'

/-- An undo returns, and takes back the next turn of the past if there is one. -/
theorem undo [PartialEquivBEq α] (navigable : Navigable d trail) (context : Context) :
    ∃ result w, Gives Work.undo ⟨d, context⟩ result w ∧ Navigable w.document trail.back ∧
      (trail.past = [] → result = none ∧ w = ⟨d, context⟩) ∧
      ∀ turn rest, trail.past = turn :: rest → result.isSome = true ∧ w.document.Alike turn.before := by
  cases undoable : d.history.undoable with
  | nil =>
    have none : trail.past = [] := navigable.past.nil_iff.1 undoable
    refine ⟨_, _, Work.gives_undo.2 (.inl ⟨undoable, rfl, rfl⟩), ?_, fun _ => ⟨rfl, rfl⟩, by simp [none]⟩
    unfold Trail.back
    rw [none]
    exact navigable
  | cons action rest =>
    have ahead := navigable.past
    rw [undoable] at ahead
    have popped : SameContent (Work.popUndo d rest) d := ⟨rfl, rfl, rfl, rfl⟩
    obtain ⟨turn, turns, t, past, given, history, reaches⟩ :=
      ahead.leap navigable.consistent navigable.tidy popped navigable.future context
    obtain ⟨consistent, tidy, alike, onward, behind⟩ :=
      reaches (Work.pushRedo t.document action) ⟨rfl, rfl, rfl, rfl⟩
    refine ⟨some action, ⟨Work.pushRedo t.document action, t.context⟩,
      Work.gives_undo.2 (.inr ⟨action, rest, t, undoable, rfl, given, rfl⟩), ?_, by simp [past], ?_⟩
    · unfold Trail.back
      rw [past]
      have undoable' : (Work.pushRedo t.document action).history.undoable = rest := congrArg History.undoable history
      have redoable' : (Work.pushRedo t.document action).history.redoable = action :: d.history.redoable := by
        change action :: t.document.history.redoable = _
        rw [history]
        rfl
      exact ⟨consistent, tidy, undoable' ▸ onward, redoable' ▸ behind⟩
    · intro other others same
      cases past.symm.trans same
      exact ⟨rfl, alike⟩

/-- A redo returns, and takes the next turn of the future again if there is one. -/
theorem redo [PartialEquivBEq α] (navigable : Navigable d trail) (context : Context) :
    ∃ result w, Gives Work.redo ⟨d, context⟩ result w ∧ Navigable w.document trail.forth ∧
      (trail.future = [] → result = none ∧ w = ⟨d, context⟩) ∧
      ∀ turn rest, trail.future = turn :: rest → result.isSome = true ∧ w.document.Alike turn.after := by
  cases redoable : d.history.redoable with
  | nil =>
    have none : trail.future = [] := navigable.future.nil_iff.1 redoable
    refine ⟨_, _, Work.gives_redo.2 (.inl ⟨redoable, rfl, rfl⟩), ?_, fun _ => ⟨rfl, rfl⟩, by simp [none]⟩
    unfold Trail.forth
    rw [none]
    exact navigable
  | cons action rest =>
    have ahead := navigable.future
    rw [redoable] at ahead
    have popped : SameContent (Work.popRedo d rest) d := ⟨rfl, rfl, rfl, rfl⟩
    obtain ⟨turn, turns, t, future, given, history, reaches⟩ :=
      ahead.leap navigable.consistent navigable.tidy popped navigable.past context
    obtain ⟨consistent, tidy, alike, onward, behind⟩ :=
      reaches (Work.pushUndo t.document action) ⟨rfl, rfl, rfl, rfl⟩
    refine ⟨some action, ⟨Work.pushUndo t.document action, t.context⟩,
      Work.gives_redo.2 (.inr ⟨action, rest, t, redoable, rfl, given, rfl⟩), ?_, by simp [future], ?_⟩
    · unfold Trail.forth
      rw [future]
      have undoable' : (Work.pushUndo t.document action).history.undoable = action :: d.history.undoable := by
        change action :: t.document.history.undoable = _
        rw [history]
        rfl
      have redoable' : (Work.pushUndo t.document action).history.redoable = rest := congrArg History.redoable history
      exact ⟨consistent, tidy, undoable' ▸ behind, redoable' ▸ onward⟩
    · intro other others same
      cases future.symm.trans same
      exact ⟨rfl, alike⟩

/-- Repeating a step along a trail, which does nothing from where the trail ends. -/
theorem repeats {step : Work α (Option (Action α))} {move : Trail α → Trail α} {ahead : Trail α → List (Turn α)}
    (once : ∀ {d : Document α} {trail : Trail α}, Navigable d trail → ∀ context, ∃ result w,
      Gives step ⟨d, context⟩ result w ∧ Navigable w.document (move trail) ∧ (ahead trail = [] → w.document = d))
    (ended : ahead trail = [] → ∀ k, ahead (move^[k] trail) = []) (navigable : Navigable d trail) (context : Context)
    (n : Nat) : ∃ w, Gives (times step n) ⟨d, context⟩ () w ∧ Navigable w.document (move^[n] trail) ∧
      (ahead trail = [] → w.document = d) := by
  have onward (k : Nat) (u : Workspace α)
      (kept : Navigable u.document (move^[k] trail) ∧ (ahead trail = [] → u.document = d)) :
      ∃ action w, Gives step u action w ∧ Navigable w.document (move^[k + 1] trail) ∧
        (ahead trail = [] → w.document = d) := by
    obtain ⟨action, w, given, moved, still⟩ := once kept.1 u.context
    rw [Function.iterate_succ_apply']
    exact ⟨action, w, given, moved, fun empty => (still (ended empty k)).trans (kept.2 empty)⟩
  obtain ⟨w, given, reached⟩ := exists_gives_times _ onward n 0 (t := ⟨d, context⟩) ⟨navigable, fun _ => rfl⟩
  rw [Nat.zero_add] at reached
  exact ⟨w, given, reached⟩

section
variable [PartialEquivBEq α] (navigable : Navigable d trail) (context : Context) (n : Nat)

include navigable

end
end Navigable
end LiveDiagram
