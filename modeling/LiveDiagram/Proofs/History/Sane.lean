import LiveDiagram.Proofs.Assoc
import LiveDiagram.Proofs.History.Restore
import LiveDiagram.Proofs.Reconcile.Pass

/-! The states that ledgers and histories hold are states of consistent documents, so none of them names a child
twice. -/
namespace LiveDiagram

variable {α : Type}

theorem States.Sane.of_subset {states more : States α} (sane : more.Sane) (subset : ∀ p ∈ states, p ∈ more) :
    states.Sane :=
  fun id s member => sane id s (subset (id, some s) member)

/-- No state of the action, before or after, names a child twice. -/
def Action.Sane (action : Action α) : Prop :=
  action.before.Sane ∧ action.after.Sane

/-- No state of an action of the history names a child twice. -/
def History.Sane (h : History α) : Prop :=
  (∀ action ∈ h.undoable, action.Sane) ∧ ∀ action ∈ h.redoable, action.Sane

theorem History.Sane.push {h : History α} {action : Action α} (sane : h.Sane) (new : action.Sane) :
    (h.push action).Sane := by
  refine ⟨fun other member => ?_, by simp [History.push]⟩
  rcases List.mem_cons.1 member with rfl | old
  · exact new
  · exact sane.1 other old

theorem History.Sane.undo {h : History α} {action : Action α} {rest : List (Action α)} (sane : h.Sane)
    (undoable : h.undoable = action :: rest) : action.Sane ∧ (⟨rest, action :: h.redoable⟩ : History α).Sane := by
  have all := sane.1
  rw [undoable] at all
  have own := all action List.mem_cons_self
  refine ⟨own, fun other member => all other (List.mem_cons_of_mem action member), fun other member => ?_⟩
  rcases List.mem_cons.1 member with rfl | old
  · exact own
  · exact sane.2 other old

theorem History.Sane.redo {h : History α} {action : Action α} {rest : List (Action α)} (sane : h.Sane)
    (redoable : h.redoable = action :: rest) : action.Sane ∧ (⟨action :: h.undoable, rest⟩ : History α).Sane := by
  have all := sane.2
  rw [redoable] at all
  have own := all action List.mem_cons_self
  refine ⟨own, fun other member => ?_, fun other member => all other (List.mem_cons_of_mem action member)⟩
  rcases List.mem_cons.1 member with rfl | old
  · exact own
  · exact sane.1 other old

variable [Coordinate α]

theorem Ledger.sane_keep {l : Ledger α} {d : Document α} {id : String} (sane : States.Sane l.before)
    (consistent : d.Consistent) : States.Sane (l.keep id (d.state? id)).before := by
  unfold Ledger.keep
  split
  · intro other s member
    rcases List.mem_append.1 member with old | new
    · exact sane other s old
    · rw [List.mem_singleton, Prod.mk.injEq] at new
      exact consistent.nodup_children_state new.2.symm
  · exact sane

theorem Steps.sane {terms : Terms} {t t' : Transaction α} (steps : Steps terms t t')
    (consistent : t.document.Consistent) (sane : States.Sane t.ledger.before) : States.Sane t'.ledger.before := by
  induction steps with
  | refl => exact sane
  | tail before step ih =>
    cases step with
    | record => exact Ledger.sane_keep ih (consistent.steps before)
    | say => exact ih
    | adjust => exact ih
    | join => exact ih
    | enter => exact ih
    | move => exact ih
    | expel => exact ih

/-- The states of a diff, before and after. -/
theorem Transaction.sane_diff {t : Transaction α} (consistent : t.document.Consistent)
    (sane : States.Sane t.ledger.before) :
    States.Sane (t.diff.map fun c => (c.id, c.before)) ∧ States.Sane (t.diff.map fun c => (c.id, c.after)) := by
  constructor
  · intro id s member
    obtain ⟨c, inside, same⟩ := List.mem_map.1 member
    obtain ⟨⟨other, before⟩, entry, rfl⟩ := List.mem_map.1 inside
    cases same
    exact sane _ s entry
  · intro id s member
    obtain ⟨c, inside, same⟩ := List.mem_map.1 member
    obtain ⟨⟨other, before⟩, entry, rfl⟩ := List.mem_map.1 inside
    rw [Prod.mk.injEq] at same
    exact consistent.nodup_children_state same.2

omit [Coordinate α] in
theorem Action.mem_merged {part : ChangeSet α → States α} {sets : List (ChangeSet α)}
    {entry : String × Option (Snapshot α)} (member : entry ∈ merged part sets) : ∃ set ∈ sets, entry ∈ part set := by
  have general : ∀ (sets : List (ChangeSet α)) (all : States α),
      entry ∈ sets.foldl (fun all set => Assoc.putAll all (part set)) all →
        entry ∈ all ∨ ∃ set ∈ sets, entry ∈ part set := by
    intro sets
    induction sets with
    | nil => exact fun _ => .inl
    | cons set rest ih =>
      intro all inside
      rcases ih _ inside with early | ⟨later, listed, inside⟩
      · exact (Assoc.mem_putAll early).imp_right fun own => ⟨set, List.mem_cons_self, own⟩
      · exact .inr ⟨later, List.mem_cons_of_mem set listed, inside⟩
  exact (general sets [] member).resolve_left List.not_mem_nil

theorem Diff.mem_sets {diff : Diff α} {set : ChangeSet α} {c : Change α} (listed : set ∈ diff.sets)
    (member : c ∈ set.changes) : c ∈ diff := by
  have whole := (List.mem_filter.1 listed).1
  simp only [List.mem_cons, List.not_mem_nil, or_false] at whole
  rcases whole with rfl | rfl | rfl <;> exact (List.mem_filter.1 member).1

/-- The action that a pass records holds only states of its diff. -/
theorem Action.sane_compound {description : String} {diff : Diff α}
    (before : States.Sane (diff.map fun c => (c.id, c.before)))
    (after : States.Sane (diff.map fun c => (c.id, c.after))) : (Action.compound description diff.sets).Sane := by
  constructor
  · refine before.of_subset fun entry member => ?_
    obtain ⟨set, listed, inside⟩ := mem_merged member
    obtain ⟨c, own, rfl⟩ := List.mem_map.1 inside
    exact List.mem_map_of_mem (f := fun c : Change α => (c.id, c.before)) (Diff.mem_sets listed own)
  · refine after.of_subset fun entry member => ?_
    obtain ⟨set, listed, inside⟩ := mem_merged member
    obtain ⟨c, own, rfl⟩ := List.mem_map.1 inside
    exact List.mem_map_of_mem (f := fun c : Change α => (c.id, c.after)) (Diff.mem_sets listed own)

theorem Document.sane_recordDiff {d : Document α} {description : String} {diff : Diff α}
    (sane : d.history.Sane) (before : States.Sane (diff.map fun c => (c.id, c.before)))
    (after : States.Sane (diff.map fun c => (c.id, c.after))) : (d.recordDiff description diff).history.Sane := by
  unfold Document.recordDiff
  split
  · exact sane
  · exact sane.push (Action.sane_compound before after)

end LiveDiagram
