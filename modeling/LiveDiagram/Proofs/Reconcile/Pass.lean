import LiveDiagram.Session
import LiveDiagram.Proofs.Edit.Transact
import LiveDiagram.Proofs.Reconcile.Visit

/-! A whole pass: its steps, the end of its transaction, and its entry in the history. -/
namespace LiveDiagram

variable {α : Type} [Coordinate α]

/-- What became of the elements of a ledger, in the document as it is now. -/
def Transaction.diff (t : Transaction α) : Diff α :=
  t.ledger.before.map fun (id, before) => ⟨id, before, t.document.state? id⟩

/-- The document when listeners have heard more. -/
def Document.told (d : Document α) (heard : List Event) : Document α :=
  { d with heard := heard }

/-- One event, heard by each listener, unless it is about nothing. -/
def Event.copies (listeners : Nat) (kind : EventKind) (ids : List String) : List Event :=
  if ids.isEmpty then [] else List.replicate listeners ⟨kind, ids⟩

/-- What listeners hear of the changes of a transaction. -/
def Diff.events (listeners : Nat) (diff : Diff α) : List Event :=
  Event.copies listeners .added (ids diff.added) ++ Event.copies listeners .changed (ids diff.updated) ++
    Event.copies listeners .removed (ids diff.removed)

/-- The ids of the changes of a pass, each kind in order. -/
def Diff.outcome (diff : Diff α) : Outcome where
  added := (ids diff.added).mergeSort
  updated := (ids diff.updated).mergeSort
  removed := (ids diff.removed).mergeSort

omit [Coordinate α] in
theorem Document.told_copies {d : Document α} {kind : EventKind} {ids : List String} :
    (if !ids.isEmpty then d.emit kind ids else d) = d.told (d.heard ++ Event.copies d.listeners kind ids) := by
  cases ids with
  | nil => exact congrArg d.told (List.append_nil d.heard).symm
  | cons => rfl

/-- A transaction that ends reports its changes, and tells the listeners of them. -/
theorem Edit.gives_commit {t t' : Transaction α} {diff : Diff α} (given : Gives Edit.commit t diff t') :
    t.ledger.closed = false ∧ diff = t.diff ∧
      t'.document = t.document.told (t.document.heard ++ t.diff.events t.document.listeners) := by
  simp only [Edit.commit, gives_bind, Edit.gives_requireOpen, gives_modify, gives_get, Edit.gives_note] at given
  obtain ⟨_, _, ⟨isOpen, rfl⟩, _, u, rfl, _, _, ⟨rfl, rfl⟩, _, v, rfl, given⟩ := given
  refine ⟨isOpen, ?_⟩
  obtain ⟨_, first, given⟩ := gives_when.1 given
  obtain ⟨_, second, given⟩ := gives_when.1 given
  obtain ⟨_, third, given⟩ := gives_when.1 given
  rw [Edit.gives_changeWhen] at first second third
  obtain ⟨rfl, rfl⟩ := gives_pure.1 given
  subst first second third
  refine ⟨rfl, ?_⟩
  simp only [Document.told_copies]
  simp only [Document.told, Diff.events, List.append_assoc]
  rfl

/-- An open transaction can end, and no ids are drawn for it. -/
theorem Edit.commit_returns {t : Transaction α} (isOpen : t.ledger.closed = false) :
    ∃ diff t', Gives Edit.commit t diff t' ∧ t'.context.ids = t.context.ids := by
  have onward {β : Type} {e : Edit α β} {f : β → Edit α (Diff α)} {b : β} {u v : Transaction α} (first : Gives e u b v)
      (rest : ∃ diff t', Gives (f b) v diff t' ∧ t'.context.ids = v.context.ids)
      (same : v.context.ids = u.context.ids) :
      ∃ diff t', Gives (e >>= f) u diff t' ∧ t'.context.ids = u.context.ids := by
    obtain ⟨diff, t', given, kept⟩ := rest
    exact ⟨diff, t', gives_bind.2 ⟨b, v, first, given⟩, kept.trans same⟩
  have told {c : Prop} [Decidable c] {f : Document α → Document α} {e : Edit α (Diff α)} {u : Transaction α}
      (rest : ∀ v : Transaction α, ∃ diff t', Gives e v diff t' ∧ t'.context.ids = v.context.ids) :
      ∃ diff t', Gives (if c then do { Edit.change f; e } else e) u diff t' ∧ t'.context.ids = u.context.ids := by
    obtain ⟨diff, t', given, kept⟩ := rest { u with document := if c then f u.document else u.document }
    exact ⟨diff, t', gives_when.2 ⟨_, Edit.gives_changeWhen.2 rfl, given⟩, kept⟩
  unfold Edit.commit
  refine onward (b := ()) (Edit.gives_requireOpen.2 ⟨isOpen, rfl⟩) (onward (b := ⟨⟩) (gives_modify.2 rfl)
    (onward (gives_get.2 ⟨rfl, rfl⟩) (onward (b := ()) (Edit.gives_note.2 rfl) ?_ rfl) rfl) rfl) rfl
  exact told fun _ => told fun _ => told fun v => ⟨_, v, gives_pure.2 ⟨rfl, rfl⟩, rfl⟩

theorem Reconcile.gives_pass {config : Config α} {f : Forest} {t t' : Transaction α} {diff : Diff α}
    (consistent : t.document.Consistent) (given : Gives (Reconcile.pass config f) t diff t') (terms : Terms)
    (tidy : terms.tidy = true → f.Tidy) :
    ∃ u, Steps terms t u ∧ diff = u.diff ∧
      t'.document = u.document.told (u.document.heard ++ u.diff.events u.document.listeners) := by
  simp only [Reconcile.pass, gives_bind, gives_discard] at given
  obtain ⟨_, u, removed, _, v, ⟨_, visited⟩, committed⟩ := given
  have early : Steps terms t u := walks_removeOthers consistent _ _ removed
  have late : Steps terms u v := walks_visit (by simp) tidy (consistent.steps early) _ _ visited
  obtain ⟨_, same, told⟩ := Edit.gives_commit committed
  exact ⟨v, early.trans late, same, told⟩

/-- A pass that returns went by steps from an empty ledger, told the listeners of its changes, and then put them into
the history and into its outcome. -/
theorem Work.gives_reconcile {config : Config α} {f : Forest} {w w' : Workspace α} {outcome : Outcome}
    (consistent : w.document.Consistent) (given : Gives (Work.reconcile config f) w outcome w') (terms : Terms)
    (tidy : terms.tidy = true → f.Tidy) :
    ∃ u heard, Steps terms ⟨w.document, .opened α true, w.context⟩ u ∧
      w'.document = Reconcile.conclude u.diff (u.document.told heard) ∧
      heard = w.document.heard ++ u.diff.events w.document.listeners ∧ outcome = u.diff.outcome := by
  simp only [Work.reconcile, gives_bind, Work.gives_transact, Work.change, Work.note, gives_modify, gives_pure] at given
  obtain ⟨_, _, ⟨t, passed, rfl⟩, _, _, rfl, _, _, rfl, rfl, rfl⟩ := given
  obtain ⟨u, steps, rfl, told⟩ := Reconcile.gives_pass consistent passed terms tidy
  have around := steps.surroundings_eq
  have heard : u.document.heard = w.document.heard := congrArg Document.Surroundings.heard around
  have listeners : u.document.listeners = w.document.listeners := congrArg Document.Surroundings.listeners around
  rw [heard, listeners] at told
  exact ⟨u, _, steps, by rw [told], rfl, rfl⟩

end LiveDiagram
