import LiveDiagram.Document.Labels
import LiveDiagram.Proofs.Document.Views
import LiveDiagram.Proofs.Outcome

/-! What each elementary edit leaves when it ends without a fault. -/
namespace LiveDiagram.Edit

variable {α : Type} {t t' : Transaction α}

@[simp] theorem gives_document {d : Document α} :
    Gives document t d t' ↔ d = t.document ∧ t = t' := by
  simp only [document, gives_bind, gives_get, gives_pure]
  grind

@[simp] theorem gives_change {f : Document α → Document α} {b : Unit} :
    Gives (change f) t b t' ↔ t' = { t with document := f t.document } :=
  gives_modify

@[simp] theorem gives_note {n : Note} {b : Unit} :
    Gives (note n) t b t' ↔ t' = { t with context := t.context.note [n] } :=
  gives_modify

@[simp] theorem gives_element {id : String} {e : Element α} :
    Gives (element id) t e t' ↔ t.document.find? id = some e ∧ t = t' := by
  simp only [element, gives_bind, gives_document]
  constructor
  · rintro ⟨d, u, ⟨rfl, rfl⟩, given⟩
    split at given
    · next e found =>
      obtain ⟨rfl, rfl⟩ := gives_pure.1 given
      exact ⟨found, rfl⟩
    · exact (gives_throw.1 given).elim
  · rintro ⟨found, rfl⟩
    refine ⟨_, _, ⟨rfl, rfl⟩, ?_⟩
    rw [found]
    exact gives_pure.2 ⟨rfl, rfl⟩

theorem gives_changeWhen {c : Prop} [Decidable c] {f : Document α → Document α} {b : Unit} :
    Gives (if c then change f else pure ()) t b t' ↔
      t' = { t with document := if c then f t.document else t.document } := by
  by_cases holds : c
  · simp only [holds, if_true, gives_change]
  · simp only [holds, if_false, gives_pure, true_and]
    exact eq_comm

/-! The ledger -/

@[simp] theorem gives_requireOpen {b : Unit} :
    Gives requireOpen t b t' ↔ t.ledger.closed = false ∧ t = t' := by
  simp only [requireOpen, gives_bind, gives_get]
  constructor
  · rintro ⟨s, u, ⟨rfl, rfl⟩, given⟩
    simpa using given
  · rintro ⟨isOpen, rfl⟩
    refine ⟨_, _, ⟨rfl, rfl⟩, ?_⟩
    simp [isOpen]

@[simp] theorem gives_keep {id : String} {state : Option (Snapshot α)} {b : Unit} :
    Gives (keep id state) t b t' ↔
      t.ledger.closed = false ∧ t' = { t with ledger := t.ledger.keep id state } := by
  simp [keep]

@[simp] theorem gives_requireCovered {id : String} {fault : Fault} {b : Unit} :
    Gives (requireCovered id fault) t b t' ↔
      t.ledger.closed = false ∧ t.ledger.covers id = true ∧ t = t' := by
  simp only [requireCovered, gives_bind, gives_requireOpen, gives_get]
  constructor
  · rintro ⟨_, u, ⟨isOpen, rfl⟩, s, _, ⟨rfl, rfl⟩, given⟩
    simpa [isOpen] using given
  · rintro ⟨isOpen, covered, rfl⟩
    exact ⟨(), _, ⟨isOpen, rfl⟩, _, _, ⟨rfl, rfl⟩, by simp [covered]⟩

theorem covers_keep {l : Ledger α} {id : String} {state : Option (Snapshot α)} :
    (l.keep id state).covers id = true := by
  unfold Ledger.keep Ledger.covers
  split
  · simp [Assoc.contains]
  · next kept => grind

variable [Coordinate α]

@[simp] theorem gives_record {e : Element α} {b : Unit} :
    Gives (record e) t b t' ↔
      t.ledger.closed = false ∧ t' = { t with ledger := t.ledger.keep e.id (some (t.document.snapshot e)) } := by
  simp [record]

@[simp] theorem gives_touch {e : Element α} {b : Unit} :
    Gives (touch e) t b t' ↔
      t.ledger.closed = false ∧ t' = { t with ledger := t.ledger.keep e.id (some (t.document.snapshot e)) } := by
  simp only [touch, announceUpdate, gives_bind, gives_record, gives_requireCovered]
  constructor
  · rintro ⟨_, u, ⟨isOpen, rfl⟩, _, _, rfl⟩
    exact ⟨isOpen, rfl⟩
  · rintro ⟨isOpen, rfl⟩
    have still : (t.ledger.keep e.id (some (t.document.snapshot e))).closed = false := by
      unfold Ledger.keep
      split <;> exact isOpen
    exact ⟨(), _, ⟨isOpen, rfl⟩, still, covers_keep, rfl⟩

@[simp] theorem gives_update {id : String} {f : Element α → Element α} {b : Unit} :
    Gives (update id f) t b t' ↔ ∃ e, t.document.find? id = some e ∧ t.ledger.closed = false ∧
      t' = { t with
        ledger := t.ledger.keep id (some (t.document.snapshot e))
        document := t.document.modify id f } := by
  simp only [update, gives_bind, gives_element, gives_touch, gives_change]
  constructor
  · rintro ⟨e, u, ⟨found, rfl⟩, _, v, ⟨isOpen, rfl⟩, rfl⟩
    rw [Document.find?_eq_some_id found]
    exact ⟨e, found, isOpen, rfl⟩
  · rintro ⟨e, found, isOpen, rfl⟩
    have named := Document.find?_eq_some_id found
    exact ⟨e, t, ⟨found, rfl⟩, (), _, ⟨isOpen, rfl⟩, by rw [named]⟩

end LiveDiagram.Edit
