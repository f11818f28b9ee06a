import LiveDiagram.Proofs.Document.Entry
import LiveDiagram.Proofs.Document.Removal
import LiveDiagram.Proofs.Edit.Outcome
import LiveDiagram.Proofs.Props.Tidy

/-! The steps that edits are made of. An element changes or leaves only when the ledger covers it, and a new one
is covered too; only a move of an element to another place asks for nothing, and most edits do without it. What
holds of every step holds of every edit. -/
namespace LiveDiagram

variable {α : Type}

/-- What the steps of an edit may do. -/
structure Terms where
  /-- Elements may move. -/
  moves : Bool
  /-- No dictionary gets a key twice. -/
  tidy : Bool

def Element.Tidy (e : Element α) : Prop :=
  e.props.Tidy ∧ e.metadata.Tidy

def Element.KeepsTidy (change : Element α → Element α) : Prop :=
  ∀ e : Element α, e.Tidy → (change e).Tidy

def Document.Tidy (d : Document α) : Prop :=
  ∀ id e, d.find? id = some e → e.Tidy

variable [Coordinate α]

/-- One step of an edit. -/
inductive Step (terms : Terms) : Transaction α → Transaction α → Prop
  | say (t : Transaction α) (context : Context) : Step terms t { t with context := context }
  | record (t : Transaction α) (id : String) :
      Step terms t { t with ledger := t.ledger.keep id (t.document.state? id) }
  | adjust (t : Transaction α) (id : String) {change : Element α → Element α} :
      t.ledger.covers id = true → Element.KeepsShape change →
      (terms.tidy = true → Element.KeepsTidy change) →
      Step terms t { t with document := t.document.modify id change }
  | join (t : Transaction α) (id : String) {change : Element α → Element α} :
      t.ledger.covers id = true → Element.KeepsPlace change → (∀ e, (change e).box? = e.box?) →
      (∀ e relation p, t.document.find? id = some e → (change e).end? relation = some p → t.document.Fits p) →
      (terms.tidy = true → Element.KeepsTidy change) →
      Step terms t { t with document := (t.document.modify id change).connect id }
  | enter (t : Transaction α) (e : Element α) (parent : Option String) :
      t.ledger.covers e.id = true → t.document.contains e.id = false → e.parent = none → e.children = [] →
      (∀ relation p, e.end? relation = some p → t.document.Fits p) →
      (∀ holder, parent = some holder → t.document.contains holder = true ∧ t.ledger.covers holder = true) →
      (terms.tidy = true → e.Tidy) →
      Step terms t { t with document := t.document.enter e parent }
  | move (t : Transaction α) (id : String) (parent : Option String) :
      terms.moves = true → t.document.contains id = true →
      (∀ holder, parent = some holder → t.document.contains holder = true) →
      Step terms t { t with document := t.document.attach id parent }
  | expel (t : Transaction α) (id : String) :
      t.document.contains id = true → t.document.Loose id →
      (∀ x ∈ t.document.subtree id, t.ledger.covers x = true) →
      (∀ holder, t.document.parentOf id = some holder → t.ledger.covers holder = true) →
      Step terms t { t with document := t.document.expel id }

/-- Steps one after the other. -/
abbrev Steps (terms : Terms) : Transaction α → Transaction α → Prop :=
  Relation.ReflTransGen (Step terms)

namespace Document

theorem Consistent.step {terms : Terms} {t t' : Transaction α} (consistent : t.document.Consistent)
    (step : Step terms t t') : t'.document.Consistent := by
  cases step with
  | say => exact consistent
  | record => exact consistent
  | adjust id covered keeps tidy => exact Sound.adjust consistent keeps.toKeepsPlace keeps.ends
  | join id covered keeps box fits tidy =>
    exact (Sound.modify consistent keeps (by simp) (fun apart => (apart rfl).elim) fits).connect
  | enter e parent covered absent topmost childless fits held tidy =>
    exact consistent.enter absent topmost childless fits fun holder same => (held holder same).1
  | move id parent moved present held => exact Sound.attach consistent present held (.inl rfl)
  | expel id present loose covered parent => exact consistent.expel loose

theorem Consistent.steps {terms : Terms} {t t' : Transaction α} (consistent : t.document.Consistent)
    (steps : Steps terms t t') : t'.document.Consistent := by
  induction steps with
  | refl => exact consistent
  | tail _ step ih => exact ih.step step

omit [Coordinate α] in
theorem Tidy.modify {d : Document α} {id : String} {change : Element α → Element α} (tidy : d.Tidy)
    (named : ∀ e, (change e).id = e.id) (keeps : Element.KeepsTidy change) : (d.modify id change).Tidy := by
  intro x e found
  rw [find?_modify named] at found
  split at found
  · obtain ⟨e, lookup, rfl⟩ := Option.map_eq_some_iff.1 found
    exact keeps e (tidy x e lookup)
  · exact tidy x e found

theorem Tidy.step {terms : Terms} {t t' : Transaction α} (tidy : t.document.Tidy) (strict : terms.tidy = true)
    (step : Step terms t t') : t'.document.Tidy := by
  cases step with
  | say => exact tidy
  | record => exact tidy
  | adjust id covered keeps change => exact tidy.modify keeps.id (change strict)
  | join id covered keeps box fits change =>
    intro x e found
    rw [find?_connect] at found
    exact tidy.modify keeps.id (change strict) x e found
  | enter e parent covered absent topmost childless fits held new =>
    intro x p found
    rw [find?_enter absent topmost childless fun holder same => (held holder same).1] at found
    split at found
    · cases found
      exact new strict
    · obtain ⟨p, lookup, rfl⟩ := Option.map_eq_some_iff.1 found
      exact tidy x p lookup
  | move id parent =>
    intro x p found
    rw [find?_attach] at found
    obtain ⟨p, lookup, rfl⟩ := Option.map_eq_some_iff.1 found
    exact tidy x p lookup
  | expel id present loose =>
    intro x p found
    rw [find?_expel loose] at found
    split at found
    · cases found
    · obtain ⟨p, lookup, rfl⟩ := Option.map_eq_some_iff.1 found
      exact tidy x p lookup

theorem Tidy.steps {terms : Terms} {t t' : Transaction α} (tidy : t.document.Tidy) (strict : terms.tidy = true)
    (steps : Steps terms t t') : t'.document.Tidy := by
  induction steps with
  | refl => exact tidy
  | tail _ step ih => exact ih.step strict step

end Document

theorem Step.births_le {terms : Terms} {t t' : Transaction α} (step : Step terms t t') :
    t.document.births ≤ t'.document.births := by
  cases step with
  | say => exact Nat.le_refl _
  | record => exact Nat.le_refl _
  | adjust => exact Nat.le_refl _
  | join =>
    dsimp only
    rw [Document.births_connect]
    exact Nat.le_refl _
  | enter => exact Nat.le_of_lt (Nat.lt_of_lt_of_eq (Nat.lt_succ_self _) Document.births_enter.symm)
  | move => exact Nat.le_of_eq Document.births_attach.symm
  | expel => exact Nat.le_of_eq Document.births_expel.symm

theorem Steps.births_le {terms : Terms} {t t' : Transaction α} (steps : Steps terms t t') :
    t.document.births ≤ t'.document.births := by
  induction steps with
  | refl => exact Nat.le_refl _
  | tail _ step ih => exact Nat.le_trans ih step.births_le

theorem Step.surroundings_eq {terms : Terms} {t t' : Transaction α} (step : Step terms t t') :
    t'.document.surroundings = t.document.surroundings := by
  cases step with
  | say => rfl
  | record => rfl
  | adjust => rfl
  | join => exact Document.surroundings_connect
  | enter => exact Document.surroundings_enter
  | move => exact Document.surroundings_attach
  | expel => exact Document.surroundings_expel

/-- Edits leave history, selection and listeners alone. -/
theorem Steps.surroundings_eq {terms : Terms} {t t' : Transaction α} (steps : Steps terms t t') :
    t'.document.surroundings = t.document.surroundings := by
  induction steps with
  | refl => rfl
  | tail _ step ih => exact step.surroundings_eq.trans ih

theorem Steps.history_eq {terms : Terms} {t t' : Transaction α} (steps : Steps terms t t') :
    t'.document.history = t.document.history :=
  congrArg Document.Surroundings.history steps.surroundings_eq

end LiveDiagram
