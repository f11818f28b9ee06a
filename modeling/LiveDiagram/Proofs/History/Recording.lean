import LiveDiagram.Proofs.Edit.Recording
import LiveDiagram.Proofs.History.Bridge
import LiveDiagram.Proofs.History.Sane

/-! The actions that transactions put into the history lie between the documents before and after them: an element
that an action does not list was not recorded, or its recorded state agrees with the one at the end. -/
namespace LiveDiagram

variable {α : Type}

namespace Action
variable {part : ChangeSet α → States α} {sets : List (ChangeSet α)}

theorem nodup_merged : (merged part sets).ids.Nodup := by
  have general : ∀ (sets : List (ChangeSet α)) (all : States α), all.ids.Nodup →
      (States.ids (sets.foldl (fun all set => Assoc.putAll all (part set)) all)).Nodup := by
    intro sets
    induction sets with
    | nil => exact fun _ distinct => distinct
    | cons set rest ih => exact fun all distinct => ih _ (Assoc.nodup_keys_putAll distinct)
  exact general sets [] List.nodup_nil

theorem mem_ids_merged {x : String} : x ∈ (merged part sets).ids ↔ ∃ set ∈ sets, x ∈ (part set).ids := by
  have general : ∀ (sets : List (ChangeSet α)) (all : States α),
      x ∈ States.ids (sets.foldl (fun all set => Assoc.putAll all (part set)) all) ↔
        x ∈ all.ids ∨ ∃ set ∈ sets, x ∈ (part set).ids := by
    intro sets
    induction sets with
    | nil => simp
    | cons set rest ih =>
      intro all
      rw [List.foldl_cons, ih, States.ids, Assoc.mem_keys_putAll]
      simp only [States.ids, List.mem_cons, exists_eq_or_imp, or_assoc]
  refine (general sets []).trans ?_
  simp [States.ids]

end Action

variable [Coordinate α]

/-- A change that an action lists. -/
def Diff.Listed (c : Change α) : Prop :=
  isRemoved c = true ∨ isAdded c = true ∨ isUpdated c = true

theorem Diff.mem_sets_iff {diff : Diff α} {c : Change α} :
    (∃ set ∈ diff.sets, c ∈ set.changes) ↔ c ∈ diff ∧ Listed c := by
  simp only [sets, List.mem_filter, List.mem_cons, List.not_mem_nil, or_false]
  constructor
  · rintro ⟨set, ⟨rfl | rfl | rfl, _⟩, member⟩
    · obtain ⟨own, removed⟩ := List.mem_filter.1 member
      exact ⟨own, .inl removed⟩
    · obtain ⟨own, added⟩ := List.mem_filter.1 member
      exact ⟨own, .inr (.inl added)⟩
    · obtain ⟨own, updated⟩ := List.mem_filter.1 member
      exact ⟨own, .inr (.inr updated)⟩
  · have filled {changes : Diff α} (member : c ∈ changes) : (!changes.isEmpty) = true := by
      cases changes with
      | nil => cases member
      | cons => rfl
    rintro ⟨own, removed | added | updated⟩
    · have member : c ∈ diff.removed := List.mem_filter.2 ⟨own, removed⟩
      exact ⟨⟨.delete, diff.removed⟩, ⟨.inl rfl, filled member⟩, member⟩
    · have member : c ∈ diff.added := List.mem_filter.2 ⟨own, added⟩
      exact ⟨⟨.add, diff.added⟩, ⟨.inr (.inl rfl), filled member⟩, member⟩
    · have member : c ∈ diff.updated := List.mem_filter.2 ⟨own, updated⟩
      exact ⟨⟨.update, diff.updated⟩, ⟨.inr (.inr rfl), filled member⟩, member⟩

/-- A change that is not listed leaves nothing behind, or a state with the same values. -/
theorem Diff.not_listed {c : Change α} (unlisted : ¬Listed c) :
    (c.before = none ∧ c.after = none) ∨ ∃ a b, c.before = some a ∧ c.after = some b ∧ b.same a = true := by
  obtain ⟨id, before, after⟩ := c
  simp only [Listed, isRemoved, isAdded, isUpdated, not_or] at unlisted
  cases before <;> cases after <;> simp_all

namespace Action
variable {description : String} {diff : Diff α} {x : String}

theorem mem_before_compound {entry : String × Option (Snapshot α)}
    (member : entry ∈ (Action.compound description diff.sets).before) : ∃ c ∈ diff, entry = (c.id, c.before) := by
  obtain ⟨set, listed, inside⟩ := mem_merged member
  obtain ⟨c, own, rfl⟩ := List.mem_map.1 inside
  exact ⟨c, (Diff.mem_sets_iff.1 ⟨set, listed, own⟩).1, rfl⟩

theorem mem_after_compound {entry : String × Option (Snapshot α)}
    (member : entry ∈ (Action.compound description diff.sets).after) : ∃ c ∈ diff, entry = (c.id, c.after) := by
  obtain ⟨set, listed, inside⟩ := mem_merged member
  obtain ⟨c, own, rfl⟩ := List.mem_map.1 inside
  exact ⟨c, (Diff.mem_sets_iff.1 ⟨set, listed, own⟩).1, rfl⟩

theorem mem_ids_compound {part : ChangeSet α → States α} (names : ∀ set, (part set).ids = set.changes.map Change.id) :
    x ∈ (merged part diff.sets).ids ↔ ∃ c ∈ diff, c.id = x ∧ Diff.Listed c := by
  rw [mem_ids_merged]
  simp only [names, List.mem_map]
  constructor
  · rintro ⟨set, listed, c, member, rfl⟩
    obtain ⟨own, real⟩ := Diff.mem_sets_iff.1 ⟨set, listed, member⟩
    exact ⟨c, own, rfl, real⟩
  · rintro ⟨c, own, rfl, real⟩
    obtain ⟨set, listed, member⟩ := Diff.mem_sets_iff.2 ⟨own, real⟩
    exact ⟨set, listed, c, member, rfl⟩

end Action

omit [Coordinate α] in
theorem ChangeSet.ids_before (set : ChangeSet α) : set.before.ids = set.changes.map Change.id := by
  simp only [before, States.ids, List.map_map]
  rfl

omit [Coordinate α] in
theorem ChangeSet.ids_after (set : ChangeSet α) : set.after.ids = set.changes.map Change.id := by
  simp only [after, States.ids, List.map_map]
  rfl

namespace Ledger.Knows
variable {t : Transaction α} {c : Change α} {x : String} {tells : String → Option (Snapshot α) → Prop}

/-- A change is of a recorded element, from its recorded state to the present one. -/
theorem of_mem_diff (knows : t.ledger.Knows t.document.state? tells) (member : c ∈ t.diff) :
    t.ledger.covers c.id = true ∧ tells c.id c.before ∧ c.after = t.document.state? c.id := by
  obtain ⟨⟨id, state⟩, entry, rfl⟩ := List.mem_map.1 member
  refine ⟨?_, knows.states id state entry, rfl⟩
  by_contra uncovered
  rw [Bool.not_eq_true, Ledger.not_covers_iff] at uncovered
  exact uncovered.2 (List.mem_map_of_mem entry)

theorem exists_mem_diff (knows : t.ledger.Knows t.document.state? tells) (covered : t.ledger.covers x = true) :
    ∃ before, (⟨x, before, t.document.state? x⟩ : Change α) ∈ t.diff := by
  have key : x ∈ t.ledger.before.map Prod.fst := by
    by_contra missing
    rw [Ledger.not_covers_iff.2 ⟨knows.tracking, missing⟩] at covered
    cases covered
  obtain ⟨⟨x, state⟩, entry, rfl⟩ := List.mem_map.1 key
  exact ⟨state, List.mem_map.2 ⟨(x, state), entry, rfl⟩⟩

theorem nodup_diff (knows : t.ledger.Knows t.document.state? tells) : (t.diff.map Change.id).Nodup := by
  have keys : t.diff.map Change.id = t.ledger.before.map Prod.fst := by
    simp only [Transaction.diff, List.map_map]
    rfl
  exact keys ▸ knows.keys_nodup

end Ledger.Knows

namespace Recorded
variable {p q : Document α} {t : Transaction α} {states states' : States α}

/-- An action lies between the documents before and after a transaction if it lists its states, and all changes but
those to a state with the same values. -/
theorem bridge [PartialEquivBEq α] (recorded : Recorded p t) (consistent : p.Consistent) (consistent' : q.Consistent)
    (tidy : p.Tidy) (tidy' : q.Tidy) (same : ∀ x, q.find? x = t.document.find? x)
    (births : ∀ x e f, p.find? x = some e → q.find? x = some f → e.birth = f.birth)
    (distinct : states.ids.Nodup) (distinct' : states'.ids.Nodup) (ids : ∀ x, x ∈ states.ids ↔ x ∈ states'.ids)
    (before : ∀ entry ∈ states, ∃ c ∈ t.diff, entry = (c.id, c.before))
    (after : ∀ entry ∈ states', ∃ c ∈ t.diff, entry = (c.id, c.after))
    (rest : ∀ c ∈ t.diff, c.id ∉ states.ids →
      (c.before = none ∧ c.after = none) ∨ ∃ a b, c.before = some a ∧ c.after = some b ∧ b.same a = true) :
    Bridge states states' p q where
  consistent := consistent
  consistent' := consistent'
  tidy := tidy
  tidy' := tidy'
  distinct := distinct
  distinct' := distinct'
  ids := ids
  given x s member := by
    obtain ⟨c, own, equal⟩ := before _ member
    obtain ⟨⟨id, state⟩, entry, rfl⟩ := List.mem_map.1 own
    cases equal
    exact recorded.states id state entry
  given' x s member := by
    obtain ⟨c, own, equal⟩ := after _ member
    obtain ⟨⟨id, state⟩, entry, rfl⟩ := List.mem_map.1 own
    cases equal
    exact (Document.state?_of_same same id).symm
  rest x unlisted := by
    cases covered : t.ledger.covers x with
    | false => exact Document.agreesAt_of_eq ((recorded.unrecorded x covered).symm.trans (Document.state?_of_same same x).symm)
    | true =>
      have key : x ∈ t.ledger.before.map Prod.fst := by
        by_contra missing
        rw [Ledger.not_covers_iff.2 ⟨recorded.tracking, missing⟩] at covered
        cases covered
      obtain ⟨⟨x, state⟩, entry, rfl⟩ := List.mem_map.1 key
      have own : (⟨x, state, t.document.state? x⟩ : Change α) ∈ t.diff := List.mem_map.2 ⟨(x, state), entry, rfl⟩
      have first := recorded.states x state entry
      have last := Document.state?_of_same same x
      rcases rest _ own unlisted with ⟨none, none'⟩ | ⟨a, b, some, some', equal⟩
      · exact Document.agreesAt_of_eq (first.symm.trans (none.trans (none'.symm.trans last.symm)))
      · have state : p.state? x = .some a := first.symm.trans some
        have state' : q.state? x = .some b := last.trans some'
        unfold Document.AgreesAt
        rw [state, state']
        exact .some (Snapshot.Agrees.symm (tidy'.state? state') (tidy.state? state) (.inr equal))
  survivors x e f found found' := by
    rcases recorded.kin x f (same x ▸ found') with late | ⟨former, lookup, _, kind, parent, box⟩
    · have early : e.birth < p.births :=
        consistent.births_lt e.handle (List.mem_map_of_mem (Document.mem_of_find? found))
      have equal := births x e f found found'
      omega
    · cases found.symm.trans lookup
      exact ⟨kind.symm, parent.symm, box.symm⟩

/-- The action of a pass lies between the documents before and after it, if no element was removed and created again
under its id. -/
theorem bridge_compound [PartialEquivBEq α] (recorded : Recorded p t) (description : String)
    (consistent : p.Consistent) (consistent' : q.Consistent) (tidy : p.Tidy) (tidy' : q.Tidy)
    (same : ∀ x, q.find? x = t.document.find? x)
    (births : ∀ x e f, p.find? x = some e → q.find? x = some f → e.birth = f.birth) :
    Bridge (Action.compound description t.diff.sets).before (Action.compound description t.diff.sets).after p q := by
  have ids (x : String) : x ∈ (Action.compound description t.diff.sets).before.ids ↔
      ∃ c ∈ t.diff, c.id = x ∧ Diff.Listed c := Action.mem_ids_compound ChangeSet.ids_before
  have ids' (x : String) : x ∈ (Action.compound description t.diff.sets).after.ids ↔
      ∃ c ∈ t.diff, c.id = x ∧ Diff.Listed c := Action.mem_ids_compound ChangeSet.ids_after
  refine recorded.bridge consistent consistent' tidy tidy' same births Action.nodup_merged Action.nodup_merged
    (fun x => (ids x).trans (ids' x).symm) (fun _ => Action.mem_before_compound) (fun _ => Action.mem_after_compound) ?_
  intro c own unlisted
  exact Diff.not_listed fun listed => unlisted ((ids c.id).2 ⟨c, own, rfl, listed⟩)

theorem nodup_diff (recorded : Recorded p t) : (t.diff.map Change.id).Nodup :=
  recorded.knows.nodup_diff

/-- The updates of a transaction lie between the documents before and after it, if the same elements are in both. -/
theorem bridge_updated [PartialEquivBEq α] (recorded : Recorded p t) (consistent : p.Consistent)
    (consistent' : q.Consistent) (tidy : p.Tidy) (tidy' : q.Tidy) (same : ∀ x, q.find? x = t.document.find? x)
    (births : ∀ x e f, p.find? x = some e → q.find? x = some f → e.birth = f.birth)
    (there : ∀ x, q.contains x = p.contains x) :
    Bridge (Action.single ⟨.update, t.diff.updated⟩).before (Action.single ⟨.update, t.diff.updated⟩).after p q := by
  have ids : (Action.single ⟨.update, t.diff.updated⟩).before.ids = t.diff.updated.map Change.id :=
    ChangeSet.ids_before ⟨.update, t.diff.updated⟩
  have ids' : (Action.single ⟨.update, t.diff.updated⟩).after.ids = t.diff.updated.map Change.id :=
    ChangeSet.ids_after ⟨.update, t.diff.updated⟩
  have distinct : (t.diff.updated.map Change.id).Nodup :=
    recorded.nodup_diff.sublist (List.filter_sublist.map Change.id)
  refine recorded.bridge consistent consistent' tidy tidy' same births (ids ▸ distinct) (ids' ▸ distinct)
    (fun x => by rw [ids, ids']) ?_ ?_ ?_
  · intro entry member
    obtain ⟨c, own, rfl⟩ := List.mem_map.1 member
    exact ⟨c, (List.mem_filter.1 own).1, rfl⟩
  · intro entry member
    obtain ⟨c, own, rfl⟩ := List.mem_map.1 member
    exact ⟨c, (List.mem_filter.1 own).1, rfl⟩
  · intro c own unlisted
    refine Diff.not_listed ?_
    obtain ⟨⟨x, state⟩, entry, rfl⟩ := List.mem_map.1 own
    have first := recorded.states x state entry
    have last := Document.state?_of_same same x
    have kept := there x
    rw [Document.contains_eq_state?, Document.contains_eq_state?, ← first, last] at kept
    rintro (removed | added | updated)
    · simp only [Diff.isRemoved, Bool.and_eq_true, Option.isNone_iff_eq_none] at removed
      rw [removed.1, removed.2] at kept
      cases kept
    · simp only [Diff.isAdded, Bool.and_eq_true, Option.isNone_iff_eq_none] at added
      rw [added.1, added.2] at kept
      cases kept
    · exact unlisted (ids ▸ List.mem_map_of_mem (List.mem_filter.2 ⟨own, updated⟩))

end Recorded
end LiveDiagram
