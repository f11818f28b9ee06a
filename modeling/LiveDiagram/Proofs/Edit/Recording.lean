import LiveDiagram.Proofs.Edit.Step

/-! What the ledger of an edit that moves nothing knows about the document that the edit began with. A recorded
state is the one at the beginning, an element that is not recorded is as it was, and an element that was there from
the beginning keeps its kind, its parent and its box. -/
namespace LiveDiagram

variable {α : Type} [Coordinate α]

namespace Document
variable {d d' : Document α} {id x : String}

/-- A state stays while the element stays and the boxes of the nodes that it is connected to. -/
theorem state?_congr (same : d'.find? x = d.find? x)
    (boxes : ∀ relation node anchor, d.endOf relation x = some (.connected node anchor) →
      d'.boxOf node = d.boxOf node) : d'.state? x = d.state? x := by
  unfold state?
  rw [same]
  cases found : d.find? x with
  | none => rfl
  | some e =>
    have state : d'.snapshot e = d.snapshot e :=
      snapshot_congr fun relation node anchor ending =>
        boxes relation node anchor (endOf_eq_some.2 ⟨e, found, ending⟩)
    rw [Option.map_some, Option.map_some, state]

theorem state?_of_same (same : ∀ x, d'.find? x = d.find? x) (x : String) : d'.state? x = d.state? x :=
  state?_congr (same x) fun _ node _ _ => by unfold boxOf; rw [same]

theorem state?_modify_of_ne {change : Element α → Element α} (keeps : ∀ e, (change e).id = e.id)
    (box : ∀ e, (change e).box? = e.box?) (other : x ≠ id) : (d.modify id change).state? x = d.state? x := by
  refine state?_congr ?_ fun _ _ _ _ => boxOf_modify keeps box
  rw [find?_modify keeps, if_neg other]

theorem state?_connect : (d.connect id).state? x = d.state? x :=
  state?_congr find?_connect fun _ node _ _ => by unfold boxOf; rw [find?_connect]

theorem state?_enter {e : Element α} {parent : Option String} (consistent : d.Consistent)
    (absent : d.contains e.id = false) (topmost : e.parent = none) (childless : e.children = [])
    (held : ∀ holder, parent = some holder → d.contains holder = true) (other : x ≠ e.id)
    (apart : parent ≠ some x) : (d.enter e parent).state? x = d.state? x := by
  refine state?_congr ?_ ?_
  · rw [find?_enter absent topmost childless held, if_neg other, if_neg apart]
    cases d.find? x with
    | none => rfl
    | some p => simp
  · intro relation node anchor ending
    have there : (d.node? node).isSome = true := consistent.end_fits relation x _ ending
    have old : node ≠ e.id := ne_of_contains (contains_of_node? there) absent
    unfold boxOf
    rw [find?_enter absent topmost childless held, if_neg old]
    cases d.find? node <;> rfl

theorem state?_expel (loose : d.Loose id) (stays : x ∉ d.subtree id) (apart : d.parentOf id ≠ some x) :
    (d.expel id).state? x = d.state? x := by
  refine state?_congr ?_ ?_
  · rw [find?_expel loose, if_neg stays]
    simp only [apart, if_false]
    cases d.find? x <;> rfl
  · intro relation node anchor ending
    have outside := loose relation x node anchor stays ending
    unfold boxOf
    rw [find?_expel loose, if_neg outside]
    cases d.find? node <;> rfl

end Document

namespace Ledger
variable {l : Ledger α} {id x : String} {state : Option (Snapshot α)}

omit [Coordinate α] in
theorem not_covers_iff : l.covers x = false ↔ l.tracking = true ∧ x ∉ l.before.map Prod.fst := by
  simp only [covers, Assoc.contains, Bool.or_eq_false_iff, Bool.not_eq_false', List.any_eq_false, decide_eq_true_eq,
    List.mem_map]
  grind

omit [Coordinate α] in
theorem keep_of_covers (tracking : l.tracking = true) (covered : l.covers id = true) : l.keep id state = l := by
  unfold covers at covered
  unfold keep
  simp only [tracking, Bool.not_true, Bool.false_or] at covered
  simp [covered]

omit [Coordinate α] in
theorem keep_of_not_covers (uncovered : l.covers id = false) :
    l.keep id state = { l with before := l.before ++ [(id, state)] } := by
  unfold covers at uncovered
  unfold keep
  rw [Bool.or_eq_false_iff, Bool.not_eq_false'] at uncovered
  simp [uncovered.1, uncovered.2]

end Ledger

/-- What a ledger that tracks can tell of the elements, each recorded once: of the recorded ones by their recorded
states, and of the others by their present ones. -/
structure Ledger.Knows (l : Ledger α) (present : String → Option (Snapshot α))
    (tells : String → Option (Snapshot α) → Prop) : Prop where
  tracking : l.tracking = true
  keys_nodup : (l.before.map Prod.fst).Nodup
  states : ∀ id s, (id, s) ∈ l.before → tells id s
  unrecorded : ∀ id, l.covers id = false → tells id (present id)

section
variable {t t' : Transaction α} {terms : Terms} {x : String} {tells : String → Option (Snapshot α) → Prop}

omit [Coordinate α] in
/-- Recording a state once more changes nothing, and a first record is of the present state. -/
theorem Ledger.Knows.keep {l : Ledger α} {present : String → Option (Snapshot α)} (knows : l.Knows present tells)
    (id : String) : (l.keep id (present id)).Knows present tells := by
  cases covered : l.covers id with
  | true =>
    rw [Ledger.keep_of_covers knows.tracking covered]
    exact knows
  | false =>
    rw [Ledger.keep_of_not_covers covered]
    have fresh := (Ledger.not_covers_iff.1 covered).2
    refine ⟨knows.tracking, ?_, fun x s member => ?_, fun x uncovered => ?_⟩
    · simp only [List.map_append, List.map_cons, List.map_nil]
      exact List.nodup_append.2 ⟨knows.keys_nodup, List.nodup_singleton id, by grind⟩
    · rcases List.mem_append.1 member with old | new
      · exact knows.states x s old
      · rw [List.mem_singleton, Prod.mk.injEq] at new
        obtain ⟨rfl, rfl⟩ := new
        exact knows.unrecorded x covered
    · refine knows.unrecorded x (Ledger.not_covers_iff.2 ?_)
      have apart := Ledger.not_covers_iff.1 uncovered
      simp only [List.map_append, List.mem_append, not_or] at apart
      exact ⟨apart.1, apart.2.1⟩

/-- A step that moves nothing leaves what is not covered as it is. -/
theorem Step.state?_eq (step : Step terms t t') (consistent : t.document.Consistent) (still : terms.moves = false)
    (uncovered : t.ledger.covers x = false) : t'.document.state? x = t.document.state? x := by
  have other {y : String} (covered : t.ledger.covers y = true) : x ≠ y := by
    rintro rfl
    rw [uncovered] at covered
    cases covered
  cases step with
  | say => rfl
  | record => rfl
  | adjust id covered keeps => exact Document.state?_modify_of_ne keeps.id keeps.box (other covered)
  | join id covered keeps box fits =>
    exact Document.state?_connect.trans (Document.state?_modify_of_ne keeps.id box (other covered))
  | enter e parent covered absent topmost childless fits held =>
    have apart : parent ≠ some x := fun same => other (held x same).2 rfl
    exact Document.state?_enter consistent absent topmost childless (fun holder same => (held holder same).1)
      (other covered) apart
  | move id parent moved =>
    rw [still] at moved
    cases moved
  | expel id present loose covered parent =>
    exact Document.state?_expel loose (fun inside => other (covered x inside) rfl) fun held => other (parent x held) rfl

/-- A step that changes the ledger does nothing else. -/
theorem Step.ledger_cases (step : Step terms t t') :
    t'.ledger = t.ledger ∨ ∃ id, t' = { t with ledger := t.ledger.keep id (t.document.state? id) } := by
  cases step with
  | record id => exact .inr ⟨id, rfl⟩
  | say | adjust | join | enter | move | expel => exact .inl rfl

/-- What is known goes on being known while nothing moves. -/
theorem Ledger.Knows.step (knows : t.ledger.Knows t.document.state? tells) (consistent : t.document.Consistent)
    (still : terms.moves = false) (step : Step terms t t') : t'.ledger.Knows t'.document.state? tells := by
  rcases step.ledger_cases with same | ⟨id, rfl⟩
  · rw [same]
    refine ⟨knows.tracking, knows.keys_nodup, knows.states, fun x uncovered => ?_⟩
    rw [step.state?_eq consistent still uncovered]
    exact knows.unrecorded x uncovered
  · exact knows.keep id

end

/-- An element that entered after the beginning, or one that was there with the same kind, place and box. -/
def Kin (d : Document α) (id : String) (e : Element α) : Prop :=
  d.births ≤ e.birth ∨ ∃ former, d.find? id = some former ∧ e.birth = former.birth ∧ e.kind = former.kind ∧
    e.parent = former.parent ∧ e.box? = former.box?

omit [Coordinate α] in
theorem Kin.congr {d : Document α} {id : String} {e e' : Element α} (kin : Kin d id e) (birth : e'.birth = e.birth)
    (kind : e'.kind = e.kind) (parent : e'.parent = e.parent) (box : e'.box? = e.box?) : Kin d id e' := by
  unfold Kin
  rw [birth, kind, parent, box]
  exact kin

/-- What a transaction keeps of the document that it began with. -/
structure Recorded (d : Document α) (t : Transaction α) : Prop where
  tracking : t.ledger.tracking = true
  births_le : d.births ≤ t.document.births
  keys_nodup : (t.ledger.before.map Prod.fst).Nodup
  states : ∀ id s, (id, s) ∈ t.ledger.before → s = d.state? id
  unrecorded : ∀ id, t.ledger.covers id = false → t.document.state? id = d.state? id
  kin : ∀ id e, t.document.find? id = some e → Kin d id e

namespace Recorded
variable {d : Document α} {t t' : Transaction α} {terms : Terms}

theorem opened (d : Document α) (context : Context) : Recorded d ⟨d, .opened α true, context⟩ where
  tracking := rfl
  births_le := Nat.le_refl _
  keys_nodup := List.nodup_nil
  states := by simp [Ledger.opened]
  unrecorded _ _ := rfl
  kin id e found := .inr ⟨e, found, rfl, rfl, rfl, rfl⟩

theorem kin_modify {id : String} {change : Element α → Element α} (recorded : Recorded d t)
    (keeps : Element.KeepsPlace change) (box : ∀ e, (change e).box? = e.box?) (x : String) (e : Element α)
    (found : (t.document.modify id change).find? x = some e) : Kin d x e := by
  rw [Document.find?_modify keeps.id] at found
  split at found
  · obtain ⟨former, lookup, rfl⟩ := Option.map_eq_some_iff.1 found
    have birth : (change former).birth = former.birth := congrArg Handle.birth (keeps.handle former)
    exact (recorded.kin x former lookup).congr birth (keeps.kind former) (keeps.parent former) (box former)
  · exact recorded.kin x e found

/-- The ledger tells the states at the beginning. -/
theorem knows (recorded : Recorded d t) : t.ledger.Knows t.document.state? fun id s => s = d.state? id :=
  ⟨recorded.tracking, recorded.keys_nodup, recorded.states, recorded.unrecorded⟩

/-- A step that moves nothing changes only what is covered. -/
theorem step (recorded : Recorded d t) (consistent : t.document.Consistent) (still : terms.moves = false)
    (step : Step terms t t') : Recorded d t' := by
  have knows := recorded.knows.step consistent still step
  refine ⟨knows.tracking, Nat.le_trans recorded.births_le step.births_le, knows.keys_nodup, knows.states,
    knows.unrecorded, ?_⟩
  cases step with
  | say => exact recorded.kin
  | record => exact recorded.kin
  | adjust id covered keeps => exact recorded.kin_modify keeps.toKeepsPlace keeps.box
  | join id covered keeps box fits =>
    exact fun x e found => recorded.kin_modify keeps box x e (Document.find?_connect ▸ found)
  | enter e parent covered absent topmost childless fits held =>
    intro x p found
    rw [Document.find?_enter absent topmost childless fun holder same => (held holder same).1] at found
    split at found
    · cases found
      exact .inl recorded.births_le
    · obtain ⟨former, lookup, rfl⟩ := Option.map_eq_some_iff.1 found
      exact (recorded.kin x former lookup).congr rfl rfl rfl rfl
  | move id parent moved =>
    rw [still] at moved
    cases moved
  | expel id present loose covered parent =>
    intro x e found
    rw [Document.find?_expel loose] at found
    split at found
    · cases found
    · obtain ⟨former, lookup, rfl⟩ := Option.map_eq_some_iff.1 found
      exact (recorded.kin x former lookup).congr rfl rfl rfl rfl

theorem steps (recorded : Recorded d t) (consistent : t.document.Consistent) (still : terms.moves = false)
    (steps : Steps terms t t') : Recorded d t' := by
  induction steps with
  | refl => exact recorded
  | tail before step ih => exact ih.step (consistent.steps before) still step

end Recorded
end LiveDiagram
