import LiveDiagram.Proofs.Document.Brought
import LiveDiagram.Proofs.Edit.Proceeding
import LiveDiagram.Proofs.Reached
import LiveDiagram.Proofs.Reconcile.Report

/-! What a transaction tells of its changes when elements move in it. An edit records what it is about to change, with
one gap: an element that is nested elsewhere gets another parent, while only the two parents are recorded. An element
that was moved so and not recorded is astray. Of all others the transaction tells exactly what became of them; of those
astray it may tell nothing, or a first state with a later parent. -/
namespace LiveDiagram

variable {α : Type}

/-- A state without its parent. -/
def Snapshot.adrift (s : Snapshot α) : Snapshot α :=
  { s with parent := none }

variable [Coordinate α]

namespace Document
variable {d : Document α} {id x parent : String} {astray more : List String} {s : Option (Snapshot α)}

omit [Coordinate α] in
theorem boxOf_attach {holder : Option String} : (d.attach id holder).boxOf x = d.boxOf x := by
  unfold boxOf
  rw [find?_attach]
  cases d.find? x <;> rfl

/-- But for the two parents, a move changes the state of the moved element only, and there the parent only. -/
theorem state?_attach (apart : x ≠ parent) (apart' : d.parentOf id ≠ some x) :
    (d.attach id (some parent)).state? x =
      (d.state? x).map fun s => if x = id then { s with parent := some parent } else s := by
  unfold state?
  rw [find?_attach]
  cases d.find? x with
  | none => rfl
  | some e =>
    have same (e : Element α) : (d.attach id (some parent)).snapshot e = d.snapshot e :=
      snapshot_congr fun _ _ _ _ => boxOf_attach
    simp only [Option.map_some, same, apart', if_false, Option.some.injEq, Ne.symm apart, List.append_nil]
    split <;> rfl

/-- What may be told of an element at the beginning: its state, or if it is astray its state with any parent. -/
def Retells (d : Document α) (astray : List String) (id : String) (s : Option (Snapshot α)) : Prop :=
  s.map Snapshot.adrift = (d.state? id).map Snapshot.adrift ∧ (id ∉ astray → s = d.state? id)

theorem Retells.mono (retells : d.Retells astray id s) (within : astray ⊆ more) : d.Retells more id s :=
  ⟨retells.1, fun outside => retells.2 fun inside => outside (within inside)⟩

theorem Retells.isSome_eq (retells : d.Retells astray id s) : s.isSome = d.contains id := by
  rw [contains_eq_state?]
  simpa using congrArg Option.isSome retells.1

end Document

/-- A step that moves nothing, or a move between recorded parents. An element that is moved to another parent is recorded
or astray. -/
inductive Drift (astray : List String) : Transaction α → Transaction α → Prop
  | still {t t' : Transaction α} : Step ⟨false, false⟩ t t' → Drift astray t t'
  | move (t : Transaction α) (id parent : String) :
      t.document.contains id = true → t.document.contains parent = true → t.ledger.covers parent = true →
      (∀ former, t.document.parentOf id = some former → t.ledger.covers former = true) →
      (t.ledger.covers id = true ∨ t.document.parentOf id = some parent ∨ id ∈ astray) →
      Drift astray t { t with document := t.document.attach id (some parent) }

abbrev Drifts (astray : List String) : Transaction α → Transaction α → Prop :=
  Relation.ReflTransGen (Drift astray)

/-- A transaction that is open and knows the document that it began with, but for the parents of those astray. -/
structure Transaction.Follows (t : Transaction α) (d : Document α) (astray : List String) : Prop where
  consistent : t.document.Consistent
  isOpen : t.ledger.closed = false
  knows : t.ledger.Knows t.document.state? (d.Retells astray)

namespace Transaction.Follows
variable {d : Document α} {t t' : Transaction α} {astray more : List String}

theorem opened (consistent : d.Consistent) (context : Context) : Follows ⟨d, .opened α true, context⟩ d [] where
  consistent := consistent
  isOpen := rfl
  knows := ⟨rfl, List.nodup_nil, by simp [Ledger.opened], fun _ _ => ⟨rfl, fun _ => rfl⟩⟩

theorem mono (follows : t.Follows d astray) (within : astray ⊆ more) : t.Follows d more where
  consistent := follows.consistent
  isOpen := follows.isOpen
  knows := ⟨follows.knows.tracking, follows.knows.keys_nodup,
    fun id s entry => (follows.knows.states id s entry).mono within,
    fun id uncovered => (follows.knows.unrecorded id uncovered).mono within⟩

theorem drift (follows : t.Follows d astray) (drift : Drift astray t t') : t'.Follows d astray := by
  cases drift with
  | still step =>
    refine ⟨follows.consistent.step step, ?_, follows.knows.step follows.consistent rfl step⟩
    rcases step.ledger_cases with same | ⟨id, rfl⟩
    · exact same ▸ follows.isOpen
    · exact Ledger.closed_keep.trans follows.isOpen
  | move id parent present held covered former known =>
    have holder : ∀ p, some parent = some p → t.document.contains p = true := by
      rintro p ⟨⟩
      exact held
    refine ⟨Document.Sound.attach follows.consistent present holder (.inl rfl), follows.isOpen, follows.knows.tracking,
      follows.knows.keys_nodup, follows.knows.states, fun x uncovered => ?_⟩
    have other {y : String} (covered : t.ledger.covers y = true) : x ≠ y := by
      rintro rfl
      rw [show t.ledger.covers x = false from uncovered] at covered
      cases covered
    obtain ⟨same, exactly⟩ := follows.knows.unrecorded x uncovered
    rw [Document.state?_attach (other covered) fun nested => other (former x nested) rfl]
    refine ⟨?_, fun outside => ?_⟩
    · rw [← same, Option.map_map]
      congr 1
      funext s
      dsimp only [Function.comp]
      split <;> rfl
    · rw [← exactly outside]
      -- The element itself is uncovered and not astray, so that it was nested here before.
      refine (Option.map_congr fun s member => ?_).trans Option.map_id'
      split
      · next own =>
        have again : t.document.parentOf x = some parent := by
          rcases known with recorded | again | inside
          · exact (other recorded own).elim
          · exact own ▸ again
          · exact (outside (own ▸ inside)).elim
        rw [Document.parentOf_eq_state?, Option.mem_def.1 member, Option.bind_some] at again
        rw [← again]
      · rfl

theorem drifts (follows : t.Follows d astray) (drifts : Drifts astray t t') : t'.Follows d astray := by
  induction drifts with
  | refl => exact follows
  | tail _ drift ih => exact ih.drift drift

end Transaction.Follows

/-! Edits that may move elements -/

theorem Steps.drifts {t t' : Transaction α} (steps : Steps ⟨false, false⟩ t t') (astray : List String) :
    Drifts astray t t' := by
  induction steps with
  | refl => exact .refl
  | tail _ step ih => exact ih.tail (.still step)

namespace Edit
variable {t t' : Transaction α} {parent edge id : String} {b : Unit} {astray : List String}

/-- Nesting drifts when the element is recorded in the end, or has the parent already, or is astray. -/
theorem nest_drifts (consistent : t.document.Consistent) (given : Gives (nest parent id) t b t')
    (present : t.document.contains id = true)
    (known : t'.ledger.covers id = true ∨ t.document.parentOf id = some parent ∨ id ∈ astray) : Drifts astray t t' := by
  simp only [nest, attach, gives_bind, gives_element, gives_document, if_true] at given
  obtain ⟨p, _, ⟨found, rfl⟩, _, u, touched, _, _, ⟨rfl, rfl⟩, rest⟩ := given
  have named := Document.find?_eq_some_id found
  obtain ⟨first, same, covered⟩ := step_touch ⟨false, false⟩ touched (named ▸ found)
  rw [named] at covered
  have there : t.document.contains parent = true := Document.contains_of_find? found
  have move (v : Transaction α) (still : v.document = t.document) (new : v.ledger.covers parent = true)
      (old : ∀ former, t.document.parentOf id = some former → v.ledger.covers former = true)
      (known : v.ledger.covers id = true ∨ t.document.parentOf id = some parent ∨ id ∈ astray) :
      Drift astray v { v with document := v.document.attach id (some parent) } := by
    refine .move v id parent ?_ ?_ new ?_ ?_
    · exact still ▸ present
    · exact still ▸ there
    · exact still ▸ old
    · exact still ▸ known
  split at rest
  · next former lookup =>
    simp only [gives_bind, gives_change] at rest
    obtain ⟨_, v, touchedOld, rfl⟩ := rest
    obtain ⟨former', nested, foundOld⟩ := Option.bind_eq_some_iff.1 lookup
    have namedOld := Document.find?_eq_some_id foundOld
    obtain ⟨second, sameOld, coveredOld⟩ := step_touch ⟨false, false⟩ touchedOld (namedOld ▸ foundOld)
    have kept : v.ledger.covers parent = true := by
      obtain ⟨_, rfl⟩ := gives_touch.1 touchedOld
      exact covers_keep_of_covers covered
    refine .tail (.tail (.single (.still first)) (.still second)) (move v (sameOld.trans same) kept ?_ known)
    rintro x nested'
    rw [same] at nested
    cases nested.symm.trans nested'
    exact namedOld ▸ coveredOld
  · next missing =>
    obtain rfl := gives_change.1 rest
    refine .tail (.single (.still first)) (move u same covered ?_ known)
    intro former nested
    obtain ⟨e, lookup⟩ := Document.contains_iff_find?.1 (consistent.contains_parent nested)
    rw [same, show (t.document.find? id).bind Element.parent = some former from nested, Option.bind_some, lookup] at missing
    cases missing

/-- A label is recorded when it gets its placement, before it moves. -/
theorem markLabel_drifts {label : LabelPlacement α} (consistent : t.document.Consistent)
    (given : Gives (markLabel edge id label) t b t') : Drifts astray t t' := by
  simp only [markLabel, gives_bind, gives_element] at given
  obtain ⟨_, u, changed, e, _, ⟨found, rfl⟩, given⟩ := given
  have early : Steps ⟨false, false⟩ t u := changeLabel_steps ⟨false, false⟩ changed
  have covered : u.ledger.covers id = true := by
    obtain ⟨_, _, _, rfl⟩ := gives_update.1 changed
    exact covers_keep
  refine (early.drifts astray).trans ?_
  split at given
  · have present : u.document.contains id = true := Document.contains_of_find? found
    have moved := nest_steps ⟨true, false⟩ given present rfl
    exact nest_drifts (consistent.steps early) given present (.inl (moved.covers covered))
  · obtain ⟨_, rfl⟩ := gives_pure.1 given
    exact .refl

theorem chooseLabels_drifts {standard : LabelPlacement α} {ids : List String} (consistent : t.document.Consistent)
    (given : Gives (chooseLabels standard edge ids) t b t') : Drifts astray t t' := by
  simp only [chooseLabels, gives_bind, gives_document] at given
  obtain ⟨_, _, ⟨rfl, rfl⟩, _, u, dropped, chosen⟩ := given
  have early : Steps ⟨false, false⟩ t u := by
    refine dropped.forM (Steps ⟨false, false⟩ t) .refl ?_
    intro e _ v v' steps changed
    exact steps.trans (changeLabel_steps ⟨false, false⟩ changed)
  refine (early.drifts astray).trans ?_
  refine (chosen.forM (fun v => v.document.Consistent ∧ Drifts astray u v) ⟨consistent.steps early, .refl⟩ ?_).2
  rintro id _ v v' ⟨consistent, drifts⟩ round
  simp only [gives_bind, gives_document] at round
  obtain ⟨_, _, ⟨rfl, rfl⟩, round⟩ := round
  split at round
  · split at round
    · exact ⟨consistent.steps (markLabel_steps ⟨true, false⟩ (.inl rfl) round).1,
        drifts.trans (markLabel_drifts consistent round)⟩
    · obtain ⟨_, rfl⟩ := gives_pure.1 round
      exact ⟨consistent, drifts⟩
  · obtain ⟨_, rfl⟩ := gives_pure.1 round
    exact ⟨consistent, drifts⟩

end Edit

/-! Commands -/

/-- What a document can be told to do in a transaction. -/
inductive Command (α : Type)
  | add (id : String) (content : Content α) (props metadata : Props) (parent : Option Handle)
  | addChild (parent child : String)
  | removeChild (parent child : String)
  | remove (id : String)
  | setText (id text : String)
  | setType (id type : String)
  | updateProps (id : String) (change : Props → Props)
  | updateMetadata (id : String) (change : Props → Props)
  | setStart (edge : String) (p : Endpoint α)
  | setStop (edge : String) (p : Endpoint α)
  | addLabel (edge node : String) (label : LabelPlacement α)
  | setLabels (edge : String) (nodes : List String)

namespace Command

def edit : Command α → Edit α Unit
  | add id content props metadata parent => Edit.insert (.new id content props metadata) parent
  | addChild parent child => Edit.nest parent child
  | removeChild parent child => Edit.removeFrom parent child
  | remove id => Edit.remove id
  | setText id text => Edit.putText id text
  | setType id type => Edit.putType id type
  | updateProps id change => Edit.editProps id change
  | updateMetadata id change => Edit.editMetadata id change
  | setStart edge p => Edit.moveStart edge p
  | setStop edge p => Edit.moveStop edge p
  | addLabel edge node label => Edit.markLabel edge node label
  | setLabels edge nodes => Edit.chooseLabels .standard edge nodes

omit [Coordinate α] in
/-- The elements that a command is given are in the document. -/
def Suits (d : Document α) : Command α → Prop
  | add id content props metadata parent =>
    (∀ relation p, (Element.new id content props metadata).end? relation = some p → d.Fits p) ∧
      ∀ holder, parent = some holder → d.isLive holder = true
  | addChild parent child => d.contains parent = true ∧ d.contains child = true
  | removeChild parent child => d.contains parent = true ∧ d.contains child = true
  | remove id | setText id _ | setType id _ | updateProps id _ | updateMetadata id _ => d.contains id = true
  | setStart edge p | setStop edge p => d.contains edge = true ∧ d.Fits p
  | addLabel edge node _ => d.contains edge = true ∧ d.contains node = true
  | setLabels edge nodes => d.contains edge = true ∧ ∀ node ∈ nodes, d.contains node = true

omit [Coordinate α] in
/-- A child that a command from `t` to `t'` gives another parent and that is not recorded in the end. -/
def astray (t t' : Transaction α) : Command α → List String
  | addChild parent child =>
    if t'.ledger.covers child || t.document.parentOf child = some parent then [] else [child]
  | _ => []

variable {c : Command α} {d : Document α} {t t' : Transaction α}

theorem primitive (suits : c.Suits d) : Primitive d c.edit := by
  cases c with
  | add id content props metadata parent => exact .add _ _ _ _ _ suits.1 suits.2
  | addChild parent child => exact .addChild parent child suits.2
  | removeChild parent child => exact .removeChild parent child
  | remove id => exact .remove id
  | setText id text => exact .setText id text
  | setType id type => exact .setType id type
  | updateProps id change => exact .updateProps id change
  | updateMetadata id change => exact .updateMetadata id change
  | setStart edge p => exact .setStart edge p suits.2
  | setStop edge p => exact .setStop edge p suits.2
  | addLabel edge node label => exact .addLabel edge node label
  | setLabels edge nodes => exact .setLabels _ edge nodes

/-- Every command drifts, with no child astray but its own. -/
theorem drifts {ids : List String} (suits : c.Suits t.document) (consistent : t.document.Consistent)
    (given : Gives c.edit t () t') (within : c.astray t t' ⊆ ids) : Drifts ids t t' := by
  cases c with
  | add id content props metadata parent =>
    refine Steps.drifts (Edit.insert_steps ⟨false, false⟩ consistent rfl rfl suits.1 ?_ (by simp) given).2.2.2 _
    exact fun holder same => consistent.births_lt holder (Document.isLive_iff.1 (suits.2 holder same))
  | addChild parent child =>
    refine Edit.nest_drifts consistent given suits.2 ?_
    simp only [astray] at within
    split at within
    · next known =>
      rw [Bool.or_eq_true, decide_eq_true_eq] at known
      exact known.imp_right .inl
    · exact .inr (.inr (within (List.mem_singleton_self child)))
  | removeChild parent child =>
    simp only [edit, Edit.removeFrom, gives_bind, Edit.gives_element] at given
    obtain ⟨_, _, ⟨_, rfl⟩, _, _, ⟨_, rfl⟩, given⟩ := given
    split at given
    · simp at given
    · exact (Edit.remove_steps ⟨false, false⟩ consistent given).2.1.drifts _
  | remove id => exact (Edit.remove_steps ⟨false, false⟩ consistent given).2.1.drifts _
  | setText id text => exact (Edit.putText_steps ⟨false, false⟩ given).drifts _
  | setType id type => exact (Edit.putType_steps ⟨false, false⟩ given).drifts _
  | updateProps id change => exact (Edit.editProps_steps ⟨false, false⟩ given (by simp)).drifts _
  | updateMetadata id change => exact (Edit.editMetadata_steps ⟨false, false⟩ given (by simp)).drifts _
  | setStart edge p => exact (Edit.moveStart_steps ⟨false, false⟩ consistent suits.2 given).drifts _
  | setStop edge p => exact (Edit.moveStop_steps ⟨false, false⟩ consistent suits.2 given).drifts _
  | addLabel edge node label => exact Edit.markLabel_drifts consistent given
  | setLabels edge nodes => exact Edit.chooseLabels_drifts consistent given

end Command

/-- Commands that were carried out one after the other in one transaction, and the elements that were astray after one
of them. -/
inductive Done (d : Document α) : List String → Transaction α → Prop
  | opened (context : Context) : Done d [] ⟨d, .opened α true, context⟩
  | next {astray : List String} {t t' : Transaction α} (c : Command α) : Done d astray t → c.Suits t.document →
      Gives c.edit t () t' → Done d (astray ++ c.astray t t') t'

theorem Done.follows {d : Document α} {astray : List String} {t : Transaction α} (consistent : d.Consistent)
    (done : Done d astray t) : t.Follows d astray := by
  induction done with
  | opened context => exact .opened consistent context
  | next c _ suits given ih =>
    exact (ih.mono (List.subset_append_left _ _)).drifts
      (c.drifts suits ih.consistent given (List.subset_append_right _ _))

/-! What is told at the end -/

theorem Snapshot.same_adrift {s s' : Snapshot α} (same : s.same s' = true) : s.adrift.same s'.adrift = true := by
  simp only [Snapshot.same, adrift, Bool.and_eq_true, beq_self_eq_true, and_true] at same ⊢
  exact ⟨⟨⟨⟨same.1.1.1.1.1, same.1.1.1.2⟩, same.1.1.2⟩, same.1.2⟩, same.2⟩

namespace Transaction.Follows
variable {d : Document α} {t : Transaction α} {astray : List String} {x : String}

theorem mem_ids_filter (follows : t.Follows d astray) (kind : Change α → Bool) :
    x ∈ Diff.ids (t.diff.filter kind) ↔ ∃ before, ⟨x, before, t.document.state? x⟩ ∈ t.diff ∧
      kind ⟨x, before, t.document.state? x⟩ = true := by
  simp only [Diff.ids, List.mem_map, List.mem_filter]
  constructor
  · rintro ⟨⟨id, before, after⟩, ⟨member, own⟩, rfl⟩
    have last : after = t.document.state? id := (follows.knows.of_mem_diff member).2.2
    exact ⟨before, last ▸ member, last ▸ own⟩
  · rintro ⟨before, member, own⟩
    exact ⟨_, ⟨member, own⟩, rfl⟩

theorem isSome_before (follows : t.Follows d astray) {before after : Option (Snapshot α)}
    (member : ⟨x, before, after⟩ ∈ t.diff) : before.isSome = d.contains x :=
  (follows.knows.of_mem_diff member).2.1.isSome_eq

/-- An element that came or went is recorded. -/
theorem covers_of_ne (follows : t.Follows d astray) (turned : t.document.contains x ≠ d.contains x) :
    t.ledger.covers x = true := by
  by_contra uncovered
  refine turned ?_
  rw [Document.contains_eq_state?]
  exact (follows.knows.unrecorded x (Bool.not_eq_true _ ▸ uncovered)).isSome_eq

theorem mem_added (follows : t.Follows d astray) :
    x ∈ Diff.ids t.diff.added ↔ d.contains x = false ∧ t.document.contains x = true := by
  refine (follows.mem_ids_filter Diff.isAdded).trans ?_
  simp only [Diff.isAdded, Bool.and_eq_true, ← Option.not_isSome, Bool.not_eq_true', ← Document.contains_eq_state?]
  constructor
  · rintro ⟨before, member, absent, present⟩
    exact ⟨follows.isSome_before member ▸ absent, present⟩
  · rintro ⟨absent, present⟩
    obtain ⟨before, member⟩ := follows.knows.exists_mem_diff (follows.covers_of_ne (by rw [absent, present]; decide))
    exact ⟨before, member, (follows.isSome_before member).trans absent, present⟩

theorem mem_removed (follows : t.Follows d astray) :
    x ∈ Diff.ids t.diff.removed ↔ d.contains x = true ∧ t.document.contains x = false := by
  refine (follows.mem_ids_filter Diff.isRemoved).trans ?_
  simp only [Diff.isRemoved, Bool.and_eq_true, ← Option.not_isSome, Bool.not_eq_true', ← Document.contains_eq_state?]
  constructor
  · rintro ⟨before, member, present, absent⟩
    exact ⟨follows.isSome_before member ▸ present, absent⟩
  · rintro ⟨present, absent⟩
    obtain ⟨before, member⟩ := follows.knows.exists_mem_diff (follows.covers_of_ne (by rw [absent, present]; decide))
    exact ⟨before, member, (follows.isSome_before member).trans present, absent⟩

theorem mem_updated (follows : t.Follows d astray) : x ∈ Diff.ids t.diff.updated ↔ ∃ s s',
    ⟨x, some s, t.document.state? x⟩ ∈ t.diff ∧ t.document.state? x = some s' ∧ s'.same s = false := by
  refine (follows.mem_ids_filter Diff.isUpdated).trans ?_
  simp only [Recorded.isUpdated_iff]
  constructor
  · rintro ⟨_, member, s, s', rfl, present, differs⟩
    exact ⟨s, s', member, present, differs⟩
  · rintro ⟨s, s', member, present, differs⟩
    exact ⟨some s, member, s, s', rfl, present, differs⟩

theorem differsAt_of_updated (follows : t.Follows d astray) (outside : x ∉ astray) (updated : x ∈ Diff.ids t.diff.updated) :
    d.DiffersAt t.document x := by
  obtain ⟨s, s', member, present, differs⟩ := follows.mem_updated.1 updated
  exact ⟨s, s', ((follows.knows.of_mem_diff member).2.1.2 outside).symm, present, differs⟩

/-- A recorded state is told as updated, unless the values are still the same. -/
theorem updated_or_same (follows : t.Follows d astray) (covered : t.ledger.covers x = true) {s s' : Snapshot α}
    (former : d.state? x = some s) (present : t.document.state? x = some s') :
    x ∈ Diff.ids t.diff.updated ∨ ∃ before, d.Retells astray x (some before) ∧ s'.same before = true := by
  obtain ⟨before, member⟩ := follows.knows.exists_mem_diff covered
  obtain ⟨_, retells, _⟩ := follows.knows.of_mem_diff member
  have there := retells.isSome_eq
  rw [Document.contains_eq_state?, former] at there
  obtain ⟨before, rfl⟩ := Option.isSome_iff_exists.1 there
  by_cases same : s'.same before = true
  · exact .inr ⟨before, retells, same⟩
  · exact .inl (follows.mem_updated.2 ⟨before, s', member, present, Bool.not_eq_true _ ▸ same⟩)

theorem updated_of_differsAt (follows : t.Follows d astray) (outside : x ∉ astray) (differs : d.DiffersAt t.document x) :
    x ∈ Diff.ids t.diff.updated ∨ t.document.state? x = d.state? x := by
  obtain ⟨s, s', former, present, other⟩ := differs
  cases covered : t.ledger.covers x with
  | false => exact .inr ((follows.knows.unrecorded x covered).2 outside)
  | true =>
    refine (follows.updated_or_same covered former present).imp_right ?_
    rintro ⟨before, retells, same⟩
    cases former.symm.trans (retells.2 outside).symm
    rw [same] at other
    cases other

end Transaction.Follows

/-- However commands are put together in one transaction, it ends and tells each recorded id once, with its present state.
The first state of an element is its state at the beginning, or if it was astray its state with some parent. Added are
the ids that lead to an element only at the end, removed those that lead to one only at the beginning; and of all that
were not astray, updated are those with states that differ, unless they are the very same, which differ from themselves
where a position is not a number. Updated are only ids that lead to an element both times, and they miss no element that
has come to differ in more than its parent. -/
theorem Done.classifies {d : Document α} {astray : List String} {t : Transaction α} (consistent : d.Consistent)
    (done : Done d astray t) :
    ∃ diff t', Gives Edit.commit t diff t' ∧ (Diff.ids diff).Nodup ∧
      (∀ c ∈ diff, c.after = t.document.state? c.id ∧ (c.id ∉ astray → c.before = d.state? c.id) ∧
        c.before.map Snapshot.adrift = (d.state? c.id).map Snapshot.adrift) ∧
      (∀ x, x ∈ Diff.ids diff.added ↔ d.contains x = false ∧ t.document.contains x = true) ∧
      (∀ x, x ∈ Diff.ids diff.removed ↔ d.contains x = true ∧ t.document.contains x = false) ∧
      (∀ x, x ∉ astray → (x ∈ Diff.ids diff.updated → d.DiffersAt t.document x) ∧
        (d.DiffersAt t.document x → x ∈ Diff.ids diff.updated ∨ t.document.state? x = d.state? x)) ∧
      (∀ x ∈ Diff.ids diff.updated, d.contains x = true ∧ t.document.contains x = true) ∧
      ∀ x s s', d.state? x = some s → t.document.state? x = some s' →
        x ∈ Diff.ids diff.updated ∨ s'.adrift = s.adrift ∨ s'.adrift.same s.adrift = true := by
  have follows := done.follows consistent
  obtain ⟨diff, t', given, _⟩ := Edit.commit_returns follows.isOpen
  obtain ⟨_, rfl, _⟩ := Edit.gives_commit given
  refine ⟨t.diff, t', given, follows.knows.nodup_diff, fun c member => ?_, fun x => follows.mem_added,
    fun x => follows.mem_removed, fun x outside => ⟨follows.differsAt_of_updated outside,
      follows.updated_of_differsAt outside⟩, fun x updated => ?_, fun x s s' former present => ?_⟩
  · obtain ⟨_, retells, last⟩ := follows.knows.of_mem_diff member
    exact ⟨last, retells.2, retells.1⟩
  · obtain ⟨s, s', member, present, _⟩ := follows.mem_updated.1 updated
    refine ⟨(follows.isSome_before member).symm, ?_⟩
    rw [Document.contains_eq_state?, present]
    rfl
  · cases covered : t.ledger.covers x with
    | false =>
      have retells := (follows.knows.unrecorded x covered).1
      rw [former, present] at retells
      exact .inr (.inl (Option.some.inj retells))
    | true =>
      refine (follows.updated_or_same covered former present).imp_right ?_
      rintro ⟨before, retells, same⟩
      have start := retells.1
      rw [former] at start
      exact .inr (Option.some.inj start ▸ Snapshot.same_adrift same)

/-- A command goes through where running it shows so. -/
theorem Done.run {d : Document α} {astray all : List String} {t : Transaction α} (done : Done d astray t) (c : Command α)
    (suits : c.Suits t.document) (ends : (c.edit.run t : Except Fault Unit × Transaction α).1.toOption.isSome = true)
    (more : astray ++ c.astray t (c.edit.run t).2 = all) : Done d all (c.edit.run t).2 := by
  obtain ⟨_, given, _⟩ := exists_gives (e := c.edit) (t := t) (fun _ => true)
    (by rw [Option.any_true]; exact ends)
  exact more ▸ done.next c suits given

/-- A node that gets a text before it moves is told with its first parent, and as updated. -/
theorem Done.classifies_renamed :
    ∃ (d : Document Quantity) (diff : Diff Quantity) (t t' : Transaction Quantity), Gives Edit.commit t diff t' ∧
      d.parentOf "x" = some "a" ∧ t.document.parentOf "x" = some "b" ∧ "x" ∈ Diff.ids diff.updated ∧
      ∀ c ∈ diff, c.id = "x" → c.before = d.state? "x" := by
  let w := Workspace.blank.taking "a: rect \x7b\n  x: rect\n\x7d\nb: rect"
  have texts : Work.OfTexts w := .taking (.empty _ _) (by decide +kernel)
  let t₁ := ((Command.setText "x" "new").edit.run (⟨w.document, .opened Quantity true, w.context⟩ : Transaction Quantity)).2
  let t₂ := ((Command.addChild "b" "x").edit.run t₁).2
  have renamed : Done w.document [] t₁ := (Done.opened w.context).run (.setText "x" "new")
    (show w.document.contains "x" = true by decide +kernel) (by decide +kernel) rfl
  have done : Done w.document [] t₂ := renamed.run (.addChild "b" "x")
    (show t₁.document.contains "b" = true ∧ t₁.document.contains "x" = true by decide +kernel) (by decide +kernel)
    (by decide +kernel)
  obtain ⟨diff, t', given, _, first, _, _, updated, _⟩ := Done.classifies texts.brought.consistent done
  refine ⟨w.document, diff, t₂, t', given, by decide +kernel, by decide +kernel, ?_, fun c member named => ?_⟩
  · refine ((updated "x" (by simp)).2 (by decide +kernel)).resolve_right fun same => ?_
    have placed := (Document.parentOf_eq_state?.trans (congrArg (·.bind Snapshot.parent) same)).trans
      Document.parentOf_eq_state?.symm
    exact absurd placed (by decide +kernel)
  · rw [← named]
    exact (first c member).2.1 (by simp)

/-- A node that moves before it is recorded is not told at all, and one that gets a text afterwards is told with its
later parent as its first. -/
theorem Done.classifies_strayed :
    ∃ (d : Document Quantity) (diff diff' : Diff Quantity) (t t' u u' : Transaction Quantity), d.Consistent ∧
      Done d ["x"] t ∧ Gives Edit.commit t diff t' ∧ d.DiffersAt t.document "x" ∧ "x" ∉ Diff.ids diff ∧
      Done d ["x"] u ∧ Gives Edit.commit u diff' u' ∧
      ∃ c ∈ diff', c.id = "x" ∧ c.before ≠ d.state? "x" := by
  let w := Workspace.blank.taking "a: rect \x7b\n  x: rect\n\x7d\nb: rect"
  have texts : Work.OfTexts w := .taking (.empty _ _) (by decide +kernel)
  let t := ((Command.addChild "b" "x").edit.run (⟨w.document, .opened Quantity true, w.context⟩ : Transaction Quantity)).2
  let u := ((Command.setText "x" "new").edit.run t).2
  have moved : Done w.document ["x"] t := (Done.opened w.context).run (.addChild "b" "x")
    (show w.document.contains "b" = true ∧ w.document.contains "x" = true by decide +kernel) (by decide +kernel)
    (by decide +kernel)
  have renamed : Done w.document ["x"] u := moved.run (.setText "x" "new")
    (show t.document.contains "x" = true by decide +kernel) (by decide +kernel) rfl
  obtain ⟨diff, t', given, _⟩ := Edit.commit_returns (moved.follows texts.brought.consistent).isOpen
  obtain ⟨diff', u', given', _⟩ := Edit.commit_returns (renamed.follows texts.brought.consistent).isOpen
  obtain ⟨_, rfl, _⟩ := Edit.gives_commit given
  obtain ⟨_, rfl, _⟩ := Edit.gives_commit given'
  exact ⟨w.document, t.diff, u.diff, t, t', u, u', texts.brought.consistent, moved, given, by decide +kernel,
    by decide +kernel, renamed, given', by decide +kernel⟩

end LiveDiagram
