import LiveDiagram.Proofs.Edit.Step

/-! Each edit of content, ends, containment and labels as steps. -/
namespace LiveDiagram

variable {α : Type}

namespace Element

theorem keepsPlace_mapNode {change : NodeContent α → NodeContent α} : KeepsPlace (mapNode change) where
  handle e := by unfold mapNode; split <;> rfl
  parent e := by unfold mapNode; split <;> rfl
  children e := by unfold mapNode; split <;> rfl
  kind e := by
    rcases e with ⟨_, _, content, _, _, _, _⟩
    cases content <;> rfl

theorem end?_mapNode {change : NodeContent α → NodeContent α} (e : Element α) (relation : Relation) :
    (e.mapNode change).end? relation = e.end? relation := by
  rcases e with ⟨_, _, content, _, _, _, _⟩
  cases content <;> cases relation <;> rfl

namespace KeepsShape

theorem mapNode {change : NodeContent α → NodeContent α} (same : ∀ content, (change content).bounds = content.bounds) :
    KeepsShape (Element.mapNode change) where
  toKeepsPlace := keepsPlace_mapNode
  box e := by
    rcases e with ⟨_, _, content, _, _, _, _⟩
    cases content <;> simp [Element.mapNode, Element.box?, same]
  ends := end?_mapNode

theorem props {change : Props → Props} : KeepsShape fun e : Element α => { e with props := change e.props } :=
  ⟨⟨fun _ => rfl, fun _ => rfl, fun _ => rfl, fun _ => rfl⟩, fun _ => rfl, fun _ _ => rfl⟩

theorem metadata {change : Props → Props} :
    KeepsShape fun e : Element α => { e with metadata := change e.metadata } :=
  ⟨⟨fun _ => rfl, fun _ => rfl, fun _ => rfl, fun _ => rfl⟩, fun _ => rfl, fun _ _ => rfl⟩

end KeepsShape
end Element

theorem Element.keepsPlace_setStart {p : Endpoint α} : Element.KeepsPlace (Element.setStart p) where
  handle e := by unfold Element.setStart; split <;> rfl
  parent e := by unfold Element.setStart; split <;> rfl
  children e := by unfold Element.setStart; split <;> rfl
  kind e := by
    rcases e with ⟨_, _, content, _, _, _, _⟩
    cases content <;> rfl

theorem Element.keepsPlace_setStop {p : Endpoint α} : Element.KeepsPlace (Element.setStop p) where
  handle e := by unfold Element.setStop; split <;> rfl
  parent e := by unfold Element.setStop; split <;> rfl
  children e := by unfold Element.setStop; split <;> rfl
  kind e := by
    rcases e with ⟨_, _, content, _, _, _, _⟩
    cases content <;> rfl

theorem Element.keepsTidy_mapNode {change : NodeContent α → NodeContent α} :
    Element.KeepsTidy (Element.mapNode change) := by
  intro e tidy
  unfold Element.mapNode
  split <;> exact tidy

theorem Element.keepsTidy_setStart {p : Endpoint α} : Element.KeepsTidy (Element.setStart p) := by
  intro e tidy
  unfold Element.setStart
  split <;> exact tidy

theorem Element.keepsTidy_setStop {p : Endpoint α} : Element.KeepsTidy (Element.setStop p) := by
  intro e tidy
  unfold Element.setStop
  split <;> exact tidy

theorem Element.box?_setStart {p : Endpoint α} (e : Element α) : (e.setStart p).box? = e.box? := by
  rcases e with ⟨_, _, content, _, _, _, _⟩
  cases content <;> rfl

theorem Element.box?_setStop {p : Endpoint α} (e : Element α) : (e.setStop p).box? = e.box? := by
  rcases e with ⟨_, _, content, _, _, _, _⟩
  cases content <;> rfl

theorem Element.end?_setStart {p q : Endpoint α} {e : Element α} {relation : Relation}
    (given : (e.setStart p).end? relation = some q) : q = p ∨ e.end? relation = some q := by
  rcases e with ⟨_, _, content, _, _, _, _⟩
  cases content <;> cases relation <;> simp_all [Element.setStart, Element.end?]

theorem Element.end?_setStop {p q : Endpoint α} {e : Element α} {relation : Relation}
    (given : (e.setStop p).end? relation = some q) : q = p ∨ e.end? relation = some q := by
  rcases e with ⟨_, _, content, _, _, _, _⟩
  cases content <;> cases relation <;> simp_all [Element.setStop, Element.end?]

namespace Edit
open Document (Consistent contains_of_find?)

variable [Coordinate α] {t t' : Transaction α} {id : String} {b : Unit} (terms : Terms)

theorem step_touch {e : Element α} (given : Gives (touch e) t b t') (found : t.document.find? e.id = some e) :
    Step terms t t' ∧ t'.document = t.document ∧ t'.ledger.covers e.id = true := by
  obtain ⟨_, rfl⟩ := gives_touch.1 given
  rw [← Document.state?_of_find? found]
  exact ⟨.record t e.id, rfl, covers_keep⟩

theorem update_steps {change : Element α → Element α} (given : Gives (update id change) t b t')
    (keeps : Element.KeepsShape change) (tidy : terms.tidy = true → Element.KeepsTidy change) :
    Steps terms t t' := by
  obtain ⟨e, found, _, rfl⟩ := gives_update.1 given
  rw [← Document.state?_of_find? found]
  exact .tail (.single (.record t id)) (.adjust _ id covers_keep keeps tidy)

theorem putText_steps {text : String} (given : Gives (putText id text) t b t') : Steps terms t t' :=
  update_steps terms given (.mapNode fun _ => rfl) fun _ => Element.keepsTidy_mapNode

theorem putType_steps {type : String} (given : Gives (putType id type) t b t') : Steps terms t t' :=
  update_steps terms given (.mapNode fun _ => rfl) fun _ => Element.keepsTidy_mapNode

theorem editProps_steps {f : Props → Props} (given : Gives (editProps id f) t b t')
    (tidy : terms.tidy = true → ∀ p : Props, p.Tidy → (f p).Tidy) : Steps terms t t' :=
  update_steps terms given .props fun strict e own => ⟨tidy strict e.props own.1, own.2⟩

theorem editMetadata_steps {f : Props → Props} (given : Gives (editMetadata id f) t b t')
    (tidy : terms.tidy = true → ∀ p : Props, p.Tidy → (f p).Tidy) : Steps terms t t' :=
  update_steps terms given .metadata fun strict e own => ⟨own.1, tidy strict e.metadata own.2⟩

theorem changeLabel_steps {label : Option (LabelPlacement α)} (given : Gives (changeLabel id label) t b t') :
    Steps terms t t' :=
  update_steps terms given (.mapNode fun _ => rfl) fun _ => Element.keepsTidy_mapNode

theorem rejoin_steps {change : Element α → Element α} (consistent : t.document.Consistent)
    (given : Gives (do update id change; Edit.change (·.connect id)) t b t') (keeps : Element.KeepsPlace change)
    (box : ∀ e, (change e).box? = e.box?) {p : Endpoint α} (fits : t.document.Fits p)
    (ends : ∀ e relation q, (change e).end? relation = some q → q = p ∨ e.end? relation = some q)
    (tidy : Element.KeepsTidy change) : Steps terms t t' := by
  simp only [gives_bind, gives_update, gives_change] at given
  obtain ⟨_, u, ⟨e, found, _, rfl⟩, rfl⟩ := given
  rw [← Document.state?_of_find? found]
  refine .tail (.single (.record t id)) (.join _ id covers_keep keeps box ?_ fun _ => tidy)
  intro e relation q found' ending
  rcases ends e relation q ending with same | old
  · exact same ▸ fits
  · exact consistent.end_fits relation id q (Document.endOf_eq_some.2 ⟨e, found', old⟩)

theorem moveStart_steps {p : Endpoint α} (consistent : t.document.Consistent) (fits : t.document.Fits p)
    (given : Gives (moveStart id p) t b t') : Steps terms t t' :=
  rejoin_steps terms consistent given Element.keepsPlace_setStart Element.box?_setStart fits
    (fun _ _ _ => Element.end?_setStart) Element.keepsTidy_setStart

theorem moveStop_steps {p : Endpoint α} (consistent : t.document.Consistent) (fits : t.document.Fits p)
    (given : Gives (moveStop id p) t b t') : Steps terms t t' :=
  rejoin_steps terms consistent given Element.keepsPlace_setStop Element.box?_setStop fits
    (fun _ _ _ => Element.end?_setStop) Element.keepsTidy_setStop

theorem nest_steps {parent : String} (given : Gives (nest parent id) t b t')
    (present : t.document.contains id = true) (moving : terms.moves = true) : Steps terms t t' := by
  simp only [nest, attach, gives_bind, gives_element, gives_document, if_true] at given
  obtain ⟨p, _, ⟨found, rfl⟩, _, u, touched, _, _, ⟨rfl, rfl⟩, rest⟩ := given
  have named := Document.find?_eq_some_id found
  obtain ⟨first, same, _⟩ := step_touch terms touched (named ▸ found)
  have move (v : Transaction α) (still : v.document = t.document) :
      Step terms v { v with document := v.document.attach id (some parent) } := by
    refine .move v id (some parent) moving (still ▸ present) ?_
    rintro holder ⟨⟩
    exact still ▸ contains_of_find? found
  split at rest
  · next old lookup =>
    simp only [gives_bind, gives_change] at rest
    obtain ⟨_, v, touchedOld, rfl⟩ := rest
    obtain ⟨former, _, foundOld⟩ := Option.bind_eq_some_iff.1 lookup
    have namedOld := Document.find?_eq_some_id foundOld
    obtain ⟨second, sameOld, _⟩ := step_touch terms touchedOld (namedOld ▸ foundOld)
    exact .tail (.tail (.single first) second) (move v (sameOld.trans same))
  · obtain rfl := gives_change.1 rest
    exact .tail (.single first) (move u same)

omit [Coordinate α] in
theorem covers_keep_of_covers {l : Ledger α} {x : String} {state : Option (Snapshot α)} (covered : l.covers x = true) :
    (l.keep id state).covers x = true := by
  unfold Ledger.keep Ledger.covers at *
  split
  · simp [Assoc.contains] at covered ⊢
    grind
  · exact covered

/-- Nesting an element that has no parent yet. -/
theorem gives_nest_topmost {parent : String} (topmost : t.document.parentOf id = none) :
    Gives (nest parent id) t b t' ↔ ∃ p, t.document.find? parent = some p ∧ t.ledger.closed = false ∧
      t' = { t with
        ledger := t.ledger.keep parent (some (t.document.snapshot p))
        document := t.document.attach id (some parent) } := by
  have former : (t.document.find? id).bind Element.parent = none := topmost
  simp only [nest, attach, gives_bind, gives_element, gives_touch, gives_document, if_true]
  constructor
  · rintro ⟨p, _, ⟨found, rfl⟩, _, _, ⟨isOpen, rfl⟩, _, _, ⟨rfl, rfl⟩, rest⟩
    simp only [former, Option.bind_none, gives_change] at rest
    exact ⟨p, found, isOpen, Document.find?_eq_some_id found ▸ rest⟩
  · rintro ⟨p, found, isOpen, rfl⟩
    have named := Document.find?_eq_some_id found
    refine ⟨p, t, ⟨found, rfl⟩, (), _, ⟨isOpen, rfl⟩, _, _, ⟨rfl, rfl⟩, ?_⟩
    simp only [former, Option.bind_none, gives_change, named]

/-- A new element enters under a parent that is there, and its id was not taken. -/
theorem insert_steps {e : Element α} {parent : Option Handle} (consistent : t.document.Consistent)
    (topmost : e.parent = none) (childless : e.children = [])
    (fits : ∀ relation p, e.end? relation = some p → t.document.Fits p)
    (older : ∀ holder, parent = some holder → holder.birth < t.document.births)
    (tidy : terms.tidy = true → e.Tidy) (given : Gives (insert e parent) t b t') :
    t.document.contains e.id = false ∧ (∀ holder, parent = some holder → t.document.isLive holder = true) ∧
      t'.document = t.document.enter e (parent.map Handle.id) ∧ Steps terms t t' := by
  simp only [insert, recordAbsence, gives_bind, gives_document] at given
  obtain ⟨_, _, ⟨rfl, rfl⟩, given⟩ := given
  split at given
  · exact (gives_throw.1 given).elim
  next absent =>
  rw [Bool.not_eq_true] at absent
  have missing : t.document.state? e.id = none := by
    simp only [Document.state?, Document.not_contains_iff.1 absent, Option.map_none]
  have recorded : Step terms t { t with ledger := t.ledger.keep e.id none } := missing ▸ .record t e.id
  have unplaced : (t.document.register e).parentOf e.id = none := Document.parentOf_register_self absent topmost
  simp only [gives_bind, gives_keep, gives_change] at given
  obtain ⟨_, u, ⟨isOpen, rfl⟩, _, v, rfl, given⟩ := given
  refine ⟨absent, ?_⟩
  cases parent with
  | none =>
    simp only [gives_bind, gives_change] at given
    obtain ⟨_, w, rfl, rfl⟩ := given
    have outside : e.id ∉ (t.document.register e).top := consistent.not_mem_top absent
    have entered : t.document.enter e none = Document.connect
        { t.document.register e with top := (t.document.register e).top ++ [e.id] } e.id := by
      unfold Document.enter
      rw [Document.attach_top unplaced outside]
    refine ⟨by simp, entered.symm, .tail (.single recorded) ?_⟩
    rw [← entered]
    exact .enter { t with ledger := t.ledger.keep e.id none } e none covers_keep absent topmost childless fits
      (by simp) tidy
  | some holder =>
    simp only [gives_bind, gives_document] at given
    obtain ⟨_, _, ⟨rfl, rfl⟩, given⟩ := given
    split at given
    · next live =>
      simp only [gives_bind, gives_change] at given
      obtain ⟨_, w, nested, rfl⟩ := given
      obtain ⟨p, found, _, rfl⟩ := (gives_nest_topmost unplaced).1 nested
      have present : t.document.isLive holder = true := by
        rw [Document.isLive_iff, Document.handles_register, List.mem_append, List.mem_singleton] at live
        rcases live with old | new
        · exact Document.isLive_iff.2 old
        · -- The parent was born before the new element, so it is not the new element itself.
          have early := older holder rfl
          simp [new] at early
      have there : t.document.contains holder.id = true :=
        Document.contains_iff_mem.2 (List.mem_map_of_mem (Document.isLive_iff.1 present))
      rw [Document.find?_register_of_ne (Document.ne_of_contains there absent)] at found
      rw [Document.snapshot_register consistent absent found, ← Document.state?_of_find? found]
      refine ⟨fun _ same => ?_, rfl, .tail (.tail (.single recorded) (.record _ holder.id)) ?_⟩
      · cases same
        exact present
      · refine .enter { t with ledger := (t.ledger.keep e.id none).keep holder.id (t.document.state? holder.id) }
          e (some holder.id) (covers_keep_of_covers covers_keep) absent topmost childless fits ?_ tidy
        rintro _ ⟨⟩
        exact ⟨there, covers_keep⟩
    · simp at given

end Edit
end LiveDiagram
