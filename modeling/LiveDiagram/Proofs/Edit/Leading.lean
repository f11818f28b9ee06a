import LiveDiagram.Proofs.Edit.Primitives

/-! Edits that return, and where they lead. An edit records what it is about to change, so all that it asks of a
transaction is that it is still open; where it leads depends on the document and on the ids to come. -/
namespace LiveDiagram

variable {α β γ : Type}

/-- An open transaction at a document, with these ids to come. -/
structure Transaction.At (d : Document α) (ids : IdSupply) (t : Transaction α) : Prop where
  document : t.document = d
  supply : t.context.ids = ids
  isOpen : t.ledger.closed = false

/-- From every open transaction at one document the edit returns, and leaves the transaction open at another. -/
def Leads (d : Document α) (ids : IdSupply) (e : Edit α β) (b : β) (d' : Document α) (ids' : IdSupply) : Prop :=
  ∀ t, t.At d ids → ∃ t', Gives e t b t' ∧ t'.At d' ids'

theorem Ledger.closed_keep {l : Ledger α} {id : String} {state : Option (Snapshot α)} :
    (l.keep id state).closed = l.closed := by
  unfold keep
  split <;> rfl

namespace Leads
variable {d d' d'' : Document α} {ids ids' ids'' : IdSupply} {b : β} {c : γ} {e : Edit α β} {f : β → Edit α γ}

theorem pure : Leads d ids (Pure.pure b) b d ids :=
  fun t here => ⟨t, gives_pure.2 ⟨rfl, rfl⟩, here⟩

theorem bind (first : Leads d ids e b d' ids') (rest : Leads d' ids' (f b) c d'' ids'') :
    Leads d ids (e >>= f) c d'' ids'' := by
  intro t here
  obtain ⟨u, given, there⟩ := first t here
  obtain ⟨t', given', there'⟩ := rest u there
  exact ⟨t', gives_bind.2 ⟨b, u, given, given'⟩, there'⟩

theorem discard (leads : Leads d ids e b d' ids') : Leads d ids (Functor.discard e) ⟨⟩ d' ids' := by
  intro t here
  obtain ⟨t', given, there⟩ := leads t here
  exact ⟨t', gives_discard.2 ⟨b, given⟩, there⟩

/-- An edit that looks at the document goes on with this one. -/
theorem document {f : Document α → Edit α γ} (rest : Leads d ids (f d) c d' ids') :
    Leads d ids (Edit.document >>= f) c d' ids' := by
  refine .bind (b := d) (fun t here => ?_) rest
  exact ⟨t, Edit.gives_document.2 ⟨here.document.symm, rfl⟩, here⟩

theorem note {n : Note} : Leads d ids (Edit.note n : Edit α Unit) () d ids := by
  intro t here
  exact ⟨_, Edit.gives_note.2 rfl, here.document, here.supply, here.isOpen⟩

theorem change {f : Document α → Document α} : Leads d ids (Edit.change f) () (f d) ids := by
  intro t here
  exact ⟨_, Edit.gives_change.2 rfl, congrArg f here.document, here.supply, here.isOpen⟩

theorem element {id : String} {p : Element α} (found : d.find? id = some p) :
    Leads d ids (Edit.element id) p d ids := by
  intro t here
  exact ⟨t, Edit.gives_element.2 ⟨here.document ▸ found, rfl⟩, here⟩

theorem freshId :
    Leads d ids (Edit.freshId : Edit α String) (ids.name ids.used) d { ids with used := ids.used + 1 } := by
  intro t here
  refine ⟨{ t with context := { t.context with ids := { ids with used := ids.used + 1 } } }, ?_, here.document, rfl,
    here.isOpen⟩
  simp only [Edit.freshId, gives_bind, gives_get, gives_set, gives_pure]
  obtain ⟨_, rfl, _⟩ := here
  exact ⟨_, _, ⟨rfl, rfl⟩, ⟨⟩, _, rfl, rfl, rfl⟩

theorem keep {id : String} {state : Option (Snapshot α)} : Leads d ids (Edit.keep id state) () d ids := by
  intro t here
  exact ⟨_, Edit.gives_keep.2 ⟨here.isOpen, rfl⟩, here.document, here.supply, Ledger.closed_keep.trans here.isOpen⟩

variable [Coordinate α]

theorem record {p : Element α} : Leads d ids (Edit.record p) () d ids := by
  intro t here
  exact ⟨_, Edit.gives_record.2 ⟨here.isOpen, rfl⟩, here.document, here.supply,
    Ledger.closed_keep.trans here.isOpen⟩

theorem update {id : String} {f : Element α → Element α} {p : Element α} (found : d.find? id = some p) :
    Leads d ids (Edit.update id f) () (d.modify id f) ids := by
  intro t here
  obtain ⟨rfl, supply, isOpen⟩ := here
  exact ⟨_, Edit.gives_update.2 ⟨p, found, isOpen, rfl⟩, rfl, supply, Ledger.closed_keep.trans isOpen⟩

theorem moveStart {id : String} {p : Element α} {q : Endpoint α} (found : d.find? id = some p) :
    Leads d ids (Edit.moveStart id q) () ((d.modify id (Element.setStart q)).connect id) ids :=
  .bind (.update found) .change

theorem moveStop {id : String} {p : Element α} {q : Endpoint α} (found : d.find? id = some p) :
    Leads d ids (Edit.moveStop id q) () ((d.modify id (Element.setStop q)).connect id) ids :=
  .bind (.update found) .change

/-- Nesting an element that has no parent yet. -/
theorem nest {parent id : String} {p : Element α} (found : d.find? parent = some p)
    (topmost : d.parentOf id = none) : Leads d ids (Edit.nest parent id) () (d.attach id (some parent)) ids := by
  intro t here
  obtain ⟨rfl, supply, isOpen⟩ := here
  exact ⟨_, (Edit.gives_nest_topmost topmost).2 ⟨p, found, isOpen, rfl⟩, rfl, supply,
    Ledger.closed_keep.trans isOpen⟩

/-- A new element enters at the top, or under a parent that is there. -/
theorem insert {p : Element α} {parent : Option Handle} (consistent : d.Consistent)
    (absent : d.contains p.id = false) (topmost : p.parent = none)
    (live : ∀ holder, parent = some holder → d.isLive holder = true) :
    Leads d ids (Edit.insert p parent) () (d.enter p (parent.map Handle.id)) ids := by
  have unplaced : (d.register p).parentOf p.id = none := Document.parentOf_register_self absent topmost
  unfold Edit.insert
  refine .document ?_
  rw [absent]
  refine .bind .keep (.bind .change ?_)
  cases parent with
  | none =>
    have outside : p.id ∉ (d.register p).top := consistent.not_mem_top absent
    refine .bind .change ?_
    rw [← Document.attach_top unplaced outside]
    exact .change
  | some holder =>
    have there : holder ∈ d.handles := Document.isLive_iff.1 (live holder rfl)
    have registered : (d.register p).isLive holder = true := by
      rw [Document.isLive_iff, Document.handles_register]
      exact List.mem_append_left _ there
    obtain ⟨e, found⟩ := Document.contains_iff_find?.1 (Document.contains_iff_mem.2
      (List.mem_map_of_mem (Document.isLive_iff.1 registered)))
    refine .document ?_
    rw [if_pos registered]
    exact .bind (.nest found unplaced) .change

/-- Marking a node as the label of the edge around it. -/
theorem markLabel {edge id : String} {label : LabelPlacement α} {p : Element α} (found : d.find? id = some p)
    (nested : p.parent = some edge) :
    Leads d ids (Edit.markLabel edge id label) ()
      (d.modify id (Element.mapNode fun content => { content with label := some label })) ids := by
  have keeps : Element.KeepsShape (Element.mapNode fun content : NodeContent α => { content with label := some label }) :=
    .mapNode fun _ => rfl
  have found' : (d.modify id (Element.mapNode fun content => { content with label := some label })).find? id =
      some (p.mapNode fun content => { content with label := some label }) := by
    rw [Document.find?_modify keeps.id, if_pos rfl, found]
    rfl
  unfold Edit.markLabel Edit.changeLabel
  refine .bind (.update found) (.bind (.element found') ?_)
  rw [if_neg (by rw [keeps.parent, nested]; exact not_not_intro rfl)]
  exact .pure

end Leads
end LiveDiagram
