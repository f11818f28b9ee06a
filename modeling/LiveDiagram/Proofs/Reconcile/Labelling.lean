import LiveDiagram.Proofs.Reconcile.Treading

/-! Labels and new elements as strides. An edge drops the labels that its site does not list, or makes one of them say
its text; a new element comes in below the element of a site or at the top. -/
namespace LiveDiagram

variable {α : Type} [Coordinate α]

namespace Reconcile
variable {sites : List Site} {born : Nat} {t : Transaction α} {s : Site} {config : Config α}

/-- All labels of an edge that its site does not list leave at one stroke. -/
theorem treads_removeLabels (known : s ∈ sites) (edge : s.head.kind = .edge) (isEdge : t.document.IsEdge s.id) :
    Treads sites born t ((t.document.inlineLabels s).forM fun label => Edit.remove label.id) := by
  refine .stroke (fun consistent _ _ given => (Edit.removeAll_steps _ consistent given).1) fun consistent _ _ given => ?_
  obtain ⟨ids, swept⟩ := Edit.removeAll_swept consistent given
  exact .clear _ ids ⟨swept, .inr ⟨s, known, edge, isEdge, fun _ => Iff.rfl⟩⟩

/-- Once the others have left, an edge has the labels that its site lists. -/
theorem listed_of_swept {d d' : Document α} {ids : List String} {x : String} (consistent : d.Consistent)
    (swept : d.Swept ((d.inlineLabels s).map Element.id) ids d') (label : d'.LabelIn s.id x) :
    d.LabelIn s.id x ∧ x ∈ s.listed := by
  obtain ⟨former, stays⟩ := swept.labelIn_iff.1 label
  refine ⟨former, ?_⟩
  by_contra unlisted
  obtain ⟨e, found, labelled, parent⟩ := former
  have named := Document.find?_eq_some_id found
  have own : e ∈ d.inlineLabels s := by
    rw [Document.mem_inlineLabels consistent, named]
    exact ⟨found, labelled, parent, unlisted⟩
  exact stays ((swept.below x).2 ⟨x, named ▸ List.mem_map_of_mem own, Document.mem_subtree_self⟩)

/-- Once the others have left, choosing the labels that the site lists changes nothing. -/
theorem gives_rechoose {u : Transaction α} {ids chosen : List String} (consistent : t.document.Consistent)
    (consistent' : u.document.Consistent) (swept : t.document.Swept ((t.document.inlineLabels s).map Element.id) ids u.document)
    (all : ∀ x ∈ s.listed, u.document.LabelIn s.id x → x ∈ chosen)
    (only : ∀ x ∈ chosen, u.document.contains x = true → u.document.LabelIn s.id x) :
    Gives (Edit.chooseLabels .standard s.id chosen) u () u :=
  Edit.gives_rechoose consistent' (fun x label => all x (listed_of_swept consistent swept label).2 label) only

/-- Dropping labels comes to removing those that the site does not list. -/
theorem gives_dropLabels {t' : Transaction α} (consistent : t.document.Consistent) :
    Gives (dropLabels s.id s.listed) t () t' ↔
      Gives ((t.document.inlineLabels s).forM fun label => Edit.remove label.id) t () t' := by
  have chosen {u : Transaction α} (removed : Gives ((t.document.inlineLabels s).forM fun label => Edit.remove label.id) t () u) :
      Gives (Edit.chooseLabels .standard s.id
        (((t.document.labelsOf s.id).filter (s.listed.contains ·.id)).map Element.id)) u () u := by
    obtain ⟨ids, swept⟩ := Edit.removeAll_swept consistent removed
    have consistent' := consistent.steps (Edit.removeAll_steps ⟨true, false⟩ consistent removed).1
    refine gives_rechoose consistent consistent' swept (fun x listed label => ?_) fun x kept there => ?_
    · obtain ⟨e, own, rfl⟩ := List.mem_map.1 ((Document.mem_labelIds consistent).2 (swept.labelIn_iff.1 label).1)
      exact List.mem_map_of_mem (List.mem_filter.2 ⟨own, List.contains_iff_mem.2 listed⟩)
    · obtain ⟨e, own, rfl⟩ := List.mem_map.1 kept
      refine swept.labelIn_iff.2 ⟨?_, (swept.cleared.contains.1 there).2⟩
      exact (Document.mem_labelIds consistent).1 (List.mem_map_of_mem (List.mem_filter.1 own).1)
  simp only [dropLabels, gives_bind, Edit.gives_document]
  by_cases bare : t.document.labelsOf s.id = []
  · have none : t.document.inlineLabels s = [] := by rw [Document.inlineLabels, bare]; rfl
    simp [bare, none]
  · simp only [List.partition_eq_filter_filter]
    constructor
    · rintro ⟨_, _, ⟨rfl, rfl⟩, given⟩
      rw [if_pos (by simpa using bare)] at given
      obtain ⟨_, u, removed, still⟩ := gives_bind.1 given
      rw [((chosen removed).unique still).2] at removed
      exact removed
    · intro removed
      refine ⟨_, _, ⟨rfl, rfl⟩, ?_⟩
      rw [if_pos (by simpa using bare)]
      exact gives_bind.2 ⟨_, t', removed, chosen removed⟩

theorem treads_dropLabels (known : s ∈ sites) (edge : s.head.kind = .edge) (isEdge : t.document.IsEdge s.id) :
    Treads sites born t (dropLabels s.id s.listed) := fun consistent younger _ t' given =>
  treads_removeLabels known edge isEdge consistent younger () t' ((gives_dropLabels consistent).1 given)

/-- Bringing in a new element below the element of a site or at the top. -/
theorem treads_insert {id : String} {content : Content α} {props metadata : Props} {parent : Option Handle}
    (fits : ∀ relation p, (Element.new id content props metadata).end? relation = some p → t.document.Fits p)
    (older : ∀ h, parent = some h → Older t h) (around : ∀ h, parent = some h → h.id ∈ Site.known sites) :
    Treads sites born t (Edit.insert (.new id content props metadata) parent) := by
  refine .stroke (walks_insert fits older (by simp)) fun consistent _ _ given => ?_
  obtain ⟨absent, live, entered, _⟩ :=
    Edit.insert_steps ⟨true, false⟩ consistent rfl rfl fits older (by simp) given
  refine .enter _ (parent.map Handle.id) absent rfl rfl ?_ entered
  intro p same
  obtain ⟨h, own, rfl⟩ := Option.map_eq_some_iff.1 same
  exact ⟨around h own, Document.contains_iff_mem.2 (List.mem_map_of_mem (Document.isLive_iff.1 (live h own)))⟩

/-- An edit that brings in a new element leaves it where it was put, younger than those from before, and the others there. -/
theorem find?_inserted {id x : String} {content : Content α} {props metadata : Props} {parent : Option Handle}
    {u : Transaction α} (consistent : t.document.Consistent)
    (fits : ∀ relation p, (Element.new id content props metadata).end? relation = some p → t.document.Fits p)
    (older : ∀ h, parent = some h → Older t h)
    (inserted : Gives (Edit.insert (.new id content props metadata) parent) t () u) :
    u.document.find? x = if x = id then some { Element.new id content props metadata with
        birth := t.document.births, parent := parent.map Handle.id }
      else (t.document.find? x).map fun p => { p with
        children := p.children ++ if parent.map Handle.id = some x then [id] else [] } := by
  obtain ⟨absent, live, entered, _⟩ :=
    Edit.insert_steps ⟨true, false⟩ consistent rfl rfl fits older (by simp) inserted
  rw [entered]
  refine Document.find?_enter absent rfl rfl fun p same => ?_
  obtain ⟨h, own, rfl⟩ := Option.map_eq_some_iff.1 same
  exact Document.contains_iff_mem.2 (List.mem_map_of_mem (Document.isLive_iff.1 (live h own)))

theorem newcomer {id : String} {content : Content α} {props metadata : Props} {parent : Option Handle}
    {u : Transaction α} (consistent : t.document.Consistent)
    (fits : ∀ relation p, (Element.new id content props metadata).end? relation = some p → t.document.Fits p)
    (older : ∀ h, parent = some h → Older t h)
    (inserted : Gives (Edit.insert (.new id content props metadata) parent) t () u) :
    u.document.find? id = some { Element.new id content props metadata with
      birth := t.document.births, parent := parent.map Handle.id } :=
  (find?_inserted consistent fits older inserted).trans (if_pos rfl)

/-- Marking a new node as a label of the edge around it. -/
theorem treads_markLabel {id edge : String} {label : LabelPlacement α} {e : Element α}
    (found : t.document.find? id = some e) (nested : e.parent = some edge) (younger : born ≤ e.birth) :
    Treads sites born t (Edit.markLabel edge id label) := by
  have parent : t.document.parentOf id = some edge := Document.parentOf_eq_some.2 ⟨e, found, nested⟩
  refine .stroke (fun _ _ _ given => (Edit.markLabel_steps _ (.inr parent) given).1) fun _ _ _ given => ?_
  refine .mark id _ (fun p same => ?_) Element.keepsPlace_mapNode (Edit.changes_markLabel parent given)
  cases found.symm.trans same
  exact younger

/-- A fresh node comes in as the label of an edge. -/
def freshLabel (holder : Handle) (edge : String) (content : NodeContent α) (label : LabelPlacement α) : Edit α String := do
  let id ← Edit.freshId
  Edit.insert (.new id (.node content) .nil .nil) (some holder)
  Edit.markLabel edge id label
  return id

theorem treads_freshLabel {holder : Handle} {edge : String} {content : NodeContent α} {label : LabelPlacement α}
    (older : Older t holder) (known : holder.id ∈ Site.known sites) (own : holder.id = edge) :
    Treads sites born t (freshLabel holder edge content label) := by
  refine .bind (.still fun _ _ drawn => (Edit.freshId_steps ⟨true, false⟩ drawn).2) fun id u drawn => ?_
  have older : ∀ h, some holder = some h → Older u h := by
    rintro _ ⟨⟩
    exact older.steps (Edit.freshId_steps ⟨true, false⟩ drawn).1
  refine .andThen (treads_insert (by simp [end?_new_node]) older (by rintro _ ⟨⟩; exact known)) ?_
  intro _ v consistent younger _ inserted
  have found := newcomer consistent (by simp [end?_new_node]) older inserted
  exact .bind (treads_markLabel found (congrArg some own) younger) fun _ _ _ => .pure

/-- Puts a text where these labels of an edge are: into a lone one, and else into a fresh one that takes the place of all. -/
def relabel (config : Config α) (e : Element α) (bounds : Bounds α) (edge text : String) (keep : List String) :
    List (Element α) → Edit α String
  | [label] => do
    Edit.putText label.id text
    return label.id
  | labels => do
    if !labels.isEmpty then
      labels.forM fun label => Edit.remove label.id
      let kept := ((← Edit.document).labelsOf edge).filter (keep.contains ·.id)
      Edit.chooseLabels .standard edge (kept.map Element.id)
    freshLabel e.handle edge ⟨config.labelShape, bounds, text, none⟩ config.label

/-- The labels that an edge may lose to a new text are those that its site does not list. -/
theorem gives_putLabel {e : Element α} {text b : String} {keep : List String} {t' : Transaction α}
    (found : t.document.find? s.id = some e) (isEdge : e.isEdge = true)
    (same : ∀ e ∈ t.document.labelsOf s.id, e.id ∈ keep ↔ e.id ∈ s.listed) :
    Gives (Edit.putLabel config s.id text keep) t b t' ↔
      Gives (relabel config e (t.document.boundsOf e) s.id text keep (t.document.inlineLabels s)) t b t' := by
  have notNode : e.isNode = false := by rw [e.isNode_eq_not_isEdge, isEdge, Bool.not_true]
  have others : t.document.inlineLabels s = (t.document.labelsOf s.id).filter (!keep.contains ·.id) :=
    List.filter_congr fun e own => by rw [Bool.eq_iff_iff]; simp [same e own]
  unfold Edit.putLabel
  rw [gives_bind, others]
  constructor
  · rintro ⟨_, _, looked, given⟩
    obtain ⟨found', rfl⟩ := Edit.gives_element.1 looked
    cases found.symm.trans found'
    rw [notNode] at given
    obtain ⟨_, _, looked, given⟩ := gives_bind.1 given
    obtain ⟨rfl, rfl⟩ := Edit.gives_document.1 looked
    exact given
  · intro given
    refine ⟨e, t, Edit.gives_element.2 ⟨found, rfl⟩, ?_⟩
    rw [notNode]
    exact gives_bind.2 ⟨_, t, Edit.gives_document.2 ⟨rfl, rfl⟩, given⟩

/-- Unless a lone label is given the text, all that the site does not list are removed, and a fresh one comes in. -/
theorem gives_relabel {e : Element α} {text b : String} {keep : List String} {bounds : Bounds α} {t' : Transaction α}
    (consistent : t.document.Consistent) (same : ∀ e ∈ t.document.labelsOf s.id, e.id ∈ keep ↔ e.id ∈ s.listed)
    (others : ∀ label, t.document.inlineLabels s ≠ [label]) :
    Gives (relabel config e bounds s.id text keep (t.document.inlineLabels s)) t b t' ↔
      ∃ u, Gives ((t.document.inlineLabels s).forM fun label => Edit.remove label.id) t () u ∧
        Gives (freshLabel e.handle s.id ⟨config.labelShape, bounds, text, none⟩ config.label) u b t' := by
  have chosen {u : Transaction α} (removed : Gives ((t.document.inlineLabels s).forM fun label => Edit.remove label.id) t () u) :
      Gives (Edit.chooseLabels .standard s.id
        (((u.document.labelsOf s.id).filter (keep.contains ·.id)).map Element.id)) u () u := by
    obtain ⟨ids, swept⟩ := Edit.removeAll_swept consistent removed
    have consistent' := consistent.steps (Edit.removeAll_steps ⟨true, false⟩ consistent removed).1
    refine gives_rechoose consistent consistent' swept (fun x listed label => ?_) fun x kept _ => ?_
    · obtain ⟨p, own, rfl⟩ := List.mem_map.1 ((Document.mem_labelIds consistent).2 (swept.labelIn_iff.1 label).1)
      obtain ⟨q, own', named⟩ := List.mem_map.1 ((Document.mem_labelIds consistent').2 label)
      refine List.mem_map.2 ⟨q, List.mem_filter.2 ⟨own', ?_⟩, named⟩
      rw [named]
      exact List.contains_iff_mem.2 ((same p own).2 listed)
    · obtain ⟨p, own, rfl⟩ := List.mem_map.1 kept
      exact (Document.mem_labelIds consistent').1 (List.mem_map_of_mem (List.mem_filter.1 own).1)
  rcases labels : t.document.inlineLabels s with _ | ⟨label, _ | ⟨other, rest⟩⟩
  · simp [relabel]
  · exact (others label labels).elim
  · rw [labels] at chosen
    simp only [relabel, List.isEmpty_cons, Bool.not_false, if_true]
    constructor
    · intro given
      obtain ⟨_, u, removed, given⟩ := gives_bind.1 given
      obtain ⟨_, _, looked, given⟩ := gives_bind.1 given
      obtain ⟨rfl, rfl⟩ := Edit.gives_document.1 looked
      obtain ⟨_, v, still, given⟩ := gives_bind.1 given
      rw [← ((chosen removed).unique still).2] at given
      exact ⟨u, removed, given⟩
    · rintro ⟨u, removed, fresh⟩
      exact gives_bind.2 ⟨_, u, removed, gives_bind.2 ⟨_, u, Edit.gives_document.2 ⟨rfl, rfl⟩,
        gives_bind.2 ⟨_, u, chosen removed, fresh⟩⟩⟩

theorem treads_putLabel (known : s ∈ sites) (edge : s.head.kind = .edge) {text : String}
    (given : s.head.label? = some text) {keep : List String} (isEdge : t.document.IsEdge s.id)
    (same : ∀ e ∈ t.document.labelsOf s.id, e.id ∈ keep ↔ e.id ∈ s.listed) :
    Treads sites born t (Edit.putLabel config s.id text keep) := by
  intro consistent younger b t' put
  obtain ⟨e, found, own⟩ := isEdge
  have named := Document.find?_eq_some_id found
  have older : Older t e.handle := older_of_find? consistent found
  have around : e.handle.id ∈ Site.known sites := (named ▸ List.mem_map_of_mem known : e.id ∈ Site.known sites)
  rw [gives_putLabel found own same] at put
  by_cases lone : ∃ label, t.document.inlineLabels s = [label]
  · obtain ⟨label, alone⟩ := lone
    rw [alone] at put
    obtain ⟨_, u, changed, done⟩ := gives_bind.1 put
    obtain ⟨_, rfl⟩ := gives_pure.1 done
    have retexts : Treads sites born t (Edit.putText label.id text) := by
      refine .stroke (fun _ _ _ => Edit.putText_steps _) fun _ _ _ changed => ?_
      exact .retext s label text known given ⟨e, found, own⟩ alone (Edit.changes_update Element.keepsPlace_mapNode changed)
    exact retexts consistent younger _ _ changed
  · rw [gives_relabel consistent same fun label alone => lone ⟨label, alone⟩] at put
    obtain ⟨u, removed, fresh⟩ := put
    have removing : Treads sites born t ((t.document.inlineLabels s).forM fun label => Edit.remove label.id) :=
      treads_removeLabels known edge ⟨e, found, own⟩
    have removes := removing consistent younger _ _ removed
    have steps := (Edit.removeAll_steps ⟨true, false⟩ consistent removed).1
    refine removes.trans (treads_freshLabel (older.steps steps) around named (removes.consistent consistent) ?_ _ _ fresh)
    exact Nat.le_trans younger removes.births_le

/-- An edge is revised in its place, and then its labels are. -/
theorem treads_reviseEdge (known : s ∈ sites) {e : Element α} (found : t.document.find? e.id = some e)
    (own : e.id = s.id) (isEdge : e.isEdge = true) {source target label : Option String}
    (head : s.head.head = .edge source target label) :
    Treads sites born t (reviseEdge config e s.head source target label s.listed) := by
  have edge : s.head.kind = .edge := Declaration.kind_edge head
  have text : s.head.label? = label := Declaration.label?_edge head
  have recasts : Recasts s.id t (redraw e s.head source target) s.head.mergedProps s.head.mergedMetadata :=
    own ▸ recasts_redraw
  rw [reviseEdge_eq, own]
  refine .andThen (recasts.treads (walks_redraw found (by simp)) known) fun _ u _ _ _ given => ?_
  have there : u.document.IsEdge s.id := by
    obtain ⟨change, keeps, changes, _⟩ := recasts _ _ given
    exact changes.isEdge keeps.toKeepsPlace ⟨e, own ▸ found, isEdge⟩
  cases label with
  | none => exact treads_dropLabels known edge there
  | some label => exact .discard (treads_putLabel known edge text there fun _ _ => Iff.rfl)

/-- The element of a site that is not there yet comes in, and what it needs beside it. -/
theorem treads_create (known : s ∈ sites) {parent : Option Handle} {reference : Option (Bounds α)}
    (older : ∀ h, parent = some h → Older t h) (around : ∀ h, parent = some h → h.id ∈ Site.known sites) :
    Treads sites born t (create config parent reference s.head) := by
  unfold create
  refine .bind .note fun _ u noted => ?_
  have older : ∀ h, parent = some h → Older u h := by
    rw [Edit.gives_note.1 noted]
    exact older
  cases head : s.head.head with
  | node shape name textStyle =>
    refine .document (.andThen (treads_insert (by simp [end?_new_node]) older around) fun _ v consistent younger _ inserted => ?_)
    have found := newcomer consistent (by simp [end?_new_node]) older inserted
    cases parent with
    | none => exact .pure
    | some parent =>
      refine .document ?_
      split
      · exact treads_markLabel found rfl younger
      · exact .pure
  | edge source target label =>
    dsimp only
    refine .bind (.still fun _ _ given => (newEnd_fits ⟨true, false⟩ given).1) fun start v started => ?_
    refine .bind (.still fun _ _ given => (newEnd_fits ⟨true, false⟩ given).1) fun stop w stopped => ?_
    obtain ⟨_, steps, ends⟩ := newEnds_fit ⟨true, false⟩ started stopped
    have older := fun h same => (older h same).steps steps
    refine .andThen (treads_insert ends older around) fun _ x consistent _ _ inserted => ?_
    have found := newcomer consistent ends older inserted
    cases label with
    | none => exact .pure
    | some text =>
      refine .discard (treads_putLabel known (Declaration.kind_edge head) (Declaration.label?_edge head) ⟨_, found, rfl⟩
        fun e own => ?_)
      have bare : x.document.labelsOf s.id = [] := Document.labelsOf_of_childless found rfl
      rw [bare] at own
      cases own

end Reconcile
end LiveDiagram
