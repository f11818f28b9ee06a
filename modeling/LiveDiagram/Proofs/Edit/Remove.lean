import LiveDiagram.Proofs.Document.Release
import LiveDiagram.Proofs.Edit.Primitives

/-! Removing an element: the steps that it takes, and what it leaves. -/
namespace LiveDiagram

variable {α : Type}

theorem Element.setStart_self {e : Element α} {p : Endpoint α} (ending : e.end? .start = some p) :
    e.setStart p = e := by
  rcases e with ⟨_, _, content, _, _, _, _⟩
  cases content <;> cases ending
  rfl

theorem Element.setStop_self {e : Element α} {p : Endpoint α} (ending : e.end? .stop = some p) :
    e.setStop p = e := by
  rcases e with ⟨_, _, content, _, _, _, _⟩
  cases content <;> cases ending
  rfl

namespace Edit

variable [Coordinate α] {t t' : Transaction α} {id : String} {b : Unit} (terms : Terms)

theorem document_rejoin {edge : String} {change : Element α → Element α}
    (given : Gives (do update edge change; Edit.change (·.connect edge)) t b t') :
    t'.document = (t.document.modify edge change).connect edge := by
  simp only [gives_bind, gives_update, gives_change] at given
  obtain ⟨_, u, ⟨e, found, _, rfl⟩, rfl⟩ := given
  rfl

theorem top_rejoin {edge : String} {change : Element α → Element α}
    (given : Gives (do update edge change; Edit.change (·.connect edge)) t b t') :
    t'.document.top = t.document.top := by
  rw [document_rejoin given]
  exact Document.top_connect

theorem find?_rejoin {edge x : String} {change : Element α → Element α} (keeps : Element.KeepsPlace change)
    (given : Gives (do update edge change; Edit.change (·.connect edge)) t b t') :
    t'.document.find? x = if x = edge then (t.document.find? x).map change else t.document.find? x := by
  rw [document_rejoin given, Document.find?_connect, Document.find?_modify keeps.id]

/-- Freeing the start of an edge where it is at a node. -/
theorem freeStart_steps {node edge : String} {start : Endpoint α} (consistent : t.document.Consistent)
    (ends : t.document.endOf .start edge = some start)
    (given : Gives (if start.isAt node then moveStart edge (.free (t.document.positionOf start)) else pure ()) t b t') :
    Steps terms t t' ∧ t'.document.top = t.document.top ∧ ∀ x, t'.document.find? x = (t.document.find? x).map fun e =>
      if x = edge then e.setStart (t.document.release [node] start) else e := by
  rw [Document.release_singleton]
  split at given
  · next connected =>
    refine ⟨moveStart_steps terms consistent Document.fits_free given, top_rejoin given, fun x => ?_⟩
    rw [find?_rejoin Element.keepsPlace_setStart given]
    by_cases own : x = edge <;> simp [own, connected]
  · next apart =>
    obtain ⟨_, rfl⟩ := gives_pure.1 given
    refine ⟨.refl, rfl, Document.find?_idle fun e found => ?_⟩
    rw [if_neg apart]
    exact Element.setStart_self (by simpa only [Document.endOf, found, Option.bind_some] using ends)

/-- Freeing the end of an edge where it is at a node. -/
theorem freeStop_steps {node edge : String} {stop : Endpoint α} {position : Point α}
    (consistent : t.document.Consistent) (ends : t.document.endOf .stop edge = some stop)
    (given : Gives (if stop.isAt node then moveStop edge (.free position) else pure ()) t b t') :
    Steps terms t t' ∧ t'.document.top = t.document.top ∧ ∀ x, t'.document.find? x = (t.document.find? x).map fun e =>
      if x = edge then e.setStop (if stop.isAt node then .free position else stop) else e := by
  split at given
  · next connected =>
    refine ⟨moveStop_steps terms consistent Document.fits_free given, top_rejoin given, fun x => ?_⟩
    rw [find?_rejoin Element.keepsPlace_setStop given]
    by_cases own : x = edge <;> simp [own, connected]
  · next apart =>
    obtain ⟨_, rfl⟩ := gives_pure.1 given
    refine ⟨.refl, rfl, Document.find?_idle fun e found => ?_⟩
    rw [if_neg apart]
    exact Element.setStop_self (by simpa only [Document.endOf, found, Option.bind_some] using ends)

/-- Freeing the ends of an edge at a node lets go exactly these. -/
theorem freeEnds_steps {node edge : String} (consistent : t.document.Consistent)
    (given : Gives (freeEnds node edge) t b t') :
    Steps terms t t' ∧ t'.document.top = t.document.top ∧ ∀ x, t'.document.find? x = (t.document.find? x).map fun e =>
      if x = edge then e.mapEnds (t.document.release [node]) else e := by
  simp only [freeEnds, gives_bind, gives_document] at given
  obtain ⟨_, _, ⟨rfl, rfl⟩, given⟩ := given
  cases found : t.document.find? edge with
  | none =>
    simp only [found, Option.map_none, gives_pure, true_and] at given
    subst given
    exact ⟨.refl, rfl, Document.find?_idle (by simp [found])⟩
  | some e =>
    rcases e with ⟨name, birth, content, props, metadata, parent, children⟩
    cases content with
    | node content =>
      simp only [found, Option.map_some, gives_pure, true_and] at given
      subst given
      refine ⟨.refl, rfl, Document.find?_idle ?_⟩
      rintro e same
      cases found.symm.trans same
      rfl
    | edge start stop =>
      simp only [found, Option.map_some] at given
      obtain ⟨u, first, second⟩ := gives_when.1 given
      have starts : t.document.endOf .start edge = some start := Document.endOf_eq_some.2 ⟨_, found, rfl⟩
      obtain ⟨early, topmost, between⟩ := freeStart_steps terms consistent starts first
      have stops : u.document.endOf .stop edge = some stop := by
        simp [Document.endOf_eq_some, between edge, found, Element.setStart, Element.end?]
      obtain ⟨late, topmost', after⟩ := freeStop_steps terms (consistent.steps early) stops second
      refine ⟨early.trans late, topmost'.trans topmost, fun x => ?_⟩
      rw [after, between]
      by_cases own : x = edge
      · simp [own, found, Element.mapEnds, Element.setStart, Element.setStop, Document.release_singleton]
      · simp [own]

omit [Coordinate α] in
theorem boxOf_of_mapEnds {d d' : Document α} {release : Endpoint α → Endpoint α} (freed : String → Bool)
    (after : ∀ x, d'.find? x = (d.find? x).map fun e => if freed x then e.mapEnds release else e) (node : String) :
    d'.boxOf node = d.boxOf node := by
  unfold Document.boxOf
  rw [after]
  cases d.find? node with
  | none => rfl
  | some e => by_cases own : freed node = true <;> simp [own, Element.box?_mapEnds]

/-- Freeing the ends of several edges at a node. -/
theorem freeEdges_steps {node : String} {edges : List String} (consistent : t.document.Consistent)
    (given : Gives (edges.forM (freeEnds node)) t b t') :
    Steps terms t t' ∧ t'.document.top = t.document.top ∧ ∀ x, t'.document.find? x = (t.document.find? x).map fun e =>
      if edges.contains x then e.mapEnds (t.document.release [node]) else e := by
  induction edges generalizing t with
  | nil =>
    obtain rfl := gives_forM_nil.1 given
    exact ⟨.refl, rfl, fun x => by simp⟩
  | cons edge rest ih =>
    obtain ⟨u, first, others⟩ := gives_forM_cons.1 given
    obtain ⟨early, topmost, between⟩ := freeEnds_steps terms consistent first
    obtain ⟨late, topmost', after⟩ := ih (consistent.steps early) others
    have still : u.document.release [node] = t.document.release [node] := by
      apply Document.release_congr
      exact boxOf_of_mapEnds (fun x => x = edge) (by simpa using between)
    have twice : t.document.release [node, node] = t.document.release [node] :=
      Document.release_congr_mem (by simp)
    refine ⟨early.trans late, topmost'.trans topmost, fun x => ?_⟩
    rw [after, between, still, Option.map_map]
    congr 1
    funext e
    by_cases own : x = edge
    · subst own
      by_cases member : x ∈ rest <;>
        simp [member, Element.mapEnds_mapEnds, Function.comp_def, Document.release_release, twice]
    · by_cases member : x ∈ rest <;> simp [own, member]

/-- An edge that is not attached to a node has no end to let go there. -/
theorem mapEnds_release_of_not_attached {d : Document α} {x node : String} {e : Element α}
    (consistent : d.Consistent) (found : d.find? x = some e) (apart : x ∉ d.attachedEdges node) :
    e.mapEnds (d.release [node]) = e := by
  apply Element.mapEnds_self
  intro relation p ending
  apply Document.release_of_not_mem
  rintro other anchor rfl inside
  rw [List.mem_singleton] at inside
  subst inside
  have arc : relation ≠ .child := by
    rintro rfl
    simp [Element.end?_child] at ending
  have drawn : Links.has d.links x relation other = true :=
    (consistent.arc_iff relation arc x other (by simp)).2 ⟨anchor, Document.endOf_eq_some.2 ⟨e, found, ending⟩⟩
  apply apart
  rw [Document.attachedEdges, List.mem_mergeSort, Links.mem_attached]
  cases relation with
  | child => exact (arc rfl).elim
  | start => exact .inl drawn
  | stop => exact .inr drawn

/-- Freeing all ends of the edges that stay at nodes that leave. -/
theorem freeNodes_steps {doomed : List String} {nodes : List (Element α)} (consistent : t.document.Consistent)
    (given : Gives (nodes.forM fun node => do
      let edges := (← document).attachedEdges node.id
      (edges.filter (!doomed.contains ·)).forM (freeEnds node.id)) t b t') :
    Steps terms t t' ∧ t'.document.top = t.document.top ∧ ∀ x, t'.document.find? x = (t.document.find? x).map fun e =>
      if doomed.contains x then e else e.mapEnds (t.document.release (nodes.map Element.id)) := by
  induction nodes generalizing t with
  | nil =>
    obtain rfl := gives_forM_nil.1 given
    refine ⟨.refl, rfl, fun x => ?_⟩
    have idle : t.document.release [] = id := by
      funext p
      cases p <;> rfl
    have same (e : Element α) : e.mapEnds (t.document.release []) = e := by
      rw [idle]
      exact Element.mapEnds_self fun _ _ _ => rfl
    simp [same]
  | cons node rest ih =>
    obtain ⟨u, first, others⟩ := gives_forM_cons.1 given
    simp only [gives_bind, gives_document] at first
    obtain ⟨_, _, ⟨rfl, rfl⟩, first⟩ := first
    obtain ⟨early, topmost, between⟩ := freeEdges_steps terms consistent first
    obtain ⟨late, topmost', after⟩ := ih (consistent.steps early) others
    -- Freeing ends moves no box, so that the ends at the other nodes are let go where they are now.
    have still (ids : List String) : u.document.release ids = t.document.release ids :=
      Document.release_congr (boxOf_of_mapEnds _ between)
    have both (e : Element α) : e.mapEnds (t.document.release (node.id :: rest.map Element.id)) =
        (e.mapEnds (t.document.release [node.id])).mapEnds (t.document.release (rest.map Element.id)) := by
      rw [Element.mapEnds_mapEnds]
      congr 1
      funext p
      rw [Function.comp_apply, Document.release_release]
      exact congrFun (Document.release_congr_mem (by simp [or_comm])) p
    refine ⟨early.trans late, topmost'.trans topmost, fun x => ?_⟩
    rw [after, between, still, List.map_cons]
    cases found : t.document.find? x with
    | none => rfl
    | some e =>
      by_cases leaves : x ∈ doomed
      · simp [leaves]
      · by_cases attached : x ∈ t.document.attachedEdges node.id
        · simp [leaves, attached, both]
        · simp [leaves, attached, both, mapEnds_release_of_not_attached consistent found attached]

omit [Coordinate α] in
theorem gives_announceRemovals {leaving : List (Element α)} (given : Gives (leaving.forM announceRemoval) t b t') :
    t = t' ∧ ∀ e ∈ leaving, t.ledger.covers e.id = true := by
  induction leaving generalizing t with
  | nil => exact ⟨gives_forM_nil.1 given, by simp⟩
  | cons e rest ih =>
    obtain ⟨u, first, others⟩ := gives_forM_cons.1 given
    obtain ⟨_, covered, rfl⟩ := gives_requireCovered.1 first
    obtain ⟨rfl, all⟩ := ih others
    exact ⟨rfl, by simpa using ⟨covered, all⟩⟩

theorem records_steps {leaving : List (Element α)}
    (there : ∀ e ∈ leaving, t.document.find? e.id = some e) (given : Gives (leaving.forM record) t b t') :
    Steps terms t t' ∧ t'.document = t.document := by
  refine given.forM (fun u => Steps terms t u ∧ u.document = t.document) ⟨.refl, rfl⟩ ?_
  rintro e member u u' ⟨steps, same⟩ recorded
  obtain ⟨_, rfl⟩ := gives_record.1 recorded
  rw [← Document.state?_of_find? (same ▸ there e member)]
  exact ⟨.tail steps (.record u e.id), same⟩

/-- Ends at nodes of a subtree and ends in the subtree are the same to a document in which all ends fit. -/
theorem find?_freed {d d' : Document α} (consistent : d.Consistent)
    (freed : ∀ x, d'.find? x = (d.find? x).map fun e =>
      if (d.subtree id).contains x then e
      else e.mapEnds (d.release ((((d.subtree id).filterMap d.find?).filter Element.isNode).map Element.id))) (x : String) :
    d'.find? x = (d.find? x).map fun e =>
      if x ∈ d.subtree id then e else e.mapEnds (d.release (d.subtree id)) := by
  rw [freed]
  cases found : d.find? x with
  | none => rfl
  | some e =>
    by_cases inside : x ∈ d.subtree id
    · simp [inside]
    · simp only [Option.map_some, List.contains_iff_mem, inside, if_false, Option.some.injEq]
      apply Element.mapEnds_congr
      intro relation p ending
      have fits := consistent.end_fits relation x p (Document.endOf_eq_some.2 ⟨e, found, ending⟩)
      cases p with
      | free position => rfl
      | stranded => exact fits.elim
      | connected node anchor =>
        have there : (d.node? node).isSome = true := fits
        rw [Document.isSome_node?, Option.any_eq_true] at there
        obtain ⟨n, lookup, isNode⟩ := there
        have named := Document.find?_eq_some_id lookup
        have member : node ∈ (((d.subtree id).filterMap d.find?).filter Element.isNode).map Element.id ↔
            node ∈ d.subtree id := by
          simp only [List.mem_map, List.mem_filter, List.mem_filterMap]
          constructor
          · rintro ⟨m, ⟨⟨y, inner, lookup'⟩, _⟩, rfl⟩
            exact Document.find?_eq_some_id lookup' ▸ inner
          · intro inner
            exact ⟨n, ⟨⟨node, inner, lookup⟩, isNode⟩, named⟩
        simp only [Document.release, member]

/-- The document in which all ends at a subtree are free, and nothing else has changed. -/
def Freed (d : Document α) (id : String) (d' : Document α) : Prop :=
  ∀ x, d'.find? x = (d.find? x).map fun e =>
    if x ∈ d.subtree id then e else e.mapEnds (d.release (d.subtree id))

namespace Freed
variable {d d' : Document α}

theorem parentOf (freed : Freed d id d') (x : String) : d'.parentOf x = d.parentOf x := by
  unfold Document.parentOf
  rw [freed]
  cases d.find? x with
  | none => rfl
  | some e => by_cases inside : x ∈ d.subtree id <;> simp [inside, Element.parent_mapEnds]

theorem contains (freed : Freed d id d') (x : String) : d'.contains x = d.contains x := by
  unfold Document.contains
  rw [freed, Option.isSome_map]

theorem mem_subtree (freed : Freed d id d') (consistent : d.Consistent) (consistent' : d'.Consistent) {x : String} :
    x ∈ d'.subtree id ↔ x ∈ d.subtree id :=
  Document.mem_subtree_congr consistent consistent' freed.parentOf

theorem loose (freed : Freed d id d') (consistent : d.Consistent) (consistent' : d'.Consistent) : d'.Loose id := by
  intro relation edge node anchor outside ending
  rw [freed.mem_subtree consistent consistent'] at outside ⊢
  obtain ⟨e, lookup, ending⟩ := Document.endOf_eq_some.1 ending
  rw [freed, Option.map_eq_some_iff] at lookup
  obtain ⟨e, _, rfl⟩ := lookup
  simp only [outside, if_false, Element.end?_mapEnds, Option.map_eq_some_iff] at ending
  obtain ⟨p, _, released⟩ := ending
  exact (Document.release_eq_connected.1 released).2

/-- Once the subtree is out, those that stay are bereft of it. -/
theorem cleared (freed : Freed d id d') (consistent : d.Consistent) (consistent' : d'.Consistent) :
    d.Cleared (d.subtree id) (d'.expel id) := by
  intro x
  rw [Document.find?_expel (freed.loose consistent consistent'), freed.parentOf, freed]
  simp only [freed.mem_subtree consistent consistent']
  by_cases leaves : x ∈ d.subtree id
  · simp [leaves]
  · cases found : d.find? x with
    | none => simp
    | some e =>
      have children : (if d.parentOf id = some x then e.children.filter (· ≠ id) else e.children) =
          e.children.filter (!(d.subtree id).contains ·) :=
        Document.children_outside consistent leaves found
      simp only [leaves, if_false, Option.map_some, Document.bereft, Element.children_mapEnds, ← children]

/-- The subtree can go in one step where all of it and what is around it are recorded. -/
theorem expel_step {w : Transaction α} (freed : Freed d id w.document) (consistent : d.Consistent)
    (consistent' : w.document.Consistent) (present : d.contains id = true)
    (covered : ∀ e ∈ (d.subtree id).filterMap d.find?, w.ledger.covers e.id = true)
    (around : ∀ holder, d.parentOf id = some holder → w.ledger.covers holder = true) :
    Step terms w { w with document := w.document.expel id } := by
  refine .expel w id ((freed.contains id).trans present) (freed.loose consistent consistent') ?_ ?_
  · intro x inside
    rw [freed.mem_subtree consistent consistent'] at inside
    obtain ⟨e, lookup⟩ := Document.contains_iff_find?.1 (Document.contains_of_mem_subtree consistent present inside)
    exact Document.find?_eq_some_id lookup ▸ covered e (List.mem_filterMap.2 ⟨x, inside, lookup⟩)
  · intro holder nested
    rw [freed.parentOf] at nested
    exact around holder nested

end Freed

/-- Removing an element takes it and all below it out of the document, and leaves the others bereft of them. -/
theorem remove_steps (consistent : t.document.Consistent) (given : Gives (remove id) t b t') :
    t.document.contains id = true ∧ Steps terms t t' ∧
      t.document.Cleared (t.document.subtree id) t'.document ∧
      t'.document.top = (if t.document.parentOf id = none then t.document.top.erase id else t.document.top) := by
  simp only [remove, gives_bind, gives_element, gives_document] at given
  obtain ⟨root, _, ⟨found, rfl⟩, _, _, ⟨rfl, rfl⟩, _, u, recorded, _, v, freed, _, _, ⟨rfl, rfl⟩, given⟩ := given
  have present : t.document.contains id = true := Document.contains_of_find? found
  have there : ∀ e ∈ (t.document.subtree id).filterMap t.document.find?, t.document.find? e.id = some e := by
    intro e member
    obtain ⟨x, _, lookup⟩ := List.mem_filterMap.1 member
    exact Document.find?_eq_some_id lookup ▸ lookup
  obtain ⟨records, same⟩ := records_steps terms there recorded
  obtain ⟨frees, topmost, freed⟩ := freeNodes_steps terms (same ▸ consistent) freed
  rw [same] at topmost freed
  have after : Freed t.document id v.document := find?_freed consistent freed
  have consistent' : v.document.Consistent := consistent.steps (records.trans frees)
  have expelled : (v.document.detach id).unregister (t.document.subtree id) = v.document.expel id :=
    Document.unregister_congr fun x => (after.mem_subtree consistent consistent').symm
  have gone : (v.document.expel id).top =
      if t.document.parentOf id = none then t.document.top.erase id else t.document.top := by
    rw [Document.top_expel, after.parentOf, topmost]
  refine ⟨present, ?_⟩
  have former : (v.document.find? id).bind Element.parent = t.document.parentOf id := after.parentOf id
  -- With an element around it, that one is recorded first; the subtree goes in the same step either way.
  obtain nested | ⟨parent, nested⟩ := Option.eq_none_or_eq_some (t.document.parentOf id)
  · rw [former, nested] at given
    simp only [gives_bind, gives_change, gives_note] at given
    obtain ⟨_, w, rfl, _, _, announced, _, _, rfl, rfl⟩ := given
    obtain ⟨rfl, covered⟩ := gives_announceRemovals announced
    simp only [expelled]
    have expel : Step terms v { v with document := v.document.expel id } :=
      after.expel_step terms consistent consistent' present covered (by simp [nested])
    exact ⟨((records.trans frees).tail expel).tail (.say _ _), after.cleared consistent consistent', gone⟩
  · rw [former, nested] at given
    simp only [gives_bind, gives_element, gives_change, gives_note] at given
    obtain ⟨p, _, ⟨lookup, rfl⟩, _, w, touched, _, _, rfl, _, _, announced, _, _, rfl, rfl⟩ := given
    have named := Document.find?_eq_some_id lookup
    obtain ⟨touch, still, held⟩ := step_touch terms touched (named ▸ lookup)
    obtain ⟨rfl, covered⟩ := gives_announceRemovals announced
    simp only [still, expelled]
    have around (holder : String) (same : t.document.parentOf id = some holder) : w.ledger.covers holder = true := by
      cases nested.symm.trans same
      exact named ▸ held
    have expel : Step terms w { w with document := w.document.expel id } :=
      Freed.expel_step terms (still.symm ▸ after) consistent (still.symm ▸ consistent') present covered around
    exact ⟨(((records.trans frees).tail touch).tail (still ▸ expel)).tail (.say _ _),
      after.cleared consistent consistent', gone⟩

end Edit
end LiveDiagram
