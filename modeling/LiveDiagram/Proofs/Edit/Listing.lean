import LiveDiagram.Proofs.Edit.Recording
import LiveDiagram.Proofs.Edit.Sweeping

/-! The order in which edits record elements. A ledger grows at its end only, and a removal records its element first, then
what is below it and the edges that it lets go. -/
namespace LiveDiagram

variable {α : Type}

namespace Ledger
variable {l l' l'' : Ledger α} {id : String} {state : Option (Snapshot α)} {allowed : String → Prop}

/-- The recorded ids, in the order in which they were first recorded. -/
def ids (l : Ledger α) : List String :=
  l.before.map Prod.fst

theorem ids_keep : (l.keep id state).ids = if l.covers id then l.ids else l.ids ++ [id] := by
  unfold keep covers ids
  cases l.tracking <;> cases Assoc.contains l.before id <;> simp

theorem mem_ids (tracking : l.tracking = true) : id ∈ l.ids ↔ l.covers id = true := by
  have missing : l.covers id = false ↔ id ∉ l.ids := not_covers_iff.trans (and_iff_right tracking)
  rw [← not_iff_not, ← missing, Bool.not_eq_true]

theorem mem_ids_keep {x : String} (tracking : l.tracking = true) : x ∈ (l.keep id state).ids ↔ x ∈ l.ids ∨ x = id := by
  rw [ids_keep]
  split
  · next covered =>
    have known : id ∈ l.ids := (mem_ids tracking).2 covered
    exact ⟨.inl, fun either => either.elim (fun old => old) fun same => same ▸ known⟩
  · rw [List.mem_append, List.mem_singleton]

/-- The ledger has grown by elements like these only. -/
def Lists (allowed : String → Prop) (l l' : Ledger α) : Prop :=
  ∃ more, l'.ids = l.ids ++ more ∧ ∀ x ∈ more, allowed x

namespace Lists

theorem refl (l : Ledger α) : Lists allowed l l :=
  ⟨[], by simp⟩

theorem trans (first : Lists allowed l l') (second : Lists allowed l' l'') : Lists allowed l l'' := by
  obtain ⟨more, same, only⟩ := first
  obtain ⟨further, same', only'⟩ := second
  refine ⟨more ++ further, by rw [same', same, List.append_assoc], fun x member => ?_⟩
  exact (List.mem_append.1 member).elim (only x) (only' x)

theorem keep (own : allowed id) : Lists allowed l (l.keep id state) := by
  rw [Lists, ids_keep]
  split
  · exact ⟨[], by simp⟩
  · exact ⟨[id], rfl, by simpa using own⟩

end Lists
end Ledger

namespace Links
variable {links : List Link} {id : String}

/-- A walk keeps what it has seen, in the order in which it was seen. -/
theorem prefix_preorder {fuel : Nat} {waiting seen : List String} : seen.reverse <+: preorder links fuel waiting seen := by
  induction fuel generalizing waiting seen with
  | zero => exact List.prefix_rfl
  | succ fuel ih =>
    cases waiting with
    | nil => exact List.prefix_rfl
    | cons next waiting =>
      simp only [preorder]
      split
      · exact ih
      · refine List.IsPrefix.trans ?_ ih
        rw [List.reverse_cons]
        exact List.prefix_append _ _

theorem exists_subtree_eq_cons : ∃ rest, subtree links id = id :: rest := by
  have first : [id].reverse <+: preorder links links.length (targets links id .child ++ []) [id] := prefix_preorder
  obtain ⟨rest, same⟩ : [id].reverse <+: subtree links id := first
  exact ⟨rest, same.symm⟩

end Links

variable [Coordinate α] {t t' : Transaction α}

theorem Steps.lists {terms : Terms} (steps : Steps terms t t') : Ledger.Lists (fun _ => True) t.ledger t'.ledger := by
  induction steps with
  | refl => exact .refl _
  | tail _ step ih =>
    cases step with
    | record => exact ih.trans (.keep trivial)
    | _ => exact ih

namespace Document
variable {d d' : Document α} {ids : List String} {x n : String}

omit [Coordinate α] in
theorem mem_attachedEdges (consistent : d.Consistent) :
    x ∈ d.attachedEdges n ↔ ∃ relation anchor, d.endOf relation x = some (.connected n anchor) := by
  have arc (relation : Relation) (own : relation ≠ .child) :
      Links.has d.links x relation n = true ↔ ∃ anchor, d.endOf relation x = some (.connected n anchor) :=
    consistent.arc_iff relation own x n (by simp)
  rw [attachedEdges, List.mem_mergeSort, Links.mem_attached, arc .start (by simp), arc .stop (by simp)]
  constructor
  · rintro (⟨anchor, ending⟩ | ⟨anchor, ending⟩)
    · exact ⟨.start, anchor, ending⟩
    · exact ⟨.stop, anchor, ending⟩
  · rintro ⟨relation, anchor, ending⟩
    cases relation with
    | child =>
      obtain ⟨e, _, none⟩ := endOf_eq_some.1 ending
      rw [Element.end?_child] at none
      cases none
    | start => exact .inl ⟨anchor, ending⟩
    | stop => exact .inr ⟨anchor, ending⟩

/-- The second element is an edge with an end at the first one or at something below it. -/
def AttachedBelow (d : Document α) (r x : String) : Prop :=
  ∃ n ∈ d.subtree r, x ∈ d.attachedEdges n

omit [Coordinate α] in
/-- Edges that have let some of their ends go are attached to no other nodes than before. -/
theorem attachedEdges_subset (release : String → Endpoint α → Endpoint α) (consistent : d.Consistent)
    (consistent' : d'.Consistent)
    (lets : ∀ y p anchor, release y p = .connected n anchor → p = .connected n anchor)
    (found : ∀ y e', d'.find? y = some e' → ∃ e, d.find? y = some e ∧
      ∀ relation, e'.end? relation = (e.end? relation).map (release y)) (attached : x ∈ d'.attachedEdges n) :
    x ∈ d.attachedEdges n := by
  obtain ⟨relation, anchor, ending⟩ := (mem_attachedEdges consistent').1 attached
  obtain ⟨e', found', ending⟩ := endOf_eq_some.1 ending
  obtain ⟨e, former, ends⟩ := found x e' found'
  rw [ends, Option.map_eq_some_iff] at ending
  obtain ⟨p, own, released⟩ := ending
  refine (mem_attachedEdges consistent).2 ⟨relation, anchor, endOf_eq_some.2 ⟨e, former, ?_⟩⟩
  rw [own, lets x p anchor released]

theorem Cleared.attachedEdges_subset (cleared : d.Cleared ids d') (consistent : d.Consistent) (consistent' : d'.Consistent)
    (attached : x ∈ d'.attachedEdges n) : x ∈ d.attachedEdges n := by
  refine Document.attachedEdges_subset (fun _ => d.release ids) consistent consistent' (fun _ p anchor released => (release_eq_connected.1 released).1) (fun y e' found => ?_) attached
  rw [cleared] at found
  split at found
  · cases found
  · obtain ⟨e, former, rfl⟩ := Option.map_eq_some_iff.1 found
    exact ⟨e, former, fun _ => Element.end?_mapEnds⟩

end Document

namespace Edit
variable {id : String} {b : Unit} {allowed : String → Prop}

theorem lists_freeEnds {node edge : String} (own : allowed edge) (given : Gives (freeEnds node edge) t b t') :
    Ledger.Lists allowed t.ledger t'.ledger := by
  have moved {u u' : Transaction α} {change : Element α → Element α} {b : Unit}
      (given : Gives (do update edge change; Edit.change (·.connect edge)) u b u') : Ledger.Lists allowed u.ledger u'.ledger := by
    simp only [gives_bind, gives_update, gives_change] at given
    obtain ⟨_, _, ⟨e, _, _, rfl⟩, rfl⟩ := given
    exact .keep own
  simp only [freeEnds, gives_bind, gives_document] at given
  obtain ⟨_, _, ⟨rfl, rfl⟩, given⟩ := given
  split at given
  · obtain ⟨u, first, second⟩ := gives_when.1 given
    have early : Ledger.Lists allowed t.ledger u.ledger := by
      split at first
      · exact moved first
      · exact (gives_pure.1 first).2 ▸ .refl _
    refine early.trans ?_
    split at second
    · exact moved second
    · exact (gives_pure.1 second).2 ▸ .refl _
  · exact (gives_pure.1 given).2 ▸ .refl _

/-- Letting go of nodes records the edges that are attached to them and stay. -/
theorem lists_freeNodes {doomed : List String} {nodes : List (Element α)} (consistent : t.document.Consistent)
    (given : Gives (nodes.forM fun node => do
      let edges := (← document).attachedEdges node.id
      (edges.filter (!doomed.contains ·)).forM (freeEnds node.id)) t b t')
    (attached : ∀ node ∈ nodes, ∀ x ∈ t.document.attachedEdges node.id, allowed x) :
    Ledger.Lists allowed t.ledger t'.ledger := by
  induction nodes generalizing t with
  | nil => exact gives_forM_nil.1 given ▸ .refl _
  | cons node rest ih =>
    obtain ⟨u, first, others⟩ := gives_forM_cons.1 given
    simp only [gives_bind, gives_document] at first
    obtain ⟨_, _, ⟨rfl, rfl⟩, first⟩ := first
    obtain ⟨steps, _, freed⟩ := freeEdges_steps ⟨false, false⟩ consistent first
    have consistent' : u.document.Consistent := consistent.steps steps
    have early : Ledger.Lists allowed t.ledger u.ledger := by
      refine first.forM (fun u => Ledger.Lists allowed t.ledger u.ledger) (.refl _) fun edge member v v' lists given => ?_
      have own := attached node List.mem_cons_self edge (List.mem_filter.1 member).1
      exact lists.trans (lists_freeEnds own given)
    refine early.trans (ih consistent' others fun other member x there => ?_)
    refine attached other (List.mem_cons_of_mem node member) x ?_
    -- An edge with ends let go is attached to fewer nodes than before, and to no other.
    let kept := ((t.document.attachedEdges node.id).filter (!doomed.contains ·))
    refine Document.attachedEdges_subset (fun y => if kept.contains y then t.document.release [node.id] else fun p => p)
      consistent consistent' (fun y p anchor released => ?_) (fun y e' found => ?_) there
    · split at released
      · exact (Document.release_eq_connected.1 released).1
      · exact released
    · rw [freed] at found
      obtain ⟨e, former, rfl⟩ := Option.map_eq_some_iff.1 found
      refine ⟨e, former, fun relation => ?_⟩
      split
      · exact Element.end?_mapEnds
      · exact Option.map_id_apply.symm

/-- What the removal of an element from the top records after that element: what is below it, and the edges that are attached
to something there. -/
theorem lists_remove (consistent : t.document.Consistent) (topmost : t.document.parentOf id = none)
    (given : Gives (remove id) t b t') : ∃ state, Ledger.Lists (fun x => x ∈ t.document.subtree id ∨
      t.document.AttachedBelow id x) (t.ledger.keep id state) t'.ledger := by
  simp only [remove, gives_bind, gives_element, gives_document] at given
  obtain ⟨root, _, ⟨found, rfl⟩, _, _, ⟨rfl, rfl⟩, _, u, recorded, _, v, freed, _, _, ⟨rfl, rfl⟩, given⟩ := given
  have there : ∀ e ∈ (t.document.subtree id).filterMap t.document.find?,
      e.id ∈ t.document.subtree id ∧ t.document.find? e.id = some e := by
    intro e member
    obtain ⟨x, inside, lookup⟩ := List.mem_filterMap.1 member
    obtain rfl := Document.find?_eq_some_id lookup
    exact ⟨inside, lookup⟩
  obtain ⟨_, same⟩ := records_steps ⟨false, false⟩ (fun e member => (there e member).2) recorded
  have named := Document.find?_eq_some_id found
  obtain ⟨rest, head⟩ : ∃ rest, t.document.subtree id = id :: rest := Links.exists_subtree_eq_cons
  have leaving : (t.document.subtree id).filterMap t.document.find? = root :: rest.filterMap t.document.find? := by
    rw [head, List.filterMap_cons, found]
  -- The root comes first in its subtree, so it is recorded before anything else.
  rw [leaving] at recorded there
  obtain ⟨w, first, others⟩ := gives_forM_cons.1 recorded
  obtain ⟨_, rfl⟩ := gives_record.1 first
  refine ⟨some (t.document.snapshot root), ?_⟩
  rw [← named] at there ⊢
  suffices stages : Ledger.Lists _ _ u.ledger ∧ Ledger.Lists _ u.ledger v.ledger ∧ Ledger.Lists _ v.ledger t'.ledger from
    stages.1.trans (stages.2.1.trans stages.2.2)
  refine ⟨?_, ?_, ?_⟩
  · refine others.forM (fun u => Ledger.Lists _ _ u.ledger) (.refl _) fun e member v v' lists given => ?_
    obtain ⟨_, rfl⟩ := gives_record.1 given
    exact lists.trans (.keep (.inl (there e (List.mem_cons_of_mem root member)).1))
  · refine lists_freeNodes (same ▸ consistent) freed fun node member x attached => .inr ⟨node.id, ?_, same ▸ attached⟩
    rw [leaving] at member
    exact (there node (List.mem_filter.1 member).1).1
  · obtain ⟨_, _, after⟩ := freeNodes_steps ⟨false, false⟩ (same ▸ consistent) freed
    have alone : (v.document.find? id).bind Element.parent = none := by
      have own : (t.document.subtree id).contains id = true := List.contains_iff_mem.2 Document.mem_subtree_self
      rw [after, same, found, Option.map_some, if_pos own]
      exact (congrArg (·.bind Element.parent) found).symm.trans topmost
    rw [alone] at given
    simp only [gives_bind, gives_change, gives_note] at given
    obtain ⟨_, x, rfl, _, _, announced, _, _, rfl, rfl⟩ := given
    obtain ⟨rfl, _⟩ := gives_announceRemovals announced
    exact .refl _

end Edit
end LiveDiagram
