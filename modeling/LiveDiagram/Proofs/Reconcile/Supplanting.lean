import LiveDiagram.Proofs.Document.Outliving
import LiveDiagram.Proofs.Document.Unfolding
import LiveDiagram.Proofs.Edit.Sweeping
import LiveDiagram.Proofs.Reconcile.Frame

/-! The labels of an edge around a text that is put on it. A lone label that is not to be kept is changed in its place, or
all of them leave and a new one comes in. Either way the labels to be kept stay as they are, and so does all else. -/
namespace LiveDiagram

variable {α : Type}

namespace Document
variable {d d' u : Document α} {edge x : String} {keep : List String} {e l : Element α}

/-- The labels of an edge that are not to be kept. -/
def unlisted (d : Document α) (edge : String) (keep : List String) : List (Element α) :=
  (d.labelsOf edge).filter (!keep.contains ·.id)

/-- The labels of an edge that are to be kept. -/
def listed (d : Document α) (edge : String) (keep : List String) : List (Element α) :=
  (d.labelsOf edge).filter (keep.contains ·.id)

/-- An element that leaves when a text is put on an edge: it is within one of several labels that are not to be kept. -/
def Supplanted (d : Document α) (edge : String) (keep : List String) (x : String) : Prop :=
  1 < (d.unlisted edge keep).length ∧ ∃ l ∈ d.unlisted edge keep, d.Within x l.id

/-- The place of an edge in a forest that lists the given ids below it. -/
def siteOf (edge : String) (keep : List String) : Site :=
  ⟨none, ⟨edge, 0, .edge none none none, none, none, none⟩, keep⟩

theorem unlisted_eq : d.unlisted edge keep = d.inlineLabels (siteOf edge keep) := rfl

theorem mem_unlisted (consistent : d.Consistent) : l ∈ d.unlisted edge keep ↔
    d.find? l.id = some l ∧ l.isLabelled = true ∧ l.parent = some edge ∧ l.id ∉ keep :=
  mem_inlineLabels (s := siteOf edge keep) consistent

theorem parentOf_unlisted (consistent : d.Consistent) (member : l ∈ d.unlisted edge keep) : d.parentOf l.id = some edge := by
  obtain ⟨found, _, parent, _⟩ := (mem_unlisted consistent).1 member
  exact parentOf_eq_some.2 ⟨l, found, parent⟩

theorem mem_listed (consistent : d.Consistent) : l ∈ d.listed edge keep ↔
    d.find? l.id = some l ∧ l.isLabelled = true ∧ l.parent = some edge ∧ l.id ∈ keep := by
  rw [listed, List.mem_filter, mem_labelsOf consistent, List.contains_iff_mem, and_assoc, and_assoc]

theorem nodup_unlisted (consistent : d.Consistent) : ((d.unlisted edge keep).map Element.id).Nodup :=
  nodup_inlineLabels (s := siteOf edge keep) consistent

/-- A change inside a label of another element changes it in its place among the labels. -/
theorem labelsOf_modify {change : Element α → Element α} (keeps : Element.KeepsBuild change) (outer : edge ≠ x) :
    (d.modify x change).labelsOf edge = (d.labelsOf edge).map fun e => if e.id = x then change e else e := by
  have each (c : String) : (d.modify x change).find? c = (d.find? c).map fun e => if e.id = x then change e else e := by
    rw [find?_modify keeps.id]
    cases there : d.find? c with
    | none => simp
    | some e =>
      cases find?_eq_some_id there
      split <;> simp [*]
  rw [labelsOf, labelsOf, childrenOf, childrenOf, find?_modify keeps.id, if_neg outer, List.filterMap_congr fun c _ => each c,
    ← List.map_filterMap, List.filter_map]
  refine congrArg (List.map _) (List.filter_congr fun e _ => ?_)
  rw [Function.comp_apply]
  split
  · exact keeps.labelled e
  · rfl

theorem filter_labelsOf_modify {change : Element α → Element α} (keeps : Element.KeepsBuild change) (outer : edge ≠ x)
    (select : String → Bool) : ((d.modify x change).labelsOf edge).filter (select ·.id) =
      ((d.labelsOf edge).filter (select ·.id)).map fun e => if e.id = x then change e else e := by
  rw [labelsOf_modify keeps outer, List.filter_map]
  refine congrArg (List.map _) (List.filter_congr fun e _ => ?_)
  rw [Function.comp_apply]
  split
  · rw [keeps.id]
  · rfl

/-! What leaves with the labels -/

section
variable {ids : List String} {c : String}

theorem Swept.mem_iff [Coordinate α] (swept : d.Swept ((d.unlisted edge keep).map Element.id) ids u)
    (consistent : d.Consistent) : x ∈ ids ↔ ∃ l ∈ d.unlisted edge keep, d.Within x l.id := by
  rw [swept.below]
  simp only [List.mem_map, exists_exists_and_eq_and, mem_subtree_iff_within consistent]

variable [Coordinate α] (swept : d.Swept ((d.unlisted edge keep).map Element.id) ids u) (consistent : d.Consistent)
  (acyclic : d.Acyclic)

include swept consistent acyclic

omit acyclic in
/-- Unless it is a lone label that is left out, what is swept away is what the text supplants. -/
theorem Swept.mem_iff_supplanted (others : ∀ l, d.unlisted edge keep ≠ [l]) : x ∈ ids ↔ d.Supplanted edge keep x := by
  rw [swept.mem_iff consistent, Supplanted]
  refine ⟨fun inside => ⟨?_, inside⟩, And.right⟩
  obtain ⟨l, label, _⟩ := inside
  rcases labels : d.unlisted edge keep with _ | ⟨first, _ | ⟨second, rest⟩⟩
  · rw [labels] at label
    cases label
  · exact (others first labels).elim
  · simp

/-- The edge is not within its labels. -/
theorem Swept.edge_stays : edge ∉ ids := by
  intro leaves
  obtain ⟨l, label, within⟩ := (swept.mem_iff consistent).1 leaves
  exact acyclic l.id edge (parentOf_unlisted consistent label) within

/-- Of the children of the edge no more than the labels leave. -/
theorem Swept.of_child (child : d.parentOf c = some edge) (leaves : c ∈ ids) : ∃ l ∈ d.unlisted edge keep, l.id = c := by
  obtain ⟨l, label, within⟩ := (swept.mem_iff consistent).1 leaves
  exact ⟨l, label, acyclic.eq_of_within ((parentOf_unlisted consistent label).trans child.symm) within .refl⟩

omit acyclic in
/-- Any other element that stays keeps its children. -/
theorem Swept.child_stays (stays : x ∉ ids) (other : x ≠ edge) (child : d.parentOf c = some x) : c ∉ ids := by
  intro leaves
  obtain ⟨l, label, within⟩ := (swept.mem_iff consistent).1 leaves
  rcases Relation.ReflTransGen.cases_head within with same | ⟨holder, nested, within⟩
  · rw [same, parentOf_unlisted consistent label] at child
    exact other (Option.some.inj child).symm
  · cases nested.symm.trans child
    exact stays ((swept.mem_iff consistent).2 ⟨l, label, within⟩)

/-- A label that is to be kept is as it was. -/
theorem Swept.bereft_listed (label : l ∈ d.listed edge keep) : l.id ∉ ids ∧ d.bereft ids l = l := by
  obtain ⟨found, labelled, parent, kept⟩ := (mem_listed consistent).1 label
  have nested : d.parentOf l.id = some edge := parentOf_eq_some.2 ⟨l, found, parent⟩
  have stays : l.id ∉ ids := by
    intro leaves
    obtain ⟨other, unlisted, same⟩ := swept.of_child consistent acyclic nested leaves
    exact ((mem_unlisted consistent).1 unlisted).2.2.2 (same ▸ kept)
  have inner : l.id ≠ edge := fun same => acyclic l.id edge nested (same ▸ .refl)
  refine ⟨stays, bereft_eq (fun relation node anchor ending => ?_) fun child member => ?_⟩
  · rw [Element.end?_of_isLabelled labelled] at ending
    cases ending
  · exact swept.child_stays consistent stays inner (parentOf_of_mem_children consistent found member)

end

end Document

variable [Coordinate α]

/-- A new label of an edge has come in where elements have left. -/
structure Document.Renewed (d d' : Document α) (edge : String) (ids : List String) (n : Element α) : Prop where
  unused : d.contains n.id = false
  parent : n.parent = some edge
  labelled : n.isLabelled = true
  find? : ∀ x, d'.find? x = if x = n.id then some n else if x ∈ ids then none else (d.find? x).map fun p =>
    { d.bereft ids p with children := (d.bereft ids p).children ++ if x = edge then [n.id] else [] }

namespace Document
variable {d d' u : Document α} {edge x : String} {ids keep : List String} {e l n : Element α}

namespace Renewed
variable (renewed : d.Renewed d' edge ids n)

include renewed

theorem ne_of_find? (found : d.find? x = some e) : x ≠ n.id := by
  rintro rfl
  rw [not_contains_iff.1 renewed.unused] at found
  cases found

theorem find?_of_stays (found : d.find? x = some e) (stays : x ∉ ids) : d'.find? x = some
    { d.bereft ids e with children := (d.bereft ids e).children ++ if x = edge then [n.id] else [] } := by
  rw [renewed.find?, if_neg (renewed.ne_of_find? found), if_neg stays, found]
  rfl

theorem contains : d'.contains x = true ↔ d.contains x = true ∧ x ∉ ids ∨ x = n.id := by
  rw [Document.contains, renewed.find?, Document.contains]
  by_cases own : x = n.id <;> by_cases leaves : x ∈ ids <;> simp [own, leaves]

theorem boxOf (there : d.contains x = true) (stays : x ∉ ids) : d'.boxOf x = d.boxOf x := by
  obtain ⟨e, found⟩ := contains_iff_find?.1 there
  rw [Document.boxOf, Document.boxOf, renewed.find?_of_stays found stays, found]
  exact box?_bereft e

theorem outlives (consistent : d.Consistent) (found : d.find? x = some e) (children : List String) :
    d.Outlives d' (· ∈ ids) e { d.bereft ids e with children := children } :=
  outlives_bereft consistent found children fun _ there stays => renewed.boxOf there stays

/-- The labels to be kept stay in their order, and the new one comes after them. -/
theorem labelsOf (swept : d.Swept ((d.unlisted edge keep).map Element.id) ids u) (consistent : d.Consistent)
    (acyclic : d.Acyclic) (found : d.find? edge = some e) : d'.labelsOf edge = d.listed edge keep ++ [n] := by
  have stays : edge ∉ ids := swept.edge_stays consistent acyclic
  have itself : d'.find? n.id = some n := (renewed.find? n.id).trans (if_pos rfl)
  have last : ([n].filter Element.isLabelled) = [n] := List.filter_eq_self.2 (by simp [renewed.labelled])
  rw [Document.labelsOf, childrenOf, renewed.find?_of_stays found stays, Option.elim_some, if_pos rfl,
    List.filterMap_append, List.filter_append, List.filterMap_cons_some itself, List.filterMap_nil, last]
  refine congrArg (· ++ [n]) ?_
  rw [listed, Document.labelsOf, childrenOf, found, Option.elim_some, bereft, List.filterMap_filter, List.filter_filterMap,
    List.filter_filterMap, List.filter_filterMap]
  refine List.filterMap_congr fun c member => ?_
  have nested : d.parentOf c = some edge := parentOf_of_mem_children consistent found member
  obtain ⟨q, there, parent⟩ := parentOf_eq_some.1 nested
  obtain rfl := find?_eq_some_id there
  by_cases leaves : q.id ∈ ids
  · obtain ⟨other, label, same⟩ := swept.of_child consistent acyclic nested leaves
    have gone : q.id ∉ keep := same ▸ ((mem_unlisted consistent).1 label).2.2.2
    cases labelled : q.isLabelled <;> simp [there, leaves, gone, labelled, Option.filter_some]
  · have inner : q.id ≠ edge := fun same => acyclic q.id edge nested (same ▸ .refl)
    have after := renewed.find?_of_stays there leaves
    rw [if_neg inner, List.append_nil] at after
    by_cases labelled : q.isLabelled = true
    · have kept : q.id ∈ keep := by
        by_contra left
        have label : q ∈ d.unlisted edge keep := (mem_unlisted consistent).2 ⟨there, labelled, parent, left⟩
        exact leaves ((swept.mem_iff consistent).2 ⟨q, label, .refl⟩)
      have label : q ∈ d.listed edge keep := (mem_listed consistent).2 ⟨there, labelled, parent, kept⟩
      have still : d.bereft ids q = q := (swept.bereft_listed consistent acyclic label).2
      rw [still] at after
      simp [there, after, leaves, labelled, kept, Option.filter_some]
    · have unlabelled : (d.bereft ids q).isLabelled = false := by
        rw [isLabelled_bereft, Bool.eq_false_iff]
        exact labelled
      simp [there, after, leaves, labelled, unlabelled, Option.filter_some]

end Renewed
end Document

namespace Document
variable {d d' u : Document α} {edge name : String} {ids : List String} {content : NodeContent α} {label : LabelPlacement α}

/-- A node that comes in and is marked as a label where elements have left. -/
theorem Cleared.renewed (cleared : d.Cleared ids u) (unused : d.contains name = false) (holder : u.contains edge = true)
    (document : d' = (u.enter (.new name (.node content) .nil .nil) (some edge)).modify name
      (Element.mapNode fun content => { content with label := some label })) :
    ∃ n, n.id = name ∧ n.content = .node { content with label := some label } ∧ d.Renewed d' edge ids n := by
  have absent : u.contains name = false := by
    rw [← Bool.not_eq_true, cleared.contains, unused]
    simp
  have held : ∀ p, some edge = some p → u.contains p = true := by
    rintro _ ⟨⟩
    exact holder
  refine ⟨{ Element.new name (.node { content with label := some label }) .nil .nil with
    birth := u.births, parent := some edge }, rfl, rfl, unused, rfl, rfl, fun x => ?_⟩
  have entered := find?_enter (x := x) (e := .new name (.node content) .nil .nil) absent rfl rfl held
  change _ = if x = name then _ else _ at entered
  change _ = if x = name then _ else _
  rw [document, find?_modify Element.keepsPlace_mapNode.id, entered]
  by_cases own : x = name
  · rw [if_pos own, if_pos own, if_pos own]
    rfl
  · rw [if_neg own, if_neg own, if_neg own, cleared x]
    by_cases leaves : x ∈ ids
    · rw [if_pos leaves, if_pos leaves, Option.map_none]
    · rw [if_neg leaves, if_neg leaves, Option.map_map]
      refine congrArg (Option.map · (d.find? x)) (funext fun p => ?_)
      simp only [Function.comp_apply, Option.some.injEq, @eq_comm _ x edge]
      rfl

end Document

/-- A text is on an edge, and `m` is the label that carries it. -/
structure Document.Upserted (d d' : Document α) (edge text : String) (keep : List String) (m : Element α) : Prop where
  found : d'.find? m.id = some m
  parent : m.parent = some edge
  written : ∃ content, m.content = .node content ∧ content.text = text
  unlisted : d'.unlisted edge keep = [m]
  listed : d'.listed edge keep = d.listed edge keep
  states : ∀ l ∈ d.listed edge keep, d'.state? l.id = d.state? l.id
  lone : ∀ l, d.unlisted edge keep = [l] → m.id = l.id ∧ d' = d.modify l.id (Element.retext (some text))
  fresh : (∀ l, d.unlisted edge keep ≠ [l]) → d.contains m.id = false ∧
    d'.childIds edge = (d.childIds edge).filter (!((d.unlisted edge keep).map Element.id).contains ·) ++ [m.id]
  contains : ∀ x, d'.contains x = true ↔ d.contains x = true ∧ ¬d.Supplanted edge keep x ∨ x = m.id
  others : ∀ x e, d.find? x = some e → ¬d.Supplanted edge keep x → x ≠ m.id → ∃ e', d'.find? x = some e' ∧
    d.Outlives d' (d.Supplanted edge keep) e e' ∧ (x ≠ edge → e'.children = e.children) ∧
    (x ≠ edge → (∀ relation node anchor, e.end? relation = some (.connected node anchor) → ¬d.Supplanted edge keep node) →
      d'.state? x = d.state? x)

namespace Document
variable {d d' u : Document α} {edge text x : String} {ids keep : List String} {e l n : Element α}

/-- The state of a label is its own. -/
theorem state?_of_listed (same : d'.listed edge keep = d.listed edge keep) (label : l ∈ d.listed edge keep) :
    d'.state? l.id = d.state? l.id := by
  have found {d : Document α} (label : l ∈ d.listed edge keep) : d.find? l.id = some l :=
    (mem_childrenOf (List.mem_filter.1 (List.mem_filter.1 label).1).1).2
  have labelled : l.isLabelled = true := (List.mem_filter.1 (List.mem_filter.1 label).1).2
  rw [state?_of_find? (found (same ▸ label)), state?_of_find? (found label)]
  refine congrArg some (snapshot_congr fun relation node anchor ending => ?_)
  rw [Element.end?_of_isLabelled labelled] at ending
  cases ending

/-- A lone label is given its text. -/
theorem upserted_of_lone (consistent : d.Consistent) (acyclic : d.Acyclic) (lone : d.unlisted edge keep = [l])
    (document : d' = d.modify l.id (Element.retext (some text))) : d.Upserted d' edge text keep (l.retext (some text)) := by
  obtain ⟨there, labelled, parent, left⟩ := (mem_unlisted consistent).1 (lone ▸ List.mem_singleton.2 rfl)
  have nested : d.parentOf l.id = some edge := parentOf_eq_some.2 ⟨l, there, parent⟩
  have outer : edge ≠ l.id := fun same => acyclic l.id edge nested (same ▸ .refl)
  have keeps : Element.KeepsBuild (Element.retext (α := α) (some text)) := Element.keepsBuild_retext
  have own : (l.retext (some text)).id = l.id := keeps.id l
  have after (x : String) : d'.find? x = if x = l.id then (d.find? x).map (Element.retext (some text)) else d.find? x := by
    rw [document, find?_modify keeps.id]
  have stays (x : String) : ¬d.Supplanted edge keep x := fun supplanted => by simp [Supplanted, lone] at supplanted
  have listed : d'.listed edge keep = d.listed edge keep := by
    rw [Document.listed, document, filter_labelsOf_modify keeps outer (keep.contains ·)]
    refine (List.map_congr_left fun e label => if_neg ?_).trans (List.map_id _)
    rintro same
    exact left (same ▸ ((mem_listed consistent).1 label).2.2.2)
  refine ⟨?_, (keeps.parent l).trans parent, ?_, ?_, listed, fun l => state?_of_listed listed, ?_,
    fun others => (others l lone).elim, fun x => ?_, fun x e found _ other => ?_⟩
  · rw [own, after, if_pos rfl, there]
    rfl
  · obtain ⟨_, _, content, _, _, _, _⟩ := l
    cases content with
    | node content => exact ⟨_, rfl, rfl⟩
    | edge => cases labelled
  · have before : (d.labelsOf edge).filter (!keep.contains ·.id) = [l] := lone
    rw [unlisted, document, filter_labelsOf_modify keeps outer (!keep.contains ·), before, List.map_singleton, if_pos rfl]
  · intro other alone
    cases lone.symm.trans alone
    exact ⟨own, document⟩
  · rw [document, contains_modify keeps.id, own]
    refine ⟨fun there => .inl ⟨there, stays x⟩, ?_⟩
    rintro (⟨there, _⟩ | rfl)
    · exact there
    · exact contains_of_parentOf nested
  · have unchanged : d'.find? x = some e := by rw [after, if_neg (own ▸ other), found]
    have outlives : d.Outlives d' (· ∈ []) e { d.bereft [] e with children := e.children } :=
      outlives_bereft consistent found e.children fun _ _ _ => document ▸ boxOf_modify keeps.id keeps.box
    have none : (fun x => x ∈ ([] : List String)) = d.Supplanted edge keep :=
      funext fun x => propext (iff_of_false List.not_mem_nil (stays x))
    rw [bereft_eq (by simp) (by simp), none] at outlives
    refine ⟨e, unchanged, outlives, fun _ => rfl, fun _ loose => ?_⟩
    rw [state?_of_find? unchanged, state?_of_find? found, outlives.state loose rfl]

/-- The labels are swept away, and a new one comes in. -/
theorem Renewed.upserted (renewed : d.Renewed d' edge ids n)
    (swept : d.Swept ((d.unlisted edge keep).map Element.id) ids u) (consistent : d.Consistent) (acyclic : d.Acyclic)
    (found : d.find? edge = some e) (others : ∀ l, d.unlisted edge keep ≠ [l]) (free : n.id ∉ keep)
    (written : ∃ content, n.content = .node content ∧ content.text = text) : d.Upserted d' edge text keep n := by
  have labels : d'.labelsOf edge = d.listed edge keep ++ [n] := renewed.labelsOf swept consistent acyclic found
  have gone (x : String) : x ∈ ids ↔ d.Supplanted edge keep x := swept.mem_iff_supplanted consistent others
  have kept : ∀ l ∈ d.listed edge keep, keep.contains l.id = true := fun l label => (List.mem_filter.1 label).2
  have listed : d'.listed edge keep = d.listed edge keep := by
    have itself : (d.listed edge keep).filter (keep.contains ·.id) = d.listed edge keep := List.filter_eq_self.2 kept
    rw [Document.listed, labels, List.filter_append, itself]
    simp [free]
  refine ⟨(renewed.find? n.id).trans (if_pos rfl), renewed.parent, written, ?_, listed, fun l => state?_of_listed listed,
    fun l lone => (others l lone).elim, fun _ => ⟨renewed.unused, ?_⟩, fun x => ?_, fun x e found stays _ => ?_⟩
  · have none : (d.listed edge keep).filter (!keep.contains ·.id) = [] :=
      List.filter_eq_nil_iff.2 fun l label => by rw [kept l label]; simp
    rw [unlisted, labels, List.filter_append, none]
    simp [free]
  · rw [childIds, renewed.find?_of_stays found (swept.edge_stays consistent acyclic), childIds, found, Option.elim_some,
      Option.elim_some, if_pos rfl, bereft]
    refine congrArg (· ++ [n.id]) (List.filter_congr fun c member => ?_)
    have nested : d.parentOf c = some edge := parentOf_of_mem_children consistent found member
    have same : c ∈ ids ↔ c ∈ (d.unlisted edge keep).map Element.id := by
      rw [List.mem_map]
      refine ⟨swept.of_child consistent acyclic nested, ?_⟩
      rintro ⟨l, label, rfl⟩
      exact (swept.mem_iff consistent).2 ⟨l, label, .refl⟩
    rw [Bool.eq_iff_iff]
    simp only [Bool.not_eq_true', List.contains_eq_mem, decide_eq_false_iff_not, same]
  · rw [renewed.contains, gone]
  · have after := renewed.find?_of_stays found (fun leaves => stays ((gone x).1 leaves))
    have outlives := renewed.outlives consistent found ((d.bereft ids e).children ++ if x = edge then [n.id] else [])
    rw [funext fun x => propext (gone x)] at outlives
    have children (other : x ≠ edge) : (d.bereft ids e).children ++ (if x = edge then [n.id] else []) = e.children := by
      rw [if_neg other, List.append_nil]
      refine List.filter_eq_self.2 fun c member => ?_
      have nested : d.parentOf c = some x := parentOf_of_mem_children consistent found member
      simp [swept.child_stays consistent (fun leaves => stays ((gone x).1 leaves)) other nested]
    refine ⟨_, after, outlives, children, fun other loose => ?_⟩
    rw [state?_of_find? after, state?_of_find? found, outlives.state loose (children other)]

end Document
end LiveDiagram
