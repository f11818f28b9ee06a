import LiveDiagram.Document.Basic
import LiveDiagram.Proofs.Document.Arcs

/-! Views of a document by id: the element, its parent, its children and the ends of an edge, and what the
changes of a document do to each view. -/
namespace LiveDiagram

variable {α : Type}

/-- The end of an edge that a relation stands for. -/
def Element.end? (relation : Relation) (e : Element α) : Option (Endpoint α) :=
  match relation, e.content with
  | .start, .edge start _ => some start
  | .stop, .edge _ stop => some stop
  | _, _ => none

/-- The box of a node. -/
def Element.box? (e : Element α) : Option (Bounds α) :=
  match e.content with
  | .node content => some content.bounds
  | .edge .. => none

theorem Element.end?_child (e : Element α) : e.end? .child = none := by
  unfold Element.end?
  split <;> simp_all

/-- Only edges have ends, and they have both. -/
theorem Element.isSome_end? {relation : Relation} (arc : relation ≠ .child) (e : Element α) :
    (e.end? relation).isSome = e.isEdge := by
  rcases e with ⟨_, _, content, _, _, _, _⟩
  cases relation <;> cases content <;>
    simp_all [Element.end?, Element.isEdge, Element.kind, Content.kind]

theorem Element.isNode_eq_not_isEdge (e : Element α) : e.isNode = !e.isEdge := by
  unfold isNode isEdge
  cases e.kind <;> rfl

theorem Element.handle_mapEnds (change : Endpoint α → Endpoint α) (e : Element α) :
    (e.mapEnds change).handle = e.handle := by
  unfold Element.mapEnds
  split <;> rfl

namespace Document

def parentOf (d : Document α) (id : String) : Option String :=
  (d.find? id).bind Element.parent

def childIds (d : Document α) (id : String) : List String :=
  (d.find? id).elim [] Element.children

def endOf (d : Document α) (relation : Relation) (id : String) : Option (Endpoint α) :=
  (d.find? id).bind (Element.end? relation)

/-- What a document holds beside its elements and their places. -/
structure Surroundings (α : Type) where
  bounds : Bounds α
  selection : List Handle
  history : History α
  listeners : Nat
  heard : List Event

def surroundings (d : Document α) : Surroundings α :=
  ⟨d.bounds, d.selection, d.history, d.listeners, d.heard⟩

/-- The box of the node of an id. -/
def boxOf (d : Document α) (id : String) : Option (Bounds α) :=
  (d.find? id).bind Element.box?

/-- The elements by id and birth, in order of registration. -/
def handles (d : Document α) : List Handle :=
  d.elements.map Element.handle

variable {d : Document α} {id x : String}

theorem ids_handles : d.handles.map Handle.id = d.elements.map Element.id := by
  simp only [handles, List.map_map]
  rfl

theorem isLive_iff {h : Handle} : d.isLive h = true ↔ h ∈ d.handles := by
  simp only [isLive, handles, List.any_eq_true, decide_eq_true_eq, List.mem_map]

theorem find?_eq_some_id {e : Element α} (found : d.find? id = some e) : e.id = id := by
  have holds := List.find?_some found
  simpa using holds

theorem mem_of_find? {e : Element α} (found : d.find? id = some e) : e ∈ d.elements :=
  List.mem_of_find?_eq_some found

theorem contains_iff_find? : d.contains id = true ↔ ∃ e, d.find? id = some e := by
  simp only [contains, Option.isSome_iff_exists]

theorem contains_iff_mem : d.contains id = true ↔ id ∈ d.handles.map Handle.id := by
  simp only [ids_handles, contains, find?, List.find?_isSome, decide_eq_true_eq, List.mem_map]

theorem not_contains_iff : d.contains id = false ↔ d.find? id = none := by
  simp only [contains, Option.isSome_eq_false_iff, Option.isNone_iff_eq_none]

theorem find?_of_mem (distinct : (d.handles.map Handle.id).Nodup) {e : Element α} (member : e ∈ d.elements) :
    d.find? e.id = some e := by
  rw [ids_handles] at distinct
  obtain ⟨found, equal⟩ := contains_iff_find?.1 (contains_iff_mem.2 (ids_handles ▸ List.mem_map_of_mem member))
  have same := List.inj_on_of_nodup_map distinct (mem_of_find? equal) member (find?_eq_some_id equal)
  rw [equal, same]

theorem isSome_node? : (d.node? id).isSome = (d.find? id).any Element.isNode := by
  unfold node?
  cases d.find? id with
  | none => rfl
  | some e => cases node : e.isNode <;> simp [Option.filter, node]

theorem parentOf_eq_some {parent : String} :
    d.parentOf id = some parent ↔ ∃ e, d.find? id = some e ∧ e.parent = some parent := by
  simp only [parentOf, Option.bind_eq_some_iff]

theorem mem_childIds {child : String} :
    child ∈ d.childIds id ↔ ∃ e, d.find? id = some e ∧ child ∈ e.children := by
  unfold childIds
  cases d.find? id <;> simp

theorem endOf_eq_some {relation : Relation} {p : Endpoint α} :
    d.endOf relation id = some p ↔ ∃ e, d.find? id = some e ∧ e.end? relation = some p := by
  simp only [endOf, Option.bind_eq_some_iff]

theorem contains_of_parentOf {parent : String} (child : d.parentOf id = some parent) : d.contains id = true := by
  obtain ⟨e, found, _⟩ := parentOf_eq_some.1 child
  exact contains_iff_find?.2 ⟨e, found⟩

theorem contains_of_mem_childIds {child : String} (member : child ∈ d.childIds id) : d.contains id = true := by
  obtain ⟨e, found, _⟩ := mem_childIds.1 member
  exact contains_iff_find?.2 ⟨e, found⟩

theorem parentOf_of_absent (absent : d.contains id = false) : d.parentOf id = none := by
  simp only [parentOf, not_contains_iff.1 absent, Option.bind_none]

theorem childIds_of_absent (absent : d.contains id = false) : d.childIds id = [] := by
  simp only [childIds, not_contains_iff.1 absent, Option.elim_none]

theorem endOf_of_absent {relation : Relation} (absent : d.contains id = false) : d.endOf relation id = none := by
  simp only [endOf, not_contains_iff.1 absent, Option.bind_none]

theorem endOf_child : d.endOf .child id = none := by
  unfold endOf
  cases d.find? id <;> simp [Element.end?_child]

theorem contains_of_find? {e : Element α} (found : d.find? id = some e) : d.contains id = true :=
  contains_iff_find?.2 ⟨e, found⟩

theorem ne_of_contains (present : d.contains x = true) (absent : d.contains id = false) : x ≠ id := by
  rintro rfl
  rw [absent] at present
  cases present

theorem contains_of_node? (node : (d.node? id).isSome = true) : d.contains id = true := by
  rw [isSome_node?, Option.any_eq_true_iff_get] at node
  exact node.1

/-! Changing an element -/

theorem find?_map {change : Element α → Element α} (keeps : ∀ e, (change e).id = e.id) :
    ({ d with elements := d.elements.map change } : Document α).find? x = (d.find? x).map change := by
  simp only [find?, List.find?_map]
  congr 2
  funext e
  simp only [Function.comp_apply, keeps]

theorem find?_modify {change : Element α → Element α} (keeps : ∀ e, (change e).id = e.id) :
    (d.modify id change).find? x = if x = id then (d.find? x).map change else d.find? x := by
  unfold modify
  rw [find?_map (fun e => by split <;> simp only [keeps])]
  cases found : d.find? x with
  | none => simp
  | some e =>
    have named := find?_eq_some_id found
    by_cases own : x = id <;> simp [own, named]

theorem modify_modify {change change' : Element α → Element α} (keeps : ∀ e, (change e).id = e.id) :
    (d.modify id change).modify id change' = d.modify id (change' ∘ change) := by
  simp only [modify, List.map_map]
  congr 2
  funext e
  simp only [Function.comp_apply]
  by_cases own : e.id = id <;> simp [own, keeps]

/-- A change that leaves the element of an id as it is changes nothing. -/
theorem modify_eq_self {change : Element α → Element α} (same : ∀ e ∈ d.elements, e.id = id → change e = e) :
    d.modify id change = d := by
  have unchanged : d.elements.map (fun e => if e.id = id then change e else e) = d.elements.map fun e => e := by
    refine List.map_congr_left fun e member => ?_
    split
    · next own => exact same e member own
    · rfl
  unfold modify
  rw [unchanged, List.map_id']

/-- A change that leaves the element of an id as it is can be made there or not. -/
theorem find?_idle {change : Element α → Element α} (idle : ∀ e, d.find? id = some e → change e = e) (x : String) :
    d.find? x = (d.find? x).map fun e => if x = id then change e else e := by
  cases found : d.find? x with
  | none => rfl
  | some e =>
    by_cases own : x = id
    · simp [own, idle e (own ▸ found)]
    · simp [own]

theorem handles_modify {change : Element α → Element α} (keeps : ∀ e, (change e).handle = e.handle) :
    (d.modify id change).handles = d.handles := by
  simp only [handles, modify, List.map_map]
  apply List.map_congr_left
  intro e _
  simp only [Function.comp_apply]
  split
  · exact keeps e
  · rfl

/-! Registering and striking -/

theorem find?_register {e : Element α} :
    (d.register e).find? x =
      (d.find? x).or (if x = e.id then some { e with birth := d.births } else none) := by
  simp only [register, find?, List.find?_append, List.find?_cons, List.find?_nil]
  congr 1
  by_cases own : x = e.id
  · simp [own]
  · have other : e.id ≠ x := fun same => own same.symm
    simp [own, other]

theorem handles_register {e : Element α} : (d.register e).handles = d.handles ++ [⟨e.id, d.births⟩] := by
  simp only [handles, register, List.map_append, List.map_cons, List.map_nil]
  rfl

theorem contains_register {e : Element α} :
    (d.register e).contains x = true ↔ d.contains x = true ∨ x = e.id := by
  unfold contains
  rw [find?_register]
  by_cases own : x = e.id <;> simp [own]

section Register
variable {e : Element α} (absent : d.contains e.id = false)

theorem find?_register_of_ne (apart : x ≠ e.id) : (d.register e).find? x = d.find? x := by
  rw [find?_register, if_neg apart, Option.or_none]

theorem endOf_register_of_ne {relation : Relation} (apart : x ≠ e.id) :
    (d.register e).endOf relation x = d.endOf relation x := by
  unfold endOf
  rw [find?_register_of_ne apart]

include absent

theorem find?_register_of_absent :
    (d.register e).find? x = if x = e.id then some { e with birth := d.births } else d.find? x := by
  rw [find?_register]
  by_cases own : x = e.id
  · simp [own, not_contains_iff.1 absent]
  · simp [own]

/-- An element that is in no place is nowhere in the containment. -/
theorem parentOf_register (topmost : e.parent = none) : (d.register e).parentOf x = d.parentOf x := by
  unfold parentOf
  rw [find?_register_of_absent absent]
  split
  · next own => simp [own, not_contains_iff.1 absent, topmost]
  · rfl

theorem parentOf_register_self (topmost : e.parent = none) : (d.register e).parentOf e.id = none :=
  (parentOf_register absent topmost).trans (parentOf_of_absent absent)

theorem childIds_register (childless : e.children = []) : (d.register e).childIds x = d.childIds x := by
  unfold childIds
  rw [find?_register_of_absent absent]
  split
  · next own => simp [own, not_contains_iff.1 absent, childless]
  · rfl

theorem endOf_register_self {relation : Relation} : (d.register e).endOf relation e.id = e.end? relation := by
  unfold endOf
  rw [find?_register_of_absent absent, if_pos rfl]
  rfl

theorem node?_register (node : (d.node? x).isSome = true) : ((d.register e).node? x).isSome = true := by
  have apart : x ≠ e.id := ne_of_contains (contains_of_node? node) absent
  rw [isSome_node?] at node ⊢
  rw [find?_register_of_ne apart]
  exact node

end Register

theorem find?_unregister [Coordinate α] {ids : List String} :
    (d.unregister ids).find? x =
      if x ∈ ids then none else (d.find? x).map (Element.mapEnds (d.strand ids)) := by
  unfold unregister
  let kept : Document α := { d with elements := d.elements.filter fun e => !ids.contains e.id }
  have mapped : ({ kept with elements := kept.elements.map (Element.mapEnds (d.strand ids)) } : Document α).find? x =
      (kept.find? x).map (Element.mapEnds (d.strand ids)) := find?_map fun e => congrArg Handle.id (Element.handle_mapEnds _ e)
  refine mapped.trans ?_
  simp only [kept, find?, List.find?_filter]
  by_cases struck : x ∈ ids
  · simp only [struck, if_true, Option.map_eq_none_iff, List.find?_eq_none]
    intro e _ both
    simp only [Bool.not_eq_true', decide_eq_true_eq, List.contains_eq_mem, decide_eq_false_iff_not] at both
    exact both.1 (both.2 ▸ struck)
  · simp only [struck, if_false]
    congr 2
    funext e
    by_cases named : e.id = x
    · simp [named, struck]
    · simp [named]

theorem handles_unregister [Coordinate α] {ids : List String} :
    (d.unregister ids).handles = d.handles.filter fun h => !ids.contains h.id := by
  simp only [handles, unregister, List.map_map, List.filter_map]
  apply List.map_congr_left
  intro e _
  exact Element.handle_mapEnds _ e

/-! Moving an element -/

theorem find?_detach :
    (d.detach id).find? x = (d.find? x).map fun e =>
      { e with
        parent := if x = id then none else e.parent
        children := if d.parentOf id = some x then e.children.filter (· ≠ id) else e.children } := by
  have parent : (d.find? id).bind Element.parent = d.parentOf id := rfl
  unfold detach
  rw [parent]
  cases nested : d.parentOf id with
  | none =>
    change d.find? x = _
    cases found : d.find? x with
    | none => rfl
    | some e =>
      by_cases own : x = id
      · have topmost : e.parent = none := by
          rw [← own, parentOf, found] at nested
          exact nested
        rcases e with ⟨_, _, _, _, _, parent, _⟩
        cases topmost
        simp [own]
      · simp [own]
  | some parent =>
    change ((d.modify parent fun p => { p with children := p.children.filter (· ≠ id) }).modify id
      fun e => { e with parent := none }).find? x = _
    rw [find?_modify, find?_modify]
    · cases d.find? x with
      | none => simp
      | some e => split_ifs <;> first | rfl | grind
    · exact fun _ => rfl
    · exact fun _ => rfl

theorem links_detach :
    (d.detach id).links = match d.parentOf id with
      | some parent => Links.part parent .child id d.links
      | none => d.links := by
  have parent : (d.find? id).bind Element.parent = d.parentOf id := rfl
  unfold detach
  rw [parent]
  cases d.parentOf id <;> rfl

theorem top_detach : (d.detach id).top = if d.parentOf id = none then d.top.erase id else d.top := by
  have parent : (d.find? id).bind Element.parent = d.parentOf id := rfl
  unfold detach
  rw [parent]
  cases d.parentOf id <;> rfl

theorem has_detach {s t : String} {r : Relation} :
    Links.has (d.detach id).links s r t = true ↔
      Links.has d.links s r t = true ∧ ¬(r = .child ∧ t = id ∧ d.parentOf id = some s) := by
  rw [links_detach]
  cases nested : d.parentOf id with
  | none => simp
  | some parent =>
    simp only [Links.has_part, Option.some.injEq]
    grind

theorem handles_detach : (d.detach id).handles = d.handles := by
  unfold detach
  split
  · refine Eq.trans (handles_modify ?_) (handles_modify ?_)
    · exact fun _ => rfl
    · exact fun _ => rfl
  · rfl

theorem find?_attach {parent : Option String} :
    (d.attach id parent).find? x = (d.find? x).map fun e =>
      { e with
        parent := if x = id then parent else e.parent
        children := (if d.parentOf id = some x then e.children.filter (· ≠ id) else e.children) ++
          if parent = some x then [id] else [] } := by
  cases parent with
  | none =>
    refine find?_detach.trans ?_
    cases d.find? x <;> simp
  | some parent =>
    change (((d.detach id).modify parent fun p => { p with children := p.children ++ [id] }).modify id
      fun e => { e with parent := some parent }).find? x = _
    rw [find?_modify, find?_modify, find?_detach]
    · cases d.find? x with
      | none => simp
      | some e => by_cases own : x = id <;> by_cases holder : x = parent <;> simp_all [eq_comm]
    · exact fun _ => rfl
    · exact fun _ => rfl

theorem has_attach {parent : Option String} {s t : String} {r : Relation} :
    Links.has (d.attach id parent).links s r t = true ↔
      (r = .child ∧ t = id ∧ parent = some s) ∨
        (Links.has d.links s r t = true ∧ ¬(r = .child ∧ t = id ∧ d.parentOf id = some s)) := by
  cases parent with
  | none =>
    refine has_detach.trans ?_
    simp
  | some parent =>
    change Links.has (Links.join parent .child id (d.detach id).links) s r t = true ↔ _
    rw [Links.has_join, has_detach, Option.some.injEq]
    grind

theorem top_attach {parent : Option String} :
    (d.attach id parent).top = (d.detach id).top ++ if parent = none then [id] else [] := by
  cases parent with
  | none => rfl
  | some parent => exact (List.append_nil _).symm

theorem births_attach {parent : Option String} : (d.attach id parent).births = d.births := by
  unfold attach detach
  split <;> split <;> rfl

theorem surroundings_attach {parent : Option String} : (d.attach id parent).surroundings = d.surroundings := by
  unfold attach detach
  split <;> split <;> rfl

theorem handles_attach {parent : Option String} : (d.attach id parent).handles = d.handles := by
  cases parent with
  | none => exact handles_detach
  | some parent =>
    refine Eq.trans (handles_modify ?_) (Eq.trans (handles_modify ?_) handles_detach)
    · exact fun _ => rfl
    · exact fun _ => rfl

/-! The views after each change -/

theorem parentOf_modify {change : Element α → Element α} (keeps : ∀ e, (change e).id = e.id)
    (same : ∀ e, (change e).parent = e.parent) : (d.modify id change).parentOf x = d.parentOf x := by
  unfold parentOf
  rw [find?_modify keeps]
  cases d.find? x <;> by_cases own : x = id <;> simp [own, same]

theorem childIds_modify {change : Element α → Element α} (keeps : ∀ e, (change e).id = e.id)
    (same : ∀ e, (change e).children = e.children) : (d.modify id change).childIds x = d.childIds x := by
  unfold childIds
  rw [find?_modify keeps]
  cases d.find? x <;> by_cases own : x = id <;> simp [own, same]

theorem contains_modify {change : Element α → Element α} (keeps : ∀ e, (change e).id = e.id) :
    (d.modify id change).contains x = d.contains x := by
  unfold contains
  rw [find?_modify keeps]
  by_cases own : x = id <;> simp [own]

theorem endOf_modify_of_ne {change : Element α → Element α} {relation : Relation}
    (keeps : ∀ e, (change e).id = e.id) (other : x ≠ id) :
    (d.modify id change).endOf relation x = d.endOf relation x := by
  unfold endOf
  rw [find?_modify keeps, if_neg other]

theorem isSome_node?_modify {change : Element α → Element α} (keeps : ∀ e, (change e).id = e.id)
    (same : ∀ e, (change e).isNode = e.isNode) :
    ((d.modify id change).node? x).isSome = (d.node? x).isSome := by
  simp only [isSome_node?]
  rw [find?_modify keeps]
  cases d.find? x <;> by_cases own : x = id <;> simp [own, same]

theorem contains_attach {parent : Option String} : (d.attach id parent).contains x = d.contains x := by
  simp only [contains, find?_attach, Option.isSome_map]

theorem parentOf_attach {parent : Option String} (present : d.contains id = true) :
    (d.attach id parent).parentOf x = if x = id then parent else d.parentOf x := by
  obtain ⟨e, found⟩ := contains_iff_find?.1 present
  unfold parentOf
  rw [find?_attach]
  by_cases own : x = id
  · simp [own, found]
  · cases d.find? x <;> simp [own]

theorem childIds_attach {parent : Option String} (present : d.contains x = true) :
    (d.attach id parent).childIds x =
      (if d.parentOf id = some x then (d.childIds x).filter (· ≠ id) else d.childIds x) ++
        if parent = some x then [id] else [] := by
  obtain ⟨e, found⟩ := contains_iff_find?.1 present
  simp only [childIds, find?_attach, found, Option.map_some, Option.elim_some]

theorem endOf_attach {parent : Option String} {relation : Relation} :
    (d.attach id parent).endOf relation x = d.endOf relation x := by
  unfold endOf
  rw [find?_attach]
  cases d.find? x <;> rfl

theorem isSome_node?_attach {parent : Option String} :
    ((d.attach id parent).node? x).isSome = (d.node? x).isSome := by
  simp only [isSome_node?]
  rw [find?_attach]
  cases d.find? x <;> rfl

/-! Boxes and states -/

theorem boxOf_modify {change : Element α → Element α} (keeps : ∀ e, (change e).id = e.id)
    (same : ∀ e, (change e).box? = e.box?) : (d.modify id change).boxOf x = d.boxOf x := by
  unfold boxOf
  rw [find?_modify keeps]
  cases d.find? x <;> by_cases own : x = id <;> simp [own, same]

variable [Coordinate α]

/-- A connected end is at the middle of the box of its node. -/
theorem positionOf_connected {node anchor : String} :
    d.positionOf (.connected node anchor) = (d.boxOf node).elim .origin Bounds.center := by
  unfold positionOf boxOf
  cases found : d.find? node with
  | none => simp [found]
  | some e =>
    rcases e with ⟨_, _, content, _, _, _, _⟩
    cases content <;> simp [found, Element.box?]

theorem positionOf_congr {d' : Document α} {p : Endpoint α}
    (same : ∀ node anchor, p = .connected node anchor → d'.boxOf node = d.boxOf node) :
    d'.positionOf p = d.positionOf p := by
  cases p with
  | free position => rfl
  | stranded node anchor position => rfl
  | connected node anchor => rw [positionOf_connected, positionOf_connected, same node anchor rfl]

theorem state?_of_find? {e : Element α} (found : d.find? id = some e) : d.state? id = some (d.snapshot e) := by
  simp only [state?, found, Option.map_some]

/-- A state depends on the element and on the boxes of the nodes that it is connected to. -/
theorem snapshot_congr {d' : Document α} {e : Element α}
    (same : ∀ relation node anchor, e.end? relation = some (.connected node anchor) →
      d'.boxOf node = d.boxOf node) : d'.snapshot e = d.snapshot e := by
  rcases e with ⟨_, _, content, _, _, _, _⟩
  cases content with
  | node content => rfl
  | edge start stop =>
    have first : d'.positionOf start = d.positionOf start :=
      positionOf_congr fun node anchor equal => same .start node anchor (congrArg some equal)
    have second : d'.positionOf stop = d.positionOf stop :=
      positionOf_congr fun node anchor equal => same .stop node anchor (congrArg some equal)
    simp only [snapshot, stateOfEnd, first, second]

end Document
end LiveDiagram
