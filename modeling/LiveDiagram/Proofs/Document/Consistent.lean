import LiveDiagram.Proofs.Document.Views

/-! The copies of the containment agree, and arcs lead where the ends of edges are. The invariant is stated with
two exceptions, for an element that is registered but not yet placed and for an edge whose arcs are not yet
drawn; between two edits there is neither. -/
namespace LiveDiagram

variable {α : Type}

/-- An end that may be in a document: it is free or at a node that is there. -/
def Document.Fits (d : Document α) : Endpoint α → Prop
  | .free _ => True
  | .connected node _ => (d.node? node).isSome = true
  | .stranded .. => False

/-- The invariant but for the arcs of the edge `unlinked` and the place of the element `unplaced`. -/
structure Document.Sound (unlinked unplaced : Option String) (d : Document α) : Prop where
  ids_nodup : (d.handles.map Handle.id).Nodup
  births_lt : ∀ h ∈ d.handles, h.birth < d.births
  mem_children : ∀ parent child, child ∈ d.childIds parent ↔ d.parentOf child = some parent
  children_nodup : ∀ parent, (d.childIds parent).Nodup
  nests_iff : ∀ parent child, Links.has d.links parent .child child = true ↔ d.parentOf child = some parent
  top_nodup : d.top.Nodup
  mem_top : ∀ id, id ∈ d.top ↔ d.contains id = true ∧ d.parentOf id = none ∧ unplaced ≠ some id
  end_of_arc : ∀ relation, relation ≠ .child → ∀ edge node,
    Links.has d.links edge relation node = true → (d.endOf relation edge).isSome = true
  arc_iff : ∀ relation, relation ≠ .child → ∀ edge node, unlinked ≠ some edge →
    (Links.has d.links edge relation node = true ↔ ∃ anchor, d.endOf relation edge = some (.connected node anchor))
  end_fits : ∀ relation edge p, d.endOf relation edge = some p → d.Fits p
  links_proper : Links.Proper d.links

/-- The invariant of documents. -/
def Document.Consistent (d : Document α) : Prop :=
  d.Sound none none

/-- A change that leaves an element the same in kind and in its place. -/
structure Element.KeepsPlace (change : Element α → Element α) : Prop where
  handle : ∀ e, (change e).handle = e.handle
  parent : ∀ e, (change e).parent = e.parent
  children : ∀ e, (change e).children = e.children
  kind : ∀ e, (change e).kind = e.kind

/-- A change that leaves also the box of a node and the ends of an edge as they are. -/
structure Element.KeepsShape (change : Element α → Element α) : Prop extends KeepsPlace change where
  box : ∀ e, (change e).box? = e.box?
  ends : ∀ e relation, (change e).end? relation = e.end? relation

namespace Element.KeepsPlace
variable {change : Element α → Element α}

theorem id (keeps : KeepsPlace change) (e : Element α) : (change e).id = e.id :=
  congrArg Handle.id (keeps.handle e)

theorem isNode (keeps : KeepsPlace change) (e : Element α) : (change e).isNode = e.isNode := by
  simp only [Element.isNode, keeps.kind]

theorem isEdge (keeps : KeepsPlace change) (e : Element α) : (change e).isEdge = e.isEdge := by
  simp only [Element.isEdge, keeps.kind]

theorem comp {change' : Element α → Element α} (keeps : KeepsPlace change) (keeps' : KeepsPlace change') :
    KeepsPlace (change ∘ change') where
  handle e := (keeps.handle (change' e)).trans (keeps'.handle e)
  parent e := (keeps.parent (change' e)).trans (keeps'.parent e)
  children e := (keeps.children (change' e)).trans (keeps'.children e)
  kind e := (keeps.kind (change' e)).trans (keeps'.kind e)

end Element.KeepsPlace

namespace Document
variable {d d' : Document α} {id : String} {unlinked unplaced : Option String}

theorem Fits.congr {p : Endpoint α} (fits : d.Fits p) (same : ∀ x, (d'.node? x).isSome = (d.node? x).isSome) :
    d'.Fits p := by
  cases p with
  | free position => trivial
  | connected node anchor => exact (same node).trans fits
  | stranded node anchor position => exact fits

theorem consistent_empty (bounds : Bounds α) : (Document.empty bounds).Consistent where
  ids_nodup := List.nodup_nil
  births_lt := by simp [handles, Document.empty]
  mem_children := by simp [childIds, parentOf, find?, Document.empty]
  children_nodup := by simp [childIds, find?, Document.empty]
  nests_iff := by simp [Links.has, parentOf, find?, Document.empty]
  top_nodup := List.nodup_nil
  mem_top := by simp [contains, find?, Document.empty]
  end_of_arc := by simp [Links.has, Document.empty]
  arc_iff := by simp [Links.has, endOf, find?, Document.empty]
  end_fits := by simp [endOf, find?, Document.empty]
  links_proper := by simp [Links.Proper, Document.empty]

/-- Documents with the same elements in the same places, where the children of each may stand in another order. -/
structure SamePlaces (d d' : Document α) : Prop where
  handles : d'.handles = d.handles
  births : d'.births = d.births
  top : d'.top = d.top
  parentOf : ∀ x, d'.parentOf x = d.parentOf x
  childIds : ∀ x, (d'.childIds x).Perm (d.childIds x)
  nests : ∀ parent child, Links.has d'.links parent .child child = Links.has d.links parent .child child

/-- Documents whose edges have the same ends, and the same arcs. -/
structure SameArcs (d d' : Document α) : Prop where
  endOf : ∀ relation x, d'.endOf relation x = d.endOf relation x
  node? : ∀ x, (d'.node? x).isSome = (d.node? x).isSome
  arcs : ∀ relation, relation ≠ .child → ∀ edge node,
    Links.has d'.links edge relation node = Links.has d.links edge relation node

/-- The part of the invariant that is about edges: their ends fit, and arcs lead where they are. -/
structure Drawn (unlinked : Option String) (d : Document α) : Prop where
  end_of_arc : ∀ relation, relation ≠ .child → ∀ edge node,
    Links.has d.links edge relation node = true → (d.endOf relation edge).isSome = true
  arc_iff : ∀ relation, relation ≠ .child → ∀ edge node, unlinked ≠ some edge →
    (Links.has d.links edge relation node = true ↔ ∃ anchor, d.endOf relation edge = some (.connected node anchor))
  end_fits : ∀ relation edge p, d.endOf relation edge = some p → d.Fits p

theorem SamePlaces.contains (same : SamePlaces d d') (x : String) : d'.contains x = d.contains x := by
  rw [Bool.eq_iff_iff, contains_iff_mem, contains_iff_mem, same.handles]

theorem Drawn.congr (drawn : d.Drawn unlinked) (same : SameArcs d d') : d'.Drawn unlinked where
  end_of_arc relation arc edge node has := by
    rw [same.endOf]
    exact drawn.end_of_arc relation arc edge node (same.arcs relation arc edge node ▸ has)
  arc_iff relation arc edge node linked := by
    rw [same.endOf, same.arcs relation arc]
    exact drawn.arc_iff relation arc edge node linked
  end_fits relation edge p given := (drawn.end_fits relation edge p (same.endOf relation edge ▸ given)).congr same.node?

theorem Fits.register {e : Element α} {p : Endpoint α} (absent : d.contains e.id = false) (fits : d.Fits p) :
    (d.register e).Fits p := by
  cases p with
  | free position => trivial
  | connected node anchor => exact node?_register absent fits
  | stranded node anchor position => exact fits

/-- The arcs of an element that is registered are yet to be drawn. -/
theorem Drawn.register {e : Element α} (drawn : d.Drawn none) (absent : d.contains e.id = false)
    (fits : ∀ relation p, e.end? relation = some p → d.Fits p) : (d.register e).Drawn (some e.id) where
  end_of_arc relation arc edge node has := by
    have before := drawn.end_of_arc relation arc edge node has
    have apart : edge ≠ e.id := by
      rintro rfl
      simp [endOf_of_absent absent] at before
    rw [endOf_register_of_ne apart]
    exact before
  arc_iff relation arc edge node linked := by
    have apart : edge ≠ e.id := fun same => linked (same ▸ rfl)
    rw [endOf_register_of_ne apart]
    exact drawn.arc_iff relation arc edge node nofun
  end_fits relation edge p given := by
    refine Fits.register absent ?_
    by_cases own : edge = e.id
    · rw [own, endOf_register_self absent] at given
      exact fits relation p given
    · rw [endOf_register_of_ne own] at given
      exact drawn.end_fits relation edge p given

theorem Sound.drawn (sound : d.Sound unlinked unplaced) : d.Drawn unlinked :=
  ⟨sound.end_of_arc, sound.arc_iff, sound.end_fits⟩

/-- With the elements where they were, what is left of the invariant is about edges. -/
theorem Sound.of_places {undrawn : Option String} (sound : d.Sound unlinked unplaced) (same : SamePlaces d d')
    (drawn : d'.Drawn undrawn) (proper : Links.Proper d'.links) : d'.Sound undrawn unplaced where
  ids_nodup := by rw [same.handles]; exact sound.ids_nodup
  births_lt := by rw [same.handles, same.births]; exact sound.births_lt
  mem_children parent child := by
    rw [(same.childIds parent).mem_iff, same.parentOf]
    exact sound.mem_children parent child
  children_nodup parent := (same.childIds parent).nodup_iff.2 (sound.children_nodup parent)
  nests_iff parent child := by
    rw [same.nests, same.parentOf]
    exact sound.nests_iff parent child
  top_nodup := by rw [same.top]; exact sound.top_nodup
  mem_top x := by
    rw [same.top, same.contains, same.parentOf]
    exact sound.mem_top x
  end_of_arc := drawn.end_of_arc
  arc_iff := drawn.arc_iff
  end_fits := drawn.end_fits
  links_proper := proper

theorem SamePlaces.modify {change : Element α → Element α} (keeps : Element.KeepsPlace change) :
    SamePlaces d (d.modify id change) where
  handles := handles_modify keeps.handle
  births := rfl
  top := rfl
  parentOf _ := parentOf_modify keeps.id keeps.parent
  childIds x := by rw [childIds_modify keeps.id keeps.children]
  nests _ _ := rfl

theorem SameArcs.attach {parent : Option String} : SameArcs d (d.attach id parent) where
  endOf _ _ := endOf_attach
  node? _ := isSome_node?_attach
  arcs relation arc edge node := by
    rw [Bool.eq_iff_iff, has_attach]
    simp only [arc, false_and, false_or, not_false_eq_true, and_true]

theorem proper_detach (proper : Links.Proper d.links) : Links.Proper (d.detach id).links := by
  rw [links_detach]
  split
  · exact proper.part
  · exact proper

theorem proper_attach {parent : Option String} (proper : Links.Proper d.links) :
    Links.Proper (d.attach id parent).links := by
  cases parent with
  | none => exact proper_detach proper
  | some parent => exact (proper_detach proper).join

theorem proper_relink {relation : Relation} {p : Endpoint α} {links : List Link} (proper : Links.Proper links) :
    Links.Proper (d.relink id relation p links) := by
  unfold relink
  dsimp only
  split
  · split
    · exact proper.release.join
    · exact proper.release
  · exact proper.release

theorem proper_connect (proper : Links.Proper d.links) : Links.Proper (d.connect id).links := by
  unfold connect
  split
  · exact proper_relink (proper_relink proper)
  · exact proper

namespace Sound

theorem contains_parent (sound : d.Sound unlinked unplaced) {parent : String} (child : d.parentOf id = some parent) :
    d.contains parent = true :=
  contains_of_mem_childIds ((sound.mem_children parent id).2 child)

/-- Changing an element in its place: new ends must fit, and their arcs are left to be drawn. -/
theorem modify {change : Element α → Element α} {undrawn : Option String} (sound : d.Sound unlinked unplaced)
    (keeps : Element.KeepsPlace change) (more : ∀ edge, undrawn ≠ some edge → unlinked ≠ some edge)
    (drawn : undrawn ≠ some id → ∀ e relation, (change e).end? relation = e.end? relation)
    (fits : ∀ e relation p, d.find? id = some e → (change e).end? relation = some p → d.Fits p) :
    (d.modify id change).Sound undrawn unplaced := by
  have ends (relation : Relation) (other : String) (apart : other ≠ id) :
      (d.modify id change).endOf relation other = d.endOf relation other :=
    endOf_modify_of_ne keeps.id apart
  have own (relation : Relation) :
      (d.modify id change).endOf relation id = ((d.find? id).map change).bind (Element.end? relation) := by
    unfold endOf
    rw [find?_modify keeps.id, if_pos rfl]
  refine sound.of_places (.modify keeps) { end_of_arc := ?_, arc_iff := ?_, end_fits := ?_ } sound.links_proper
  · intro relation arc edge node has
    have before := sound.end_of_arc relation arc edge node has
    by_cases self : edge = id
    · subst self
      rw [own]
      unfold endOf at before
      cases found : d.find? edge with
      | none => simp [found] at before
      | some e =>
        simp only [found, Option.bind_some, Option.map_some, Element.isSome_end? arc, keeps.isEdge] at before ⊢
        exact before
    · rw [ends relation edge self]
      exact before
  · intro relation arc edge node linked
    refine (sound.arc_iff relation arc edge node (more edge linked)).trans ?_
    by_cases self : edge = id
    · subst self
      rw [own]
      unfold endOf
      cases d.find? edge with
      | none => rfl
      | some e => simp only [Option.map_some, Option.bind_some, drawn linked]
    · rw [ends relation edge self]
  · intro relation edge p given
    refine Fits.congr ?_ fun x => isSome_node?_modify keeps.id keeps.isNode
    by_cases self : edge = id
    · subst self
      rw [own] at given
      cases found : d.find? edge with
      | none => simp [found] at given
      | some e => exact fits e relation p found (by simpa [found] using given)
    · rw [ends relation edge self] at given
      exact sound.end_fits relation edge p given

/-- Changing an element in its place and leaving its ends as they are. -/
theorem adjust {change : Element α → Element α} (sound : d.Sound unlinked unplaced)
    (keeps : Element.KeepsPlace change) (same : ∀ e relation, (change e).end? relation = e.end? relation) :
    (d.modify id change).Sound unlinked unplaced := by
  refine sound.modify keeps (fun _ apart => apart) (fun _ => same) ?_
  intro e relation p found given
  exact sound.end_fits relation id p (endOf_eq_some.2 ⟨e, found, same e relation ▸ given⟩)

/-- Registering an element that is in no place and has ends that fit. -/
theorem register {e : Element α} (consistent : d.Consistent) (absent : d.contains e.id = false)
    (topmost : e.parent = none) (childless : e.children = [])
    (fits : ∀ relation p, e.end? relation = some p → d.Fits p) :
    (d.register e).Sound (some e.id) (some e.id) := by
  have drawn := consistent.drawn.register absent fits
  refine { drawn with
    ids_nodup := ?_
    births_lt := ?_
    mem_children := ?_
    children_nodup := ?_
    nests_iff := ?_
    top_nodup := consistent.top_nodup
    mem_top := ?_
    links_proper := consistent.links_proper }
  · rw [handles_register, List.map_append, List.map_singleton, List.nodup_append]
    refine ⟨consistent.ids_nodup, List.nodup_singleton _, ?_⟩
    intro x member y own same
    rw [List.mem_singleton] at own
    subst own same
    rw [contains_iff_mem.2 member] at absent
    cases absent
  · intro h member
    rw [handles_register, List.mem_append, List.mem_singleton] at member
    change h.birth < d.births + 1
    rcases member with old | rfl
    · exact Nat.lt_succ_of_lt (consistent.births_lt h old)
    · exact Nat.lt_succ_self _
  · intro parent child
    rw [childIds_register absent childless, parentOf_register absent topmost]
    exact consistent.mem_children parent child
  · intro parent
    rw [childIds_register absent childless]
    exact consistent.children_nodup parent
  · intro parent child
    rw [parentOf_register absent topmost]
    exact consistent.nests_iff parent child
  · intro x
    have before := consistent.mem_top x
    rw [parentOf_register absent topmost, contains_register, ne_eq, Option.some.injEq]
    change x ∈ d.top ↔ _
    grind

/-- Moving an element, or giving one its first place. -/
theorem attach {parent : Option String} (sound : d.Sound unlinked unplaced) (present : d.contains id = true)
    (held : ∀ holder, parent = some holder → d.contains holder = true)
    (placed : unplaced = none ∨ unplaced = some id) : (d.attach id parent).Sound unlinked none := by
  have parents (x : String) : (d.attach id parent).parentOf x = if x = id then parent else d.parentOf x :=
    parentOf_attach present
  have absentChildren {x : String} (absent : d.contains x = false) : (d.attach id parent).childIds x = [] :=
    childIds_of_absent (contains_attach.trans absent)
  have drawn : (d.attach id parent).Drawn unlinked := sound.drawn.congr .attach
  refine { drawn with
    ids_nodup := by rw [handles_attach]; exact sound.ids_nodup
    births_lt := by rw [handles_attach, births_attach]; exact sound.births_lt
    mem_children := ?_
    children_nodup := ?_
    nests_iff := ?_
    top_nodup := ?_
    mem_top := ?_
    links_proper := proper_attach sound.links_proper }
  · intro holder child
    have before := sound.mem_children holder child
    rw [parents]
    -- Only what is there has children that the move can change.
    cases present' : d.contains holder with
    | false =>
      have apart : parent ≠ some holder := fun same => by simp [held holder same] at present'
      rw [absentChildren present']
      rw [childIds_of_absent present'] at before
      split
      · simp [apart]
      · exact before
    | true =>
      rw [childIds_attach present']
      grind
  · intro holder
    cases present' : d.contains holder with
    | false => simp [absentChildren present']
    | true =>
      rw [childIds_attach present']
      have before := sound.children_nodup holder
      have member := sound.mem_children holder id
      have filtered : ((d.childIds holder).filter (· ≠ id)).Nodup := before.filter _
      rw [List.nodup_append]
      grind
  · intro holder child
    have before := sound.nests_iff holder child
    rw [has_attach, parents]
    grind
  · rw [top_attach, top_detach, List.nodup_append]
    have before := sound.top_nodup
    have member := sound.mem_top id
    have erased := before.erase id
    have gone : id ∉ d.top.erase id := before.not_mem_erase
    grind
  · intro x
    have before := sound.mem_top x
    have erased := sound.top_nodup.mem_erase_iff (a := x) (b := id)
    rw [top_attach, top_detach, contains_attach, parents]
    grind

end Sound

/-! Drawing the arcs of an edge -/

theorem has_relink {edge s t : String} {relation r : Relation} {p : Endpoint α} {links : List Link} :
    Links.has (d.relink edge relation p links) s r t = true ↔
      (s = edge ∧ r = relation ∧ p.node? = some t ∧ d.contains t = true) ∨
        (Links.has links s r t = true ∧ ¬(s = edge ∧ r = relation)) := by
  unfold relink
  cases p.node? with
  | none => simp [Links.has_release]
  | some node =>
    by_cases there : d.contains node = true
    · simp only [there, if_true, Links.has_join, Links.has_release, Option.some.injEq]
      grind
    · simp only [there, Bool.false_eq_true, if_false, Links.has_release, Option.some.injEq]
      grind

/-- Drawing the arcs of an edge renews those of its two ends and nothing else. -/
theorem has_connect {edge s t : String} {r : Relation} :
    Links.has (d.connect edge).links s r t = true ↔
      if s = edge ∧ (d.endOf r edge).isSome = true then
        ∃ p, d.endOf r edge = some p ∧ p.node? = some t ∧ d.contains t = true
      else Links.has d.links s r t = true := by
  unfold connect endOf
  cases d.find? edge with
  | none => simp
  | some e =>
    rcases e with ⟨_, _, content, _, _, _, _⟩
    cases content with
    | node content => cases r <;> simp [Element.end?]
    | edge start stop => cases r <;> simp [has_relink, Element.end?] <;> grind

theorem find?_connect {edge x : String} : (d.connect edge).find? x = d.find? x := by
  unfold connect
  split <;> rfl

theorem surroundings_connect {edge : String} : (d.connect edge).surroundings = d.surroundings := by
  unfold connect
  split <;> rfl

theorem births_connect {edge : String} : (d.connect edge).births = d.births := by
  unfold connect
  split <;> rfl

theorem handles_connect {edge : String} : (d.connect edge).handles = d.handles := by
  unfold connect
  split <;> rfl

theorem top_connect {edge : String} : (d.connect edge).top = d.top := by
  unfold connect
  split <;> rfl

theorem endOf_connect {edge x : String} {r : Relation} : (d.connect edge).endOf r x = d.endOf r x := by
  simp only [endOf, find?_connect]

theorem SamePlaces.connect {edge : String} : SamePlaces d (d.connect edge) where
  handles := handles_connect
  births := births_connect
  top := top_connect
  parentOf x := by simp only [Document.parentOf, find?_connect]
  childIds x := by simp only [Document.childIds, find?_connect, List.Perm.refl]
  nests parent child := by
    rw [Bool.eq_iff_iff, has_connect]
    simp [endOf_child]

/-! Putting the children of an element in another order -/

section Reorder
variable (change : List String → List String)

theorem SamePlaces.reorder (same : (change (d.childIds id)).Perm (d.childIds id)) :
    SamePlaces d (d.modify id fun e => { e with children := change e.children }) where
  handles := handles_modify fun _ => rfl
  births := rfl
  top := rfl
  parentOf _ := parentOf_modify (fun _ => rfl) (fun _ => rfl)
  childIds x := by
    unfold Document.childIds at same ⊢
    rw [find?_modify]
    · by_cases own : x = id
      · subst own
        cases found : d.find? x with
        | none => simp
        | some e => simpa [found] using same
      · simp [own]
    · exact fun _ => rfl
  nests _ _ := rfl

theorem SameArcs.reorder : SameArcs d (d.modify id fun e => { e with children := change e.children }) where
  endOf relation x := by
    unfold Document.endOf
    rw [find?_modify]
    · cases d.find? x <;> by_cases own : x = id <;> simp [own]
      all_goals rfl
    · exact fun _ => rfl
  node? _ := isSome_node?_modify (fun _ => rfl) (fun _ => rfl)
  arcs _ _ _ _ := rfl

end Reorder

namespace Sound

/-- An edge without connected ends and without arcs is no exception. -/
theorem bare {edge : String} (sound : d.Sound (some edge) unplaced)
    (free : ∀ relation node anchor, d.endOf relation edge ≠ some (.connected node anchor))
    (arcless : ∀ relation node, relation ≠ .child → ¬Links.has d.links edge relation node = true) :
    d.Sound none unplaced := by
  refine { sound with arc_iff := ?_ }
  intro relation arc e node _
  by_cases own : e = edge
  · subst own
    simp only [arcless relation node arc, free relation node, exists_false, Bool.false_eq_true]
  · exact sound.arc_iff relation arc e node (by simpa using Ne.symm own)

/-- What listeners, selection and history hold is nothing to the invariant. -/
theorem congr (sound : d.Sound unlinked unplaced) (elements : d'.elements = d.elements) (links : d'.links = d.links)
    (top : d'.top = d.top) (births : d'.births = d.births) : d'.Sound unlinked unplaced := by
  rcases d with ⟨_, _, _, _, _, _, _, _, _⟩
  rcases d' with ⟨_, _, _, _, _, _, _, _, _⟩
  cases elements
  cases links
  cases top
  cases births
  exact ⟨sound.1, sound.2, sound.3, sound.4, sound.5, sound.6, sound.7, sound.8, sound.9, sound.10, sound.11⟩

/-- Once its arcs are drawn, an edge is no exception any more. -/
theorem connect {edge : String} (sound : d.Sound (some edge) unplaced) : (d.connect edge).Sound none unplaced := by
  refine sound.of_places .connect { end_of_arc := ?_, arc_iff := ?_, end_fits := ?_ }
    (proper_connect sound.links_proper)
  · intro relation arc e node has
    have before := sound.end_of_arc relation arc e node
    rw [has_connect] at has
    rw [endOf_connect]
    grind
  · intro relation arc e node _
    have before := sound.arc_iff relation arc e node
    have possible := sound.end_of_arc relation arc e node
    rw [has_connect, endOf_connect]
    by_cases own : e = edge
    · subst own
      cases ending : d.endOf relation e with
      | none => simpa [ending] using possible
      | some p =>
        have fits := sound.end_fits relation e p ending
        cases p with
        | free position => simp [Endpoint.node?, Endpoint.link?]
        | stranded => exact fits.elim
        | connected n anchor =>
          have present : d.contains n = true := contains_of_node? fits
          simp [Endpoint.node?, Endpoint.link?]
          grind
    · simp only [own, false_and, if_false]
      exact before (by simpa using Ne.symm own)
  · intro relation e p given
    rw [endOf_connect] at given
    refine (sound.end_fits relation e p given).congr ?_
    simp only [node?, find?_connect, implies_true]

/-- Putting the children of an element in another order. -/
theorem reorder (change : List String → List String) (sound : d.Sound unlinked unplaced)
    (same : (change (d.childIds id)).Perm (d.childIds id)) :
    (d.modify id fun e => { e with children := change e.children }).Sound unlinked unplaced :=
  sound.of_places (.reorder change same) (sound.drawn.congr (.reorder change)) sound.links_proper

end Sound

/-- Only an element that is there can be topmost. -/
theorem Consistent.not_mem_top (consistent : d.Consistent) (absent : d.contains id = false) : id ∉ d.top := by
  intro topmost
  rw [((consistent.mem_top id).1 topmost).1] at absent
  cases absent

theorem Consistent.nodup_children_state [Coordinate α] {s : Snapshot α}
    (consistent : d.Consistent) (state : d.state? id = some s) : s.children.Nodup := by
  obtain ⟨e, found, rfl⟩ := Option.map_eq_some_iff.1 state
  have distinct := consistent.children_nodup id
  simp only [childIds, found, Option.elim_some] at distinct
  exact distinct

end Document
end LiveDiagram
