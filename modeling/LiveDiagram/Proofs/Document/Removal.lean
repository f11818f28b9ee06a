import LiveDiagram.Proofs.Document.Consistent

/-! Taking an element and all below it out of a document. Nothing else changes when no end of another edge is
at a node that leaves. -/
namespace LiveDiagram.Document

variable {α : Type} {d : Document α} {id x : String}

theorem mem_subtree_self : id ∈ d.subtree id :=
  Links.mem_subtree.2 .refl

/-- What is in a subtree is there with all its children. -/
theorem mem_subtree_of_parent (consistent : d.Consistent) {parent child : String}
    (nested : d.parentOf child = some parent) (member : parent ∈ d.subtree id) : child ∈ d.subtree id :=
  Links.mem_subtree.2 (.tail (Links.mem_subtree.1 member) ((consistent.nests_iff parent child).2 nested))

/-- What is in a subtree is its root or has its parent in it. -/
theorem exists_parent_mem_subtree (consistent : d.Consistent) (member : x ∈ d.subtree id) (below : x ≠ id) :
    ∃ parent ∈ d.subtree id, d.parentOf x = some parent := by
  rcases (Links.mem_subtree.1 member).cases_tail with same | ⟨parent, path, nests⟩
  · exact (below same).elim
  · exact ⟨parent, Links.mem_subtree.2 path, (consistent.nests_iff parent x).1 nests⟩

theorem contains_of_mem_subtree (consistent : d.Consistent) (present : d.contains id = true)
    (member : x ∈ d.subtree id) : d.contains x = true := by
  by_cases root : x = id
  · exact root ▸ present
  · obtain ⟨parent, _, nested⟩ := exists_parent_mem_subtree consistent member root
    exact contains_of_parentOf nested

/-- Of the children of an element outside a subtree at most its root is in it. -/
theorem children_outside (consistent : d.Consistent) {e : Element α} (outside : x ∉ d.subtree id)
    (found : d.find? x = some e) :
    (if d.parentOf id = some x then e.children.filter (· ≠ id) else e.children) =
      e.children.filter (!(d.subtree id).contains ·) := by
  have nested (child : String) : child ∈ e.children ↔ d.parentOf child = some x := by
    rw [← consistent.mem_children, childIds, found, Option.elim_some]
  have inside (child : String) (member : child ∈ e.children) : child ∈ d.subtree id ↔ child = id := by
    constructor
    · intro below
      by_contra other
      obtain ⟨parent, inner, held⟩ := exists_parent_mem_subtree consistent below other
      rw [(nested child).1 member] at held
      cases held
      exact outside inner
    · rintro rfl
      exact mem_subtree_self
  split
  · apply List.filter_congr
    intro child member
    simp [inside child member]
  · next other =>
    refine (List.filter_eq_self.2 fun child member => ?_).symm
    have apart : child ≠ id := fun same => other ((nested id).1 (same ▸ member))
    simp [inside child member, apart]

/-- No edge outside the subtree has an end at a node in it. -/
def Loose (d : Document α) (id : String) : Prop :=
  ∀ relation edge node anchor, edge ∉ d.subtree id →
    d.endOf relation edge = some (.connected node anchor) → node ∉ d.subtree id

variable [Coordinate α]

/-- The document without an element and all below it. -/
def expel (d : Document α) (id : String) : Document α :=
  (d.detach id).unregister (d.subtree id)

theorem strand_of_not_mem {ids : List String} {p : Endpoint α}
    (apart : ∀ node anchor, p = .connected node anchor → node ∉ ids) : d.strand ids p = p := by
  cases p with
  | free position => rfl
  | stranded node anchor position => rfl
  | connected node anchor => simp [strand, apart node anchor rfl]

/-- An element that stays loses at most the root of the subtree from its children. -/
theorem find?_expel (loose : d.Loose id) :
    (d.expel id).find? x = if x ∈ d.subtree id then none else (d.find? x).map fun e =>
      { e with children := if d.parentOf id = some x then e.children.filter (· ≠ id) else e.children } := by
  unfold expel
  rw [find?_unregister, find?_detach]
  by_cases leaves : x ∈ d.subtree id
  · simp only [leaves, if_true]
  · have other : x ≠ id := fun same => leaves (same ▸ mem_subtree_self)
    simp only [leaves, other, if_false]
    cases found : d.find? x with
    | none => rfl
    | some e =>
      have still (relation : Relation) (p : Endpoint α) (ending : e.end? relation = some p) :
          (d.detach id).strand (d.subtree id) p = p :=
        strand_of_not_mem fun node anchor same =>
          loose relation x node anchor leaves (endOf_eq_some.2 ⟨e, found, same ▸ ending⟩)
      rcases e with ⟨_, _, content, _, _, _, _⟩
      cases content with
      | node content => rfl
      | edge start stop => simp [Element.mapEnds, still .start start rfl, still .stop stop rfl]

theorem contains_expel (loose : d.Loose id) :
    (d.expel id).contains x = true ↔ d.contains x = true ∧ x ∉ d.subtree id := by
  unfold contains
  rw [find?_expel loose]
  by_cases leaves : x ∈ d.subtree id <;> simp [leaves]

theorem parentOf_expel (loose : d.Loose id) :
    (d.expel id).parentOf x = if x ∈ d.subtree id then none else d.parentOf x := by
  unfold parentOf
  rw [find?_expel loose]
  by_cases leaves : x ∈ d.subtree id
  · simp [leaves]
  · cases d.find? x <;> simp [leaves]

theorem childIds_expel (loose : d.Loose id) :
    (d.expel id).childIds x =
      if x ∈ d.subtree id then []
      else if d.parentOf id = some x then (d.childIds x).filter (· ≠ id) else d.childIds x := by
  unfold childIds
  rw [find?_expel loose]
  by_cases leaves : x ∈ d.subtree id
  · simp [leaves]
  · cases d.find? x <;> simp [leaves]

theorem endOf_expel (loose : d.Loose id) {relation : Relation} :
    (d.expel id).endOf relation x = if x ∈ d.subtree id then none else d.endOf relation x := by
  unfold endOf
  rw [find?_expel loose]
  by_cases leaves : x ∈ d.subtree id
  · simp [leaves]
  · cases d.find? x with
    | none => simp
    | some e =>
      simp only [leaves, if_false, Option.map_some, Option.bind_some]
      rfl

theorem isSome_node?_expel (loose : d.Loose id) :
    ((d.expel id).node? x).isSome = true ↔ (d.node? x).isSome = true ∧ x ∉ d.subtree id := by
  simp only [isSome_node?]
  rw [find?_expel loose]
  by_cases leaves : x ∈ d.subtree id
  · simp [leaves]
  · cases d.find? x with
    | none => simp
    | some e =>
      simp only [leaves, if_false, Option.map_some, Option.any_some, not_false_eq_true, and_true]
      exact Iff.rfl

theorem has_expel {s t : String} {r : Relation} :
    Links.has (d.expel id).links s r t = true ↔
      Links.has d.links s r t = true ∧ s ∉ d.subtree id ∧ t ∉ d.subtree id := by
  unfold expel unregister
  rw [Links.has_forget, has_detach]
  have root : id ∈ d.subtree id := mem_subtree_self
  grind

theorem top_expel : (d.expel id).top = if d.parentOf id = none then d.top.erase id else d.top := by
  unfold expel unregister
  exact top_detach

theorem handles_expel : (d.expel id).handles = d.handles.filter fun h => !(d.subtree id).contains h.id := by
  unfold expel
  rw [handles_unregister, handles_detach]

theorem surroundings_expel : (d.expel id).surroundings = d.surroundings := by
  unfold expel unregister detach
  split <;> rfl

theorem births_expel : (d.expel id).births = d.births := by
  unfold expel unregister detach
  split <;> rfl

/-- The arcs of the edges that stay lead where they led. -/
theorem Drawn.expel (drawn : d.Drawn none) (loose : d.Loose id) : (d.expel id).Drawn none where
  end_of_arc relation arc edge node has := by
    rw [has_expel] at has
    have before := drawn.end_of_arc relation arc edge node has.1
    rw [endOf_expel loose, if_neg has.2.1]
    exact before
  arc_iff relation arc edge node _ := by
    have before := drawn.arc_iff relation arc edge node (by simp)
    have apart := loose relation edge node
    rw [has_expel, endOf_expel loose]
    grind
  end_fits relation edge p given := by
    rw [endOf_expel loose] at given
    have stays : edge ∉ d.subtree id := by
      intro member
      simp [member] at given
    rw [if_neg stays] at given
    have fits := drawn.end_fits relation edge p given
    cases p with
    | free position => trivial
    | stranded => exact fits.elim
    | connected node anchor => exact (isSome_node?_expel loose).2 ⟨fits, loose relation edge node anchor stays given⟩

theorem Consistent.expel (consistent : d.Consistent) (loose : d.Loose id) : (d.expel id).Consistent := by
  have down {parent child : String} (nested : d.parentOf child = some parent) :
      parent ∈ d.subtree id → child ∈ d.subtree id := mem_subtree_of_parent consistent nested
  have up {parent child : String} (nested : d.parentOf child = some parent) (below : child ≠ id) :
      child ∈ d.subtree id → parent ∈ d.subtree id := by
    intro member
    obtain ⟨holder, inside, held⟩ := exists_parent_mem_subtree consistent member below
    rw [nested] at held
    cases held
    exact inside
  have root : id ∈ d.subtree id := mem_subtree_self
  have drawn := consistent.drawn.expel loose
  refine { drawn with
    ids_nodup := ?_
    births_lt := ?_
    mem_children := ?_
    children_nodup := ?_
    nests_iff := ?_
    top_nodup := ?_
    mem_top := ?_
    links_proper := (proper_detach consistent.links_proper).forget }
  · rw [handles_expel]
    exact consistent.ids_nodup.sublist (List.filter_sublist.map Handle.id)
  · rw [handles_expel, births_expel]
    exact fun h member => consistent.births_lt h (List.mem_filter.1 member).1
  · intro parent child
    have before := consistent.mem_children parent child
    rw [childIds_expel loose, parentOf_expel loose]
    grind
  · intro parent
    have before := consistent.children_nodup parent
    rw [childIds_expel loose]
    split
    · exact List.nodup_nil
    · split
      · exact before.filter _
      · exact before
  · intro parent child
    have before := consistent.nests_iff parent child
    rw [has_expel, parentOf_expel loose]
    grind
  · rw [top_expel]
    split
    · exact consistent.top_nodup.erase id
    · exact consistent.top_nodup
  · intro x
    have before := consistent.mem_top x
    have erased := consistent.top_nodup.mem_erase_iff (a := x) (b := id)
    have inner : x ∈ d.subtree id → x ≠ id → d.parentOf x ≠ none := by
      intro member below
      obtain ⟨parent, _, nested⟩ := exists_parent_mem_subtree consistent member below
      simp [nested]
    rw [top_expel, contains_expel loose, parentOf_expel loose]
    grind

end LiveDiagram.Document
