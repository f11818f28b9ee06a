import LiveDiagram.Proofs.Document.Removal

/-! What the removal of elements makes of those that stay. They keep everything but their ends at nodes that leave,
which come free where they are, and the removed ones among their children. -/
namespace LiveDiagram

variable {α : Type}

theorem Element.mapEnds_congr {f g : Endpoint α → Endpoint α} {e : Element α}
    (same : ∀ relation p, e.end? relation = some p → f p = g p) : e.mapEnds f = e.mapEnds g := by
  rcases e with ⟨_, _, content, _, _, _, _⟩
  cases content with
  | node content => rfl
  | edge start stop => simp [Element.mapEnds, same .start start rfl, same .stop stop rfl]

theorem Element.mapEnds_mapEnds (f g : Endpoint α → Endpoint α) (e : Element α) :
    (e.mapEnds f).mapEnds g = e.mapEnds (g ∘ f) := by
  rcases e with ⟨_, _, content, _, _, _, _⟩
  cases content <;> rfl

theorem Element.mapEnds_self {f : Endpoint α → Endpoint α} {e : Element α}
    (same : ∀ relation p, e.end? relation = some p → f p = p) : e.mapEnds f = e := by
  rcases e with ⟨_, _, content, _, _, _, _⟩
  cases content with
  | node content => rfl
  | edge start stop => simp [Element.mapEnds, same .start start rfl, same .stop stop rfl]

theorem Element.end?_mapEnds {f : Endpoint α → Endpoint α} {e : Element α} {relation : Relation} :
    (e.mapEnds f).end? relation = (e.end? relation).map f := by
  rcases e with ⟨_, _, content, _, _, _, _⟩
  cases content <;> cases relation <;> rfl

theorem Element.box?_mapEnds (f : Endpoint α → Endpoint α) (e : Element α) : (e.mapEnds f).box? = e.box? := by
  rcases e with ⟨_, _, content, _, _, _, _⟩
  cases content <;> rfl

theorem Element.parent_mapEnds (f : Endpoint α → Endpoint α) (e : Element α) : (e.mapEnds f).parent = e.parent := by
  unfold Element.mapEnds
  split <;> rfl

theorem Element.children_mapEnds (f : Endpoint α → Endpoint α) (e : Element α) :
    (e.mapEnds f).children = e.children := by
  unfold Element.mapEnds
  split <;> rfl

namespace Document
variable {d d' : Document α} {id x : String}

theorem mem_subtree_congr (consistent : d.Consistent) (consistent' : d'.Consistent)
    (same : ∀ x, d'.parentOf x = d.parentOf x) : x ∈ d'.subtree id ↔ x ∈ d.subtree id := by
  unfold subtree
  rw [Links.mem_subtree, Links.mem_subtree]
  have nests : Links.Nests d'.links = Links.Nests d.links := by
    funext parent child
    unfold Links.Nests
    rw [eq_iff_iff, consistent'.nests_iff, consistent.nests_iff, same]
  rw [nests]

theorem fits_free {position : Point α} : d.Fits (.free position) := trivial

variable [Coordinate α]

theorem unregister_congr {ids ids' : List String} (same : ∀ x, x ∈ ids ↔ x ∈ ids') :
    d.unregister ids = d.unregister ids' := by
  have contains : ∀ x, ids.contains x = ids'.contains x := by
    intro x
    rw [Bool.eq_iff_iff, List.contains_iff_mem, List.contains_iff_mem, same]
  have strand : d.strand ids = d.strand ids' := by
    funext p
    unfold strand
    simp only [contains]
  simp only [unregister, strand, Links.forget, contains]

/-- An end let go by the nodes of the given ids, in place. -/
def release (d : Document α) (ids : List String) : Endpoint α → Endpoint α
  | .connected node anchor =>
    if node ∈ ids then .free (d.positionOf (.connected node anchor)) else .connected node anchor
  | .free position => .free position
  | .stranded node anchor position => .stranded node anchor position

theorem release_congr {ids : List String} (same : ∀ node, d'.boxOf node = d.boxOf node) :
    d'.release ids = d.release ids := by
  funext p
  cases p with
  | free position => rfl
  | stranded node anchor position => rfl
  | connected node anchor =>
    have center : d'.positionOf (.connected node anchor) = d.positionOf (.connected node anchor) :=
      positionOf_congr fun other _ _ => same other
    simp only [release, center]

theorem release_of_not_mem {ids : List String} {p : Endpoint α}
    (apart : ∀ node anchor, p = .connected node anchor → node ∉ ids) : d.release ids p = p := by
  cases p with
  | free position => rfl
  | stranded node anchor position => rfl
  | connected node anchor => simp [release, apart node anchor rfl]

theorem release_eq_connected {ids : List String} {p : Endpoint α} {node anchor : String} :
    d.release ids p = .connected node anchor ↔ p = .connected node anchor ∧ node ∉ ids := by
  cases p with
  | free position => simp [release]
  | stranded other anchor position => simp [release]
  | connected other anchor' =>
    unfold release
    by_cases gone : other ∈ ids
    · simp only [gone, if_true, reduceCtorEq, false_iff, not_and, not_not, Endpoint.connected.injEq]
      rintro ⟨rfl, rfl⟩
      exact gone
    · simp only [gone, if_false, Endpoint.connected.injEq]
      grind

theorem release_release (first second : List String) (p : Endpoint α) :
    d.release second (d.release first p) = d.release (second ++ first) p := by
  cases p with
  | free position => rfl
  | stranded node anchor position => rfl
  | connected node anchor =>
    by_cases early : node ∈ first <;> by_cases late : node ∈ second <;> simp [release, early, late]

theorem release_congr_mem {ids ids' : List String} (same : ∀ x, x ∈ ids ↔ x ∈ ids') :
    d.release ids = d.release ids' := by
  funext p
  cases p <;> simp [release, same]

theorem release_singleton {node : String} {p : Endpoint α} :
    d.release [node] p = if p.isAt node then .free (d.positionOf p) else p := by
  cases p with
  | free position => rfl
  | stranded other anchor position => rfl
  | connected other anchor => simp [release, Endpoint.isAt]

/-- What the removal of elements makes of one that stays. -/
def bereft (d : Document α) (ids : List String) (e : Element α) : Element α :=
  { e.mapEnds (d.release ids) with children := e.children.filter (!ids.contains ·) }

/-- The elements of the given ids are gone, and the others are bereft of them. -/
def Cleared (d : Document α) (ids : List String) (d' : Document α) : Prop :=
  ∀ x, d'.find? x = if x ∈ ids then none else (d.find? x).map (d.bereft ids)

theorem box?_bereft {ids : List String} (e : Element α) : (d.bereft ids e).box? = e.box? :=
  Element.box?_mapEnds _ e

theorem parent_bereft {ids : List String} (e : Element α) : (d.bereft ids e).parent = e.parent :=
  Element.parent_mapEnds _ e

theorem kind_bereft {ids : List String} (e : Element α) : (d.bereft ids e).kind = e.kind := by
  rcases e with ⟨_, _, content, _, _, _, _⟩
  cases content <;> rfl

theorem isLabelled_bereft {ids : List String} (e : Element α) : (d.bereft ids e).isLabelled = e.isLabelled := by
  obtain ⟨_, _, content, _, _, _, _⟩ := e
  cases content <;> rfl

theorem handle_bereft {ids : List String} (e : Element α) : (d.bereft ids e).handle = e.handle :=
  Element.handle_mapEnds _ e

/-- An element that has nothing to do with those that leave. -/
theorem bereft_eq {ids : List String} {e : Element α}
    (loose : ∀ relation node anchor, e.end? relation = some (.connected node anchor) → node ∉ ids)
    (apart : ∀ child ∈ e.children, child ∉ ids) : d.bereft ids e = e := by
  have ends : e.mapEnds (d.release ids) = e := by
    apply Element.mapEnds_self
    intro relation p ending
    exact release_of_not_mem fun node anchor same => loose relation node anchor (same ▸ ending)
  have children : e.children.filter (!ids.contains ·) = e.children :=
    List.filter_eq_self.2 fun child member => by simp [apart child member]
  unfold bereft
  rw [ends, children]

namespace Cleared
variable {d d' d'' : Document α} {ids more : List String} {x : String}

theorem refl (d : Document α) : d.Cleared [] d := by
  intro x
  rw [if_neg List.not_mem_nil]
  cases d.find? x with
  | none => rfl
  | some e => rw [Option.map_some, bereft_eq (by simp) (by simp)]

theorem boxOf (cleared : d.Cleared ids d') (stays : x ∉ ids) : d'.boxOf x = d.boxOf x := by
  unfold Document.boxOf
  rw [cleared, if_neg stays]
  cases d.find? x with
  | none => rfl
  | some e => exact box?_bereft e

theorem parentOf (cleared : d.Cleared ids d') (stays : x ∉ ids) : d'.parentOf x = d.parentOf x := by
  unfold Document.parentOf
  rw [cleared, if_neg stays]
  cases d.find? x with
  | none => rfl
  | some e => exact parent_bereft e

theorem contains (cleared : d.Cleared ids d') : d'.contains x = true ↔ d.contains x = true ∧ x ∉ ids := by
  unfold Document.contains
  rw [cleared]
  by_cases gone : x ∈ ids <;> simp [gone]

/-- Elements that leave one lot after another have left together. -/
theorem trans (cleared : d.Cleared ids d') (next : d'.Cleared more d'') : d.Cleared (more ++ ids) d'' := by
  have both (p : Endpoint α) : d'.release more (d.release ids p) = d.release (more ++ ids) p := by
    rw [← release_release]
    cases released : d.release ids p with
    | free position => rfl
    | stranded node anchor position => rfl
    | connected node anchor =>
      have stays := (release_eq_connected.1 released).2
      have center : d'.positionOf (.connected node anchor) = d.positionOf (.connected node anchor) :=
        positionOf_congr fun _ _ same => cleared.boxOf (by cases same; exact stays)
      simp only [release, center]
  intro x
  rw [next, cleared]
  by_cases late : x ∈ more <;> by_cases early : x ∈ ids <;> simp only [late, early, List.mem_append, or_true,
    or_false, if_true, if_false, Option.map_none]
  cases d.find? x with
  | none => rfl
  | some e =>
    simp only [Option.map_some, Option.some.injEq, bereft]
    rcases e with ⟨_, _, content, _, _, _, _⟩
    cases content <;> simp [Element.mapEnds, both, List.filter_filter, Bool.and_comm]

/-- Below an element that stays there is what was there before and is not among those that left with all below
them. -/
theorem mem_subtree (cleared : d.Cleared ids d') (consistent : d.Consistent) (consistent' : d'.Consistent)
    (whole : ∀ parent child, d.parentOf child = some parent → parent ∈ ids → child ∈ ids) {root : String}
    (stays : x ∉ ids) : x ∈ d'.subtree root ↔ x ∈ d.subtree root := by
  have kept {parent child : String} (remains : child ∉ ids) :
      Links.Nests d'.links parent child ↔ Links.Nests d.links parent child := by
    unfold Links.Nests
    rw [consistent'.nests_iff, consistent.nests_iff, cleared.parentOf remains]
  unfold subtree
  rw [Links.mem_subtree, Links.mem_subtree]
  constructor
  · intro path
    induction path with
    | refl => exact .refl
    | @tail parent child _ nests ih =>
      have nested := (kept stays).1 nests
      have above : parent ∉ ids := fun gone => stays (whole parent child ((consistent.nests_iff parent child).1 nested) gone)
      exact .tail (ih above) nested
  · intro path
    induction path with
    | refl => exact .refl
    | @tail parent child _ nests ih =>
      have above : parent ∉ ids := fun gone => stays (whole parent child ((consistent.nests_iff parent child).1 nests) gone)
      exact .tail (ih above) ((kept stays).2 nests)

end Cleared
end Document
end LiveDiagram
