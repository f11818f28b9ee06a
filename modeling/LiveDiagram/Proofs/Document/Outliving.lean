import LiveDiagram.Proofs.Document.Release

/-! What the removal of elements leaves of one that stays. Its ends at nodes that are gone come free at their centers,
so that nothing moves, and everything else but its children is as it was. -/
namespace LiveDiagram

variable {α : Type} [Coordinate α]

/-- An element that stays, before and after others have gone. -/
structure Document.Outlives (d d' : Document α) (gone : String → Prop) (e e' : Element α) : Prop where
  same : { e' with content := e.content, children := e.children } = e
  content : e.isNode = true → e'.content = e.content
  freed : ∀ relation node anchor, e.end? relation = some (.connected node anchor) → gone node →
    ∃ n content, d.find? node = some n ∧ n.content = .node content ∧ e'.end? relation = some (.free content.bounds.center)
  kept : ∀ relation p, e.end? relation = some p → (∀ node anchor, p = .connected node anchor → ¬gone node) →
    e'.end? relation = some p ∧ d'.positionOf p = d.positionOf p
  bounds : d'.boundsOf e' = d.boundsOf e
  state : (∀ relation node anchor, e.end? relation = some (.connected node anchor) → ¬gone node) →
    e'.children = e.children → d'.snapshot e' = d.snapshot e

namespace Document
variable {d d' : Document α} {ids : List String} {e : Element α} {p : Endpoint α} {x node anchor : String}

omit [Coordinate α] in
/-- The node of an end that fits. -/
theorem exists_node_of_fits (fits : d.Fits (.connected node anchor)) :
    ∃ n content, d.find? node = some n ∧ n.content = .node content := by
  have there : (d.node? node).isSome = true := fits
  rw [isSome_node?, Option.any_eq_true] at there
  obtain ⟨n, found, isNode⟩ := there
  unfold Element.isNode Element.kind at isNode
  rcases own : n.content with content | _
  · exact ⟨n, content, found, own⟩
  · rw [own] at isNode
    cases isNode

theorem positionOf_of_node {n : Element α} {content : NodeContent α} (found : d.find? node = some n)
    (isNode : n.content = .node content) : d.positionOf (.connected node anchor) = content.bounds.center := by
  rw [positionOf_connected, boxOf, found, Option.bind_some, Element.box?, isNode]
  rfl

/-- An end that is let go stays in its place. -/
theorem positionOf_release (boxes : ∀ node anchor, p = .connected node anchor → node ∉ ids → d'.boxOf node = d.boxOf node) :
    d'.positionOf (d.release ids p) = d.positionOf p := by
  cases p with
  | free | stranded => rfl
  | connected node anchor =>
    by_cases gone : node ∈ ids
    · rw [release, if_pos gone]
      rfl
    · rw [release, if_neg gone]
      refine positionOf_congr fun other anchor same => boxes other anchor same ?_
      cases same
      exact gone

/-- Whatever becomes of its children, an element bereft of others outlives them where the boxes of nodes that stay do
not change. -/
theorem outlives_bereft (consistent : d.Consistent) (found : d.find? x = some e) (children : List String)
    (boxes : ∀ node, d.contains node = true → node ∉ ids → d'.boxOf node = d.boxOf node) :
    d.Outlives d' (· ∈ ids) e { d.bereft ids e with children := children } := by
  have fits (relation : Relation) (p : Endpoint α) (ending : e.end? relation = some p) : d.Fits p :=
    consistent.end_fits relation x p (endOf_eq_some.2 ⟨e, found, ending⟩)
  have boxes (relation : Relation) (node anchor : String) (ending : e.end? relation = some (.connected node anchor)) :
      node ∉ ids → d'.boxOf node = d.boxOf node := by
    obtain ⟨_, _, there, _⟩ := exists_node_of_fits (fits relation _ ending)
    exact boxes node (contains_of_find? there)
  have ends (relation : Relation) : Element.end? relation { d.bereft ids e with children := children } =
      (e.end? relation).map (d.release ids) := Element.end?_mapEnds
  refine ⟨?_, ?_, ?_, ?_, ?_, ?_⟩
  · obtain ⟨_, _, content, _, _, _, _⟩ := e
    cases content <;> rfl
  · intro isNode
    obtain ⟨_, _, content, _, _, _, _⟩ := e
    cases content with
    | node content => rfl
    | edge => cases isNode
  · intro relation node anchor ending gone
    obtain ⟨n, content, found, isNode⟩ := exists_node_of_fits (fits relation _ ending)
    refine ⟨n, content, found, isNode, ?_⟩
    rw [ends, ending, Option.map_some, release, if_pos gone, positionOf_of_node found isNode]
  · intro relation p ending stays
    refine ⟨by rw [ends, ending, Option.map_some, release_of_not_mem stays], ?_⟩
    refine positionOf_congr fun node anchor same => ?_
    exact boxes relation node anchor (ending.trans (congrArg some same)) (stays node anchor same)
  · have place (relation : Relation) (p : Endpoint α) (ending : e.end? relation = some p) :
        d'.positionOf (d.release ids p) = d.positionOf p :=
      positionOf_release fun node anchor same => boxes relation node anchor (ending.trans (congrArg some same))
    obtain ⟨_, _, content, _, _, _, _⟩ := e
    cases content with
    | node content => rfl
    | edge start stop =>
      have first := place .start start rfl
      have last := place .stop stop rfl
      simp only [boundsOf, bereft, Element.mapEnds, first, last]
  · intro stays unchanged
    have still : e.mapEnds (d.release ids) = e :=
      Element.mapEnds_self fun relation p ending =>
        release_of_not_mem fun node anchor same => stays relation node anchor (ending.trans (congrArg some same))
    have own : { d.bereft ids e with children := children } = e := by
      have children : children = e.children := unchanged
      rw [bereft, still, children]
    rw [own]
    exact snapshot_congr fun relation node anchor ending => boxes relation node anchor ending (stays relation node anchor ending)

end Document
end LiveDiagram
