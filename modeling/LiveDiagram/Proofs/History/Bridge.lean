import LiveDiagram.Proofs.Document.Agreement
import LiveDiagram.Proofs.Edit.Recording
import LiveDiagram.Proofs.History.Leads

/-! Actions between two documents. The states before and after an action are those of the two documents, and what
the action does not list is the same in both. From a document like the one after it, the states before it lead back
to one like the other. -/
namespace LiveDiagram

variable {α : Type} [Coordinate α]

/-- Two lists of states over the same ids, each of its own document, where the documents agree on all other ids. An
element that is in both documents has kept its kind, its parent and its box. -/
structure Bridge (states states' : States α) (p q : Document α) : Prop where
  consistent : p.Consistent
  consistent' : q.Consistent
  tidy : p.Tidy
  tidy' : q.Tidy
  distinct : states.ids.Nodup
  distinct' : states'.ids.Nodup
  ids : ∀ x, x ∈ states.ids ↔ x ∈ states'.ids
  given : ∀ x s, (x, s) ∈ states → s = p.state? x
  given' : ∀ x s, (x, s) ∈ states' → s = q.state? x
  rest : ∀ x, x ∉ states.ids → p.AgreesAt q x
  survivors : ∀ x e f, p.find? x = some e → q.find? x = some f →
    e.kind = f.kind ∧ e.parent = f.parent ∧ e.box? = f.box?

namespace Bridge
variable {states states' : States α} {p q d d' : Document α} {x : String}

theorem symm [PartialEquivBEq α] (bridge : Bridge states states' p q) : Bridge states' states q p where
  consistent := bridge.consistent'
  consistent' := bridge.consistent
  tidy := bridge.tidy'
  tidy' := bridge.tidy
  distinct := bridge.distinct'
  distinct' := bridge.distinct
  ids x := (bridge.ids x).symm
  given := bridge.given'
  given' := bridge.given
  rest x unlisted := (bridge.rest x fun listed => unlisted ((bridge.ids x).1 listed)).symm bridge.tidy bridge.tidy'
  survivors x e f found found' := by
    obtain ⟨kind, parent, box⟩ := bridge.survivors x f e found' found
    exact ⟨kind.symm, parent.symm, box.symm⟩

/-- What lies below elements that are to be absent is to be absent too: it has kept its parent if it was there. -/
theorem absent_of_below (bridge : Bridge states states' p q) (alike : d.Alike q) (consistent : d.Consistent)
    (below : d.Below states.absent x) : p.contains x = false := by
  obtain ⟨root, listed, _, inside⟩ := below
  have path := Links.mem_subtree.1 inside
  induction path with
  | refl =>
    rw [Document.not_contains_iff]
    exact Option.map_eq_none_iff.1 (bridge.given root none (States.mem_absent.1 listed)).symm
  | @tail parent child above nests ih =>
    have gone := ih (Links.mem_subtree.2 above)
    rw [← Bool.not_eq_true]
    intro there
    have nested : q.parentOf child = some parent := by
      rw [← (alike.states child).parentOf]
      exact (consistent.nests_iff parent child).1 nests
    obtain ⟨f, found', held⟩ := Document.parentOf_eq_some.1 nested
    obtain ⟨e, found⟩ := Document.contains_iff_find?.1 there
    have kept := (bridge.survivors child e f found found').2.1
    have present := bridge.consistent.contains_parent (Document.parentOf_eq_some.2 ⟨e, found, kept.trans held⟩)
    rw [gone] at present
    cases present

/-- The states before an action lead back from any document like the one after it. -/
theorem lead (bridge : Bridge states states' p q) (alike : d.Alike q) (consistent : d.Consistent) :
    states.Lead d p where
  consistent := consistent
  goal_consistent := bridge.consistent
  distinct := bridge.distinct
  goal := bridge.given
  others x unlisted := by
    have first := alike.states x
    have second := bridge.rest x unlisted
    exact ⟨first.contains.trans second.contains.symm, first.parentOf.trans second.parentOf.symm,
      first.childIds.trans second.childIds.symm, first.isSome_node?.trans second.isSome_node?.symm⟩
  whole x below := by
    by_contra unlisted
    have gone := bridge.absent_of_below alike consistent below
    have there := below.contains consistent
    rw [(alike.states x).contains, ← (bridge.rest x unlisted).contains, gone] at there
    cases there
  loose relation edge node anchor unlisted ending below := by
    have connected := (alike.states edge).connected_iff consistent bridge.consistent' |>.1 ending
    have connected' := (bridge.rest edge unlisted).connected_iff bridge.consistent bridge.consistent' |>.2 connected
    have fits : p.Fits (.connected node anchor) := bridge.consistent.end_fits relation edge _ connected'
    have gone := Document.not_contains_iff.1 (bridge.absent_of_below alike consistent below)
    simp [Document.Fits, Document.isSome_node?, gone] at fits
  kinds x s e listed found _ := by
    have state := bridge.given x _ listed
    obtain ⟨g, goal, rfl⟩ := Option.map_eq_some_iff.1 state.symm
    have there : q.contains x = true := by
      rw [← (alike.states x).contains]
      exact Document.contains_of_find? found
    obtain ⟨f, found'⟩ := Document.contains_iff_find?.1 there
    rw [(alike.states x).kind found found', ← (bridge.survivors x g f goal found').1]
    exact Document.kind_snapshot.symm

/-- A node that is in both documents is in the same box. -/
theorem boxOf_eq (bridge : Bridge states states' p q) (here : p.contains x = q.contains x) : p.boxOf x = q.boxOf x := by
  unfold Document.boxOf
  cases found : p.find? x with
  | none =>
    rw [Document.not_contains_iff.2 found] at here
    rw [Document.not_contains_iff.1 here.symm]
  | some e =>
    rw [Document.contains_of_find? found] at here
    obtain ⟨f, found'⟩ := Document.contains_iff_find?.1 here.symm
    rw [found']
    exact (bridge.survivors x e f found found').2.2

/-- An action that lists nothing changes nothing. -/
theorem alike_of_nil (bridge : Bridge [] [] p q) : p.Alike q where
  states x := bridge.rest x List.not_mem_nil
  boxes x := bridge.boxOf_eq (bridge.rest x List.not_mem_nil).contains

/-- The document that a restore of the states before an action leaves: listed elements are reborn from the document
before it, those to be absent are gone, and the others are as they were. -/
structure Restored (states : States α) (p d d' : Document α) : Prop where
  consistent : d'.Consistent
  rest : ∀ x, x ∉ states.ids → d'.find? x = d.find? x
  absent : ∀ x, (x, none) ∈ states → d'.find? x = none
  reborn : ∀ x s, (x, some s) ∈ states → d'.Reborn p x

theorem boxOf_restored (bridge : Bridge states states' p q) (alike : d.Alike q) (restored : Restored states p d d')
    (x : String) : d'.boxOf x = p.boxOf x := by
  by_cases listed : x ∈ states.ids
  · obtain ⟨⟨x, state⟩, entry, rfl⟩ := List.mem_map.1 listed
    cases state with
    | none =>
      have missing : p.find? x = none := Option.map_eq_none_iff.1 (bridge.given x none entry).symm
      simp only [Document.boxOf, restored.absent x entry, missing]
    | some s =>
      obtain ⟨e, g, found, goal, same⟩ := restored.reborn x s entry
      simp only [Document.boxOf, found, goal, Option.bind_some]
      rw [same]
      rfl
  · have same : d'.boxOf x = d.boxOf x := by
      unfold Document.boxOf
      rw [restored.rest x listed]
    rw [same, alike.boxes x]
    exact (bridge.boxOf_eq (bridge.rest x listed).contains).symm

/-- An element that is not listed keeps its state, for so do the nodes that it is connected to. -/
theorem state?_restored (bridge : Bridge states states' p q) (alike : d.Alike q) (consistent : d.Consistent)
    (restored : Restored states p d d') (unlisted : x ∉ states.ids) : d'.state? x = d.state? x := by
  refine Document.state?_congr (restored.rest x unlisted) fun relation node anchor ending => ?_
  have after := (alike.states x).connected_iff consistent bridge.consistent' |>.1 ending
  have before := (bridge.rest x unlisted).connected_iff bridge.consistent bridge.consistent' |>.2 after
  have present {d : Document α} (consistent : d.Consistent)
      (connected : d.endOf relation x = some (.connected node anchor)) : d.contains node = true := by
    have fits : (d.node? node).isSome = true := consistent.end_fits relation x _ connected
    rw [Document.isSome_node?, Option.any_eq_true] at fits
    obtain ⟨n, found, _⟩ := fits
    exact Document.contains_of_find? found
  rw [bridge.boxOf_restored alike restored, alike.boxes node]
  exact bridge.boxOf_eq ((present bridge.consistent before).trans (present bridge.consistent' after).symm)

/-- A restore of the states before an action makes a document like the one before it. -/
theorem alike_restored [PartialEquivBEq α] (bridge : Bridge states states' p q) (alike : d.Alike q)
    (consistent : d.Consistent) (tidy : d.Tidy) (restored : Restored states p d d') : d'.Alike p := by
  refine ⟨fun x => ?_, bridge.boxOf_restored alike restored⟩
  by_cases listed : x ∈ states.ids
  · apply Document.agreesAt_of_eq
    obtain ⟨⟨x, state⟩, entry, rfl⟩ := List.mem_map.1 listed
    cases state with
    | none =>
      rw [← bridge.given x none entry, Document.state?, restored.absent x entry]
      rfl
    | some s =>
      obtain ⟨e, g, found, goal, same⟩ := restored.reborn x s entry
      have state : d'.snapshot e = p.snapshot e :=
        Document.snapshot_congr fun _ node _ _ => bridge.boxOf_restored alike restored node
      rw [Document.state?_of_find? found, Document.state?_of_find? goal, state, same]
      rfl
  · have agrees : d.AgreesAt p x := (alike.states x).trans tidy bridge.tidy' bridge.tidy
      ((bridge.rest x listed).symm bridge.tidy bridge.tidy')
    unfold Document.AgreesAt
    rw [bridge.state?_restored alike consistent restored listed]
    exact agrees

theorem tidy_restored (bridge : Bridge states states' p q) (tidy : d.Tidy) (restored : Restored states p d d') :
    d'.Tidy := by
  intro x e found
  by_cases listed : x ∈ states.ids
  · obtain ⟨⟨x, state⟩, entry, rfl⟩ := List.mem_map.1 listed
    cases state with
    | none =>
      rw [restored.absent x entry] at found
      cases found
    | some s =>
      obtain ⟨e', g, found', goal, same⟩ := restored.reborn x s entry
      cases found.symm.trans found'
      rw [same]
      exact bridge.tidy x g goal
  · rw [restored.rest x listed] at found
    exact tidy x e found

end Bridge
end LiveDiagram
