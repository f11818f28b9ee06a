import LiveDiagram.Proofs.Document.Entry
import LiveDiagram.Proofs.Edit.Sweeping
import LiveDiagram.Proofs.Reconcile.Sites

/-! What a pass can do to a document at one stroke. It revises the element of a declaration in its place, gives a label
its text, brings in a new element, or clears whole subtrees away; which elements it may take for that depends on the
declarations alone. -/
namespace LiveDiagram

variable {α : Type}

/-- A change that leaves an element in its place, and of a node also the box and whether it is a label. -/
structure Element.KeepsBuild (change : Element α → Element α) : Prop extends KeepsPlace change where
  box : ∀ e, (change e).box? = e.box?
  labelled : ∀ e, (change e).isLabelled = e.isLabelled

namespace Element.KeepsBuild

theorem mapNode {change : NodeContent α → NodeContent α} (bounds : ∀ content, (change content).bounds = content.bounds)
    (label : ∀ content, (change content).label = content.label) : KeepsBuild (Element.mapNode change) where
  toKeepsPlace := keepsPlace_mapNode
  box := (KeepsShape.mapNode bounds).box
  labelled e := by
    rcases e with ⟨_, _, content, _, _, _, _⟩
    cases content with
    | node content => exact congrArg Option.isSome (label content)
    | edge => rfl

theorem props {change : Props → Props} : KeepsBuild fun e : Element α => { e with props := change e.props } where
  toKeepsPlace := KeepsShape.props.toKeepsPlace
  box := KeepsShape.props.box
  labelled _ := rfl

theorem metadata {change : Props → Props} :
    KeepsBuild fun e : Element α => { e with metadata := change e.metadata } where
  toKeepsPlace := KeepsShape.metadata.toKeepsPlace
  box := KeepsShape.metadata.box
  labelled _ := rfl

theorem setStart {p : Endpoint α} : KeepsBuild (Element.setStart p) where
  toKeepsPlace := keepsPlace_setStart
  box := box?_setStart
  labelled e := by
    rcases e with ⟨_, _, content, _, _, _, _⟩
    cases content <;> rfl

theorem setStop {p : Endpoint α} : KeepsBuild (Element.setStop p) where
  toKeepsPlace := keepsPlace_setStop
  box := box?_setStop
  labelled e := by
    rcases e with ⟨_, _, content, _, _, _, _⟩
    cases content <;> rfl

theorem same : KeepsBuild fun e : Element α => e :=
  ⟨⟨fun _ => rfl, fun _ => rfl, fun _ => rfl, fun _ => rfl⟩, fun _ => rfl, fun _ => rfl⟩

theorem comp {first second : Element α → Element α} (late : KeepsBuild second) (early : KeepsBuild first) :
    KeepsBuild (second ∘ first) where
  toKeepsPlace := late.toKeepsPlace.comp early.toKeepsPlace
  box e := (late.box _).trans (early.box e)
  labelled e := (late.labelled _).trans (early.labelled e)

end Element.KeepsBuild

/-- The element with another text, if it is a node and one is given. -/
def Element.retext (text : Option String) (e : Element α) : Element α :=
  text.elim e fun text => e.mapNode fun content => { content with text := text }

namespace Document

/-- One element is changed, and nothing else but arcs. -/
structure Changes (d : Document α) (id : String) (change : Element α → Element α) (d' : Document α) : Prop where
  find? : ∀ x, d'.find? x = if x = id then (d.find? x).map change else d.find? x
  top : d'.top = d.top
  births : d'.births = d.births

variable {d d' : Document α} {id : String} {change : Element α → Element α} {e : Element α} {s : Site}

theorem changes_modify (keeps : Element.KeepsPlace change) : d.Changes id change (d.modify id change) :=
  ⟨fun _ => find?_modify keeps.id, rfl, rfl⟩

theorem Changes.connect (changes : d.Changes id change d') : d.Changes id change (d'.connect id) where
  find? x := find?_connect.trans (changes.find? x)
  top := top_connect.trans changes.top
  births := births_connect.trans changes.births

theorem Changes.refl (d : Document α) (id : String) : d.Changes id (fun e => e) d :=
  ⟨fun _ => by rw [Option.map_id', ite_self], rfl, rfl⟩

theorem Changes.trans {d'' : Document α} {change' : Element α → Element α} (first : d.Changes id change d')
    (second : d'.Changes id change' d'') : d.Changes id (change' ∘ change) d'' where
  find? x := by
    rw [second.find?, first.find?]
    split
    · exact Option.map_map ..
    · rfl
  top := second.top.trans first.top
  births := second.births.trans first.births

/-- Whether an id leads to an edge. -/
def IsEdge (d : Document α) (id : String) : Prop :=
  ∃ e, d.find? id = some e ∧ e.isEdge = true

theorem Changes.isEdge {x : String} (changes : d.Changes id change d') (keeps : Element.KeepsPlace change)
    (edge : d.IsEdge x) : d'.IsEdge x := by
  obtain ⟨e, found, isEdge⟩ := edge
  unfold IsEdge
  rw [changes.find?, found]
  split
  · exact ⟨change e, rfl, by rwa [Element.isEdge, keeps.kind]⟩
  · exact ⟨e, rfl, isEdge⟩

theorem mem_inlineLabels (consistent : d.Consistent) :
    e ∈ d.inlineLabels s ↔
      d.find? e.id = some e ∧ e.isLabelled = true ∧ e.parent = some s.id ∧ e.id ∉ s.listed := by
  rw [inlineLabels, List.mem_filter, mem_labelsOf consistent, List.contains_eq_mem, Bool.not_eq_true',
    decide_eq_false_iff_not, and_assoc, and_assoc]

theorem nodup_inlineLabels (consistent : d.Consistent) : ((d.inlineLabels s).map Element.id).Nodup := by
  have children (xs : List String) : ((xs.filterMap d.find?).map Element.id).Sublist xs := by
    induction xs with
    | nil => exact .slnil
    | cons x rest ih =>
      cases found : d.find? x with
      | none =>
        rw [List.filterMap_cons_none found]
        exact ih.cons x
      | some e =>
        rw [List.filterMap_cons_some found, List.map_cons, Document.find?_eq_some_id found]
        exact ih.cons_cons x
  have fewer : (d.inlineLabels s).Sublist (d.childrenOf s.id) := List.filter_sublist.trans List.filter_sublist
  exact (consistent.children_nodup s.id).sublist ((fewer.map Element.id).trans (children _))

end Document

/-- The props of an element once a declaration has been merged into them. -/
def Declaration.mergedProps (d : Declaration) (props : Props) : Props :=
  (filled d.props).elim props fun given => props.merge true given

/-- The metadata of an element once a declaration has been brought to it. -/
def Declaration.mergedMetadata (d : Declaration) (metadata : Props) : Props :=
  Reconcile.styled d ((filled d.metadata).elim metadata fun given => metadata.overlay given)

/-- The ids of the sites that a pass goes through. -/
abbrev Site.known (sites : List Site) : List String :=
  sites.map Site.id

/-- Elements that a pass over sites may clear away with all below them: topmost ones without a site, or all labels of an
edge that its site does not list. -/
def Site.Dooms (sites : List Site) (d : Document α) (roots : List String) : Prop :=
  (∀ r ∈ roots, d.parentOf r = none ∧ r ∉ Site.known sites) ∨
    ∃ s ∈ sites, s.head.kind = .edge ∧ d.IsEdge s.id ∧ ∀ r, r ∈ roots ↔ r ∈ (d.inlineLabels s).map Element.id

variable [Coordinate α]

/-- Doomed elements leave with all below them. -/
structure Clearing (sites : List Site) (d d' : Document α) (roots ids : List String) : Prop
    extends Document.Swept d roots ids d' where
  dooms : Site.Dooms sites d roots

namespace Clearing
variable {sites : List Site} {d d' : Document α} {roots ids : List String} {x p : String}

/-- Only labels that their edge does not list leave without the element around them. -/
theorem label_of_child (clearing : Clearing sites d d' roots ids) (consistent : d.Consistent) (leaves : x ∈ ids)
    (nested : d.parentOf x = some p) (stays : p ∉ ids) :
    ∃ s ∈ sites, s.id = p ∧ ∀ r, r ∈ roots ↔ r ∈ (d.inlineLabels s).map Element.id := by
  obtain ⟨r, root, inside⟩ := (clearing.below x).1 leaves
  obtain rfl : x = r := by
    by_contra other
    obtain ⟨p', inner, held⟩ := Document.exists_parent_mem_subtree consistent inside other
    rw [nested] at held
    cases held
    exact stays ((clearing.below p).2 ⟨r, root, inner⟩)
  rcases clearing.dooms with topmost | ⟨s, member, _, _, labels⟩
  · rw [(topmost x root).1] at nested
    cases nested
  · obtain ⟨label, own, rfl⟩ := List.mem_map.1 ((labels x).1 root)
    obtain ⟨found, _, parent, _⟩ := (Document.mem_inlineLabels consistent).1 own
    rw [Document.parentOf, found, Option.bind_some, parent] at nested
    exact ⟨s, member, Option.some.inj nested, labels⟩

end Clearing

/-- What a pass over sites can do to a document, where the elements of the pass are born no earlier than `born`. -/
inductive Stroke (sites : List Site) (born : Nat) (d d' : Document α) : Prop
  /-- The element of a site is revised, its entries as the declaration says. -/
  | revise (s : Site) (change : Element α → Element α) : s ∈ sites → Element.KeepsBuild change →
      d.Changes s.id change d' → (∀ e, (change e).props = s.head.mergedProps e.props ∧
        (change e).metadata = s.head.mergedMetadata e.metadata) → Stroke sites born d d'
  /-- The one label of an edge that its site does not list is given the text of the site. -/
  | retext (s : Site) (label : Element α) (text : String) : s ∈ sites → s.head.label? = some text →
      d.IsEdge s.id → d.inlineLabels s = [label] → d.Changes label.id (Element.retext (some text)) d' →
      Stroke sites born d d'
  /-- A new element is changed in its place. -/
  | mark (id : String) (change : Element α → Element α) : (∀ e, d.find? id = some e → born ≤ e.birth) →
      Element.KeepsPlace change → d.Changes id change d' → Stroke sites born d d'
  /-- A new element comes in at the top or below the element of a site. -/
  | enter (e : Element α) (parent : Option String) : d.contains e.id = false → e.parent = none → e.children = [] →
      (∀ p, parent = some p → p ∈ Site.known sites ∧ d.contains p = true) → d' = d.enter e parent →
      Stroke sites born d d'
  /-- Doomed elements leave. -/
  | clear (roots ids : List String) : Clearing sites d d' roots ids → Stroke sites born d d'

/-- A stroke between consistent documents. -/
structure Stride (sites : List Site) (born : Nat) (d d' : Document α) : Prop where
  consistent : d.Consistent
  consistent' : d'.Consistent
  births : d.births ≤ d'.births
  stroke : Stroke sites born d d'

/-- Strides one after the other. -/
abbrev Strides (sites : List Site) (born : Nat) : Document α → Document α → Prop :=
  Relation.ReflTransGen (Stride sites born)

namespace Strides
variable {sites : List Site} {born : Nat} {d d' : Document α}

theorem consistent (strides : Strides sites born d d') (consistent : d.Consistent) : d'.Consistent := by
  cases strides with
  | refl => exact consistent
  | tail _ last => exact last.consistent'

theorem births_le (strides : Strides sites born d d') : d.births ≤ d'.births := by
  induction strides with
  | refl => exact Nat.le_refl _
  | tail _ last ih => exact Nat.le_trans ih last.births

end Strides
end LiveDiagram
