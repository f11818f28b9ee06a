import LiveDiagram.Proofs.Document.Consistent
import LiveDiagram.Proofs.Edit.Step
import LiveDiagram.Proofs.Props.Same

/-! Documents with the same states by id, as far as states are compared by value. Agreement leaves open how a number
is written and how the entries of a dictionary are ordered; it settles containment, order and connections. -/
namespace LiveDiagram

variable {α : Type} [Coordinate α]

/-! States -/

def Snapshot.Tidy (s : Snapshot α) : Prop :=
  s.props.Tidy ∧ s.metadata.Tidy

/-- States that are equal or have the same values. -/
def Snapshot.Agrees (a b : Snapshot α) : Prop :=
  a = b ∨ a.same b = true

section
variable [PartialEquivBEq α]

theorem Point.same_symm {a b : Point α} (same : a.same b = true) : b.same a = true := by
  simp only [Point.same, Bool.and_eq_true] at same ⊢
  exact ⟨BEq.symm same.1, BEq.symm same.2⟩

theorem Point.same_trans {a b c : Point α} (same : a.same b = true) (same' : b.same c = true) :
    a.same c = true := by
  simp only [Point.same, Bool.and_eq_true] at same same' ⊢
  exact ⟨BEq.trans same.1 same'.1, BEq.trans same.2 same'.2⟩

theorem Bounds.same_symm {a b : Bounds α} (same : a.same b = true) : b.same a = true := by
  simp only [Bounds.same, Bool.and_eq_true, and_assoc] at same ⊢
  obtain ⟨x, y, w, h, r⟩ := same
  exact ⟨BEq.symm x, BEq.symm y, BEq.symm w, BEq.symm h, BEq.symm r⟩

theorem Bounds.same_trans {a b c : Bounds α} (same : a.same b = true) (same' : b.same c = true) :
    a.same c = true := by
  simp only [Bounds.same, Bool.and_eq_true, and_assoc] at same same' ⊢
  obtain ⟨x, y, w, h, r⟩ := same
  obtain ⟨x', y', w', h', r'⟩ := same'
  exact ⟨BEq.trans x x', BEq.trans y y', BEq.trans w w', BEq.trans h h', BEq.trans r r'⟩

theorem LabelPlacement.same_symm {a b : LabelPlacement α} (same : a.same b = true) : b.same a = true := by
  simp only [LabelPlacement.same, Bool.and_eq_true, beq_iff_eq, and_assoc] at same ⊢
  obtain ⟨type, offset, time⟩ := same
  exact ⟨type.symm, Point.same_symm offset, BEq.symm time⟩

theorem LabelPlacement.same_trans {a b c : LabelPlacement α} (same : a.same b = true) (same' : b.same c = true) :
    a.same c = true := by
  simp only [LabelPlacement.same, Bool.and_eq_true, beq_iff_eq, and_assoc] at same same' ⊢
  obtain ⟨type, offset, time⟩ := same
  obtain ⟨type', offset', time'⟩ := same'
  exact ⟨type.trans type', Point.same_trans offset offset', BEq.trans time time'⟩

theorem NodeContent.same_symm {a b : NodeContent α} (same : a.same b = true) : b.same a = true := by
  rcases a with ⟨_, _, _, label⟩
  rcases b with ⟨_, _, _, label'⟩
  simp only [NodeContent.same, Bool.and_eq_true, beq_iff_eq, and_assoc] at same ⊢
  obtain ⟨type, bounds, text, labels⟩ := same
  refine ⟨type.symm, Bounds.same_symm bounds, text.symm, ?_⟩
  cases label <;> cases label' <;> first | exact labels | exact LabelPlacement.same_symm labels

theorem NodeContent.same_trans {a b c : NodeContent α} (same : a.same b = true) (same' : b.same c = true) :
    a.same c = true := by
  rcases a with ⟨_, _, _, label⟩
  rcases b with ⟨_, _, _, label'⟩
  rcases c with ⟨_, _, _, label''⟩
  simp only [NodeContent.same, Bool.and_eq_true, beq_iff_eq, and_assoc] at same same' ⊢
  obtain ⟨type, bounds, text, labels⟩ := same
  obtain ⟨type', bounds', text', labels'⟩ := same'
  refine ⟨type.trans type', Bounds.same_trans bounds bounds', text.trans text', ?_⟩
  cases label <;> cases label' <;> cases label'' <;>
    first | exact labels | exact labels' | cases labels | cases labels' | exact LabelPlacement.same_trans labels labels'

theorem EndpointState.same_symm {a b : EndpointState α} (same : a.same b = true) : b.same a = true := by
  simp only [EndpointState.same, Bool.and_eq_true, beq_iff_eq] at same ⊢
  exact ⟨Point.same_symm same.1, same.2.symm⟩

theorem EndpointState.same_trans {a b c : EndpointState α} (same : a.same b = true) (same' : b.same c = true) :
    a.same c = true := by
  simp only [EndpointState.same, Bool.and_eq_true, beq_iff_eq] at same same' ⊢
  exact ⟨Point.same_trans same.1 same'.1, same.2.trans same'.2⟩

theorem ContentState.same_symm {a b : ContentState α} (same : a.same b = true) : b.same a = true := by
  cases a <;> cases b
  · exact NodeContent.same_symm same
  · cases same
  · cases same
  · simp only [ContentState.same, Bool.and_eq_true] at same ⊢
    exact ⟨EndpointState.same_symm same.1, EndpointState.same_symm same.2⟩

theorem ContentState.same_trans {a b c : ContentState α} (same : a.same b = true) (same' : b.same c = true) :
    a.same c = true := by
  cases a <;> cases b <;> cases c <;> first | cases same | cases same' | skip
  · exact NodeContent.same_trans same same'
  · simp only [ContentState.same, Bool.and_eq_true] at same same' ⊢
    exact ⟨EndpointState.same_trans same.1 same'.1, EndpointState.same_trans same.2 same'.2⟩

end

namespace Snapshot
variable {a b c : Snapshot α}

theorem same_iff : a.same b = true ↔ a.id = b.id ∧ a.parent = b.parent ∧ a.children = b.children ∧
    a.props.same b.props = true ∧ a.metadata.same b.metadata = true ∧ a.content.same b.content = true := by
  simp only [same, Bool.and_eq_true, beq_iff_eq, and_assoc]

namespace Agrees

theorem refl (a : Snapshot α) : a.Agrees a := .inl rfl

variable [PartialEquivBEq α]

theorem symm (tidy : a.Tidy) (tidy' : b.Tidy) (agrees : a.Agrees b) : b.Agrees a := by
  rcases agrees with rfl | same
  · exact refl a
  · obtain ⟨id, parent, children, props, metadata, content⟩ := same_iff.1 same
    exact .inr (same_iff.2 ⟨id.symm, parent.symm, children.symm, Props.same_symm tidy.1 tidy'.1 props,
      Props.same_symm tidy.2 tidy'.2 metadata, ContentState.same_symm content⟩)

theorem trans (tidy : a.Tidy) (tidy' : b.Tidy) (tidy'' : c.Tidy) (agrees : a.Agrees b) (agrees' : b.Agrees c) :
    a.Agrees c := by
  rcases agrees with rfl | same
  · exact agrees'
  rcases agrees' with rfl | same'
  · exact .inr same
  obtain ⟨id, parent, children, props, metadata, content⟩ := same_iff.1 same
  obtain ⟨id', parent', children', props', metadata', content'⟩ := same_iff.1 same'
  exact .inr (same_iff.2 ⟨id.trans id', parent.trans parent', children.trans children',
    Props.same_trans tidy.1 tidy'.1 tidy''.1 props props',
    Props.same_trans tidy.2 tidy'.2 tidy''.2 metadata metadata', ContentState.same_trans content content'⟩)

end Agrees

/-- The kind of an element and the nodes and anchors of its ends. -/
def shape (s : Snapshot α) : Option (Option (String × String) × Option (String × String)) :=
  match s.content with
  | .node _ => none
  | .edge start stop => some (start.link, stop.link)

/-- States that agree show the element in one place, with one shape. -/
theorem Agrees.place (agrees : a.Agrees b) :
    a.parent = b.parent ∧ a.children = b.children ∧ a.shape = b.shape := by
  rcases agrees with rfl | same
  · exact ⟨rfl, rfl, rfl⟩
  · obtain ⟨_, parent, children, _, _, contents⟩ := same_iff.1 same
    refine ⟨parent, children, ?_⟩
    rcases a with ⟨_, _, _, _, _, content⟩
    rcases b with ⟨_, _, _, _, _, content'⟩
    cases content <;> cases content'
    · rfl
    · cases contents
    · cases contents
    · simp only [ContentState.same, EndpointState.same, Bool.and_eq_true, beq_iff_eq] at contents
      simp only [shape, contents]

end Snapshot

/-! Documents -/

namespace Document
variable {d d' d'' : Document α} {x : String}

theorem Tidy.state? (tidy : d.Tidy) {s : Snapshot α} (state : d.state? x = some s) : s.Tidy := by
  obtain ⟨e, found, rfl⟩ := Option.map_eq_some_iff.1 state
  exact tidy x e found

/-- An id that leads to states that agree, or nowhere in both documents. -/
def AgreesAt (d d' : Document α) (x : String) : Prop :=
  Option.Rel Snapshot.Agrees (d.state? x) (d'.state? x)

/-- The same elements by id, in states that agree. -/
def Agrees (d d' : Document α) : Prop :=
  ∀ x, d.AgreesAt d' x

/-- Documents that agree, with nodes in the very same boxes. -/
structure Alike (d d' : Document α) : Prop where
  states : d.Agrees d'
  boxes : ∀ x, d.boxOf x = d'.boxOf x

theorem agreesAt_of_eq (same : d.state? x = d'.state? x) : d.AgreesAt d' x := by
  unfold AgreesAt
  rw [same]
  cases d'.state? x with
  | none => exact .none
  | some s => exact .some (.refl s)

theorem contains_eq_state? : d.contains x = (d.state? x).isSome :=
  (Option.isSome_map ..).symm

theorem parentOf_eq_state? : d.parentOf x = (d.state? x).bind Snapshot.parent := by
  unfold parentOf state?
  cases d.find? x <;> rfl

theorem childIds_eq_state? : d.childIds x = (d.state? x).elim [] Snapshot.children := by
  unfold childIds state?
  cases d.find? x <;> rfl

theorem isSome_node?_eq_state? : (d.node? x).isSome = (d.state? x).any fun s => s.shape.isNone := by
  rw [isSome_node?]
  unfold state?
  cases d.find? x with
  | none => rfl
  | some e =>
    rcases e with ⟨_, _, content, _, _, _, _⟩
    cases content <;> rfl

/-- The node and anchor of an end, by the state of its edge. -/
theorem link_endOf {relation : Relation} (arc : relation ≠ .child) :
    (d.endOf relation x).map Endpoint.link? =
      ((d.state? x).bind Snapshot.shape).map fun links => if relation = .start then links.1 else links.2 := by
  unfold endOf state?
  cases d.find? x with
  | none => rfl
  | some e =>
    rcases e with ⟨_, _, content, _, _, _, _⟩
    cases content <;> cases relation <;> first | rfl | exact (arc rfl).elim

omit [Coordinate α] in
theorem endOf_connected_iff (consistent : d.Consistent) {relation : Relation} {node anchor : String} :
    d.endOf relation x = some (.connected node anchor) ↔
      (d.endOf relation x).map Endpoint.link? = some (some (node, anchor)) := by
  constructor
  · intro ending
    rw [ending]
    rfl
  · intro link
    obtain ⟨p, found, link⟩ := Option.map_eq_some_iff.1 link
    have fits := consistent.end_fits relation x p found
    cases p with
    | free position => cases link
    | stranded => exact fits.elim
    | connected node' anchor' =>
      cases link
      exact found

omit [Coordinate α] in
theorem isSome_node?_of_find? {e : Element α} (found : d.find? x = some e) :
    (d.node? x).isSome = decide (e.kind = .node) := by
  rw [isSome_node?, found]
  rfl

namespace AgreesAt

/-- What states show by their place and shape is the same where documents agree. -/
theorem congr {γ : Type} (view : Option (Snapshot α) → γ) (agrees : d.AgreesAt d' x)
    (same : ∀ a b : Snapshot α, a.parent = b.parent ∧ a.children = b.children ∧ a.shape = b.shape →
      view (some a) = view (some b)) : view (d.state? x) = view (d'.state? x) := by
  unfold AgreesAt at agrees
  generalize d.state? x = s, d'.state? x = s' at agrees
  cases agrees with
  | none => rfl
  | some agrees => exact same _ _ agrees.place

theorem contains (agrees : d.AgreesAt d' x) : d.contains x = d'.contains x := by
  rw [contains_eq_state?, contains_eq_state?]
  exact agrees.congr Option.isSome fun _ _ _ => rfl

theorem parentOf (agrees : d.AgreesAt d' x) : d.parentOf x = d'.parentOf x := by
  rw [parentOf_eq_state?, parentOf_eq_state?]
  exact agrees.congr (fun s => s.bind Snapshot.parent) fun _ _ same => same.1

theorem childIds (agrees : d.AgreesAt d' x) : d.childIds x = d'.childIds x := by
  rw [childIds_eq_state?, childIds_eq_state?]
  exact agrees.congr (fun s => s.elim [] Snapshot.children) fun _ _ same => same.2.1

theorem isSome_node? (agrees : d.AgreesAt d' x) : (d.node? x).isSome = (d'.node? x).isSome := by
  rw [isSome_node?_eq_state?, isSome_node?_eq_state?]
  refine agrees.congr (fun s => s.any fun s => s.shape.isNone) fun _ _ same => ?_
  simp only [Option.any_some, same.2.2]

theorem link_endOf (agrees : d.AgreesAt d' x) {relation : Relation} :
    (d.endOf relation x).map Endpoint.link? = (d'.endOf relation x).map Endpoint.link? := by
  by_cases arc : relation = .child
  · have none (d : Document α) : d.endOf relation x = none := by
      unfold endOf
      cases d.find? x <;> simp [arc, Element.end?_child]
    rw [none, none]
  · rw [Document.link_endOf arc, Document.link_endOf arc]
    refine agrees.congr (fun s => (s.bind Snapshot.shape).map _) fun _ _ same => ?_
    simp only [Option.bind_some, same.2.2]

theorem kind (agrees : d.AgreesAt d' x) {e e' : Element α} (found : d.find? x = some e)
    (found' : d'.find? x = some e') : e.kind = e'.kind := by
  have nodes := agrees.isSome_node?
  rw [isSome_node?_of_find? found, isSome_node?_of_find? found', decide_eq_decide] at nodes
  generalize e.kind = kind, e'.kind = kind' at nodes ⊢
  cases kind <;> cases kind' <;> simp_all

/-- Connections are the same. -/
theorem connected_iff (agrees : d.AgreesAt d' x) (consistent : d.Consistent) (consistent' : d'.Consistent)
    {relation : Relation} {node anchor : String} :
    d.endOf relation x = some (.connected node anchor) ↔ d'.endOf relation x = some (.connected node anchor) := by
  rw [endOf_connected_iff consistent, endOf_connected_iff consistent', agrees.link_endOf]

variable [PartialEquivBEq α]

theorem symm (tidy : d.Tidy) (tidy' : d'.Tidy) (agrees : d.AgreesAt d' x) : d'.AgreesAt d x := by
  unfold AgreesAt at agrees ⊢
  generalize state : d.state? x = s, state' : d'.state? x = s' at agrees
  cases agrees with
  | none => exact .none
  | some own => exact .some (own.symm (tidy.state? state) (tidy'.state? state'))

theorem trans (tidy : d.Tidy) (tidy' : d'.Tidy) (tidy'' : d''.Tidy) (agrees : d.AgreesAt d' x)
    (agrees' : d'.AgreesAt d'' x) : d.AgreesAt d'' x := by
  unfold AgreesAt at agrees agrees' ⊢
  generalize state : d.state? x = s, state' : d'.state? x = s', state'' : d''.state? x = s'' at agrees agrees'
  cases agrees with
  | none => exact agrees'
  | some first =>
    cases agrees' with
    | some second =>
      exact .some (first.trans (tidy.state? state) (tidy'.state? state') (tidy''.state? state'') second)

end AgreesAt

namespace Alike

theorem refl (d : Document α) : d.Alike d := ⟨fun _ => agreesAt_of_eq rfl, fun _ => rfl⟩

variable [PartialEquivBEq α]

theorem symm (tidy : d.Tidy) (tidy' : d'.Tidy) (alike : d.Alike d') : d'.Alike d :=
  ⟨fun x => (alike.states x).symm tidy tidy', fun x => (alike.boxes x).symm⟩

theorem trans (tidy : d.Tidy) (tidy' : d'.Tidy) (tidy'' : d''.Tidy) (alike : d.Alike d') (alike' : d'.Alike d'') :
    d.Alike d'' :=
  ⟨fun x => (alike.states x).trans tidy tidy' tidy'' (alike'.states x),
    fun x => (alike.boxes x).trans (alike'.boxes x)⟩

end Alike
end Document
end LiveDiagram
