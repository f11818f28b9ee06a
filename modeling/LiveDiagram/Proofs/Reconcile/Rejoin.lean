import LiveDiagram.Reconcile
import LiveDiagram.Proofs.Edit.Primitives

/-! Joining the ends of edges to the nodes that declarations name. Nothing else of a document changes, and joining the
ends once more changes nothing at all. -/
namespace LiveDiagram

variable {α : Type}

/-- The element with an end at the node of a name, where there is one. -/
def Element.steer (known : String → Bool) (turn : Endpoint α → Element α → Element α) (name : Option String)
    (e : Element α) : Element α :=
  (name.filter known).elim e fun node => turn (.atCenter node) e

/-- The element of a declaration with its ends at the nodes that the declaration names, where they are there. -/
def Declaration.rejoin (known : String → Bool) (h : Declaration) (e : Element α) : Element α :=
  match h.head with
  | .node .. => e
  | .edge source target _ => (e.steer known Element.setStart source).steer known Element.setStop target

namespace Document

/-- Whether an id leads to a node. -/
def knows (d : Document α) (id : String) : Bool :=
  (d.node? id).isSome

/-- The document with an end of an edge at the node of a name, where there is one. -/
def steer (d : Document α) (id : String) (turn : Endpoint α → Element α → Element α) (name : Option String) :
    Document α :=
  (name.filter d.knows).elim d fun node => (d.modify id (turn (.atCenter node))).connect id

/-- The document once a declaration with a settled element was visited. -/
def rejoin (d : Document α) (h : Declaration) : Document α :=
  match h.head with
  | .node .. => d
  | .edge source target _ => (d.steer h.id Element.setStart source).steer h.id Element.setStop target

/-- The document once all these declarations were visited in order. -/
def rejoinAll (d : Document α) (hs : List Declaration) : Document α :=
  hs.foldl rejoin d

/-- A way to turn one end of an edge. -/
structure Turns (turn : Endpoint α → Element α → Element α) : Prop where
  keeps : ∀ p, Element.KeepsPlace (turn p)
  ends : ∀ p q (e : Element α) relation, (turn p e).end? relation = some q → q = p ∨ e.end? relation = some q

theorem turns_setStart : Turns (Element.setStart : Endpoint α → Element α → Element α) :=
  ⟨fun _ => Element.keepsPlace_setStart, fun _ _ _ _ => Element.end?_setStart⟩

theorem turns_setStop : Turns (Element.setStop : Endpoint α → Element α → Element α) :=
  ⟨fun _ => Element.keepsPlace_setStop, fun _ _ _ _ => Element.end?_setStop⟩

variable {d : Document α} {id x : String} {turn : Endpoint α → Element α → Element α} {name : Option String}

theorem find?_steer (turns : Turns turn) :
    (d.steer id turn name).find? x = if x = id then (d.find? x).map (Element.steer d.knows turn name) else d.find? x := by
  unfold steer Element.steer
  cases name.filter d.knows with
  | none => simp
  | some node =>
    rw [Option.elim_some, find?_connect, find?_modify (turns.keeps _).id]
    rfl

theorem knows_steer (turns : Turns turn) : (d.steer id turn name).knows = d.knows := by
  have turned (node n : String) : ((d.modify id (turn (.atCenter node))).connect id).knows n = d.knows n := by
    unfold knows
    rw [isSome_node?, find?_connect, ← isSome_node?, isSome_node?_modify (turns.keeps _).id (turns.keeps _).isNode]
  unfold steer
  cases name.filter d.knows with
  | none => rfl
  | some node => exact funext (turned node)

theorem consistent_steer (turns : Turns turn) (consistent : d.Consistent) : (d.steer id turn name).Consistent := by
  unfold steer
  cases filtered : name.filter d.knows with
  | none => exact consistent
  | some node =>
    have there : d.knows node = true := (Option.filter_eq_some_iff.1 filtered).2
    refine (Sound.modify consistent (turns.keeps _) (by simp) (fun apart => (apart rfl).elim) ?_).connect
    intro e relation p found ending
    rcases turns.ends _ _ e relation ending with rfl | old
    · exact there
    · exact consistent.end_fits relation id p (endOf_eq_some.2 ⟨e, found, old⟩)

theorem handles_steer (turns : Turns turn) : (d.steer id turn name).handles = d.handles := by
  unfold steer
  cases name.filter d.knows with
  | none => rfl
  | some node => exact handles_connect.trans (handles_modify (turns.keeps _).handle)

theorem top_steer : (d.steer id turn name).top = d.top := by
  unfold steer
  cases name.filter d.knows with
  | none => rfl
  | some node => exact top_connect

variable {h : Declaration}

/-- Nothing changes but the ends of the element of the declaration. -/
theorem find?_rejoin : (d.rejoin h).find? x = if x = h.id then (d.find? x).map (h.rejoin d.knows) else d.find? x := by
  unfold rejoin Declaration.rejoin
  split
  · simp
  · next source target label _ =>
    rw [find?_steer turns_setStop, find?_steer turns_setStart, knows_steer turns_setStart]
    split
    · rw [Option.map_map]
      rfl
    · rfl

theorem knows_rejoin : (d.rejoin h).knows = d.knows := by
  unfold rejoin
  split
  · rfl
  · rw [knows_steer turns_setStop, knows_steer turns_setStart]

theorem consistent_rejoin (consistent : d.Consistent) : (d.rejoin h).Consistent := by
  unfold rejoin
  split
  · exact consistent
  · exact consistent_steer turns_setStop (consistent_steer turns_setStart consistent)

theorem handles_rejoin : (d.rejoin h).handles = d.handles := by
  unfold rejoin
  split
  · rfl
  · rw [handles_steer turns_setStop, handles_steer turns_setStart]

theorem top_rejoin : (d.rejoin h).top = d.top := by
  unfold rejoin
  split
  · rfl
  · rw [top_steer, top_steer]

end Document

namespace Declaration
variable {known : String → Bool} {h : Declaration} {e : Element α}

/-- A declaration is rejoined with the element of an edge by choosing each of its ends anew. -/
theorem rejoin_edge {id : String} {birth : Nat} {start stop : Endpoint α} {props metadata : Props}
    {parent : Option String} {children : List String} {source target label : Option String}
    (head : h.head = .edge source target label) :
    h.rejoin known ⟨id, birth, .edge start stop, props, metadata, parent, children⟩ =
      ⟨id, birth, .edge ((source.filter known).elim start .atCenter) ((target.filter known).elim stop .atCenter), props,
        metadata, parent, children⟩ := by
  unfold rejoin
  rw [head]
  unfold Element.steer
  dsimp only
  cases source.filter known <;> cases target.filter known <;> rfl

theorem rejoin_node {id : String} {birth : Nat} {content : NodeContent α} {props metadata : Props}
    {parent : Option String} {children : List String} :
    h.rejoin known ⟨id, birth, .node content, props, metadata, parent, children⟩ =
      ⟨id, birth, .node content, props, metadata, parent, children⟩ := by
  unfold rejoin
  split
  · rfl
  · next source target label _ =>
    unfold Element.steer
    cases source.filter known <;> cases target.filter known <;> rfl

theorem rejoin_eq_self {shape : String} {name style : Option String} (head : h.head = .node shape name style) :
    h.rejoin known e = e := by
  unfold rejoin
  rw [head]

end Declaration

namespace Document
variable {d : Document α} {h : Declaration} {hs : List Declaration} {x : String}

theorem consistent_rejoinAll (consistent : d.Consistent) : (d.rejoinAll hs).Consistent := by
  induction hs generalizing d with
  | nil => exact consistent
  | cons h rest ih => exact ih (consistent_rejoin consistent)

theorem find?_rejoinAll_of_not_mem (apart : x ∉ hs.map Declaration.id) : (d.rejoinAll hs).find? x = d.find? x := by
  induction hs generalizing d with
  | nil => rfl
  | cons h rest ih =>
    rw [List.map_cons, List.mem_cons, not_or] at apart
    rw [rejoinAll, List.foldl_cons, ← rejoinAll, ih apart.2, find?_rejoin, if_neg apart.1]

/-- With distinct ids each declaration turns its own element. -/
theorem find?_rejoinAll_of_mem (distinct : (hs.map Declaration.id).Nodup) (member : h ∈ hs) :
    (d.rejoinAll hs).find? h.id = (d.find? h.id).map (h.rejoin d.knows) := by
  induction hs generalizing d with
  | nil => cases member
  | cons h' rest ih =>
    rw [List.map_cons, List.nodup_cons] at distinct
    rw [rejoinAll, List.foldl_cons, ← rejoinAll]
    rcases List.mem_cons.1 member with rfl | later
    · rw [find?_rejoinAll_of_not_mem distinct.1, find?_rejoin, if_pos rfl]
    · have other : h.id ≠ h'.id := fun same => distinct.1 (same ▸ List.mem_map_of_mem later)
      rw [ih distinct.2 later, knows_rejoin, find?_rejoin, if_neg other]

end Document

/-! What does not depend on the ends of edges -/

variable [Coordinate α]

/-- The content without regard to where an edge ends. -/
def Content.face : Content α → Content α
  | .node content => .node content
  | .edge .. => .edge (.free .origin) (.free .origin)

/-- The element without regard to where an edge ends. -/
def Element.face (e : Element α) : Element α :=
  { e with content := e.content.face }

/-- The text of a node. -/
def Element.text? (e : Element α) : Option String :=
  match e.content with
  | .node content => some content.text
  | .edge .. => none

namespace Element
variable {e e' : Element α} {known : String → Bool}

theorem kind_face : e.face.kind = e.kind := by
  obtain ⟨_, _, content, _, _, _, _⟩ := e
  cases content <;> rfl

theorem box?_face : e.face.box? = e.box? := by
  obtain ⟨_, _, content, _, _, _, _⟩ := e
  cases content <;> rfl

theorem isLabelled_face : e.face.isLabelled = e.isLabelled := by
  obtain ⟨_, _, content, _, _, _, _⟩ := e
  cases content <;> rfl

theorem text?_face : e.face.text? = e.text? := by
  obtain ⟨_, _, content, _, _, _, _⟩ := e
  cases content <;> rfl

theorem face_rejoin {h : Declaration} : (h.rejoin known e).face = e.face := by
  obtain ⟨id, birth, content, props, metadata, parent, children⟩ := e
  cases content with
  | node content => rw [Declaration.rejoin_node]
  | edge start stop =>
    cases head : h.head with
    | node shape name style => rw [Declaration.rejoin_eq_self head]
    | edge source target label =>
      rw [Declaration.rejoin_edge head]
      rfl

end Element

/-- One document differs from another in nothing but where edges end. -/
def Document.Turned (d d' : Document α) : Prop :=
  ∀ x, (d'.find? x).map Element.face = (d.find? x).map Element.face

namespace Document.Turned
variable {d d' d'' : Document α} {x : String}

theorem refl : d.Turned d := fun _ => rfl

theorem trans (first : d.Turned d') (second : d'.Turned d'') : d.Turned d'' :=
  fun x => (second x).trans (first x)

theorem element {e : Element α} (turned : d.Turned d') (found : d.find? x = some e) :
    ∃ e', d'.find? x = some e' ∧ e'.face = e.face := by
  have same := turned x
  rw [found, Option.map_some] at same
  exact Option.map_eq_some_iff.1 same

theorem boxOf (turned : d.Turned d') : d'.boxOf x = d.boxOf x := by
  have plain (d : Document α) : d.boxOf x = ((d.find? x).map Element.face).bind Element.box? := by
    unfold Document.boxOf
    cases d.find? x with
    | none => rfl
    | some e => exact Element.box?_face.symm
  rw [plain, plain, turned]

theorem labelsOf (turned : d.Turned d') :
    (d'.labelsOf x).map Element.face = (d.labelsOf x).map Element.face := by
  have plain (d : Document α) : (d.labelsOf x).map Element.face =
      ((((d.find? x).map Element.face).elim [] Element.children).filterMap fun child =>
        (d.find? child).map Element.face).filter Element.isLabelled := by
    unfold Document.labelsOf Document.childrenOf
    rw [← List.map_filterMap, List.filter_map]
    congr 2
    · funext e
      exact Element.isLabelled_face.symm
    · cases d.find? x <;> rfl
  rw [plain, plain, turned]
  congr 2
  exact funext turned

end Document.Turned

namespace Document
variable {d : Document α} {h : Declaration} {hs : List Declaration}

theorem turned_rejoin : d.Turned (d.rejoin h) := by
  intro x
  rw [find?_rejoin]
  split
  · rw [Option.map_map]
    congr 1
    exact funext fun e => Element.face_rejoin
  · rfl

theorem turned_rejoinAll : d.Turned (d.rejoinAll hs) := by
  induction hs generalizing d with
  | nil => exact .refl
  | cons h rest ih => exact turned_rejoin.trans ih

end Document

end LiveDiagram
