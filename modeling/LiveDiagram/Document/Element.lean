import LiveDiagram.Fault
import LiveDiagram.Geometry.Basic
import LiveDiagram.Props.Basic

/-! Elements of a document and their states. An element refers to others by id. A state stands on its own: it
holds the positions of an edge's ends even where they are connected. -/
namespace LiveDiagram

/-- One end of an edge: at a point, or at an anchor of a node. -/
inductive Endpoint (α : Type)
  | free (position : Point α)
  | connected (node anchor : String)
  /-- The node has left the document without letting the end go, which keeps the name and stays in place. -/
  | stranded (node anchor : String) (position : Point α)
deriving DecidableEq, Repr

namespace Endpoint
variable {α : Type}

/-- The node and the anchor that an end names. -/
def link? : Endpoint α → Option (String × String)
  | free _ => none
  | connected node anchor => some (node, anchor)
  | stranded node anchor _ => some (node, anchor)

def node? (e : Endpoint α) : Option String :=
  e.link?.map Prod.fst

def isConnected (e : Endpoint α) : Bool :=
  e.link?.isSome

/-- Whether an end is at a node of the document. -/
def isAt (id : String) : Endpoint α → Bool
  | connected node _ => node = id
  | free _ | stranded .. => false

/-- The anchor at the middle of a node. -/
def centerAnchor : String := "c"

def atCenter (node : String) : Endpoint α := .connected node centerAnchor

end Endpoint

/-- How a label node follows its edge. -/
structure LabelPlacement (α : Type) where
  type : String
  offset : Point α
  time : α
deriving DecidableEq, Repr

structure NodeContent (α : Type) where
  type : String
  bounds : Bounds α
  text : String
  label : Option (LabelPlacement α)
deriving DecidableEq, Repr

inductive Content (α : Type)
  | node (content : NodeContent α)
  | edge (start stop : Endpoint α)
deriving DecidableEq, Repr

namespace Content
variable {α : Type}

def kind : Content α → ElementKind
  | node _ => .node
  | edge .. => .edge

def label? : Content α → Option (LabelPlacement α)
  | node content => content.label
  | edge .. => none

end Content

/-- An element by id and by birth: no two elements that ever lived in a document have the same birth. -/
structure Handle where
  id : String
  birth : Nat
deriving DecidableEq, Repr

structure Element (α : Type) where
  id : String
  birth : Nat
  content : Content α
  props : Props
  metadata : Props
  parent : Option String
  children : List String
deriving DecidableEq, Repr

namespace Element
variable {α : Type}

/-- An element that is in no document yet. -/
def new (id : String) (content : Content α) (props metadata : Props) : Element α :=
  ⟨id, 0, content, props, metadata, none, []⟩

def kind (e : Element α) : ElementKind := e.content.kind

def tag (e : Element α) : ElementTag := ⟨e.kind, e.id⟩

def handle (e : Element α) : Handle := ⟨e.id, e.birth⟩

def isNode (e : Element α) : Bool := e.kind = .node

def isEdge (e : Element α) : Bool := e.kind = .edge

def mapNode (change : NodeContent α → NodeContent α) (e : Element α) : Element α :=
  match e.content with
  | .node content => { e with content := .node (change content) }
  | .edge .. => e

def setStart (endpoint : Endpoint α) (e : Element α) : Element α :=
  match e.content with
  | .edge _ stop => { e with content := .edge endpoint stop }
  | .node _ => e

def setStop (endpoint : Endpoint α) (e : Element α) : Element α :=
  match e.content with
  | .edge start _ => { e with content := .edge start endpoint }
  | .node _ => e

def mapEnds (change : Endpoint α → Endpoint α) (e : Element α) : Element α :=
  match e.content with
  | .edge start stop => { e with content := .edge (change start) (change stop) }
  | .node _ => e

def isLabelled (e : Element α) : Bool := e.content.label?.isSome

end Element

/-- An end of an edge as recorded: where it is, and the node and anchor it is connected to. -/
structure EndpointState (α : Type) where
  position : Point α
  link : Option (String × String)
deriving DecidableEq, Repr

inductive ContentState (α : Type)
  | node (content : NodeContent α)
  | edge (start stop : EndpointState α)
deriving DecidableEq, Repr

/-- The recorded state of an element. -/
structure Snapshot (α : Type) where
  id : String
  parent : Option String
  children : List String
  props : Props
  metadata : Props
  content : ContentState α
deriving DecidableEq, Repr

/-! States are the same when they agree in all their values; numbers count by value and entries in any order. -/

variable {α : Type} [Coordinate α]

def LabelPlacement.same (a b : LabelPlacement α) : Bool :=
  a.type == b.type && a.offset.same b.offset && a.time == b.time

def NodeContent.same (a b : NodeContent α) : Bool :=
  a.type == b.type && a.bounds.same b.bounds && a.text == b.text &&
    match a.label, b.label with
    | none, none => true
    | some x, some y => x.same y
    | _, _ => false

def EndpointState.same (a b : EndpointState α) : Bool :=
  a.position.same b.position && a.link == b.link

def ContentState.same : ContentState α → ContentState α → Bool
  | node a, node b => a.same b
  | edge s t, edge s' t' => s.same s' && t.same t'
  | _, _ => false

def Snapshot.same (a b : Snapshot α) : Bool :=
  a.id == b.id && a.parent == b.parent && a.children == b.children && a.props.same b.props &&
    a.metadata.same b.metadata && a.content.same b.content

end LiveDiagram
