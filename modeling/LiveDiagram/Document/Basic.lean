import LiveDiagram.Document.Element
import LiveDiagram.Document.Links

/-! Documents: elements with ids, nested in each other, and edges that join nodes. Containment is kept four
times over: as the parent and the children of each element, as arcs, and as the list of topmost elements. -/
namespace LiveDiagram

/-- What became of one element: its states before and after, where `none` stands for absence. -/
structure Change (α : Type) where
  id : String
  before : Option (Snapshot α)
  after : Option (Snapshot α)
deriving DecidableEq, Repr

inductive ChangeKind
  | delete
  | add
  | update
deriving DecidableEq, Repr

/-- Changes of one kind, made together. -/
structure ChangeSet (α : Type) where
  kind : ChangeKind
  changes : List (Change α)
deriving DecidableEq, Repr

/-- One step of the history. -/
inductive Action (α : Type)
  | single (set : ChangeSet α)
  | compound (description : String) (sets : List (ChangeSet α))
deriving DecidableEq, Repr

/-- What can be undone and what can be redone, each with the next action first. -/
structure History (α : Type) where
  undoable : List (Action α)
  redoable : List (Action α)
deriving DecidableEq, Repr

namespace History
variable {α : Type}

def empty : History α := ⟨[], []⟩

/-- A new action ends all chances to redo. -/
def push (h : History α) (action : Action α) : History α :=
  ⟨action :: h.undoable, []⟩

end History

inductive EventKind
  | added
  | changed
  | removed
  | restored
deriving DecidableEq, Repr

structure Event where
  kind : EventKind
  ids : List String
deriving DecidableEq, Repr

structure Document (α : Type) where
  bounds : Bounds α
  /-- In order of registration. -/
  elements : List (Element α)
  links : List Link
  /-- The topmost elements. -/
  top : List String
  /-- The number of elements that were ever registered. -/
  births : Nat
  selection : List Handle
  history : History α
  /-- How many listeners hear each event. -/
  listeners : Nat
  /-- All events as heard, once for each listener. -/
  heard : List Event
deriving DecidableEq, Repr

namespace Document
variable {α : Type}

def empty (bounds : Bounds α) : Document α :=
  ⟨bounds, [], [], [], 0, [], .empty, 0, []⟩

/-! Queries -/

def find? (d : Document α) (id : String) : Option (Element α) :=
  d.elements.find? (·.id = id)

def contains (d : Document α) (id : String) : Bool :=
  (d.find? id).isSome

def isLive (d : Document α) (h : Handle) : Bool :=
  d.elements.any (·.handle = h)

/-- The element of an id if it is a node. -/
def node? (d : Document α) (id : String) : Option (Element α) :=
  (d.find? id).filter Element.isNode

/-- A node that labels an edge: it follows an edge and is nested in one. -/
def isLabel (d : Document α) (e : Element α) : Bool :=
  e.isLabelled && (e.parent.bind d.find?).any Element.isEdge

/-- The children of an element, as far as they are there. -/
def childrenOf (d : Document α) (id : String) : List (Element α) :=
  ((d.find? id).elim [] Element.children).filterMap d.find?

/-- The nested nodes that follow an edge. -/
def labelsOf (d : Document α) (id : String) : List (Element α) :=
  (d.childrenOf id).filter Element.isLabelled

def subtree (d : Document α) (id : String) : List String :=
  Links.subtree d.links id

/-- The edges with an end at a node, in order of their ids. -/
def attachedEdges (d : Document α) (id : String) : List String :=
  (Links.attached d.links id).mergeSort

/-- The boxes of all nodes but labels. -/
def obstacles (d : Document α) : List (Bounds α) :=
  d.elements.filterMap fun e => match e.content with
    | .node content => if d.isLabel e then none else some content.bounds
    | .edge .. => none

variable [Coordinate α]

/-- Where an end of an edge is; a connected end is at the center of its node. -/
def positionOf (d : Document α) : Endpoint α → Point α
  | .free position | .stranded _ _ position => position
  | .connected node _ => match (d.find? node).map Element.content with
    | some (.node content) => content.bounds.center
    | _ => .origin

def boundsOf (d : Document α) (e : Element α) : Bounds α :=
  match e.content with
  | .node content => content.bounds
  | .edge start stop => .ofPoints (d.positionOf start) (d.positionOf stop)

def stateOfEnd (d : Document α) (e : Endpoint α) : EndpointState α :=
  ⟨d.positionOf e, e.link?⟩

def snapshot (d : Document α) (e : Element α) : Snapshot α :=
  { id := e.id
    parent := e.parent
    children := e.children
    props := e.props
    metadata := e.metadata
    content := match e.content with
      | .node content => .node content
      | .edge start stop => .edge (d.stateOfEnd start) (d.stateOfEnd stop) }

def state? (d : Document α) (id : String) : Option (Snapshot α) :=
  (d.find? id).map d.snapshot

/-- The bounds of a document unless told otherwise. -/
def page : Bounds α :=
  .box (Coordinate.ofNat 0) (Coordinate.ofNat 0) (Coordinate.ofNat 1000) (Coordinate.ofNat 1000)

/-! Changes that record nothing -/

/-- An end after elements have left. -/
def strand (d : Document α) (ids : List String) (e : Endpoint α) : Endpoint α :=
  match e with
  | .connected node anchor => if ids.contains node then .stranded node anchor (d.positionOf e) else e
  | .free _ | .stranded .. => e

/-- Strikes elements and their arcs from the register. -/
def unregister (d : Document α) (ids : List String) : Document α :=
  { d with
    elements := (d.elements.filter fun e => !ids.contains e.id).map (·.mapEnds (d.strand ids))
    links := Links.forget ids d.links }

omit [Coordinate α]

def modify (d : Document α) (id : String) (change : Element α → Element α) : Document α :=
  { d with elements := d.elements.map fun e => if e.id = id then change e else e }

/-- Registers an element, without a place in the containment. -/
def register (d : Document α) (e : Element α) : Document α :=
  { d with elements := d.elements ++ [{ e with birth := d.births }], births := d.births + 1 }

/-- Takes an element out of the containment. -/
def detach (d : Document α) (id : String) : Document α :=
  match (d.find? id).bind Element.parent with
  | some parent =>
    let d := d.modify parent fun p => { p with children := p.children.filter (· ≠ id) }
    let d := d.modify id fun e => { e with parent := none }
    { d with links := Links.part parent .child id d.links }
  | none => { d with top := d.top.erase id }

/-- Moves an element to the end of a parent's children, or of the topmost elements. -/
def attach (d : Document α) (id : String) (parent : Option String) : Document α :=
  let d := d.detach id
  match parent with
  | some parent =>
    let d := d.modify parent fun p => { p with children := p.children ++ [id] }
    let d := d.modify id fun e => { e with parent := some parent }
    { d with links := Links.join parent .child id d.links }
  | none => { d with top := d.top ++ [id] }

/-- The links with one relation of an edge renewed from its end. The arc goes by the name of the node. -/
def relink (d : Document α) (edge : String) (relation : Relation) (e : Endpoint α) (links : List Link) :
    List Link :=
  let links := Links.release edge relation links
  match e.node? with
  | some node => if d.contains node then Links.join edge relation node links else links
  | none => links

/-- Brings the arcs of an edge in line with its ends. -/
def connect (d : Document α) (edge : String) : Document α :=
  match (d.find? edge).map Element.content with
  | some (.edge start stop) =>
    { d with links := d.relink edge .stop stop (d.relink edge .start start d.links) }
  | _ => d

def emit (d : Document α) (kind : EventKind) (ids : List String) : Document α :=
  { d with heard := d.heard ++ List.replicate d.listeners ⟨kind, ids⟩ }

/-- Adds a listener. -/
def listen (d : Document α) : Document α :=
  { d with listeners := d.listeners + 1 }

/-- Takes a listener away. -/
def unlisten (d : Document α) : Except Fault (Document α) :=
  match d.listeners with
  | 0 => .error .listenerAbsent
  | n + 1 => .ok { d with listeners := n }

/-- Selects the live elements among the given ids. -/
def select (d : Document α) (ids : List String) : Document α :=
  { d with selection := (ids.filterMap d.find?).map Element.handle }

def record (d : Document α) (action : Action α) : Document α :=
  { d with history := d.history.push action }

end Document
end LiveDiagram
