import LiveDiagram.Assoc
import LiveDiagram.Props.Basic
import LiveDiagram.Fault

/-! Forests of declarations: what a diagram text says, before it meets a document. -/
namespace LiveDiagram

/-- What only nodes or only edges say. An edge names the nodes at its ends and carries a label. -/
inductive Head
  | node (shape : String) (name textStyle : Option String)
  | edge (source target label : Option String)
deriving DecidableEq, Repr

/-- One element as written, without its children. -/
structure Declaration where
  id : String
  line : Nat
  head : Head
  props : Option Props
  metadata : Option Props
  style : Option String
deriving DecidableEq, Repr

namespace Declaration

def kind (d : Declaration) : ElementKind :=
  match d.head with
  | .node .. => .node
  | .edge .. => .edge

def tag (d : Declaration) : ElementTag :=
  ⟨d.kind, d.id⟩

end Declaration

/-- A first declaration with its children, and the declarations after it. -/
inductive Forest
  | nil
  | cons (first : Declaration) (children rest : Forest)
deriving DecidableEq, Repr, Inhabited

namespace Forest

def append : Forest → Forest → Forest
  | nil, other => other
  | cons first children rest, other => cons first children (rest.append other)

instance : Append Forest := ⟨append⟩

/-- Adds a declaration with its children at the end. -/
def push (f : Forest) (d : Declaration) (children : Forest) : Forest :=
  f ++ cons d children nil

/-- All declarations, each before its children. -/
def preorder : Forest → List Declaration
  | nil => []
  | cons first children rest => first :: (children.preorder ++ rest.preorder)

/-- The declarations of the topmost level. -/
def roots : Forest → List Declaration
  | nil => []
  | cons first _ rest => first :: rest.roots

/-- Every id with the lines that define it, ids in order of their first definition. -/
def linesById (f : Forest) : List (String × List Nat) :=
  f.preorder.foldl (fun found d => Assoc.alter d.id (fun lines => lines.getD [] ++ [d.line]) found) []

/-- A check of a whole forest: messages keyed by line. -/
abbrev Rule := Forest → List (Int × String)

def repetition (id : String) : String :=
  "Duplicate element ID: \"" ++ id ++ "\""

/-- Reports each line that defines an id which is defined more than once. A line has one message: that of the
last such id in order of first definition. -/
def repeatedIds : Rule := fun f =>
  f.linesById.foldl (fun found (id, lines) =>
    if lines.length > 1 then
      lines.foldl (fun found (line : Nat) => Assoc.put found (line : Int) (repetition id)) found
    else found) []

end Forest
end LiveDiagram
