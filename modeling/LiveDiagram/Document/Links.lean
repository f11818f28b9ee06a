/-! Links: the arcs between elements, ordered by when each pair of elements was first joined. -/
namespace LiveDiagram

inductive Relation
  | child
  | start
  | stop
deriving DecidableEq, Repr

/-- All relations from one element to another; there is at least one. -/
structure Link where
  source : String
  target : String
  relations : List Relation
deriving DecidableEq, Repr

namespace Links

def has (links : List Link) (source : String) (relation : Relation) (target : String) : Bool :=
  links.any fun l => l.source = source && l.target = target && l.relations.contains relation

/-- Adds an arc; a pair that is joined already keeps its place. -/
def join (source : String) (relation : Relation) (target : String) : List Link → List Link
  | [] => [⟨source, target, [relation]⟩]
  | l :: rest =>
    if l.source = source && l.target = target then
      if l.relations.contains relation then l :: rest
      else { l with relations := l.relations ++ [relation] } :: rest
    else l :: join source relation target rest

/-- The link without a relation; nothing is left of a link that had no other. -/
def without (relation : Relation) (l : Link) : Option Link :=
  let relations := l.relations.filter (· ≠ relation)
  if relations.isEmpty then none else some { l with relations := relations }

def part (source : String) (relation : Relation) (target : String) (links : List Link) : List Link :=
  links.filterMap fun l => if l.source = source && l.target = target then without relation l else some l

/-- Drops all arcs of one relation from an element. -/
def release (source : String) (relation : Relation) (links : List Link) : List Link :=
  links.filterMap fun l => if l.source = source then without relation l else some l

/-- Drops every arc from or to the given elements. -/
def forget (ids : List String) (links : List Link) : List Link :=
  links.filter fun l => !ids.contains l.source && !ids.contains l.target

/-- The elements that arcs of one relation lead to, in the order of the links. -/
def targets (links : List Link) (source : String) (relation : Relation) : List String :=
  (links.filter fun l => l.source = source && l.relations.contains relation).map Link.target

/-- The elements with a start or stop arc to the given one. -/
def attached (links : List Link) (target : String) : List String :=
  (links.filter fun l =>
    l.target = target && (l.relations.contains .start || l.relations.contains .stop)).map Link.source

/-- Walks depth first: takes the next id off the list, unless it was seen before, and goes on with its children.
Each of `fuel` steps takes one id; `seen` has the latest id first. -/
def preorder (links : List Link) : Nat → List String → List String → List String
  | 0, _, seen => seen.reverse
  | _ + 1, [], seen => seen.reverse
  | fuel + 1, id :: waiting, seen =>
    if seen.contains id then preorder links fuel waiting seen
    else preorder links fuel (targets links id .child ++ waiting) (id :: seen)

/-- An element and all below it, parents first. Each link is followed at most once, so there is fuel enough. -/
def subtree (links : List Link) (id : String) : List String :=
  preorder links (links.length + 1) [id] []

end Links
end LiveDiagram
