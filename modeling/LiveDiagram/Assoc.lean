/-! Association lists in the order in which their keys were first put. -/
namespace LiveDiagram.Assoc

variable {κ β : Type} [DecidableEq κ]

def get? (entries : List (κ × β)) (key : κ) : Option β :=
  (entries.find? (·.1 = key)).map Prod.snd

def contains (entries : List (κ × β)) (key : κ) : Bool :=
  entries.any (·.1 = key)

/-- Gives `key` the value that `change` makes of its present one: a known key keeps its place, a new one
goes last. -/
def alter (key : κ) (change : Option β → β) : List (κ × β) → List (κ × β)
  | [] => [(key, change none)]
  | (k, v) :: rest => if k = key then (k, change (some v)) :: rest else (k, v) :: alter key change rest

def put (entries : List (κ × β)) (key : κ) (value : β) : List (κ × β) :=
  alter key (fun _ => value) entries

/-- Puts every entry of the second list into the first. -/
def putAll (entries more : List (κ × β)) : List (κ × β) :=
  more.foldl (fun all entry => put all entry.1 entry.2) entries

end LiveDiagram.Assoc
