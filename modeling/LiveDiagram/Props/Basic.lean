import LiveDiagram.Number.Quantity
import LiveDiagram.Text.Literal

/-! Props: nested dictionaries in insertion order. Keys of one dictionary are meant to be distinct; `set`
keeps them so. -/
namespace LiveDiagram

inductive Scalar
  | null
  | bool (b : Bool)
  | int (n : Int)
  | float (x : Binary64)
  | text (s : String)
deriving DecidableEq, Repr, Inhabited

/-- A dictionary: entries that hold a scalar, and entries that hold a dictionary. -/
inductive Props
  | nil
  | leaf (key : String) (value : Scalar) (rest : Props)
  | node (key : String) (sub rest : Props)
deriving DecidableEq, Repr, Inhabited

inductive Value
  | scalar (s : Scalar)
  | dict (d : Props)
deriving DecidableEq, Repr, Inhabited

namespace Scalar

/-- Truth values count as the whole numbers zero and one. -/
def quantity? : Scalar → Option Quantity
  | bool b => some (.int b.toInt)
  | int n => some (.int n)
  | float x => some (.float x)
  | null | text _ => none

/-- Numbers and truth values are the same when their values are, everything else when it is equal. -/
def same (a b : Scalar) : Bool :=
  a == b || match a.quantity?, b.quantity? with
    | some x, some y => x.same y
    | _, _ => false

/-- Nothing, falsity, zero and the empty text count as absent. -/
def isPresent : Scalar → Bool
  | null => false
  | bool b => b
  | int n => n != 0
  | float (.finite _ m _) => m != 0
  | float _ => true
  | text s => !s.isEmpty

def typeName : Scalar → String
  | null => "NoneType"
  | bool _ => "bool"
  | int _ => "int"
  | float _ => "float"
  | text _ => "str"

/-- The plain text of a scalar. -/
def plain : Scalar → String
  | null => "None"
  | bool b => if b then "True" else "False"
  | int n => toString n
  | float x => x.text
  | text s => s

/-- The scalar as it stands inside the literal of a dictionary. -/
def literal : Scalar → String
  | text s => Text.literal s
  | other => other.plain

end Scalar

namespace Props

/-- Adds an entry in front. -/
def cons (key : String) : Value → Props → Props
  | .scalar s, rest => leaf key s rest
  | .dict d, rest => node key d rest

def get? : Props → String → Option Value
  | nil, _ => none
  | leaf k v rest, key => if k = key then some (.scalar v) else rest.get? key
  | node k sub rest, key => if k = key then some (.dict sub) else rest.get? key

def contains (p : Props) (key : String) : Bool :=
  (p.get? key).isSome

/-- A known key keeps its place, a new one goes last. -/
def set : Props → String → Value → Props
  | nil, key, value => cons key value nil
  | leaf k v rest, key, value => if k = key then cons k value rest else leaf k v (rest.set key value)
  | node k sub rest, key, value => if k = key then cons k value rest else node k sub (rest.set key value)

def erase : Props → String → Props
  | nil, _ => nil
  | leaf k v rest, key => if k = key then rest else leaf k v (rest.erase key)
  | node k sub rest, key => if k = key then rest else node k sub (rest.erase key)

def isEmpty : Props → Bool
  | nil => true
  | _ => false

def size : Props → Nat
  | nil => 0
  | leaf _ _ rest => rest.size + 1
  | node _ _ rest => rest.size + 1

def keys : Props → List String
  | nil => []
  | leaf k _ rest => k :: rest.keys
  | node k _ rest => k :: rest.keys

/-- The entries of one level, in order. -/
def toList : Props → List (String × Value)
  | nil => []
  | leaf k v rest => (k, .scalar v) :: rest.toList
  | node k sub rest => (k, .dict sub) :: rest.toList

/-- Sets the entries one after the other, so a repeated key keeps its first place and its last value. -/
def ofList (entries : List (String × Value)) : Props :=
  entries.foldl (fun p entry => p.set entry.1 entry.2) nil

/-- Every entry of the first dictionary is in the second, whatever the order, to every depth. -/
def within : Props → Props → Bool
  | nil, _ => true
  | leaf k v rest, other =>
    (match other.get? k with
      | some (.scalar w) => v.same w
      | _ => false) && rest.within other
  | node k sub rest, other =>
    (match other.get? k with
      | some (.dict d) => sub.size == d.size && sub.within d
      | _ => false) && rest.within other

/-- The same entries, in any order. -/
def same (a b : Props) : Bool :=
  a.size == b.size && a.within b

/-- Sets every entry of the second dictionary in the first. -/
def overlay (target : Props) : Props → Props
  | nil => target
  | leaf k v rest => (target.set k (.scalar v)).overlay rest
  | node k sub rest => (target.set k (.dict sub)).overlay rest

/-- The entries as they stand between the braces of a literal. -/
def literalEntries : Props → List String
  | nil => []
  | leaf k v rest => (Text.literal k ++ ": " ++ v.literal) :: rest.literalEntries
  | node k sub rest =>
    (Text.literal k ++ ": \x7b" ++ ", ".intercalate sub.literalEntries ++ "\x7d") :: rest.literalEntries

def literal (p : Props) : String :=
  "\x7b" ++ ", ".intercalate p.literalEntries ++ "\x7d"

end Props

namespace Value

def null : Value := .scalar .null

def ofText? (s : Option String) : Value :=
  .scalar (s.elim .null .text)

def same : Value → Value → Bool
  | scalar a, scalar b => a.same b
  | dict a, dict b => a.same b
  | _, _ => false

def isPresent : Value → Bool
  | scalar s => s.isPresent
  | dict d => !d.isEmpty

def plain : Value → String
  | scalar s => s.plain
  | dict d => d.literal

end Value
end LiveDiagram
