import LiveDiagram.Proofs.Props.Discerning

/-! What stands at the end of a path. A key holds a scalar or leads to a dictionary, and merging is told by these two,
key by key. -/
namespace LiveDiagram.Props

variable {p p' q d d' : Props} {key : String} {path : List String} {s : Scalar}

/-- The scalar under a key, if one stands there. -/
def scalarAt (p : Props) (key : String) : Option Scalar :=
  match p.get? key with
  | some (.scalar s) => some s
  | _ => none

theorem scalarAt_eq_some : p.scalarAt key = some s ↔ p.get? key = some (.scalar s) := by
  unfold scalarAt
  rcases p.get? key with _ | (_ | _) <;> simp

theorem dictAt_of_scalarAt (found : p.scalarAt key = some s) : p.dictAt key = nil := by
  unfold dictAt
  rw [scalarAt_eq_some.1 found]

theorem Tidy.dictAt (tidy : p.Tidy) : (p.dictAt key).Tidy := by
  unfold Props.dictAt
  split
  · next d found =>
    have inner : (Value.dict d).Tidy := tidy.get? found
    exact inner
  · trivial

theorem get?_erase_self (tidy : p.Tidy) : (p.erase key).get? key = none := by
  induction p using byFirst with
  | nil => rfl
  | cons k v rest _ ih =>
    obtain ⟨fresh, _, tidy⟩ := tidy_cons.1 tidy
    rw [erase_cons]
    split
    · next own => exact own ▸ fresh
    · next other => rw [get?_cons, if_neg other, ih tidy]

/-- What a key is left with: a scalar that stands there, or what is left of the dictionary unless that is nothing. -/
def kept (s : Option Scalar) (left : Props) : Option Value :=
  s.elim (if left.isEmpty then none else some (.dict left)) fun s => some (.scalar s)

theorem scalarAt_of_kept {s : Option Scalar} (held : p.get? key = kept s d) : p.scalarAt key = s := by
  unfold scalarAt
  rw [held]
  cases s with
  | some s => rfl
  | none =>
    unfold kept
    cases d <;> rfl

theorem dictAt_of_kept {s : Option Scalar} (held : p.get? key = kept s d) :
    p.dictAt key = if s.isSome then nil else d := by
  unfold dictAt
  rw [held]
  cases s with
  | some s => rfl
  | none =>
    unfold kept
    cases d <;> rfl

theorem paired_kept {s : Option Scalar} (same : d.same d' = true) : Paired (kept s d) (kept s d') := by
  cases s with
  | some s => exact .some (Scalar.same_refl s)
  | none =>
    have sizes : d.size = d'.size := by
      unfold Props.same at same
      simpa using (Bool.and_eq_true_iff.1 same).1
    cases d <;> cases d'
    case nil.nil => exact .none
    case nil.leaf | nil.node | leaf.nil | node.nil => cases sizes
    all_goals exact .some same

/-! Merging -/

/-- What a dictionary knows nothing of is taken over. -/
theorem get?_merge_of_none (tidy : q.Tidy) (absent : p.get? key = none) : (p.merge true q).get? key = q.get? key := by
  rw [get?_merge tidy, absent, Option.or_none]
  cases found : q.get? key with
  | none => rfl
  | some v =>
    cases v with
    | scalar s => rfl
    | dict d =>
      have inner : (Value.dict d).Tidy := tidy.get? found
      exact congrArg (fun d => some (Value.dict d)) (nil_merge inner)

theorem scalarAt_merge (tidy : q.Tidy) (free : p.scalarAt key = none) :
    (p.merge true q).scalarAt key = q.scalarAt key := by
  unfold scalarAt at free ⊢
  rw [get?_merge tidy]
  cases q.get? key with
  | none =>
    rw [Option.map_none, Option.none_or]
    exact free
  | some v =>
    cases v with
    | scalar s => rw [Option.map_some, blend_scalar, Option.some_or]
    | dict d =>
      obtain ⟨c, blended⟩ := blend_dict (p.get? key) d
      rw [Option.map_some, blended, Option.some_or]

theorem dictAt_merge (tidy : q.Tidy) : (p.merge true q).dictAt key =
    if (q.scalarAt key).isSome then nil else (p.dictAt key).merge true (q.dictAt key) := by
  unfold dictAt scalarAt
  rw [get?_merge tidy]
  cases q.get? key with
  | none => rfl
  | some v =>
    cases v with
    | scalar s => rw [Option.map_some, blend_scalar, Option.some_or]; rfl
    | dict d => rcases p.get? key with _ | (_ | _) <;> rfl

/-! Paths -/

/-- The value at the end of a path; the empty path ends at the dictionary itself. -/
def valueAt? : Props → List String → Option Value
  | p, [] => some (.dict p)
  | p, [key] => p.get? key
  | p, key :: next :: path => (p.dictAt key).valueAt? (next :: path)

/-- Where the first key of a path holds the same, all of the path does. -/
theorem valueAt?_congr (same : p.get? key = p'.get? key) : p.valueAt? (key :: path) = p'.valueAt? (key :: path) := by
  cases path with
  | nil => exact same
  | cons next path =>
    unfold valueAt? dictAt
    rw [same]

end LiveDiagram.Props
