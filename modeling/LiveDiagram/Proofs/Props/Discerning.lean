import LiveDiagram.Proofs.Props.Holding
import LiveDiagram.Proofs.Props.Settling

/-! Changes that cannot be seen in values. Merging may replace a scalar by another one that counts as the same. Where it
does not do so, entries that are the same after it are the very ones from before. -/
namespace LiveDiagram.Props

variable {p p' q rest : Props} {key k : String} {value v : Value}

/-- Where scalars of two dictionaries under the same path count as the same, they are equal. -/
def Discerns (p q : Props) : Prop :=
  ∀ a ∈ p.leaves, ∀ b ∈ q.leaves, a.1 = b.1 → b.2.same a.2 = true → a.2 = b.2

instance : Decidable (p.Discerns q) :=
  inferInstanceAs (Decidable (∀ a ∈ p.leaves, ∀ b ∈ q.leaves, a.1 = b.1 → b.2.same a.2 = true → a.2 = b.2))

/-- The scalars under a key with the rest of their paths. -/
def leavesOf : Value → List (List String × Scalar)
  | .scalar s => [([], s)]
  | .dict d => d.leaves

theorem leaves_cons : (cons k v rest).leaves = (leavesOf v).map (fun l => (k :: l.1, l.2)) ++ rest.leaves := by
  cases v <;> rfl

theorem mem_leaves {path : List String} {s : Scalar} (found : p.get? key = some v) (inside : (path, s) ∈ leavesOf v) :
    (key :: path, s) ∈ p.leaves := by
  induction p using byFirst with
  | nil => cases found
  | cons k w rest _ ih =>
    rw [get?_cons] at found
    rw [leaves_cons, List.mem_append]
    split at found
    · next own =>
      cases found
      subst own
      exact .inl (List.mem_map_of_mem (f := fun l => (k :: l.1, l.2)) inside)
    · exact .inr (ih found)

theorem Discerns.scalar {a b : Scalar} (discerns : p.Discerns q) (found : p.get? key = some (.scalar a))
    (found' : q.get? key = some (.scalar b)) (same : b.same a = true) : a = b :=
  discerns ([key], a) (mem_leaves found (List.mem_singleton.2 rfl)) ([key], b)
    (mem_leaves found' (List.mem_singleton.2 rfl)) rfl same

theorem Discerns.dict {c d : Props} (discerns : p.Discerns q) (found : p.get? key = some (.dict c))
    (found' : q.get? key = some (.dict d)) : c.Discerns d := by
  rintro ⟨path, a⟩ left ⟨_, b⟩ right rfl same
  exact discerns (key :: path, a) (mem_leaves found left) (key :: path, b) (mem_leaves found' right) rfl same

/-! Merging, key by key -/

/-- What a key holds when a value has been merged into what it held. -/
def blend : Option Value → Value → Value
  | some (.dict c), .dict d => .dict (c.merge true d)
  | _, .dict d => .dict (nil.merge true d)
  | _, .scalar s => .scalar s

theorem blend_scalar (w : Option Value) (s : Scalar) : blend w (.scalar s) = .scalar s := by
  rcases w with _ | (_ | _) <;> rfl

theorem blend_dict (w : Option Value) (d : Props) : ∃ c : Props, blend w (.dict d) = .dict (c.merge true d) := by
  rcases w with _ | (_ | c)
  · exact ⟨nil, rfl⟩
  · exact ⟨nil, rfl⟩
  · exact ⟨c, rfl⟩

theorem blend_eq_settle (inner : v.Tidy) (w : Option Value) : blend w v = settle true w v := by
  cases v with
  | scalar s => rcases w with _ | (_ | _) | _ <;> rfl
  | dict d =>
    have whole : nil.merge true d = d := nil_merge inner
    rcases w with _ | (_ | _) | _
    case some.dict => rfl
    all_goals exact congrArg Value.dict whole

theorem get?_merge (tidy : q.Tidy) :
    (p.merge true q).get? key = ((q.get? key).map (blend (p.get? key))).or (p.get? key) := by
  rw [get?_merge_settle tidy]
  cases found : q.get? key with
  | none => rfl
  | some v => rw [Option.map_some, Option.map_some, blend_eq_settle (tidy.get? found)]

/-- A tidy dictionary is held where all its entries are. -/
theorem holds_of_get? (tidy : q.Tidy) (held : ∀ key v, q.get? key = some v → p.HoldsAt key v) : p.Holds q := by
  induction q using byFirst with
  | nil => trivial
  | cons k v rest _ ih =>
    refine holds_cons.2 ⟨held k v (by rw [get?_cons, if_pos rfl]), ih (tidy_cons.1 tidy).2.2 fun key w found => ?_⟩
    exact held key w (get?_cons_of_tidy tidy found)

/-- What is the same after merging was held before, where scalars are told apart. -/
theorem holds_of_same (tidy : p.Tidy) (tidy' : q.Tidy) (discerns : p.Discerns q)
    (same : (p.merge true q).same p = true) : p.Holds q := by
  induction q using byEntries generalizing p with
  | step q ih =>
    refine holds_of_get? tidy' fun key v found => ?_
    have paired := (same_iff (tidy.merge tidy') tidy).1 same key
    rw [get?_merge tidy', found, Option.map_some, Option.some_or] at paired
    generalize former : p.get? key = w at paired
    cases paired with
    | @some _ w equal =>
      cases v with
      | scalar b =>
        rw [blend_scalar] at equal
        cases w with
        | scalar a => exact former.trans (congrArg (some ∘ Value.scalar) (discerns.scalar former found equal))
        | dict => cases equal
      | dict d =>
        cases w with
        | scalar => cases equal
        | dict c => exact ⟨c, former, ih key d found (tidy.get? former) (tidy'.get? found) (discerns.dict former found) equal⟩

/-! Entries that texts are put into -/

theorem prefix_keys_set : p.keys <+: (p.set key value).keys := by
  induction p using byFirst with
  | nil => exact List.nil_prefix
  | cons k v rest _ ih =>
    rw [set_cons]
    split
    · have same : (Props.cons k v rest).keys = (Props.cons k value rest).keys := by rw [keys_cons, keys_cons]
      exact same ▸ List.prefix_rfl
    · rw [keys_cons, keys_cons]
      exact List.cons_prefix_cons.2 ⟨rfl, ih⟩

theorem prefix_keys_overlay : p.keys <+: (p.overlay q).keys := by
  induction q using byFirst generalizing p with
  | nil => exact List.prefix_rfl
  | cons k v rest _ ih =>
    rw [overlay_cons]
    exact prefix_keys_set.trans ih

/-- Texts that are the same are equal, where keys have only been added at the end. -/
theorem eq_of_same_texts (tidy : p.Tidy) (tidy' : p'.Tidy) (texts : ∀ key v, p.get? key = some v → ∃ s, v = .scalar (.text s))
    (grown : p.keys <+: p'.keys) (same : p'.same p = true) : p' = p := by
  have paired := (same_iff tidy' tidy).1 same
  have size : p'.size = p.size := by
    unfold Props.same at same
    simpa using (Bool.and_eq_true_iff.1 same).1
  have keys : p.keys = p'.keys := grown.eq_of_length (by rw [length_keys, length_keys, size])
  refine ext_keys tidy' tidy keys.symm fun key => ?_
  have pair := paired key
  generalize former : p.get? key = v, latter : p'.get? key = w at pair
  cases pair with
  | none => rfl
  | @some w v equal =>
    obtain ⟨s, rfl⟩ := texts key v former
    cases w with
    | dict => cases equal
    | scalar t =>
      have equal : t.same (.text s) = true := equal
      rcases Scalar.same_iff.1 equal with rfl | ⟨_, _, _, none, _⟩
      · rfl
      · cases none

end LiveDiagram.Props
