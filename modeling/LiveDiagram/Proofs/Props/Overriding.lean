import LiveDiagram.Proofs.Props.Paths
import LiveDiagram.Proofs.Props.Settling

/-! Laws of merging. What is merged once need not be merged again, the scalars of the second dictionary win over those of the
first, and to let the first one win is to merge the other way round, as long as no null gives way. -/
namespace LiveDiagram.Props

variable {s t : Props} {key : String} {path : List String} {x : Scalar} {v w : Value}

/-! Scalars at the end of paths -/

theorem valueAt?_cons (longer : path ≠ []) : t.valueAt? (key :: path) = (t.dictAt key).valueAt? path := by
  cases path with
  | nil => exact (longer rfl).elim
  | cons => rfl

theorem nil_valueAt? (longer : path ≠ []) : nil.valueAt? path = none := by
  induction path with
  | nil => exact (longer rfl).elim
  | cons key path ih =>
    cases path with
    | nil => rfl
    | cons next path => exact ih (List.cons_ne_nil next path)

/-- Whether a dictionary has a scalar on a path or at its end, or a dictionary at its end. -/
def Bars (s : Props) (path : List String) : Prop :=
  (∃ front x, front <+: path ∧ s.valueAt? front = some (.scalar x)) ∨ ∃ d, s.valueAt? path = some (.dict d)

/-- A path to a scalar is not empty. -/
theorem exists_front {front : List String} (inside : front <+: key :: path) (found : s.valueAt? front = some (.scalar x)) :
    ∃ later, front = key :: later ∧ later <+: path := by
  cases front with
  | nil => cases found
  | cons next later =>
    obtain ⟨rfl, onward⟩ := List.cons_prefix_cons.1 inside
    exact ⟨later, rfl, onward⟩

theorem bars_singleton : s.Bars [key] ↔ (s.get? key).isSome = true := by
  constructor
  · rintro (⟨front, x, inside, found⟩ | ⟨d, found⟩)
    · obtain ⟨later, rfl, onward⟩ := exists_front inside found
      obtain rfl := List.prefix_nil.1 onward
      exact Option.isSome_of_eq_some found
    · exact Option.isSome_of_eq_some found
  · intro known
    obtain ⟨v, found⟩ := Option.isSome_iff_exists.1 known
    cases v with
    | scalar x => exact .inl ⟨[key], x, List.prefix_rfl, found⟩
    | dict d => exact .inr ⟨d, found⟩

theorem bars_cons (longer : path ≠ []) :
    s.Bars (key :: path) ↔ (s.scalarAt key).isSome = true ∨ (s.dictAt key).Bars path := by
  unfold Bars
  rw [valueAt?_cons longer]
  constructor
  · rintro (⟨front, x, inside, found⟩ | there)
    · obtain ⟨later, rfl, onward⟩ := exists_front inside found
      by_cases further : later = []
      · subst further
        exact .inl (Option.isSome_of_eq_some (scalarAt_eq_some.2 found))
      · rw [valueAt?_cons further] at found
        exact .inr (.inl ⟨later, x, onward, found⟩)
    · exact .inr (.inr there)
  · rintro (known | ⟨front, x, inside, found⟩ | there)
    · obtain ⟨x, found⟩ := Option.isSome_iff_exists.1 known
      exact .inl ⟨[key], x, List.cons_prefix_cons.2 ⟨rfl, List.nil_prefix⟩, scalarAt_eq_some.1 found⟩
    · have further : front ≠ [] := by
        rintro rfl
        cases found
      have whole : s.valueAt? (key :: front) = some (.scalar x) := (valueAt?_cons further).trans found
      exact .inl ⟨key :: front, x, List.cons_prefix_cons.2 ⟨rfl, inside⟩, whole⟩
    · exact .inr there

/-- The scalars after merging are those of the second dictionary, and those of the first that it does not bar. -/
theorem scalar_merge_iff (tidy : s.Tidy) : (t.merge true s).valueAt? path = some (.scalar x) ↔
    s.valueAt? path = some (.scalar x) ∨ t.valueAt? path = some (.scalar x) ∧ ¬s.Bars path := by
  induction path generalizing t s with
  | nil => simp [valueAt?]
  | cons key path ih =>
    by_cases longer : path = []
    · subst longer
      rw [bars_singleton]
      unfold valueAt?
      rw [get?_merge tidy]
      cases s.get? key with
      | none => simp
      | some v =>
        cases v with
        | scalar y => simp [blend_scalar]
        | dict d =>
          obtain ⟨c, blended⟩ := blend_dict (t.get? key) d
          simp [blended]
    · rw [valueAt?_cons longer, valueAt?_cons longer, valueAt?_cons longer, bars_cons longer, dictAt_merge tidy]
      cases held : s.scalarAt key with
      | some y => simp [dictAt_of_scalarAt held, nil_valueAt? longer]
      | none => simpa using ih tidy.dictAt

/-! The other way round -/

/-- To let a value win that is there, or to bring it to the other one, leaves it, unless both are dictionaries. -/
theorem settle_mirror (proper : w ≠ .scalar .null) (v : Value) :
    settle false (some w) v = w ∧ settle true (some v) w = w ∨ ∃ c d, w = .dict c ∧ v = .dict d := by
  cases w with
  | scalar a =>
    have solid : a ≠ .null := fun same => proper (congrArg Value.scalar same)
    cases v <;> simp [settle, solid]
  | dict c =>
    cases v with
    | scalar b => cases b <;> simp [settle]
    | dict d => simp

theorem value_same_refl (tidy : v.Tidy) : v.same v = true := by
  cases v with
  | scalar x => exact Scalar.same_refl x
  | dict d => exact same_refl tidy

/-- Where no null gives way, to let the first dictionary win is to merge it into the second. -/
theorem merge_mirror (tidy : t.Tidy) (tidy' : s.Tidy) (proper : ∀ l ∈ t.leaves, l.2 ≠ .null) :
    (t.merge false s).same (s.merge true t) = true := by
  -- Under each key one side settles it alone, or both hold dicts and the merge goes on in them.
  induction t using byEntries generalizing s with
  | step t ih =>
    refine (same_iff (tidy.merge tidy') (tidy'.merge tidy)).2 fun key => ?_
    rw [get?_merge_settle tidy', get?_merge_settle tidy]
    cases known : t.get? key with
    | none =>
      cases found : s.get? key with
      | none => exact .none
      | some v => exact .some (value_same_refl (tidy'.get? found))
    | some w =>
      cases found : s.get? key with
      | none => exact .some (value_same_refl (tidy.get? known))
      | some v =>
        have solid : w ≠ .scalar .null := by
          rintro rfl
          exact proper ([key], .null) (mem_leaves known (List.mem_singleton_self _)) rfl
        refine .some ?_
        rcases settle_mirror solid v with ⟨left, right⟩ | ⟨c, d, rfl, rfl⟩
        · rw [left, right]
          exact value_same_refl (tidy.get? known)
        · exact ih key c known (tidy.get? known) (tidy'.get? found) fun l member =>
            proper (key :: l.1, l.2) (mem_leaves known member)

/-- Merging again changes nothing; the second dictionary wins at its scalars, and the first keeps those that are not barred;
and where the first has no null, to let it win is to merge the other way round. -/
theorem merge_laws (tidy : t.Tidy) (tidy' : s.Tidy) :
    (∀ override, (t.merge override s).merge override s = t.merge override s) ∧
      (∀ path x, (t.merge true s).valueAt? path = some (.scalar x) ↔
        s.valueAt? path = some (.scalar x) ∨ t.valueAt? path = some (.scalar x) ∧ ¬s.Bars path) ∧
      ((∀ l ∈ t.leaves, l.2 ≠ .null) → (t.merge false s).same (s.merge true t) = true) :=
  ⟨fun _ => merge_again tidy', fun _ _ => scalar_merge_iff tidy', merge_mirror tidy tidy'⟩

/-- A scalar that is kept beside one that is replaced, and one that a dictionary takes the place of. -/
theorem merge_laws_kept : ∃ s t : Props, t.Tidy ∧ s.Tidy ∧ (∀ l ∈ t.leaves, l.2 ≠ .null) ∧
    (t.merge true s).merge true s = t.merge true s ∧
    (t.merge true s).valueAt? ["fill", "on"] = some (.scalar (.bool true)) ∧
    (t.merge true s).valueAt? ["fill", "color"] = some (.scalar (.text "blue")) ∧
    (t.merge true s).valueAt? ["size"] ≠ some (.scalar (.int 1)) ∧
    (t.merge false s).same (s.merge true t) = true := by
  let t : Props := node "fill" (leaf "color" (.text "red") (leaf "on" (.bool true) nil)) (leaf "size" (.int 1) nil)
  let s : Props := node "fill" (leaf "color" (.text "blue") nil) (node "size" (leaf "x" .null nil) nil)
  have tidy : t.Tidy := ⟨rfl, ⟨rfl, rfl, trivial⟩, rfl, trivial⟩
  have tidy' : s.Tidy := ⟨rfl, ⟨rfl, trivial⟩, rfl, ⟨rfl, trivial⟩, trivial⟩
  have proper : ∀ l ∈ t.leaves, l.2 ≠ .null := by decide
  obtain ⟨again, scalars, mirror⟩ := merge_laws tidy tidy'
  refine ⟨s, t, tidy, tidy', proper, again true, (scalars _ _).2 (.inr ⟨rfl, ?_⟩), (scalars _ _).2 (.inl rfl), ?_, mirror proper⟩
  · rw [bars_cons (List.cons_ne_nil _ _), bars_singleton]
    decide
  · intro left
    rcases (scalars _ _).1 left with own | ⟨_, free⟩
    · cases own
    · exact free (.inr ⟨_, rfl⟩)

end LiveDiagram.Props
