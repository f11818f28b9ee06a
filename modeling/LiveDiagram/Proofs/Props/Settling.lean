import LiveDiagram.Proofs.Props.Leaves
import LiveDiagram.Proofs.Props.Repeating
import LiveDiagram.Proofs.Props.Same

/-! What merging leaves under each key. The two ways to merge differ in what a key holds when both dictionaries know it, and
all that holds of merging follows from that, key by key and then to every depth. -/
namespace LiveDiagram.Props

variable {p q rest : Props} {override : Bool} {key k : String} {v : Value} {w : Option Value}

/-- What a key holds when a value is brought to what it held. -/
def settle (override : Bool) : Option Value → Value → Value
  | none, v => v
  | some (.dict c), .dict d => .dict (c.merge override d)
  | some (.scalar .null), .dict d => .dict d
  | some w, v => if override then v else w

/-- To merge an entry is to set its key to what settles it. -/
theorem merge_entry (inner : v.Tidy) :
    p.merge override (cons k v rest) = (p.set k (settle override (p.get? k) v)).merge override rest := by
  -- a key that keeps what it holds may as well be set to it
  have kept {w : Value} (found : p.get? k = some w) : p = p.set k w := (set_eq_self found).symm
  cases v with
  | scalar s =>
    rw [cons, merge, contains]
    cases found : p.get? k with
    | none => rfl
    | some w =>
      cases override with
      | true => rcases w with (_ | _) | _ <;> rfl
      | false => rcases w with (_ | _) | _ <;> exact congrArg (merge false · rest) (kept found)
  | dict d =>
    rw [cons, merge, nil_merge inner]
    cases found : p.get? k with
    | none => rfl
    | some w =>
      cases override with
      | true => rcases w with (_ | _) | _ <;> rfl
      | false =>
        rcases w with (_ | _) | _
        case scalar.null | dict => rfl
        all_goals exact congrArg (merge false · rest) (kept found)

/-- Merging settles every key that the second dictionary knows, and leaves all others. -/
theorem get?_merge_settle (tidy : q.Tidy) :
    (p.merge override q).get? key = ((q.get? key).map (settle override (p.get? key))).or (p.get? key) := by
  induction q using byFirst generalizing p with
  | nil => rfl
  | cons k v rest _ ih =>
    obtain ⟨fresh, inner, later⟩ := tidy_cons.1 tidy
    rw [merge_entry inner, ih later, get?_set, get?_cons]
    split
    · next own =>
      subst own
      rw [fresh]
      rfl
    · rfl

/-! Merging once more -/

/-- Where every key is settled, merging changes nothing. -/
theorem merge_of_settled (tidy : q.Tidy)
    (settled : ∀ key v, q.get? key = some v → p.get? key = some (settle override (p.get? key) v)) :
    p.merge override q = p := by
  induction q using byFirst with
  | nil => rfl
  | cons k v rest _ ih =>
    obtain ⟨_, inner, later⟩ := tidy_cons.1 tidy
    have own := settled k v (by rw [get?_cons, if_pos rfl])
    rw [merge_entry inner, set_eq_self own]
    exact ih later fun key v found => settled key v (get?_cons_of_tidy tidy found)

/-- A known key is left with one of the two values, unless both are dictionaries. -/
theorem settle_cases (override : Bool) (w v : Value) : settle override (some w) v = v ∨ settle override (some w) v = w ∨
    ∃ c d, w = .dict c ∧ v = .dict d := by
  cases w with
  | scalar a => cases override <;> cases a <;> cases v <;> simp [settle]
  | dict c => cases override <;> cases v <;> simp [settle]

theorem settle_settle (inner : v.Tidy)
    (again : ∀ d, v = .dict d → ∀ c : Props, (c.merge override d).merge override d = c.merge override d) :
    settle override (some (settle override w v)) v = settle override w v := by
  have same : settle override (some v) v = v := by
    cases v with
    | scalar s => cases s <;> exact ite_self _
    | dict d =>
      have once := again d rfl nil
      rw [nil_merge inner] at once
      exact congrArg Value.dict once
  cases w with
  | none => exact same
  | some w =>
    rcases settle_cases override w v with new | old | ⟨c, d, rfl, rfl⟩
    · rw [new, same]
    · rw [old, old]
    · exact congrArg Value.dict (again d rfl c)

/-- What has been merged is there already when it comes again. -/
theorem merge_again (tidy : q.Tidy) : (p.merge override q).merge override q = p.merge override q := by
  induction q using byEntries generalizing p with
  | step q ih =>
    refine merge_of_settled tidy fun key v found => ?_
    have inner : v.Tidy := tidy.get? found
    rw [get?_merge_settle tidy, found, Option.map_some, Option.some_or, settle_settle inner]
    rintro d rfl c
    exact ih key d found inner

theorem merge_self (tidy : p.Tidy) : p.merge override p = p := by
  have once : (nil.merge override p).merge override p = nil.merge override p := merge_again tidy
  rwa [nil_merge tidy] at once

end LiveDiagram.Props
