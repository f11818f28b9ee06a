import LiveDiagram.Proofs.Source.Repeating
import LiveDiagram.Proofs.Source.Spoiling

/-! Texts without errors. The rule against repeated ids has nothing to report exactly where all ids of a forest are
distinct, so that a text is without errors when its reading is and no id comes twice. -/
namespace LiveDiagram

theorem Errors.mem_merge_iff {e : Errors} {more : List (Int × String)} {report : Int × String} :
    report ∈ (e.merge more).reports ↔ report ∈ e.reports ∨ report ∈ more := by
  induction more generalizing e with
  | nil => simp [merge]
  | cons first rest ih => exact ih.trans (by rw [mem_add_iff, List.mem_cons, or_assoc])

namespace Parsed
variable {text : String} {context context' : Context} {parsed : Parsed}

/-- A text that is read without errors, under the rules that every text is held to. -/
structure Clean (text : String) (context : Context) (parsed : Parsed) (context' : Context) : Prop where
  read : ofText standardRules text context = (.ok parsed, context')
  errors : parsed.errors.reports = []

/-- A text that can be read, with what is seen of its reading. -/
theorem exists_read (rules : List Forest.Rule) (text : String) (context : Context) (check : Parsed → Bool)
    (ends : (ofText rules text context).1.toOption.any check = true) :
    ∃ parsed, ofText rules text context = (.ok parsed, (ofText rules text context).2) ∧ check parsed = true := by
  cases read : ofText rules text context with
  | mk result context' =>
    rw [read] at ends
    cases result with
    | error fault => cases ends
    | ok parsed => exact ⟨parsed, rfl, ends⟩

/-- A text whose reading ends without errors is clean, with what is seen of its forest. -/
theorem exists_clean (text : String) (context : Context) (check : Forest → Bool) (ends : (ofText standardRules text context).1.toOption.any
    (fun parsed => parsed.errors.isEmpty && check parsed.forest) = true) :
    ∃ parsed, Clean text context parsed (ofText standardRules text context).2 ∧ check parsed.forest = true := by
  obtain ⟨parsed, read, seen⟩ := exists_read standardRules text context _ ends
  rw [Bool.and_eq_true] at seen
  exact ⟨parsed, ⟨read, List.isEmpty_iff.1 seen.1⟩, seen.2⟩

/-- A text is clean if it is read without errors and its ids are distinct. -/
theorem clean_iff : Clean text context parsed context' ↔
    (ofText [] text context = (.ok parsed, context') ∧ parsed.errors.reports = []) ∧
      (parsed.forest.preorder.map Declaration.id).Nodup := by
  rw [← Forest.repeatedIds_eq_nil_iff]
  constructor
  · rintro ⟨read, errors⟩
    rw [ofText_rules] at read
    split at read
    · next plain context'' first =>
      cases read
      change (plain.errors.merge plain.forest.repeatedIds).reports = [] at errors
      have unrepeated : plain.forest.repeatedIds = [] := by
        by_contra some
        obtain ⟨report, member⟩ := List.exists_mem_of_ne_nil _ some
        have kept := Errors.mem_merge_iff (e := plain.errors).2 (.inr member)
        rw [errors] at kept
        cases kept
      have same : standardRules.foldl (fun errors rule => errors.merge (rule plain.forest)) plain.errors = plain.errors :=
        congrArg plain.errors.merge unrepeated
      rw [unrepeated] at errors
      rw [same]
      exact ⟨⟨first, errors⟩, unrepeated⟩
    · cases read
  · rintro ⟨⟨read, errors⟩, unrepeated⟩
    refine ⟨?_, errors⟩
    rw [ofText_rules, read]
    change (Except.ok (⟨parsed.forest, parsed.errors.merge parsed.forest.repeatedIds⟩ : Parsed), context') = _
    rw [unrepeated]
    rfl

end Parsed
end LiveDiagram
