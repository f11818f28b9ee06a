import LiveDiagram.Proofs.Source.Distinct

/-! The reports of repeated ids among the errors of a text. The reader has no message that looks like one, so that they
are those of the rule: on every line the one for the repeated id that is first defined after all others there. -/
namespace LiveDiagram

theorem not_complaint_repetition (x : String) : ¬ Complaint (Forest.repetition x) := by
  have start : ¬ Complaint "Duplicate element ID: \"" := by decide
  unfold Complaint Forest.repetition at *
  rw [String.toList_append, String.toList_append, List.append_assoc, List.head?_append]
  exact start

theorem Token.complaints_lineErrors {first : Nat} {e : Errors} {texts : List (List Char)} :
    ∀ report ∈ (lineErrors first e texts).reports, report ∈ e.reports ∨ Complaint report.2 := by
  induction texts generalizing first e with
  | nil => exact fun _ => .inl
  | cons text texts ih =>
    intro report member
    rcases ih report member with early | complaint
    · split at early
      · refine (Errors.mem_add_iff.1 early).imp_right fun same => ?_
        rw [same]
        exact show Complaint "Unterminated string literal" by decide
      · exact .inl early
    · exact .inr complaint

namespace Parsed
variable {text : String} {context context' : Context} {parsed : Parsed}

/-- Without rules all errors are complaints of the reader. -/
theorem complaints_ofText (read : ofText [] text context = (.ok parsed, context')) :
    ∀ report ∈ parsed.errors.reports, Complaint report.2 := by
  obtain ⟨last, run, rfl, -⟩ := gives_ofText.1 read
  intro report member
  rcases (Reader.advances_run run).complaints report member with early | complaint
  · have lexed : report ∈ (Token.lineErrors 0 .none (Token.lines text.toList)).reports := early
    exact (Token.complaints_lineErrors report lexed).resolve_left (by simp [Errors.none])
  · exact complaint

/-- Every line that defines a repeated id reports one: the last of them in the order of first definitions. Nothing else is
reported as repeated. -/
theorem mem_messages_repetition (read : ofText [Forest.repeatedIds] text context = (.ok parsed, context')) (line : Int)
    (x : String) :
    (Forest.repetition x ∈ parsed.errors.messages line ↔ parsed.forest.LastRepeated line x) ∧
      (parsed.forest.Repeats line x → ∃ y, Forest.repetition y ∈ parsed.errors.messages line) := by
  suffices reported : ∀ y, Forest.repetition y ∈ parsed.errors.messages line ↔ parsed.forest.LastRepeated line y by
    exact ⟨reported x, fun repeats => repeats.exists_last.imp fun y => (reported y).2⟩
  intro y
  rw [ofText_rules] at read
  split at read
  · next plain context'' first =>
    cases read
    rw [Errors.mem_messages]
    change _ ∈ (plain.errors.merge plain.forest.repeatedIds).reports ↔ _
    rw [Errors.mem_merge_iff, Forest.mem_repeatedIds_iff]
    constructor
    · rintro (own | ⟨z, same, last⟩)
      · exact (not_complaint_repetition y (complaints_ofText first (line, Forest.repetition y) own)).elim
      · exact Forest.repetition_injective same ▸ last
    · exact fun last => .inr ⟨y, rfl, last⟩
  · cases read

/-- An id in the body of another one is reported on the line where both are repeated. -/
theorem mem_messages_repetition_inner : ∃ parsed context',
    ofText [Forest.repeatedIds] "a: rect \x7b b: rect\n\x7d\na: rect \x7b b: rect\n\x7d" ⟨⟨fun _ => "*", 0⟩, []⟩ =
      (.ok parsed, context') ∧ Forest.repetition "b" ∈ parsed.errors.messages 2 := by
  obtain ⟨parsed, read, last⟩ := exists_read [Forest.repeatedIds] "a: rect \x7b b: rect\n\x7d\na: rect \x7b b: rect\n\x7d"
    ⟨⟨fun _ => "*", 0⟩, []⟩ (fun parsed => parsed.forest.LastRepeated 2 "b") (by decide +kernel)
  have last : parsed.forest.LastRepeated 2 "b" := of_decide_eq_true last
  exact ⟨parsed, _, read, (mem_messages_repetition read 2 "b").1.2 last⟩

/-- The id around it is repeated on the same line, and not reported. -/
theorem repetition_missing : ∃ parsed context',
    ofText [Forest.repeatedIds] "a: rect \x7b b: rect\n\x7d\na: rect \x7b b: rect\n\x7d" ⟨⟨fun _ => "*", 0⟩, []⟩ =
      (.ok parsed, context') ∧ parsed.forest.Repeats 2 "a" ∧ Forest.repetition "a" ∉ parsed.errors.messages 2 := by
  obtain ⟨parsed, read, seen⟩ := exists_read [Forest.repeatedIds] "a: rect \x7b b: rect\n\x7d\na: rect \x7b b: rect\n\x7d"
    ⟨⟨fun _ => "*", 0⟩, []⟩ (fun parsed => parsed.forest.Repeats 2 "a" ∧
      Forest.repetition "a" ∉ parsed.errors.messages 2) (by decide +kernel)
  obtain ⟨repeats, missing⟩ := of_decide_eq_true seen
  exact ⟨parsed, _, read, repeats, missing⟩

end Parsed
end LiveDiagram
