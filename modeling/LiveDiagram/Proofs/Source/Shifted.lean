import LiveDiagram.Proofs.Source.Advancing
import LiveDiagram.Proofs.Source.Ending

/-! A text behind another one. Its tokens and the errors of its lines are those that it has on its own, with the lines
counted on. -/
namespace LiveDiagram

namespace Token
variable {first n : Nat} {t : Token} {texts more : List (List Char)}

/-- The token with its line counted on. -/
def shift (n : Nat) (t : Token) : Token :=
  { t with line := t.line + n }

@[simp] theorem kind_shift : (t.shift n).kind = t.kind := rfl

@[simp] theorem value_shift : (t.shift n).value = t.value := rfl

theorem map_shift_zero (tokens : List Token) : tokens.map (shift 0) = tokens :=
  List.map_id tokens

theorem ofLine_shift {text : List Char} : ofLine (first + n) text = (ofLine first text).map (shift n) := by
  unfold ofLine
  rw [List.map_append, List.map_filterMap]
  refine congrArg₂ _ (List.filterMap_congr fun ⟨column, piece⟩ _ => ?_) rfl
  dsimp only
  cases piece.token <;> rfl

theorem ofLines_shift : ofLines (first + n) texts = (ofLines first texts).map (shift n) := by
  induction texts generalizing first with
  | nil => rfl
  | cons text texts ih => rw [ofLines, ofLines, List.map_append, ofLine_shift, Nat.add_right_comm, ih]

theorem lines_ne_nil (text : List Char) : lines text ≠ [] := by
  induction text with
  | nil => exact List.cons_ne_nil _ _
  | cons c text ih =>
    rw [lines]
    split
    · exact List.cons_ne_nil _ _
    · split <;> exact List.cons_ne_nil _ _

/-- The lines of one text and then those of another. -/
theorem lines_newline (text rest : List Char) : lines (text ++ '\n' :: rest) = lines text ++ lines rest := by
  induction text with
  | nil => exact if_pos rfl
  | cons c text ih =>
    rw [List.cons_append, lines, lines, ih]
    split
    · rfl
    · obtain ⟨line, more, same⟩ := List.exists_cons_of_ne_nil (lines_ne_nil text)
      rw [same, List.cons_append]
      rfl

/-- The number of lines of a text. -/
def height (text : String) : Nat :=
  (lines text.toList).length

theorem ofText_newline (text rest : String) :
    ofText (text ++ "\n" ++ rest) = ofLines 0 (lines text.toList) ++ (ofText rest).map (shift (height text)) := by
  have cut : lines (text ++ "\n" ++ rest).toList = lines text.toList ++ lines rest.toList := by
    rw [String.toList_append, String.toList_append, List.append_assoc]
    exact lines_newline _ _
  obtain ⟨line, more, same⟩ := List.exists_cons_of_ne_nil (lines_ne_nil rest.toList)
  have count : (lines text.toList ++ lines rest.toList).length - 1 = (lines rest.toList).length - 1 + height text := by
    rw [height, List.length_append, same, List.length_cons]
    omega
  have last : (lines text.toList ++ lines rest.toList).getLast? = (lines rest.toList).getLast? := by
    rw [List.getLast?_append, same, List.getLast?_cons, Option.some_or]
  have shifted : ofLines (height text) (lines rest.toList) = (ofLines 0 (lines rest.toList)).map (shift (height text)) := by
    rw [← ofLines_shift, Nat.zero_add]
  unfold ofText
  dsimp only
  rw [cut, count, last, ofLines_append, List.map_append, Nat.zero_add, ← height, shifted, List.append_assoc]
  rfl

/-! The lines of tokens -/

theorem line_of_mem_ofLine {text : List Char} (member : t ∈ ofLine first text) : t.line = first := by
  unfold ofLine at member
  rcases List.mem_append.1 member with inside | last
  · obtain ⟨x, _, made⟩ := List.mem_filterMap.1 inside
    obtain ⟨_, _, rfl⟩ := Option.map_eq_some_iff.1 made
    rfl
  · cases List.mem_singleton.1 last
    rfl

theorem line_lt_of_mem_ofLines (member : t ∈ ofLines first texts) : t.line < first + texts.length := by
  induction texts generalizing first with
  | nil => cases member
  | cons text texts ih =>
    rw [List.length_cons]
    rcases List.mem_append.1 member with own | later
    · rw [line_of_mem_ofLine own]
      omega
    · have bound := ih later
      omega

theorem le_line_of_mem_ofLines (member : t ∈ ofLines first texts) : first ≤ t.line := by
  induction texts generalizing first with
  | nil => cases member
  | cons text texts ih =>
    rcases List.mem_append.1 member with own | later
    · exact (line_of_mem_ofLine own).ge
    · exact (Nat.le_succ first).trans (ih later)

/-- From one token to the next the line does not go down. -/
theorem pairwise_line_ofLines : (ofLines first texts).Pairwise (·.line ≤ ·.line) := by
  induction texts generalizing first with
  | nil => exact .nil
  | cons text texts ih =>
    have own : (ofLine first text).Pairwise (·.line ≤ ·.line) :=
      List.pairwise_of_forall_mem_list fun s member t member' =>
        (line_of_mem_ofLine member).trans_le (line_of_mem_ofLine member').ge
    refine List.pairwise_append.2 ⟨own, ih, fun s member t member' => ?_⟩
    rw [line_of_mem_ofLine member]
    exact (Nat.le_succ first).trans (le_line_of_mem_ofLines member')

/-- The last token ends the last line. -/
theorem exists_getLast?_ofLines (first : Nat) (nonempty : texts ≠ []) :
    ∃ n, (ofLines first texts).getLast? = some n ∧ n.kind = .newline ∧ n.line + 1 = first + texts.length := by
  induction texts generalizing first with
  | nil => exact (nonempty rfl).elim
  | cons text texts ih =>
    rw [ofLines, List.getLast?_append, List.length_cons]
    by_cases single : texts = []
    · subst single
      have own : (ofLine first text).getLast? = some ⟨.newline, "\n", first, text.length⟩ := List.getLast?_concat
      exact ⟨_, own, rfl, rfl⟩
    · obtain ⟨n, last, newline, line⟩ := ih (first + 1) single
      rw [last]
      exact ⟨n, rfl, newline, by omega⟩

/-- A text ends with two tokens, the end of its last line and its own end, both on the last line. -/
theorem exists_last (text : String) : ∃ front n e, ofText text = front ++ [n, e] ∧ n.kind = .newline ∧ e.kind = .eof ∧
    n.line = e.line ∧ e.line + 1 = height text := by
  obtain ⟨n, last, newline, line⟩ := exists_getLast?_ofLines 0 (lines_ne_nil text.toList)
  obtain ⟨front, same⟩ := List.getLast?_eq_some_iff.1 last
  rw [Nat.zero_add] at line
  refine ⟨front, n, ⟨.eof, "", (lines text.toList).length - 1, ((lines text.toList).getLast?.getD []).length⟩, ?_, newline,
    rfl, ?_, ?_⟩
  · rw [ofText, same, List.append_assoc]
    rfl
  · rw [← line]
    rfl
  · rw [height, ← line]
    rfl

/-- The lines of the tokens of a text do not go down. -/
theorem pairwise_line_ofText (text : String) : (ofText text).Pairwise (·.line ≤ ·.line) := by
  refine List.pairwise_append.2 ⟨pairwise_line_ofLines, List.pairwise_singleton _ _, fun t member e last => ?_⟩
  have low := line_lt_of_mem_ofLines member
  cases List.mem_singleton.1 last
  dsimp only
  omega

theorem line_lt_of_mem_ofText {text : String} (member : t ∈ ofText text) : t.line < height text := by
  obtain ⟨front, n, e, tokens, _, _, line, last⟩ := exists_last text
  have ordered := pairwise_line_ofText text
  rw [tokens, List.append_cons, List.pairwise_append] at ordered
  rw [tokens, List.append_cons, List.mem_append, List.mem_singleton] at member
  rcases member with before | rfl
  · have low := ordered.2.2 t before e List.mem_cons_self
    omega
  · omega

theorem lineErrors_append (first : Nat) (e : Errors) :
    lineErrors first e (texts ++ more) = lineErrors (first + texts.length) (lineErrors first e texts) more := by
  induction texts generalizing first e with
  | nil => rfl
  | cons text texts ih =>
    rw [List.cons_append, lineErrors, lineErrors, ih, List.length_cons, Nat.add_right_comm, Nat.add_assoc]

theorem errorsOf_newline (text rest : String) :
    errorsOf (text ++ "\n" ++ rest) = lineErrors (height text) (errorsOf text) (lines rest.toList) := by
  have cut : lines (text ++ "\n" ++ rest).toList = lines text.toList ++ lines rest.toList := by
    rw [String.toList_append, String.toList_append, List.append_assoc]
    exact lines_newline _ _
  rw [errorsOf, cut, lineErrors_append, Nat.zero_add]
  rfl

end Token

namespace Errors
variable {e : Errors} {line l : Int} {message : String}

/-- A message comes last on its line, unless the line has it already. -/
theorem messages_add : (e.add line message).messages l =
    if l = line ∧ message ∉ e.messages l then e.messages l ++ [message] else e.messages l := by
  unfold add
  by_cases known : (line, message) ∈ e.reports
  · rw [if_pos known, if_neg]
    rintro ⟨rfl, unknown⟩
    exact unknown (mem_messages.2 known)
  · rw [if_neg known]
    by_cases own : l = line
    · subst own
      rw [if_pos ⟨rfl, fun there => known (mem_messages.1 there)⟩]
      simp [messages]
    · rw [if_neg fun both => own both.1]
      simp [messages, Ne.symm own]

theorem messages_add_of_ne (other : l ≠ line) : (e.add line message).messages l = e.messages l := by
  rw [messages_add, if_neg fun both => other both.1]

end Errors
end LiveDiagram
