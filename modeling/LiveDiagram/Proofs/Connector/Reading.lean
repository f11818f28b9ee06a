import LiveDiagram.Connector.Basic
import LiveDiagram.Source.Token

/-! Connectors read back. Two neighbouring characters make a line symbol at one place of a connector only, so a text
is read as a connector exactly if it is the text of one. -/
namespace LiveDiagram.Connector

variable {line : Line} {c : Connector} {before text : List Char}

/-- What is read as an arrowhead or none is its symbol. -/
theorem symbol_of_head? {symbol : Arrowhead → List Char} {head : Option Arrowhead}
    (found : head? symbol text = some head) : head.elim [] symbol = text := by
  unfold head? at found
  split at found
  · next empty =>
    cases found
    exact (List.isEmpty_iff.1 empty).symm
  · obtain ⟨h, lookup, rfl⟩ := Option.map_eq_some_iff.1 found
    have own := List.find?_some lookup
    exact beq_iff_eq.1 own

theorem text_of_readFrom (found : readFrom line before text = some c) : c.text = before.reverse ++ text := by
  induction text generalizing before with
  | nil => cases found
  | cons a rest ih =>
    cases rest with
    | nil => cases found
    | cons b rest =>
      rw [readFrom] at found
      rcases Option.or_eq_some_iff.1 found with here | ⟨_, further⟩
      · split at here
        · next symbol =>
          split at here
          · next start stop first last =>
            cases here
            unfold Connector.text
            rw [symbol_of_head? first, symbol_of_head? last, ← symbol]
            simp only [List.append_assoc, List.cons_append, List.nil_append]
          · cases here
        · cases here
      · rw [ih further, List.reverse_cons, List.append_assoc]
        rfl

/-- What is read as a connector is its text. -/
theorem text_of_read? (found : read? text = some c) : c.text = text := by
  obtain ⟨line, _, here⟩ := List.exists_of_findSome?_eq_some found
  exact text_of_readFrom here

/-- Whether two neighbouring characters make a line symbol. -/
def hasLine : List Char → Bool
  | a :: b :: rest => Line.all.any (fun line => line.symbol = (a, b)) || hasLine (b :: rest)
  | _ => false

theorem readFrom_eq_none (lacks : hasLine text = false) : readFrom line before text = none := by
  induction text generalizing before with
  | nil => rfl
  | cons a rest ih =>
    cases rest with
    | nil => rfl
    | cons b rest =>
      simp only [hasLine, Bool.or_eq_false_iff, List.any_eq_false, decide_eq_true_eq] at lacks
      have apart : (a, b) ≠ line.symbol := fun same => lacks.1 line (Line.mem_all line) same.symm
      rw [readFrom, if_neg apart, Option.none_or]
      exact ih lacks.2

/-- Reading passes over a front without a line symbol. -/
theorem readFrom_append {a : Char} {rest : List Char} (lacks : hasLine (text ++ [a]) = false) :
    readFrom line before (text ++ a :: rest) = readFrom line (text.reverse ++ before) (a :: rest) := by
  induction text generalizing before with
  | nil => rfl
  | cons x front ih =>
    obtain ⟨y, others, same⟩ : ∃ y others, ∀ more, front ++ a :: more = y :: (others ++ more) := by
      cases front with
      | nil => exact ⟨a, [], fun _ => rfl⟩
      | cons y front => exact ⟨y, front ++ [a], fun more => by simp⟩
    rw [List.cons_append, same [], hasLine, ← same [], Bool.or_eq_false_iff, List.any_eq_false] at lacks
    have apart : (x, y) ≠ line.symbol :=
      fun equal => lacks.1 line (Line.mem_all line) (decide_eq_true equal.symm)
    rw [List.cons_append, same rest, readFrom, if_neg apart, Option.none_or, ← same rest, ih lacks.2,
      List.reverse_cons, List.append_assoc]
    rfl

theorem head?_startSymbol (head : Option Arrowhead) :
    head? Arrowhead.startSymbol (head.elim [] Arrowhead.startSymbol) = some head := by
  cases head with
  | none => rfl
  | some h => cases h <;> rfl

theorem head?_endSymbol (head : Option Arrowhead) :
    head? Arrowhead.endSymbol (head.elim [] Arrowhead.endSymbol) = some head := by
  cases head with
  | none => rfl
  | some h => cases h <;> rfl

theorem hasLine_start (head : Option Arrowhead) (line : Line) :
    hasLine (head.elim [] Arrowhead.startSymbol ++ [line.symbol.1]) = false := by
  cases head with
  | none => rfl
  | some h => cases line <;> cases h <;> rfl

theorem hasLine_stop (head : Option Arrowhead) (line : Line) :
    hasLine (line.symbol.2 :: head.elim [] Arrowhead.endSymbol) = false := by
  cases head with
  | none => rfl
  | some h => cases line <;> cases h <;> rfl

theorem symbol_inj {line line' : Line} (same : line.symbol = line'.symbol) : line = line' := by
  revert same
  cases line <;> cases line' <;> decide

/-- A connector is found by its own line and by no other. -/
theorem readFrom_text (line : Line) (c : Connector) :
    readFrom line [] c.text = if line = c.line then some c else none := by
  have shape : c.text = c.start.elim [] Arrowhead.startSymbol ++
      c.line.symbol.1 :: c.line.symbol.2 :: c.stop.elim [] Arrowhead.endSymbol := by
    simp only [Connector.text, List.append_assoc, List.cons_append, List.nil_append]
  rw [shape, readFrom_append (hasLine_start c.start c.line), readFrom, readFrom_eq_none (hasLine_stop c.stop c.line),
    Option.or_none, List.append_nil, List.reverse_reverse, head?_startSymbol, head?_endSymbol]
  by_cases same : line = c.line
  · rw [if_pos same, same]
    exact if_pos rfl
  · rw [if_neg same]
    exact if_neg fun symbols => same (symbol_inj symbols.symm)

/-- A connector reads back from its text. -/
theorem read?_text (c : Connector) : read? c.text = some c := by
  unfold read?
  simp only [readFrom_text]
  rcases c with ⟨line, start, stop⟩
  cases line <;> rfl

/-- No connector ends in a colon behind characters of an id. -/
theorem read?_colon {word : List Char} (plain : ∀ x ∈ word, Token.isIdChar x = true) :
    read? (word ++ [':']) = none := by
  cases found : read? (word ++ [':']) with
  | none => rfl
  | some c =>
    exfalso
    have same := text_of_read? found
    cases stop : c.stop with
    | some head =>
      have last : (head.endSymbol).getLast? = some ':' := by
        have nonempty : head.endSymbol ≠ [] := by cases head <;> decide
        have whole := congrArg List.getLast? same
        rw [Connector.text, stop, List.getLast?_append, List.getLast?_append] at whole
        cases ending : (head.endSymbol).getLast? with
        | none => exact (nonempty (List.getLast?_eq_none_iff.1 ending)).elim
        | some x => simpa [ending] using whole
      revert last
      cases head <;> decide
    | none =>
      have split : (c.start.elim [] Arrowhead.startSymbol ++ [c.line.symbol.1]) ++ [c.line.symbol.2] =
          word ++ [':'] := by
        rw [← same, Connector.text, stop]
        simp
      obtain ⟨front, last⟩ := List.append_inj' split rfl
      have own : Token.isIdChar c.line.symbol.1 = true := by
        apply plain
        rw [← front]
        exact List.mem_append_right _ List.mem_cons_self
      revert own last
      cases c.line <;> decide

theorem isCharacter_of_mem_text {x : Char} (member : x ∈ c.text) : isCharacter x = true := by
  have heads {head : Arrowhead} (inside : x ∈ head.startSymbol ∨ x ∈ head.endSymbol) : isCharacter x = true := by
    refine List.contains_iff_mem.2 (List.mem_append_right _ ?_)
    exact List.mem_flatMap.2 ⟨head, Arrowhead.mem_all head, List.mem_append.2 inside⟩
  have lines {line : Line} (inside : x ∈ [line.symbol.1, line.symbol.2]) : isCharacter x = true :=
    List.contains_iff_mem.2 (List.mem_append_left _ (List.mem_flatMap.2 ⟨line, Line.mem_all line, inside⟩))
  rw [Connector.text, List.mem_append, List.mem_append] at member
  rcases member with (start | middle) | stop
  · cases given : c.start with
    | none => simp [given] at start
    | some head => exact heads (.inl (by simpa [given] using start))
  · exact lines middle
  · cases given : c.stop with
    | none => simp [given] at stop
    | some head => exact heads (.inr (by simpa [given] using stop))

/-- No connector starts like the arrow. -/
theorem take_text (c : Connector) (rest : List Char) : (c.text ++ rest).take 2 ≠ ['-', '>'] := by
  have front : (c.text ++ rest).take 2 =
      (c.start.elim [] Arrowhead.startSymbol ++ [c.line.symbol.1, c.line.symbol.2]).take 2 := by
    rw [Connector.text, List.append_assoc]
    apply List.take_append_of_le_length
    rw [List.length_append]
    exact Nat.le_add_left _ _
  rw [front]
  generalize c.line = line, c.start = start
  cases start with
  | none => cases line <;> decide
  | some head => cases line <;> cases head <;> decide

end LiveDiagram.Connector
