import LiveDiagram.Source.Token
import Mathlib.Data.List.TakeWhile

/-! The pieces of a line: what the piece in front of the rest of a line can be, and where the pieces are. -/
namespace LiveDiagram.Token

variable {c : Char} {text rest : List Char} {p : Piece} {column : Nat}

/-! Quoted texts -/

/-- A character that is neither a quote nor an escape stands for itself. -/
theorem quoted_cons (quote : c ≠ '"') (plain : c ≠ '\\' ∨ text = []) :
    quoted (c :: text) = (c :: (quoted text).1, (quoted text).2.1 + 1, (quoted text).2.2) := by
  rw [quoted]
  · exact quote
  · rintro d more rfl rfl
    rcases plain with other | empty
    · exact other rfl
    · cases empty

theorem quoted_escape (c : Char) (text : List Char) :
    quoted ('\\' :: c :: text) = (escaped c :: (quoted text).1, (quoted text).2.1 + 2, (quoted text).2.2) := by
  rw [quoted]

theorem quoted_le (text : List Char) : (quoted text).2.1 ≤ text.length := by
  induction text using quoted.induct with
  | case1 => exact Nat.le_refl _
  | case2 text => simp [quoted]
  | case3 c text value used unclosed same ih =>
    rw [quoted]
    exact Nat.add_le_add_right ih 2
  | case4 c text quote escape value used unclosed same ih =>
    have plain : c ≠ '\\' ∨ text = [] := by
      cases text with
      | nil => exact .inr rfl
      | cons d text => exact .inl fun same => escape d text same rfl
    rw [quoted_cons quote plain]
    exact Nat.add_le_add_right ih 1

/-! What a piece can be -/

/-- A blank, or a character that means nothing. -/
def gap : Piece :=
  ⟨none, 0, false⟩

/-- A character that means nothing outside quoted texts, blanks apart. -/
def Idle (c : Char) : Prop :=
  c ∉ ['"', ':', '\x7b', '\x7d', '/'] ∧ isIdChar c = false

/-- What the piece in front of the rest of a line can be. -/
inductive Cut (c : Char) (rest : List Char) : Piece → Prop
  | gap : isBlank c = true ∨ Idle c → Cut c rest gap
  | quoted : c = '"' → Cut c rest ⟨some (.string, (Token.quoted rest).1), (Token.quoted rest).2.1, (Token.quoted rest).2.2⟩
  | symbol {kind : TokenKind} : symbol? c = some kind → Cut c rest (plainPiece kind [c])
  | connector {kind : TokenKind} {run behind : List Char} : kind = .arrow ∨ kind = .connector → rest = run ++ behind →
      (∀ x ∈ c :: run, Connector.isCharacter x = true) → Cut c rest (plainPiece kind (c :: run))
  | word {word behind : List Char} : rest = word ++ behind → (∀ x ∈ c :: word, isIdChar x = true) →
      Cut c rest (wordPiece (c :: word))

theorem Cut.of_front {kind : TokenKind} {run : List Char} (known : kind = .arrow ∨ kind = .connector) (nonempty : run ≠ [])
    (front : run <+: c :: rest) (all : ∀ x ∈ run, Connector.isCharacter x = true) : Cut c rest (plainPiece kind run) := by
  obtain ⟨x, run, rfl⟩ := List.exists_cons_of_ne_nil nonempty
  obtain ⟨behind, whole⟩ := front
  obtain ⟨rfl, rfl⟩ := List.cons.inj whole
  exact .connector known rfl all

theorem Cut.of_connectorPiece? (own : Connector.isCharacter c = true) (found : connectorPiece? (c :: rest) = some p) :
    Cut c rest p := by
  have arrow : ∀ x ∈ ['-', '>'], Connector.isCharacter x = true := by decide
  have run : (c :: rest).takeWhile Connector.isCharacter ≠ [] := by simp [own]
  unfold connectorPiece? at found
  dsimp only at found
  split at found
  · next taken =>
    cases found
    simp only [Bool.and_eq_true, decide_eq_true_eq] at taken
    exact of_front (.inl rfl) (by decide) (taken.1 ▸ List.take_prefix 2 _) arrow
  split at found
  · next whole =>
    cases found
    exact of_front (.inl rfl) (by decide) (whole ▸ List.takeWhile_prefix _) arrow
  split at found
  · cases found
    exact of_front (.inr rfl) run (List.takeWhile_prefix _) fun x member => List.mem_takeWhile_imp member
  · cases found

/-- No piece is anything else. -/
theorem piece_cut (c : Char) (rest : List Char) : Cut c rest (piece c rest) := by
  have idle (quote : c ≠ '"') (symbol : symbol? c = none) (other : isIdChar c = false) : Idle c := by
    refine ⟨?_, other⟩
    unfold symbol? at symbol
    grind
  unfold piece
  split
  · next blank => exact .gap (.inl blank)
  split
  · next quote => exact .quoted quote
  next quote =>
  split
  · next found =>
    split at found
    · next own => exact .of_connectorPiece? own found
    · cases found
  split
  · next symbol => exact .symbol symbol
  next none =>
  split
  · next own =>
    refine .word List.takeWhile_append_dropWhile.symm fun x member => ?_
    rcases List.mem_cons.1 member with rfl | later
    · exact own
    · exact List.mem_takeWhile_imp later
  · next other => exact .gap (.inr (idle quote none (by simpa using other)))

/-- No piece of a line is the end of a line or of a text. -/
theorem proper_piece {kind : TokenKind} {value : List Char} (found : (piece c rest).token = some (kind, value)) :
    kind ≠ .newline ∧ kind ≠ .eof := by
  have cut := piece_cut c rest
  generalize piece c rest = p at found cut
  cases cut with
  | gap => cases found
  | quoted =>
    cases found
    decide
  | symbol means =>
    cases found
    unfold symbol? at means
    grind
  | connector known =>
    cases found
    rcases known with rfl | rfl <;> decide
  | word =>
    cases found
    split <;> decide

/-- Only a quoted text can be unclosed. -/
theorem unclosed_piece (plain : c ≠ '"') (rest : List Char) : (piece c rest).unclosed = false := by
  have cut := piece_cut c rest
  generalize piece c rest = p at cut
  cases cut with
  | quoted quote => exact (plain quote).elim
  | gap | symbol | connector | word => rfl

/-- A piece stays in its line. -/
theorem more_le (c : Char) (text : List Char) : (piece c text).more ≤ text.length := by
  have cut := piece_cut c text
  generalize piece c text = p at cut
  cases cut with
  | gap | symbol => exact Nat.zero_le _
  | quoted => exact quoted_le text
  | connector _ split =>
    subst split
    simp [plainPiece]
  | word split =>
    subst split
    simp [wordPiece, plainPiece]

/-! Where pieces are -/

theorem exists_of_mem_pieces {x : Nat × Piece} (member : x ∈ pieces column text) :
    ∃ front c rest, text = front ++ c :: rest ∧ x = (column + front.length, piece c rest) := by
  induction column, text using pieces.induct with
  | case1 => simp [pieces] at member
  | case2 column c rest first ih =>
    rw [pieces] at member
    rcases List.mem_cons.1 member with rfl | later
    · exact ⟨[], c, rest, rfl, rfl⟩
    · obtain ⟨front, d, more, split, rfl⟩ := ih later
      have inside : first.more ≤ rest.length := more_le c rest
      refine ⟨c :: (rest.take first.more ++ front), d, more, ?_, ?_⟩
      · rw [List.cons_append, List.append_assoc, ← split, List.take_append_drop]
      · rw [List.length_cons, List.length_append, List.length_take_of_le inside]
        congr 1
        omega

theorem exists_piece_of_mem {x : Nat × Piece} (member : x ∈ pieces column text) : ∃ c rest, x.2 = piece c rest := by
  obtain ⟨_, c, rest, _, rfl⟩ := exists_of_mem_pieces member
  exact ⟨c, rest, rfl⟩

/-- The pieces of a text are at its columns. -/
theorem column_of_mem_pieces {x : Nat × Piece} (member : x ∈ pieces column text) :
    column ≤ x.1 ∧ x.1 < column + text.length := by
  obtain ⟨front, c, rest, rfl, rfl⟩ := exists_of_mem_pieces member
  simp

/-- A piece ends in front of the next ones. -/
theorem pairwise_pieces (column : Nat) (text : List Char) :
    (pieces column text).Pairwise fun x y => x.1 + x.2.more < y.1 := by
  induction column, text using pieces.induct with
  | case1 => simp [pieces]
  | case2 column c rest first ih =>
    rw [pieces]
    refine List.pairwise_cons.2 ⟨fun y member => ?_, ih⟩
    exact Nat.lt_of_succ_le (column_of_mem_pieces member).1

/-- Every character of a line is in a piece. -/
theorem exists_mem_pieces (column i : Nat) (inside : i < text.length) :
    ∃ x ∈ pieces column text, x.1 ≤ column + i ∧ column + i ≤ x.1 + x.2.more := by
  induction column, text using pieces.induct generalizing i with
  | case1 => cases inside
  | case2 column c rest first ih =>
    rw [pieces]
    by_cases own : i ≤ first.more
    · exact ⟨_, List.mem_cons_self, Nat.le_add_right _ _, Nat.add_le_add_left own column⟩
    · have later : i - first.more - 1 < (rest.drop first.more).length := by
        rw [List.length_cons] at inside
        rw [List.length_drop]
        omega
      obtain ⟨x, member, bounds⟩ := ih _ later
      refine ⟨x, List.mem_cons_of_mem _ member, ?_⟩
      omega

/-- Further to the right a line has the same pieces. -/
theorem pieces_add (column n : Nat) (text : List Char) :
    pieces (column + n) text = (pieces column text).map fun x => (x.1 + n, x.2) := by
  induction column, text using pieces.induct with
  | case1 => simp [pieces]
  | case2 column c rest first ih =>
    rw [pieces, pieces, List.map_cons, ← ih]
    dsimp only
    rw [Nat.add_right_comm column n, Nat.add_right_comm _ n]

theorem map_pieces (column : Nat) (text : List Char) :
    (pieces column text).map Prod.snd = (pieces 0 text).map Prod.snd := by
  have moved := pieces_add 0 column text
  rw [Nat.zero_add] at moved
  rw [moved, List.map_map]
  rfl

theorem any_pieces (column : Nat) : (pieces column text).any (·.2.unclosed) = (pieces 0 text).any (·.2.unclosed) := by
  have same := congrArg (List.any · Piece.unclosed) (map_pieces column text)
  rwa [List.any_map, List.any_map] at same

end LiveDiagram.Token
