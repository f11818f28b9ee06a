import LiveDiagram.Proofs.Source.Naming
import LiveDiagram.Proofs.Source.Respacing
import LiveDiagram.Proofs.Source.Shifted

/-! Where the tokens of a text are. Each token of a line has a span of its own. The spans are in order and apart, and outside
of them nothing is lost but blanks and characters that mean nothing. A quoted text in front of a line is one more token, which
moves the others to the right and changes nothing else. -/
namespace LiveDiagram.Token

variable {c : Char} {text rest line body : List Char} {p : Piece} {column : Nat}

/-! Where quoted texts end -/

/-- What may stand between a quote and the end of the line when nothing closes it. A backslash at the end stands for itself. -/
def Open (body : List Char) : Prop :=
  Inner body ∨ ∃ inner, Inner inner ∧ body = inner ++ ['\\']

theorem quoted_inner (inner : Inner body) (text : List Char) :
    (quoted (body ++ text)).2 = (body.length + (quoted text).2.1, (quoted text).2.2) := by
  obtain ⟨value, read⟩ := exists_quoted inner
  rw [read]

theorem quoted_closed (inner : Inner body) (behind : List Char) :
    (quoted (body ++ '"' :: behind)).2 = (body.length + 1, false) :=
  quoted_inner inner _

theorem quoted_open (left : Open body) : (quoted body).2 = (body.length, true) := by
  rcases left with inner | ⟨inner, proper, rfl⟩
  · have whole := quoted_inner inner []
    rw [List.append_nil] at whole
    exact whole
  · rw [quoted_inner proper, List.length_append]
    rfl

/-- A quoted text is closed, or goes on to the end of the line. -/
theorem quoted_cases (text : List Char) : (∃ body behind, Inner body ∧ text = body ++ '"' :: behind) ∨ Open text := by
  induction text using quoted.induct with
  | case1 => exact .inr (.inl .nil)
  | case2 rest => exact .inl ⟨[], rest, .nil, rfl⟩
  | case3 c rest value used unclosed same ih =>
    rcases ih with ⟨body, behind, inner, rfl⟩ | inner | ⟨body, inner, rfl⟩
    · exact .inl ⟨_, behind, .escape c inner, rfl⟩
    · exact .inr (.inl (.escape c inner))
    · exact .inr (.inr ⟨_, .escape c inner, rfl⟩)
  | case4 c rest quote escape value used unclosed same ih =>
    by_cases plain : c = '\\'
    · subst plain
      cases rest with
      | nil => exact .inr (.inr ⟨[], .nil, rfl⟩)
      | cons d rest => exact (escape d rest rfl rfl).elim
    · rcases ih with ⟨body, behind, inner, rfl⟩ | inner | ⟨body, inner, rfl⟩
      · exact .inl ⟨_, behind, .char quote plain inner, rfl⟩
      · exact .inr (.inl (.char quote plain inner))
      · exact .inr (.inr ⟨_, .char quote plain inner, rfl⟩)

/-! Spans of tokens -/

/-- Whether the span of a token of a line, which begins at its column, ends at a column. -/
inductive Fills (line : List Char) (t : Token) : Nat → Prop
  | slice {front behind : List Char} : t.kind ≠ .string → front.length = t.column →
      line = front ++ t.value.toList ++ behind → Fills line t (t.column + t.value.length)
  | closed {front body behind : List Char} : t.kind = .string → front.length = t.column → Inner body →
      line = front ++ '"' :: body ++ '"' :: behind → Fills line t (t.column + body.length + 2)
  | unclosed {front body : List Char} : t.kind = .string → front.length = t.column → Open body →
      line = front ++ '"' :: body → Fills line t line.length

/-- A token has one span. -/
theorem Fills.unique {t : Token} {stop stop' : Nat} (fills : Fills line t stop) (fills' : Fills line t stop') : stop = stop' := by
  -- the line alone says where a quoted text ends: where the reader stops behind the quote
  have behind {stop : Nat} (string : t.kind = .string) (fills : Fills line t stop) :
      stop = t.column + 1 + (quoted (line.drop (t.column + 1))).2.1 := by
    cases fills with
    | slice other => exact (other string).elim
    | @closed front body behind _ place inner whole =>
      have rest : line.drop (t.column + 1) = body ++ '"' :: behind := by
        rw [whole, ← place]
        simp
      rw [rest, quoted_closed inner]
      dsimp only
      omega
    | @unclosed front body _ place left whole =>
      have rest : line.drop (t.column + 1) = body := by
        rw [whole, ← place]
        simp
      rw [rest, quoted_open left, whole, List.length_append, List.length_cons, place]
      dsimp only
      omega
  by_cases string : t.kind = .string
  · rw [behind string fills, behind string fills']
  · cases fills with
    | slice =>
      cases fills' with
      | slice => rfl
      | closed same => exact (string same).elim
      | unclosed same => exact (string same).elim
    | closed same => exact (string same).elim
    | unclosed same => exact (string same).elim

theorem fills_piece {kind : TokenKind} {value : List Char} (front : List Char) (c : Char) (rest : List Char) (n : Nat)
    (found : (piece c rest).token = some (kind, value)) :
    Fills (front ++ c :: rest) ⟨kind, String.ofList value, n, front.length⟩ (front.length + (piece c rest).more + 1) := by
  have slice {kind : TokenKind} (other : kind ≠ .string) (word behind : List Char) :
      Fills (front ++ c :: (word ++ behind)) ⟨kind, String.ofList (c :: word), n, front.length⟩
        (front.length + word.length + 1) := by
    have whole : front ++ c :: (word ++ behind) = front ++ (String.ofList (c :: word)).toList ++ behind := by simp
    have fills : Fills (front ++ c :: (word ++ behind)) ⟨kind, String.ofList (c :: word), n, front.length⟩ _ :=
      .slice other rfl whole
    rw [String.length_ofList] at fills
    exact fills
  have cut := piece_cut c rest
  generalize piece c rest = p at found cut
  cases cut with
  | gap => cases found
  | quoted quote =>
    cases found
    subst quote
    rcases quoted_cases rest with ⟨body, behind, inner, rfl⟩ | left
    · have whole : front ++ '"' :: (body ++ '"' :: behind) = front ++ '"' :: body ++ '"' :: behind := by simp
      rw [quoted_closed inner]
      exact .closed rfl rfl inner whole
    · rw [quoted_open left]
      have fills : Fills (front ++ '"' :: rest) ⟨.string, String.ofList (quoted rest).1, n, front.length⟩ _ :=
        .unclosed rfl rfl left rfl
      rw [List.length_append] at fills
      exact fills
  | symbol symbol =>
    cases found
    have other : kind ≠ .string := by
      unfold symbol? at symbol
      grind
    exact slice other [] rest
  | @connector kind run behind known split =>
    cases found
    subst split
    have other : kind ≠ .string := by rcases known with rfl | rfl <;> decide
    exact slice other run behind
  | @word word behind split =>
    cases found
    subst split
    exact slice (by split <;> decide) word behind

/-! Lines -/

/-- Tokens of a line, each with the column where its span ends. They are in order and apart, and outside of them there are
only blanks and characters that mean nothing. -/
structure Covers (n : Nat) (text : List Char) (cut : List (Token × Nat)) : Prop where
  own : ∀ x ∈ cut, x.1.line = n ∧ x.1.kind ≠ .newline ∧ x.1.kind ≠ .eof
  fills : ∀ x ∈ cut, Fills text x.1 x.2
  apart : cut.Pairwise fun x y => x.1.column < y.1.column ∧ x.2 ≤ y.1.column
  gaps : ∀ i c, text[i]? = some c → (∀ x ∈ cut, i < x.1.column ∨ x.2 ≤ i) → isBlank c = true ∨ Idle c

/-- The tokens of the lines of a text, the first with the given number, and of its end. -/
inductive Tokenizes : Nat → List (List Char) → List Token → Prop
  | last {n : Nat} {line : List Char} {cut : List (Token × Nat)} : Covers n line cut →
      Tokenizes n [line] (cut.map Prod.fst ++ [⟨.newline, "\n", n, line.length⟩, ⟨.eof, "", n, line.length⟩])
  | line {n : Nat} {line : List Char} {cut : List (Token × Nat)} {lines : List (List Char)} {tokens : List Token} :
      Covers n line cut → Tokenizes (n + 1) lines tokens →
      Tokenizes n (line :: lines) (cut.map Prod.fst ++ ⟨.newline, "\n", n, line.length⟩ :: tokens)

/-- The token of a piece, if it is one, and where it ends. -/
def spanOf? (n : Nat) (x : Nat × Piece) : Option (Token × Nat) :=
  x.2.token.map fun (kind, value) => (⟨kind, String.ofList value, n, x.1⟩, x.1 + x.2.more + 1)

theorem spanOf?_eq_some {n : Nat} {x : Nat × Piece} {span : Token × Nat} : spanOf? n x = some span ↔
    ∃ kind value, x.2.token = some (kind, value) ∧ span = (⟨kind, String.ofList value, n, x.1⟩, x.1 + x.2.more + 1) := by
  unfold spanOf?
  rw [Option.map_eq_some_iff]
  constructor
  · rintro ⟨⟨kind, value⟩, found, rfl⟩
    exact ⟨kind, value, found, rfl⟩
  · rintro ⟨kind, value, found, rfl⟩
    exact ⟨(kind, value), found, rfl⟩

theorem map_fst_spans (n : Nat) (line : List Char) :
    ((pieces 0 line).filterMap (spanOf? n)).map Prod.fst = among n (pieces 0 line) := by
  unfold among
  rw [List.map_filterMap]
  apply List.filterMap_congr
  intro x _
  unfold spanOf?
  rw [Option.map_map]
  rfl

/-- The tokens of a line cover it. -/
theorem covers_pieces (n : Nat) (line : List Char) : Covers n line ((pieces 0 line).filterMap (spanOf? n)) where
  own x member := by
    obtain ⟨y, listed, made⟩ := List.mem_filterMap.1 member
    obtain ⟨kind, value, found, rfl⟩ := spanOf?_eq_some.1 made
    obtain ⟨c, rest, same⟩ := exists_piece_of_mem listed
    exact ⟨rfl, proper_piece (same ▸ found)⟩
  fills x member := by
    obtain ⟨y, listed, made⟩ := List.mem_filterMap.1 member
    obtain ⟨kind, value, found, rfl⟩ := spanOf?_eq_some.1 made
    obtain ⟨front, c, rest, rfl, rfl⟩ := exists_of_mem_pieces listed
    rw [Nat.zero_add]
    exact fills_piece front c rest n found
  apart := by
    refine List.pairwise_filterMap.2 ((pairwise_pieces 0 line).imp fun {x y} before span made span' made' => ?_)
    obtain ⟨_, _, _, rfl⟩ := spanOf?_eq_some.1 made
    obtain ⟨_, _, _, rfl⟩ := spanOf?_eq_some.1 made'
    dsimp only
    omega
  gaps i c there outside := by
    obtain ⟨inside, rfl⟩ := List.getElem?_eq_some_iff.1 there
    obtain ⟨x, listed, bounds⟩ := exists_mem_pieces 0 i inside
    have silent : x.2.token = none := by
      rw [Option.eq_none_iff_forall_ne_some]
      rintro ⟨kind, value⟩ found
      have own := outside _ (List.mem_filterMap.2 ⟨x, listed, spanOf?_eq_some.2 ⟨kind, value, found, rfl⟩⟩)
      dsimp only at own
      omega
    obtain ⟨front, d, rest, rfl, rfl⟩ := exists_of_mem_pieces listed
    have cut := piece_cut d rest
    generalize piece d rest = p at silent bounds cut
    cases cut with
    | gap idle =>
      have place : i = front.length := by
        simp only [gap] at bounds
        omega
      subst place
      simpa using idle
    | quoted => cases silent
    | symbol => cases silent
    | connector => cases silent
    | word => cases silent

theorem covers_ofLine (n : Nat) (line : List Char) :
    ∃ cut, Covers n line cut ∧ ofLine n line = cut.map Prod.fst ++ [⟨.newline, "\n", n, line.length⟩] := by
  refine ⟨_, covers_pieces n line, ?_⟩
  rw [map_fst_spans]
  rfl

theorem tokenizes_ofLines (n : Nat) {lines : List (List Char)} (nonempty : lines ≠ []) :
    Tokenizes n lines (ofLines n lines ++ [⟨.eof, "", n + (lines.length - 1), (lines.getLast?.getD []).length⟩]) := by
  induction lines generalizing n with
  | nil => exact (nonempty rfl).elim
  | cons line lines ih =>
    obtain ⟨cut, covers, same⟩ := covers_ofLine n line
    cases lines with
    | nil =>
      rw [ofLines, ofLines, same, List.append_nil, List.append_assoc]
      exact .last covers
    | cons next lines =>
      have later := ih (n + 1) (List.cons_ne_nil _ _)
      have number : n + 1 + ((next :: lines).length - 1) = n + ((line :: next :: lines).length - 1) := by
        simp only [List.length_cons]
        omega
      rw [number, ← List.getLast?_cons_cons (a := line)] at later
      rw [ofLines, same, List.append_assoc, List.append_assoc]
      exact .line covers later

/-- A text is cut at its newlines and nowhere else. -/
theorem intercalate_lines (text : List Char) : ['\n'].intercalate (lines text) = text ∧ ∀ line ∈ lines text, '\n' ∉ line := by
  induction text with
  | nil => exact ⟨rfl, by simp [lines]⟩
  | cons c text ih =>
    obtain ⟨whole, unbroken⟩ := ih
    obtain ⟨line, more, same⟩ := List.exists_cons_of_ne_nil (lines_ne_nil text)
    rw [lines, same]
    rw [same] at whole unbroken
    split
    · next newline =>
      refine ⟨?_, ?_⟩
      · rw [List.intercalate_cons_cons, whole, newline]
        rfl
      · exact List.forall_mem_cons.2 ⟨List.not_mem_nil, unbroken⟩
    · next other =>
      obtain ⟨own, others⟩ := List.forall_mem_cons.1 unbroken
      refine ⟨?_, List.forall_mem_cons.2 ⟨?_, others⟩⟩
      · cases more with
        | nil =>
          rw [List.intercalate_singleton] at whole ⊢
          rw [whole]
        | cons next more =>
          rw [List.intercalate_cons_cons] at whole ⊢
          rw [← whole, List.cons_append, List.cons_append]
      · rw [List.mem_cons, not_or]
        exact ⟨Ne.symm other, own⟩

/-- The tokens of a text lie in its lines one after the other, each line ends with its newline token, and only blanks and
characters that mean nothing are lost. -/
theorem ofText_tokenizes (text : String) : ∃ lines, ['\n'].intercalate lines = text.toList ∧ (∀ line ∈ lines, '\n' ∉ line) ∧
    Tokenizes 0 lines (ofText text) := by
  obtain ⟨whole, unbroken⟩ := intercalate_lines text.toList
  refine ⟨lines text.toList, whole, unbroken, ?_⟩
  have tokenizes := tokenizes_ofLines 0 (lines_ne_nil text.toList)
  rw [Nat.zero_add] at tokenizes
  exact tokenizes

/-! Behind a quoted text -/

theorem ofText_line {text : String} (unbroken : '\n' ∉ text.toList) : ofText text =
    among 0 (pieces 0 text.toList) ++ [⟨.newline, "\n", 0, text.length⟩, ⟨.eof, "", 0, text.length⟩] := by
  unfold ofText
  rw [lines_unbroken unbroken, ← String.length_toList]
  dsimp only [ofLines, ofLine]
  rw [List.append_nil, List.append_assoc]
  rfl

/-- The tokens of a line are its pieces, those at its end apart. -/
theorem mem_ofText_line {text : String} {t : Token} (unbroken : '\n' ∉ text.toList) (proper : t.kind ≠ .newline ∧ t.kind ≠ .eof) :
    t ∈ ofText text ↔ ∃ x ∈ pieces 0 text.toList, spanOf? 0 x = some (t, x.1 + x.2.more + 1) := by
  have ends : t ∉ [⟨.newline, "\n", 0, text.length⟩, ⟨.eof, "", 0, text.length⟩] := by
    simp only [List.mem_cons, List.not_mem_nil, or_false]
    rintro (rfl | rfl)
    · exact proper.1 rfl
    · exact proper.2 rfl
  rw [ofText_line unbroken, List.mem_append, or_iff_left ends, ← map_fst_spans, List.mem_map]
  constructor
  · rintro ⟨span, member, rfl⟩
    obtain ⟨x, listed, made⟩ := List.mem_filterMap.1 member
    obtain ⟨_, _, _, rfl⟩ := spanOf?_eq_some.1 made
    exact ⟨x, listed, made⟩
  · rintro ⟨x, listed, made⟩
    exact ⟨_, List.mem_filterMap.2 ⟨x, listed, made⟩, rfl⟩

theorem errorsOf_line {text : String} (unbroken : '\n' ∉ text.toList) : errorsOf text =
    if (pieces 0 text.toList).any (·.2.unclosed) then Errors.none.add 0 "Unterminated string literal" else .none := by
  unfold errorsOf
  rw [lines_unbroken unbroken]
  rfl

/-- The token with its column counted on. -/
def indented (n : Nat) (t : Token) : Token :=
  { t with column := t.column + n }

theorem among_add (line n : Nat) (text : List Char) :
    among line (pieces n text) = (among line (pieces 0 text)).map (indented n) := by
  have moved := pieces_add 0 n text
  rw [Nat.zero_add] at moved
  unfold among
  rw [moved, List.filterMap_map, List.map_filterMap]
  apply List.filterMap_congr
  intro x _
  rw [Function.comp_apply, Option.map_map]
  rfl

theorem pieces_quote (s : String) (rest : List Char) : pieces 0 ((Quoted.quote s).toList ++ rest) =
    (0, ⟨some (.string, s.toList), (Quoted.quote s).length - 1, false⟩) :: pieces (Quoted.quote s).length rest := by
  have size : (Quoted.quote s).length = (s.toList.flatMap Quoted.encodeChar ++ ['"']).length + 1 := by
    rw [← String.length_toList, toList_quote, List.length_cons]
  have cut := pieces_word (piece_quote s.toList rest) 0
  rw [toList_quote, cut, size, Nat.zero_add]
  rfl

/-- A quoted text in front of a line is one more token, and all others are as they are without it but for their columns. -/
theorem ofText_quote (s rest : String) (unbroken : '\n' ∉ rest.toList) :
    '\n' ∉ (Quoted.quote s).toList ∧
      ofText (Quoted.quote s ++ rest) = ⟨.string, s, 0, 0⟩ :: (ofText rest).map (indented (Quoted.quote s).length) ∧
      errorsOf (Quoted.quote s ++ rest) = errorsOf rest := by
  have own : '\n' ∉ (Quoted.quote s).toList := by
    have spells := (Spells.nil.quote s).unbroken
    rwa [List.append_nil] at spells
  have whole : '\n' ∉ (Quoted.quote s ++ rest).toList := by
    rw [String.toList_append, List.mem_append]
    exact not_or.2 ⟨own, unbroken⟩
  refine ⟨own, ?_, ?_⟩
  · have first (pieces : List (Nat × Piece)) :
        among 0 ((0, ⟨some (.string, s.toList), (Quoted.quote s).length - 1, false⟩) :: pieces) =
          ⟨.string, s, 0, 0⟩ :: among 0 pieces := by
      simp [among]
    rw [ofText_line whole, ofText_line unbroken, String.toList_append, pieces_quote, first, among_add, List.map_append,
      String.length_append, Nat.add_comm (Quoted.quote s).length]
    rfl
  · rw [errorsOf_line whole, errorsOf_line unbroken, String.toList_append, pieces_quote, List.any_cons, any_pieces]
    rfl

/-- A text with a quote, a backslash and a newline in front of a line with a quote that is not closed. -/
theorem ofText_quote_unclosed : '\n' ∉ " -> \"x".toList ∧
    ofText "\"a\\\"\\\\\\n\" -> \"x" = ⟨.string, "a\"\\\n", 0, 0⟩ :: (ofText " -> \"x").map (indented 9) ∧
    errorsOf "\"a\\\"\\\\\\n\" -> \"x" = errorsOf " -> \"x" := by
  have unbroken : '\n' ∉ " -> \"x".toList := by decide
  exact ⟨unbroken, (ofText_quote "a\"\\\n" " -> \"x" unbroken).2⟩

end LiveDiagram.Token
