import LiveDiagram.Proofs.Source.Accepting
import LiveDiagram.Proofs.Source.Markup
import LiveDiagram.Proofs.Source.Spanning

/-! Marked lines beside their tokens. Markup and tokens come from two ways to go through a line, which cut it at different
places. Neither of them takes a quote or a brace into anything but a quoted text, so that both find the same quoted texts and
the same braces, as long as all quotes are closed. -/
namespace LiveDiagram

/-- Whether a piece is a quoted text or a brace. -/
def Piece.isMark (p : Piece) : Bool :=
  p.token.any fun w => w.1 = .string || w.1 = .leftBrace || w.1 = .rightBrace

namespace Token

variable {c : Char} {front text rest : List Char} {column : Nat} {p : Piece}

/-- The characters that begin a quoted text or are a brace. -/
def Delimiter (c : Char) : Prop :=
  c ∈ ['"', '\x7b', '\x7d']

instance (c : Char) : Decidable (Delimiter c) :=
  inferInstanceAs (Decidable (c ∈ ['"', '\x7b', '\x7d']))

theorem not_delimiter_of_char (own : isIdChar c = true ∨ Connector.isCharacter c = true) : ¬Delimiter c := by
  unfold Delimiter
  simp only [List.mem_cons, List.not_mem_nil, or_false]
  rintro (rfl | rfl | rfl) <;> revert own <;> decide

/-- A piece that begins with another character is no mark and has no delimiter in it. -/
theorem Cut.plain (cut : Cut c rest p) (plain : ¬Delimiter c) :
    p.isMark = false ∧ ∃ word behind, rest = word ++ behind ∧ p.more = word.length ∧ ∀ x ∈ word, ¬Delimiter x := by
  cases cut with
  | gap => exact ⟨rfl, [], rest, rfl, rfl, by simp⟩
  | quoted quote => exact (plain (by simp [quote, Delimiter])).elim
  | symbol symbol =>
    refine ⟨?_, [], rest, rfl, rfl, by simp⟩
    unfold symbol? at symbol
    unfold Delimiter at plain
    grind [Piece.isMark, plainPiece]
  | @connector kind run behind known split all =>
    refine ⟨?_, run, behind, split, rfl, fun x member => not_delimiter_of_char (.inr (all x (List.mem_cons_of_mem c member)))⟩
    rcases known with rfl | rfl <;> rfl
  | @word word behind split all =>
    refine ⟨?_, word, behind, split, rfl, fun x member => not_delimiter_of_char (.inl (all x (List.mem_cons_of_mem c member)))⟩
    unfold wordPiece
    split <;> rfl

/-- The marks among the pieces of a line. -/
def marks (column : Nat) (text : List Char) : List (Nat × Piece) :=
  (pieces column text).filter (·.2.isMark)

theorem marks_cons (column : Nat) (c : Char) (rest : List Char) : marks column (c :: rest) =
    if (piece c rest).isMark then
      (column, piece c rest) :: marks (column + (piece c rest).more + 1) (rest.drop (piece c rest).more)
    else marks (column + (piece c rest).more + 1) (rest.drop (piece c rest).more) := by
  unfold marks
  rw [pieces, List.filter_cons]

/-- What has no delimiters in it has no marks, wherever its pieces end. -/
theorem marks_append (plain : ∀ x ∈ front, ¬Delimiter x) (column : Nat) (rest : List Char) :
    marks column (front ++ rest) = marks (column + front.length) rest := by
  induction size : (front ++ rest).length using Nat.strongRecOn generalizing front rest column with
  | _ n ih =>
    cases front with
    | nil => rfl
    | cons c front =>
      obtain ⟨own, others⟩ := List.forall_mem_cons.1 plain
      obtain ⟨unmarked, word, behind, split, more, inner⟩ := (piece_cut c (front ++ rest)).plain own
      have shorter : (front ++ rest).length < n := by
        rw [← size]
        exact Nat.lt_succ_self _
      -- the piece may end within the front or behind it; from the next character on both are skipped
      calc marks column (c :: (front ++ rest))
        _ = marks (column + 1 + word.length) behind := by
          rw [marks_cons, unmarked, if_neg Bool.false_ne_true, more, split, List.drop_left, Nat.add_right_comm]
        _ = marks (column + 1) (word ++ behind) := (ih _ (split ▸ shorter) inner (column + 1) behind rfl).symm
        _ = marks (column + 1) (front ++ rest) := by rw [split]
        _ = marks (column + 1 + front.length) rest := ih _ shorter others (column + 1) rest rfl
        _ = marks (column + (c :: front).length) rest := by rw [List.length_cons, Nat.add_assoc, Nat.add_comm 1]

theorem isMark_of_unclosed (unclosed : (piece c rest).unclosed = true) : (piece c rest).isMark = true := by
  by_cases quote : c = '"'
  · subst quote
    rfl
  · rw [unclosed_piece quote] at unclosed
    cases unclosed

theorem closed_iff_marks (column : Nat) : Closed text ↔ ∀ x ∈ marks column text, x.2.unclosed = false := by
  unfold Closed marks
  rw [← any_pieces column, List.any_eq_false]
  constructor
  · intro closed x member
    simpa using closed x (List.mem_filter.1 member).1
  · intro closed x member unclosed
    obtain ⟨c, rest, same⟩ := exists_piece_of_mem member
    have marked : x.2.isMark = true := same ▸ isMark_of_unclosed (same ▸ unclosed)
    rw [closed x (List.mem_filter.2 ⟨member, marked⟩)] at unclosed
    cases unclosed

theorem closed_append (plain : ∀ x ∈ front, ¬Delimiter x) : Closed (front ++ rest) ↔ Closed rest := by
  rw [closed_iff_marks 0, marks_append plain, ← closed_iff_marks]

end Token

namespace Markup
open Highlight
open Token (Delimiter Closed Fills marks pieces piece quoted)

variable {c : Char} {front text rest : List Char} {column start stop : Nat} {items : List Item} {kind : SpanKind}
  {before : Option Char} {line : String}

/-! Stretches -/

/-- Both ways to go through a line see the same end of a quoted text. -/
theorem quotedLength_eq (unbroken : '\n' ∉ text) (closed : (quoted text).2.2 = false) :
    quotedLength text = (quoted text).2.1 := by
  induction text using Token.quoted.induct with
  | case1 => cases closed
  | case2 rest => rfl
  | case3 c rest value used unclosed same ih =>
    simp only [List.mem_cons, not_or] at unbroken
    rw [Token.quoted_escape] at closed ⊢
    rw [quotedLength, if_neg (Ne.symm unbroken.2.1), ih unbroken.2.2 closed]
  | case4 c rest quote escape value used unclosed same ih =>
    rw [List.mem_cons, not_or] at unbroken
    by_cases plain : c = '\\'
    · subst plain
      cases rest with
      | nil => cases closed
      | cons d rest => exact (escape d rest rfl rfl).elim
    · rw [Token.quoted_cons quote (.inl plain)] at closed ⊢
      rw [quotedLength, ih unbroken.2 closed]
      · exact quote
      · exact fun _ _ same => (plain same).elim
      · exact fun same => (plain same).elim

/-- A stretch that begins with no delimiter has none in it. -/
theorem stretch_plain (before : Option Char) (plain : ¬Delimiter c) (rest : List Char) :
    (stretch before c rest).1 ∈ [none, some .keyword] ∧ ∀ x ∈ rest.take (stretch before c rest).2, ¬Delimiter x := by
  have quote : c ≠ '"' := fun same => plain (by simp [same, Delimiter])
  have brace : (decide (c = '\x7b') || decide (c = '\x7d')) = false := by
    unfold Delimiter at plain
    grind
  unfold stretch
  rw [if_neg quote, brace, if_neg Bool.false_ne_true]
  split
  · simp
  split
  · next word found =>
    unfold keyword? at found
    have known : word ∈ keywords := List.mem_of_find?_eq_some found
    have front := List.find?_some found
    obtain ⟨behind, whole⟩ := List.isPrefixOf_iff_prefix.1 front
    have clean : ∀ word ∈ keywords, ∀ x ∈ word, ¬Delimiter x := by decide
    refine ⟨by simp, fun x member => clean word known x ?_⟩
    cases word with
    | nil => cases member
    | cons d word =>
      obtain ⟨rfl, rfl⟩ := List.cons.inj whole
      rw [List.length_cons, Nat.add_sub_cancel, List.append_eq, List.take_left] at member
      exact List.mem_cons_of_mem _ member
  · simp

/-- The marked stretches of a line, with the columns where they begin and end. -/
def spansOf (column : Nat) : List Stretch → List (SpanKind × Nat × Nat)
  | [] => []
  | s :: rest =>
    (s.kind.map fun kind => (kind, column, column + s.text.length)).toList ++ spansOf (column + s.text.length) rest

/-- The span of a mark. -/
def spanOf (x : Nat × Piece) : SpanKind × Nat × Nat :=
  (if x.2.token.any (·.1 = .string) then .string else .bracket, x.1, x.1 + x.2.more + 1)

/-- A stretch that begins with a delimiter is the mark that stands there. -/
theorem stretch_delimiter (delimiter : Delimiter c) (closed : (piece c rest).unclosed = false) (unbroken : '\n' ∉ rest)
    (before : Option Char) (column : Nat) : ∃ kind, kind ≠ .keyword ∧ stretch before c rest = (some kind, (piece c rest).more) ∧
      (piece c rest).isMark = true ∧ spanOf (column, piece c rest) = (kind, column, column + (piece c rest).more + 1) := by
  simp only [Delimiter, List.mem_cons, List.not_mem_nil, or_false] at delimiter
  rcases delimiter with rfl | rfl | rfl
  · have same : stretch before '"' rest = (some .string, (piece '"' rest).more) :=
      congrArg (some SpanKind.string, ·) (quotedLength_eq unbroken closed)
    exact ⟨.string, by decide, same, rfl, rfl⟩
  · exact ⟨.bracket, by decide, rfl, rfl, rfl⟩
  · exact ⟨.bracket, by decide, rfl, rfl, rfl⟩

/-- A line has the same marks in its stretches and in its pieces, if its quotes are closed. -/
theorem spansOf_stretches (closed : Closed text) (unbroken : '\n' ∉ text) (before : Option Char) (column : Nat) :
    (spansOf column (stretches before text)).filter (·.1 ≠ .keyword) = (marks column text).map spanOf := by
  induction before, text using stretches.induct generalizing column with
  | case1 => simp [stretches, spansOf, marks, pieces]
  | case2 before c rest kind more same text ih =>
    have unbroken' : '\n' ∉ rest.drop more := fun member => unbroken (List.mem_cons_of_mem c (List.mem_of_mem_drop member))
    rw [stretches, same]
    dsimp only
    by_cases delimiter : Delimiter c
    · obtain ⟨own, later⟩ := Token.closed_cons.1 closed
      rw [List.mem_cons, not_or] at unbroken
      obtain ⟨mark, proper, marked, isMark, span⟩ := stretch_delimiter delimiter own unbroken.2 before column
      cases same.symm.trans marked
      have size : (c :: rest.take (piece c rest).more).length = (piece c rest).more + 1 := by
        rw [List.length_cons, List.length_take_of_le (Token.more_le c rest)]
      rw [Token.marks_cons, if_pos isMark, List.map_cons, span, spansOf, size]
      rw [← ih later unbroken' (column + (piece c rest).more + 1)]
      exact List.filter_cons_of_pos (decide_eq_true proper)
    -- the stretch may end inside a piece, so its characters are skipped and not the pieces that begin in it
    · obtain ⟨unmarked, inner⟩ := stretch_plain before delimiter rest
      rw [same] at unmarked inner
      have plain : ∀ x ∈ c :: rest.take more, ¬Delimiter x := List.forall_mem_cons.2 ⟨delimiter, inner⟩
      have split : c :: rest = c :: rest.take more ++ rest.drop more := by rw [List.cons_append, List.take_append_drop]
      rw [split] at closed ⊢
      rw [Token.marks_append plain, ← ih ((Token.closed_append plain).1 closed) unbroken', spansOf, List.filter_append]
      simp only [List.mem_cons, List.not_mem_nil, or_false] at unmarked
      rcases unmarked with rfl | rfl <;> rfl

/-! Marks in markup -/

/-- Whether markup has a span of a kind around what a line has from a column to another one. Columns count characters of
the line, not those that are written for them. -/
def Marks (kind : SpanKind) (items : List Item) (start stop : Nat) : Prop :=
  ∃ left inner right, items = left ++ .tag (span kind) :: (inner.map .char ++ .tag spanEnd :: right) ∧
    start = (decode references (characters left)).length ∧
    stop = (decode references (characters left ++ inner)).length

theorem span_inj {kind' : SpanKind} (same : span kind' = span kind) : kind' = kind := by
  revert same
  cases kind' <;> cases kind <;> decide

/-- A span begins where a marked stretch does, and what follows is the rest of it. -/
theorem eq_of_itemsOf_eq {s : Stretch} {left more : List Item} (same : itemsOf s = left ++ .tag (span kind) :: more) :
    left = [] ∧ s.kind = some kind ∧ more = (s.text.flatMap escapeChar).map .char ++ [.tag spanEnd] := by
  have outside : Item.tag (span kind) ∉ (s.text.flatMap escapeChar).map .char ++ [.tag spanEnd] := by
    have other : span kind ≠ spanEnd := by cases kind <;> decide
    simp [other]
  unfold itemsOf at same
  cases own : s.kind with
  | none =>
    rw [own] at same
    dsimp only at same
    refine (outside (List.mem_append_left _ ?_)).elim
    rw [same]
    simp
  | some kind' =>
    rw [own] at same
    dsimp only at same
    cases left with
    | nil =>
      obtain ⟨first, rfl⟩ := List.cons.inj same
      exact ⟨rfl, congrArg some (span_inj (Item.tag.inj first)), rfl⟩
    | cons x left =>
      obtain ⟨_, later⟩ := List.cons.inj same
      rw [List.append_eq] at later
      refine (outside ?_).elim
      rw [later]
      simp

theorem exists_stretch_of_tag {stretches : List Stretch} {left more : List Item}
    (same : stretches.flatMap itemsOf = left ++ .tag (span kind) :: more) :
    ∃ before s after, stretches = before ++ s :: after ∧ s.kind = some kind ∧ left = before.flatMap itemsOf ∧
      more = (s.text.flatMap escapeChar).map .char ++ .tag spanEnd :: after.flatMap itemsOf := by
  induction stretches generalizing left with
  | nil => simp at same
  | cons s rest ih =>
    have behind (later : List Item) (onward : rest.flatMap itemsOf = later ++ .tag (span kind) :: more) :
        ∃ before s' after, s :: rest = before ++ s' :: after ∧ s'.kind = some kind ∧
          itemsOf s ++ later = before.flatMap itemsOf ∧
          more = (s'.text.flatMap escapeChar).map .char ++ .tag spanEnd :: after.flatMap itemsOf := by
      obtain ⟨before, s', after, rfl, marked, rfl, whole⟩ := ih onward
      exact ⟨s :: before, s', after, rfl, marked, rfl, whole⟩
    -- The tag stands behind all items of the first stretch, or among them; there it can only be the one in front.
    rw [List.flatMap_cons] at same
    rcases List.append_eq_append_iff.1 same with ⟨later, rfl, onward⟩ | ⟨inner, own, onward⟩
    · exact behind later onward
    · cases inner with
      | nil =>
        have onward := behind [] onward.symm
        rwa [List.append_nil, own, List.append_nil] at onward
      | cons x inner =>
        obtain ⟨rfl, rfl⟩ := List.cons.inj onward
        obtain ⟨rfl, marked, rfl⟩ := eq_of_itemsOf_eq own
        refine ⟨[], s, rest, rfl, marked, rfl, ?_⟩
        rw [List.append_eq, List.append_assoc]
        rfl

theorem mem_spansOf {stretches : List Stretch} : (kind, start, stop) ∈ spansOf column stretches ↔
    ∃ before s after, stretches = before ++ s :: after ∧ s.kind = some kind ∧
      start = column + (before.flatMap Stretch.text).length ∧ stop = start + s.text.length := by
  induction stretches generalizing column with
  | nil => simp [spansOf]
  | cons s rest ih =>
    rw [spansOf, List.mem_append, ih, Option.mem_toList, Option.map_eq_some_iff]
    constructor
    · rintro (⟨_, marked, ⟨⟩⟩ | ⟨before, s', after, rfl, marked, rfl, rfl⟩)
      · exact ⟨[], s, rest, rfl, marked, rfl, rfl⟩
      · refine ⟨s :: before, s', after, rfl, marked, ?_, rfl⟩
        rw [List.flatMap_cons, List.length_append, Nat.add_assoc]
    · rintro ⟨before, s', after, split, marked, rfl, rfl⟩
      cases before with
      | nil =>
        cases split
        exact .inl ⟨kind, marked, rfl⟩
      | cons first before =>
        obtain ⟨rfl, rfl⟩ := List.cons.inj split
        refine .inr ⟨before, s', after, rfl, marked, ?_, rfl⟩
        rw [List.flatMap_cons, List.length_append, Nat.add_assoc]

theorem map_char_inj {t : Tag} {inner inner' : List Char} {right right' : List Item}
    (same : inner.map Item.char ++ .tag t :: right = inner'.map Item.char ++ .tag t :: right') : inner = inner' := by
  induction inner generalizing inner' with
  | nil =>
    cases inner' with
    | nil => rfl
    | cons d inner' => simp at same
  | cons c inner ih =>
    cases inner' with
    | nil => simp at same
    | cons d inner' =>
      obtain ⟨first, later⟩ := List.cons.inj same
      rw [Item.char.inj first, ih later]

/-- The markup of stretches has the spans of those that are marked. -/
theorem marks_iff {stretches : List Stretch} :
    Marks kind (stretches.flatMap itemsOf) start stop ↔ (kind, start, stop) ∈ spansOf 0 stretches := by
  have columns (before : List Stretch) (s : Stretch) :
      decode references (characters (before.flatMap itemsOf)) = before.flatMap Stretch.text ∧
        decode references (characters (before.flatMap itemsOf) ++ s.text.flatMap escapeChar) =
          before.flatMap Stretch.text ++ s.text := by
    rw [characters_stretches, ← List.flatMap_append, decode_content, decode_content]
    exact ⟨rfl, rfl⟩
  rw [mem_spansOf]
  constructor
  · rintro ⟨left, inner, right, whole, rfl, rfl⟩
    obtain ⟨before, s, after, rfl, marked, rfl, more⟩ := exists_stretch_of_tag whole
    cases map_char_inj more
    rw [(columns before s).1, (columns before s).2, List.length_append]
    exact ⟨before, s, after, rfl, marked, (Nat.zero_add _).symm, rfl⟩
  · rintro ⟨before, s, after, rfl, marked, rfl, rfl⟩
    refine ⟨before.flatMap itemsOf, s.text.flatMap escapeChar, after.flatMap itemsOf, ?_, ?_, ?_⟩
    · rw [List.flatMap_append, List.flatMap_cons, itemsOf, marked]
      simp
    · rw [(columns before s).1, Nat.zero_add]
    · rw [(columns before s).2, List.length_append, Nat.zero_add]

/-! Marks and tokens -/

theorem mem_spansOf_stretches (closed : Closed text) (unbroken : '\n' ∉ text) (proper : kind ≠ .keyword) :
    (kind, start, stop) ∈ spansOf 0 (stretches none text) ↔
      ∃ x ∈ pieces 0 text, x.2.isMark = true ∧ spanOf x = (kind, start, stop) := by
  calc (kind, start, stop) ∈ spansOf 0 (stretches none text)
    _ ↔ (kind, start, stop) ∈ (spansOf 0 (stretches none text)).filter (·.1 ≠ .keyword) := by simp [proper]
    _ ↔ (kind, start, stop) ∈ (marks 0 text).map spanOf := by rw [spansOf_stretches closed unbroken]
    _ ↔ _ := by simp only [marks, List.mem_map, List.mem_filter, and_assoc]

theorem spanOf_string {x : Nat × Piece} : x.2.isMark = true ∧ spanOf x = (.string, start, stop) ↔
    ∃ value, x.2.token = some (.string, value) ∧ x.1 = start ∧ x.1 + x.2.more + 1 = stop := by
  obtain ⟨column, _ | ⟨kind, value⟩, more, unclosed⟩ := x
  · simp [Piece.isMark]
  · cases kind <;> simp [Piece.isMark, spanOf]

theorem spanOf_bracket {x : Nat × Piece} (listed : x ∈ pieces column text) :
    x.2.isMark = true ∧ spanOf x = (.bracket, start, stop) ↔
      ∃ kind value, x.2.token = some (kind, value) ∧ (kind = .leftBrace ∨ kind = .rightBrace) ∧ x.1 = start ∧ stop = start + 1 := by
  obtain ⟨front, c, rest, rfl, rfl⟩ := Token.exists_of_mem_pieces listed
  have cut := Token.piece_cut c rest
  generalize piece c rest = p at cut ⊢
  cases cut with
  | gap => simp [Piece.isMark, Token.gap]
  | quoted => simp [Piece.isMark, spanOf]
  | @symbol kind symbol =>
    have other : kind ≠ .string := by
      unfold Token.symbol? at symbol
      grind
    simp only [Piece.isMark, spanOf, Token.plainPiece, Option.any_some, other, decide_false, Bool.false_or, Bool.or_eq_true,
      decide_eq_true_eq, Bool.false_eq_true, if_false, Prod.mk.injEq, true_and, Option.some.injEq, List.length_singleton,
      Nat.sub_self, Nat.add_zero]
    constructor
    · rintro ⟨brace, rfl, rfl⟩
      exact ⟨kind, [c], ⟨rfl, rfl⟩, brace, rfl, rfl⟩
    · rintro ⟨_, _, ⟨rfl, rfl⟩, brace, rfl, rfl⟩
      exact ⟨brace, rfl, rfl⟩
  | connector known => rcases known with rfl | rfl <;> simp [Piece.isMark, spanOf, Token.plainPiece]
  | word =>
    unfold Token.wordPiece
    split <;> simp [Piece.isMark, spanOf, Token.plainPiece]

/-- The markup of a line marks the quoted texts and the braces that are tokens of the line, and marks them from end to end. -/
theorem renderLine_marks (unbroken : '\n' ∉ line.toList) (terminated : Token.Terminated line) :
    ∃ items, read .content (renderLine line.toList) = some (.content, items) ∧ ∀ start stop,
      (Marks .string items start stop ↔
        ∃ t ∈ Token.ofText line, t.kind = .string ∧ t.column = start ∧ Fills line.toList t stop) ∧
      (Marks .bracket items start stop ↔
        ∃ t ∈ Token.ofText line, (t.kind = .leftBrace ∨ t.kind = .rightBrace) ∧ t.column = start ∧ stop = start + 1) := by
  have closed : Closed line.toList := terminated _ (by rw [Token.lines_unbroken unbroken]; exact List.mem_singleton_self _)
  refine ⟨_, read_stretches (stretches none line.toList), fun start stop => ⟨?_, ?_⟩⟩
  · rw [marks_iff, mem_spansOf_stretches closed unbroken (by decide)]
    simp only [spanOf_string]
    constructor
    · rintro ⟨x, listed, value, found, rfl, rfl⟩
      have made := (Token.spanOf?_eq_some (n := 0)).2 ⟨.string, value, found, rfl⟩
      have there := (Token.mem_ofText_line unbroken (by simp)).2 ⟨x, listed, made⟩
      exact ⟨_, there, rfl, rfl, (Token.covers_pieces 0 line.toList).fills _ (List.mem_filterMap.2 ⟨x, listed, made⟩)⟩
    · rintro ⟨t, there, string, rfl, fills⟩
      obtain ⟨x, listed, made⟩ := (Token.mem_ofText_line unbroken (by simp [string])).1 there
      have whole := (Token.covers_pieces 0 line.toList).fills _ (List.mem_filterMap.2 ⟨x, listed, made⟩)
      obtain ⟨kind, value, found, same⟩ := Token.spanOf?_eq_some.1 made
      cases same
      cases string
      exact ⟨x, listed, value, found, rfl, whole.unique fills⟩
  · rw [marks_iff, mem_spansOf_stretches closed unbroken (by decide)]
    constructor
    · rintro ⟨x, listed, mark⟩
      obtain ⟨kind, value, found, brace, rfl, rfl⟩ := (spanOf_bracket listed).1 mark
      have made := (Token.spanOf?_eq_some (n := 0)).2 ⟨kind, value, found, rfl⟩
      have proper : kind ≠ .newline ∧ kind ≠ .eof := by rcases brace with rfl | rfl <;> decide
      exact ⟨_, (Token.mem_ofText_line unbroken proper).2 ⟨x, listed, made⟩, brace, rfl, rfl⟩
    · rintro ⟨t, there, brace, rfl, rfl⟩
      have proper : t.kind ≠ .newline ∧ t.kind ≠ .eof := by rcases brace with same | same <;> simp [same]
      obtain ⟨x, listed, made⟩ := (Token.mem_ofText_line unbroken proper).1 there
      obtain ⟨kind, value, found, same⟩ := Token.spanOf?_eq_some.1 made
      cases same
      exact ⟨x, listed, (spanOf_bracket listed).2 ⟨kind, value, found, brace, rfl, rfl⟩⟩

/-- A quoted text with a quote, a backslash and a keyword in it, between an arrow with texts at its ends and a brace. -/
theorem renderLine_marks_escaped : '\n' ∉ "a -> b: \"x \\\" rect \\\\\" \x7b".toList ∧
    Token.Terminated "a -> b: \"x \\\" rect \\\\\" \x7b" ∧
    ∃ items, read .content (renderLine "a -> b: \"x \\\" rect \\\\\" \x7b".toList) = some (.content, items) ∧
      ∀ start stop,
        (Marks .string items start stop ↔ ∃ t ∈ Token.ofText "a -> b: \"x \\\" rect \\\\\" \x7b",
          t.kind = .string ∧ t.column = start ∧ Fills "a -> b: \"x \\\" rect \\\\\" \x7b".toList t stop) ∧
        (Marks .bracket items start stop ↔ ∃ t ∈ Token.ofText "a -> b: \"x \\\" rect \\\\\" \x7b",
          (t.kind = .leftBrace ∨ t.kind = .rightBrace) ∧ t.column = start ∧ stop = start + 1) := by
  have unbroken : '\n' ∉ "a -> b: \"x \\\" rect \\\\\" \x7b".toList := by decide
  have terminated : Token.Terminated "a -> b: \"x \\\" rect \\\\\" \x7b" := Token.terminated_iff.2 (by decide +kernel)
  exact ⟨unbroken, terminated, renderLine_marks unbroken terminated⟩

end Markup
end LiveDiagram
