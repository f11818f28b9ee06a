import LiveDiagram.Proofs.Source.Columns
import LiveDiagram.Proofs.Source.Cutting

/-! Blanks outside quoted texts. Where there are some, it does not matter how many and which, and at the two ends of a line it
does not matter whether there are any. Lines that differ in this alone have the same tokens at other columns, so that texts
that do are read alike. -/
namespace LiveDiagram.Token

variable {text text' rest rest' indent indent' body : List Char} {c : Char}

/-- What may stand between two quotes. -/
inductive Inner : List Char → Prop
  | nil : Inner []
  | char {c : Char} {body : List Char} : c ≠ '"' → c ≠ '\\' → Inner body → Inner (c :: body)
  | escape {body : List Char} (c : Char) : Inner body → Inner ('\\' :: c :: body)

def Blank (text : List Char) : Prop :=
  ∀ c ∈ text, isBlank c = true

instance (text : List Char) : Decidable (Blank text) :=
  inferInstanceAs (Decidable (∀ c ∈ text, isBlank c = true))

/-- A line from any place outside its quoted texts on, with other blanks. Behind a quote that is not closed nothing changes. -/
inductive Respaced : List Char → List Char → Prop
  | ending {blanks blanks' : List Char} : Blank blanks → Blank blanks' → Respaced blanks blanks'
  | unclosed (body : List Char) : Respaced ('"' :: body) ('"' :: body)
  | char {c : Char} {rest rest' : List Char} : isBlank c = false → c ≠ '"' → Respaced rest rest' →
      Respaced (c :: rest) (c :: rest')
  | blanks {blanks blanks' rest rest' : List Char} : blanks ≠ [] → blanks' ≠ [] → Blank blanks → Blank blanks' →
      Respaced rest rest' → Respaced (blanks ++ rest) (blanks' ++ rest')
  | quoted {body rest rest' : List Char} : Inner body → Respaced rest rest' →
      Respaced ('"' :: body ++ '"' :: rest) ('"' :: body ++ '"' :: rest')

/-- A whole line with other blanks; its indentation may also be new or be gone. -/
def Realigned (line line' : List Char) : Prop :=
  ∃ indent indent' rest rest', Blank indent ∧ Blank indent' ∧ Respaced rest rest' ∧
    line = indent ++ rest ∧ line' = indent' ++ rest'

/-- A text with other blanks. -/
def Reformatted (text text' : String) : Prop :=
  List.Forall₂ Realigned (lines text.toList) (lines text'.toList)

/-- What has no quotes in it may stay as it is. -/
theorem Respaced.behind (front : List Char) (plain : '"' ∉ front) (same : Respaced rest rest') :
    Respaced (front ++ rest) (front ++ rest') := by
  induction front with
  | nil => exact same
  | cons c front ih =>
    rw [List.mem_cons, not_or] at plain
    have later := ih plain.2
    cases blank : isBlank c with
    | false => exact .char blank (Ne.symm plain.1) later
    | true =>
      have alone : Blank [c] := by simpa [Blank] using blank
      have filled : [c] ≠ [] := List.cons_ne_nil _ _
      have same : Respaced ([c] ++ (front ++ rest)) ([c] ++ (front ++ rest')) := .blanks filled filled alone alone later
      exact same

/-! Pieces -/

/-- The pieces of a line, wherever they are, without the gaps. -/
def solid (text : List Char) : List Piece :=
  ((pieces 0 text).map Prod.snd).filter (· ≠ gap)

theorem solid_cons (c : Char) (rest : List Char) : solid (c :: rest) =
    if piece c rest = gap then solid (rest.drop (piece c rest).more)
    else piece c rest :: solid (rest.drop (piece c rest).more) := by
  unfold solid
  rw [pieces, List.map_cons, map_pieces, List.filter_cons]
  simp

theorem solid_blanks (blank : Blank text) (rest : List Char) : solid (text ++ rest) = solid rest := by
  induction text with
  | nil => rfl
  | cons c text ih =>
    have first : piece c (text ++ rest) = gap := by
      rw [piece, if_pos (blank c List.mem_cons_self)]
      rfl
    rw [List.cons_append, solid_cons, if_pos first, first]
    exact ih fun x member => blank x (List.mem_cons_of_mem c member)

theorem solid_append (closed : Closed text) (apart : Apart rest) : solid (text ++ rest) = solid text ++ solid rest := by
  unfold solid
  rw [pieces_append closed apart, List.map_append, map_pieces (0 + text.length), List.filter_append]

/-- What stands between two quotes is read the same way, whatever follows. -/
theorem exists_quoted (inner : Inner body) : ∃ value, ∀ text,
    quoted (body ++ text) = (value ++ (quoted text).1, body.length + (quoted text).2.1, (quoted text).2.2) := by
  induction inner with
  | nil => exact ⟨[], fun text => by simp⟩
  | @char c body quote plain _ ih =>
    obtain ⟨value, read⟩ := ih
    refine ⟨c :: value, fun text => ?_⟩
    rw [List.cons_append, quoted_cons quote (.inl plain), read, List.length_cons, Nat.add_right_comm]
    rfl
  | @escape body c _ ih =>
    obtain ⟨value, read⟩ := ih
    refine ⟨escaped c :: value, fun text => ?_⟩
    rw [List.cons_append, List.cons_append, quoted_escape, read, List.length_cons, List.length_cons, Nat.add_right_comm]
    rfl

/-- A quoted text is one piece, whatever follows. -/
theorem exists_piece_quoted (inner : Inner body) : ∃ value, ∀ rest, solid ('"' :: body ++ '"' :: rest) =
    ⟨some (.string, value), body.length + 1, false⟩ :: solid rest := by
  obtain ⟨value, read⟩ := exists_quoted inner
  refine ⟨value, fun rest => ?_⟩
  have first : piece '"' (body ++ '"' :: rest) = ⟨some (.string, value), body.length + 1, false⟩ := by
    have whole : quoted (body ++ '"' :: rest) = (value, body.length + 1, false) := by rw [read, quoted, List.append_nil]
    unfold piece
    simp only [whole]
    rfl
  rw [List.cons_append, solid_cons, first, if_neg (by simp [gap])]
  simp

/-! Words of a line -/

theorem closed_of_unquoted (plain : '"' ∉ text) : Closed text := by
  induction size : text.length using Nat.strongRecOn generalizing text with
  | _ n ih =>
    cases text with
    | nil => simp [Closed, pieces]
    | cons c rest =>
      rw [List.mem_cons, not_or] at plain
      refine closed_cons.2 ⟨unclosed_piece (Ne.symm plain.1) rest, ih _ ?_ (fun member => ?_) rfl⟩
      · rw [← size, List.length_drop, List.length_cons]
        omega
      · exact plain.2 (List.mem_of_mem_drop member)

/-- Lines that differ in their blanks begin with the same word, if they begin with one, and may be cut behind it. -/
theorem Respaced.exists_word (same : Respaced text text') : ∃ word rest rest', text = word ++ rest ∧ text' = word ++ rest' ∧
    '"' ∉ word ∧ Apart rest ∧ Apart rest' ∧ Respaced rest rest' := by
  have blanks {blanks : List Char} (blank : Blank blanks) (more : List Char) (nonempty : blanks ≠ []) :
      Apart (blanks ++ more) := by
    obtain ⟨c, blanks, rfl⟩ := List.exists_cons_of_ne_nil nonempty
    intro x head
    cases Option.some.inj head
    exact .inl (blank _ List.mem_cons_self)
  have ends {blanks : List Char} (blank : Blank blanks) : Apart blanks :=
    fun x head => .inl (blank x (List.mem_of_mem_head? head))
  induction same with
  | ending blank blank' => exact ⟨[], _, _, rfl, rfl, List.not_mem_nil, ends blank, ends blank', .ending blank blank'⟩
  | unclosed body => exact ⟨[], _, _, rfl, rfl, List.not_mem_nil, apart_quote, apart_quote, .unclosed body⟩
  | @char c rest rest' blank quote same ih =>
    obtain ⟨word, tail, tail', rfl, rfl, plain, apart, apart', behind⟩ := ih
    refine ⟨c :: word, tail, tail', rfl, rfl, ?_, apart, apart', behind⟩
    rw [List.mem_cons, not_or]
    exact ⟨Ne.symm quote, plain⟩
  | blanks nonempty nonempty' blank blank' same =>
    exact ⟨[], _, _, rfl, rfl, List.not_mem_nil, blanks blank _ nonempty, blanks blank' _ nonempty',
      .blanks nonempty nonempty' blank blank' same⟩
  | quoted inner same => exact ⟨[], _, _, rfl, rfl, List.not_mem_nil, apart_quote, apart_quote, .quoted inner same⟩

/-- Lines that differ in their blanks have the same pieces. -/
theorem Respaced.solid_eq (same : Respaced text text') : solid text = solid text' := by
  -- By the length of the line, since a character takes the rest of its word with it.
  induction size : text.length using Nat.strongRecOn generalizing text text' with
  | _ n ih =>
    cases same with
    | ending blank blank' =>
      have none := solid_blanks blank []
      have none' := solid_blanks blank' []
      rw [List.append_nil] at none none'
      rw [none, none']
    | unclosed => rfl
    | @char c rest rest' blank quote same =>
      obtain ⟨word, tail, tail', rfl, rfl, plain, apart, apart', behind⟩ := same.exists_word
      have closed : Closed (c :: word) := by
        apply closed_of_unquoted
        rw [List.mem_cons, not_or]
        exact ⟨Ne.symm quote, plain⟩
      have shorter : tail.length < n := by
        rw [← size, List.length_cons, List.length_append]
        omega
      calc solid (c :: (word ++ tail))
        _ = solid (c :: word) ++ solid tail := solid_append closed apart
        _ = solid (c :: word) ++ solid tail' := by rw [ih _ shorter behind rfl]
        _ = solid (c :: (word ++ tail')) := (solid_append closed apart').symm
    | @blanks blanks blanks' rest rest' nonempty nonempty' blank blank' same =>
      have shorter : rest.length < n := by
        have front := List.length_pos_of_ne_nil nonempty
        rw [← size, List.length_append]
        omega
      rw [solid_blanks blank, solid_blanks blank']
      exact ih _ shorter same rfl
    | @quoted body rest rest' inner same =>
      have shorter : rest.length < n := by
        rw [← size, List.length_append, List.length_cons, List.length_cons]
        omega
      obtain ⟨value, read⟩ := exists_piece_quoted inner
      rw [read, read, ih _ shorter same rfl]

theorem Realigned.solid_eq (same : Realigned text text') : solid text = solid text' := by
  obtain ⟨indent, indent', rest, rest', blank, blank', respaced, rfl, rfl⟩ := same
  rw [solid_blanks blank, solid_blanks blank']
  exact respaced.solid_eq

/-! Tokens -/

theorem wordsOf_eq (text : List Char) :
    wordsOf text = (solid text).filterMap fun p => p.token.map fun (kind, value) => (kind, String.ofList value) := by
  unfold wordsOf solid
  rw [List.filterMap_filter, List.filterMap_map]
  apply List.filterMap_congr
  intro x _
  by_cases none : x.2 = gap
  · simp [none, gap]
  · simp [none]

theorem any_unclosed (text : List Char) : (pieces 0 text).any (·.2.unclosed) = (solid text).any (·.unclosed) := by
  unfold solid
  rw [List.any_filter, List.any_map]
  apply congrArg (List.any (pieces 0 text))
  funext x
  by_cases none : x.2 = gap
  · simp [none, gap]
  · simp [none]

/-- The tokens of a line but for their columns. -/
theorem leftmost_ofLine (line : Nat) (text : List Char) : (ofLine line text).map leftmost =
    (wordsOf text).map (fun w => ⟨w.1, w.2, line, 0⟩) ++ [⟨.newline, "\n", line, 0⟩] := by
  unfold ofLine wordsOf
  rw [List.map_append, List.map_filterMap, List.map_filterMap]
  refine congrArg₂ _ (List.filterMap_congr fun ⟨column, piece⟩ _ => ?_) rfl
  dsimp only
  cases piece.token <;> rfl

theorem leftmost_ofLines {texts texts' : List (List Char)} (same : List.Forall₂ Realigned texts texts') (first : Nat) :
    (ofLines first texts).map leftmost = (ofLines first texts').map leftmost := by
  induction same generalizing first with
  | nil => rfl
  | cons own _ ih =>
    rw [ofLines, ofLines, List.map_append, List.map_append, ih, leftmost_ofLine, leftmost_ofLine, wordsOf_eq, wordsOf_eq,
      own.solid_eq]

theorem lineErrors_realigned {texts texts' : List (List Char)} (same : List.Forall₂ Realigned texts texts') (first : Nat)
    (e : Errors) : lineErrors first e texts = lineErrors first e texts' := by
  induction same generalizing first e with
  | nil => rfl
  | cons own _ ih =>
    rw [lineErrors, lineErrors, any_unclosed, any_unclosed, own.solid_eq]
    exact ih _ _

theorem leftmost_ofText {text text' : String} (same : Reformatted text text') :
    (ofText text).map leftmost = (ofText text').map leftmost := by
  unfold ofText
  rw [List.map_append, List.map_append, leftmost_ofLines same, same.length_eq]
  rfl

/-- Other blanks change neither the tokens but for their columns, nor the errors of the lines, nor anything that is read. -/
theorem ofText_reformatted {text text' : String} (same : Reformatted text text') :
    (ofText text).map (fun t => (t.kind, t.value, t.line)) = (ofText text').map (fun t => (t.kind, t.value, t.line)) ∧
      errorsOf text = errorsOf text' ∧
      ∀ rules context, Parsed.ofText rules text context = Parsed.ofText rules text' context := by
  have tokens := leftmost_ofText same
  have errors : errorsOf text = errorsOf text' := lineErrors_realigned same 0 .none
  refine ⟨?_, errors, Parsed.ofText_leftmost tokens errors⟩
  have shown := congrArg (List.map fun t : Token => (t.kind, t.value, t.line)) tokens
  rw [List.map_map, List.map_map] at shown
  exact shown

/-- A text with tabs and carriage returns, and one with spaces. -/
theorem ofText_reformatted_lines :
    Reformatted "a: rect \x7b\r\n\tb:  text \" x\"\r\n\x7d\r" "a: rect \x7b\n  b: text \" x\"\n\x7d" ∧
      ∀ rules context, Parsed.ofText rules "a: rect \x7b\r\n\tb:  text \" x\"\r\n\x7d\r" context =
        Parsed.ofText rules "a: rect \x7b\n  b: text \" x\"\n\x7d" context := by
  have blank : Blank ['\r'] ∧ Blank [] ∧ Blank ['\t'] ∧ Blank [' ', ' '] ∧ Blank [' '] := by decide
  have inner : Inner [' ', 'x'] := .char (by decide) (by decide) (.char (by decide) (by decide) .nil)
  have ending : Respaced ['\r'] [] := .ending blank.1 blank.2.1
  have quoted : Respaced ("text ".toList ++ ('"' :: [' ', 'x'] ++ '"' :: ['\r'])) ("text ".toList ++ ('"' :: [' ', 'x'] ++ ['"'])) :=
    (Respaced.quoted inner ending).behind _ (by decide)
  have first : Realigned "a: rect \x7b\r".toList "a: rect \x7b".toList :=
    ⟨[], [], _, _, blank.2.1, blank.2.1, ending.behind "a: rect \x7b".toList (by decide), rfl, rfl⟩
  have second : Realigned "\tb:  text \" x\"\r".toList "  b: text \" x\"".toList :=
    ⟨['\t'], [' ', ' '], _, _, blank.2.2.1, blank.2.2.2.1,
      (Respaced.blanks (List.cons_ne_nil _ _) (List.cons_ne_nil _ _) blank.2.2.2.1 blank.2.2.2.2 quoted).behind
        "b:".toList (by decide), rfl, rfl⟩
  have third : Realigned "\x7d\r".toList "\x7d".toList :=
    ⟨[], [], _, _, blank.2.1, blank.2.1, ending.behind "\x7d".toList (by decide), rfl, rfl⟩
  have same : Reformatted "a: rect \x7b\r\n\tb:  text \" x\"\r\n\x7d\r" "a: rect \x7b\n  b: text \" x\"\n\x7d" :=
    .cons first (.cons second (.cons third .nil))
  exact ⟨same, (ofText_reformatted same).2.2⟩

end LiveDiagram.Token
