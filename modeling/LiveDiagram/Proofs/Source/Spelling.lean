import LiveDiagram.Source.Quoted
import LiveDiagram.Proofs.Connector.Reading
import LiveDiagram.Proofs.Source.Pieces
import Mathlib.Data.List.Forall2

/-! What the tokens of a line are, whatever their columns. A line spells words if its tokens show them one after the
other and every quote is closed. Each way to begin a line adds the word that stands there: ids, keywords, quoted texts,
connectors and symbols. -/
namespace LiveDiagram.Token

/-- A kind of token with the text of one. -/
abbrev Word := TokenKind × String

def Shows (line : Nat) (word : Word) (t : Token) : Prop :=
  ∃ column, t = ⟨word.1, word.2, line, column⟩

/-- The tokens among the pieces of a line. -/
def among (line : Nat) (pieces : List (Nat × Piece)) : List Token :=
  pieces.filterMap fun (column, piece) =>
    piece.token.map fun (kind, value) => ⟨kind, String.ofList value, line, column⟩

/-- The words of a line from any column on. -/
structure Spells (text : List Char) (words : List Word) : Prop where
  unbroken : '\n' ∉ text
  shows : ∀ line column, List.Forall₂ (Shows line) words (among line (pieces column text))
  closed : ∀ column, ∀ x ∈ pieces column text, x.2.unclosed = false

variable {text rest word : List Char} {words : List Word} {c : Char}

namespace Spells

theorem nil : Spells [] [] where
  unbroken := List.not_mem_nil
  shows line column := by simp [pieces, among]
  closed column := by simp [pieces]

/-- A piece that is a token adds its word. -/
theorem token {kind : TokenKind} {value : List Char}
    (first : piece c (text ++ rest) = ⟨some (kind, value), text.length, false⟩) (one : '\n' ∉ c :: text)
    (spells : Spells rest words) : Spells (c :: (text ++ rest)) ((kind, String.ofList value) :: words) where
  unbroken := by
    rw [← List.cons_append, List.mem_append]
    exact not_or.2 ⟨one, spells.unbroken⟩
  shows line column := by
    rw [pieces, first, List.drop_left]
    exact .cons ⟨column, rfl⟩ (spells.shows line _)
  closed column := by
    rw [pieces, first, List.drop_left]
    intro x member
    rcases List.mem_cons.1 member with rfl | later
    · rfl
    · exact spells.closed _ x later

/-- A piece that means nothing adds nothing. -/
theorem skip (first : piece c rest = ⟨none, 0, false⟩) (one : c ≠ '\n') (spells : Spells rest words) :
    Spells (c :: rest) words where
  unbroken := by
    rw [List.mem_cons]
    exact not_or.2 ⟨Ne.symm one, spells.unbroken⟩
  shows line column := by
    rw [pieces, first]
    exact spells.shows line _
  closed column := by
    rw [pieces, first]
    intro x member
    rcases List.mem_cons.1 member with rfl | later
    · rfl
    · exact spells.closed _ x later

end Spells

/-! Characters -/

theorem mem_blanks (blank : isBlank c = true) : c = ' ' ∨ c = '\t' ∨ c = '\r' := by
  simpa only [isBlank, Bool.or_eq_true, decide_eq_true_eq, or_assoc] using blank

theorem not_connector_of_isBlank (blank : isBlank c = true) : Connector.isCharacter c = false := by
  rcases mem_blanks blank with rfl | rfl | rfl <;> decide

theorem not_isIdChar_of_isBlank (blank : isBlank c = true) : isIdChar c = false := by
  rcases mem_blanks blank with rfl | rfl | rfl <;> decide

/-- Characters of ids are none of those that mean something by themselves. -/
theorem ne_of_isIdChar {x : Char} (own : isIdChar c = true) (other : isIdChar x = false) : c ≠ x := by
  rintro rfl
  rw [own] at other
  cases other

theorem not_isBlank_of_isIdChar (own : isIdChar c = true) : isBlank c = false := by
  rw [← Bool.not_eq_true]
  intro blank
  rw [not_isIdChar_of_isBlank blank] at own
  cases own

theorem symbol?_of_isIdChar (own : isIdChar c = true) : symbol? c = none := by
  have colon := ne_of_isIdChar own (x := ':') (by decide)
  have left := ne_of_isIdChar own (x := '\x7b') (by decide)
  have right := ne_of_isIdChar own (x := '\x7d') (by decide)
  have slash := ne_of_isIdChar own (x := '/') (by decide)
  simp only [symbol?, colon, left, right, slash, if_false]

/-! Words end at a blank or at the end of the line -/

/-- Whether a line may go on like this right after a word. -/
def Parted (rest : List Char) : Prop :=
  ∀ c ∈ rest.head?, isBlank c = true

theorem parted_nil : Parted [] := by simp [Parted]

theorem parted_space : Parted (' ' :: rest) := by
  intro c head
  cases Option.some.inj head
  rfl

theorem endsConnector_of_parted (parted : Parted rest) : endsConnector rest = true := by
  cases rest with
  | nil => rfl
  | cons c rest => simp only [endsConnector, parted c rfl, Bool.true_or]

theorem takeWhile_of_stop (text : List Char) {p : Char → Bool} (stop : ∀ c ∈ rest.head?, p c = false) :
    (text ++ rest).takeWhile p = text.takeWhile p ∧ (text ++ rest).dropWhile p = text.dropWhile p ++ rest := by
  induction text with
  | nil =>
    cases rest with
    | nil => simp
    | cons c rest => simp [stop c rfl]
  | cons x text ih =>
    simp only [List.cons_append, List.takeWhile_cons, List.dropWhile_cons]
    cases p x
    · exact ⟨rfl, rfl⟩
    · exact ⟨congrArg (x :: ·) ih.1, ih.2⟩

theorem takeWhile_eq_self {p : Char → Bool} (all : ∀ c ∈ text, p c = true) : text.takeWhile p = text := by
  rw [List.takeWhile_eq_self_iff]
  exact all

/-- Characters of an id that do not read as a connector, up to a place where they may end, are not taken for one. -/
theorem connectorPiece?_word (nonempty : word ≠ []) (own : ∀ x ∈ word, isIdChar x = true)
    (stop : ∀ c ∈ rest.head?, c ≠ '>')
    (unread : (∀ x ∈ word, Connector.isCharacter x = true) →
      Connector.read? ((word ++ rest).takeWhile Connector.isCharacter) = none) :
    connectorPiece? (word ++ rest) = none := by
  have arrow : (word ++ rest).take 2 ≠ ['-', '>'] := by
    intro same
    match word, nonempty with
    | [a], _ =>
      cases rest with
      | nil => cases same
      | cons c rest =>
        simp only [List.cons_append, List.nil_append, List.take_succ_cons, List.take_zero, List.cons.injEq] at same
        exact stop c rfl same.2.1
    | a :: b :: word, _ =>
      simp only [List.cons_append, List.take_succ_cons, List.take_zero, List.cons.injEq] at same
      exact ne_of_isIdChar (own b (by simp)) (by decide) same.2.1
  have run : (word ++ rest).takeWhile Connector.isCharacter ≠ ['-', '>'] := by
    intro same
    apply arrow
    have front : ['-', '>'] <+: word ++ rest := same ▸ List.takeWhile_prefix _
    exact (List.prefix_iff_eq_take.1 front).symm
  unfold connectorPiece?
  simp only [arrow, run, decide_false, Bool.false_and, Bool.false_eq_true, if_false]
  by_cases whole : ∀ x ∈ word, Connector.isCharacter x = true
  · rw [unread whole]
    simp
  · -- the run of connector characters ends within the word
    have inside : ∃ x, isIdChar x = true ∧ ((word ++ rest).dropWhile Connector.isCharacter).head? = some x := by
      rw [List.dropWhile_append]
      have left : word.dropWhile Connector.isCharacter ≠ [] := by
        intro none
        exact whole (List.dropWhile_eq_nil_iff.1 none)
      obtain ⟨x, more, split⟩ := List.exists_cons_of_ne_nil left
      refine ⟨x, own x ?_, ?_⟩
      · exact (List.dropWhile_sublist _).subset (split ▸ List.mem_cons_self)
      · rw [split]
        rfl
    obtain ⟨x, idChar, head⟩ := inside
    have goesOn : endsConnector ((word ++ rest).dropWhile Connector.isCharacter) = false := by
      cases left : (word ++ rest).dropWhile Connector.isCharacter with
      | nil =>
        rw [left] at head
        cases head
      | cons y more =>
        rw [left] at head
        cases Option.some.inj head
        have quote := ne_of_isIdChar idChar (x := '"') (by decide)
        have brace := ne_of_isIdChar idChar (x := '\x7b') (by decide)
        simp only [endsConnector, not_isBlank_of_isIdChar idChar, quote, brace, decide_false, Bool.or_false]
    rw [goesOn]
    simp

/-- Characters of an id are one word where they are not taken for a connector. -/
theorem piece_word (own : ∀ x ∈ c :: word, isIdChar x = true)
    (stop : ∀ c ∈ rest.head?, isIdChar c = false) (apart : connectorPiece? (c :: (word ++ rest)) = none) :
    piece c (word ++ rest) = wordPiece (c :: word) := by
  have first := own c List.mem_cons_self
  have quote := ne_of_isIdChar first (x := '"') (by decide)
  have whole : (word ++ rest).takeWhile isIdChar = word := by
    rw [(takeWhile_of_stop _ stop).1]
    exact takeWhile_eq_self fun x member => own x (List.mem_cons_of_mem c member)
  unfold piece
  simp only [not_isBlank_of_isIdChar first, quote, apart, ite_self, symbol?_of_isIdChar first, first, whole,
    Bool.false_eq_true, if_false, if_true]

/-- A word that can stand without quotes before a blank: characters of ids that are not the text of a connector. -/
structure Plain (word : List Char) : Prop where
  nonempty : word ≠ []
  own : ∀ x ∈ word, isIdChar x = true
  unread : Connector.read? word = none

theorem Plain.connectorPiece? (plain : Plain word) (parted : Parted rest) : connectorPiece? (word ++ rest) = none := by
  apply connectorPiece?_word plain.nonempty plain.own
  · rintro c head rfl
    cases parted _ head
  · intro whole
    have stop (c : Char) (head : c ∈ rest.head?) : Connector.isCharacter c = false :=
      not_connector_of_isBlank (parted c head)
    rw [(takeWhile_of_stop _ stop).1, takeWhile_eq_self whole]
    exact plain.unread

/-- A connector before a blank or the end of the line. -/
theorem piece_connector (connector : Connector) (text : connector.text = c :: word) (parted : Parted rest) :
    piece c (word ++ rest) = ⟨some (.connector, c :: word), word.length, false⟩ := by
  have stop (x : Char) (head : x ∈ rest.head?) : Connector.isCharacter x = false :=
    not_connector_of_isBlank (parted x head)
  have all (x : Char) (member : x ∈ connector.text) : Connector.isCharacter x = true :=
    Connector.isCharacter_of_mem_text member
  have run : (connector.text ++ rest).takeWhile Connector.isCharacter = connector.text := by
    rw [(takeWhile_of_stop _ stop).1, takeWhile_eq_self all]
  have left : (connector.text ++ rest).dropWhile Connector.isCharacter = rest := by
    rw [(takeWhile_of_stop _ stop).2, List.dropWhile_eq_nil_iff.2 all, List.nil_append]
  have arrow : connector.text ≠ ['-', '>'] := by
    intro same
    apply connector.take_text []
    rw [same]
    rfl
  have found : Token.connectorPiece? (connector.text ++ rest) = some (plainPiece .connector connector.text) := by
    unfold Token.connectorPiece?
    simp [connector.take_text rest, run, left, arrow, endsConnector_of_parted parted, Connector.read?_text]
  have own : Connector.isCharacter c = true := all c (text ▸ List.mem_cons_self)
  have quote : c ≠ '"' := by
    rintro rfl
    revert own
    decide
  have blank : isBlank c = false := by
    rw [← Bool.not_eq_true]
    intro blank
    rw [not_connector_of_isBlank blank] at own
    cases own
  rw [text, List.cons_append] at found
  unfold piece
  simp [blank, quote, own, found, plainPiece]

namespace Spells

def kindOf (word : List Char) : TokenKind :=
  if String.ofList word ∈ keywords then .keyword else .id

theorem of_wordPiece (nonempty : word ≠ []) (own : ∀ x ∈ word, isIdChar x = true)
    (stop : ∀ c ∈ rest.head?, isIdChar c = false) (apart : connectorPiece? (word ++ rest) = none)
    (spells : Spells rest words) : Spells (word ++ rest) ((kindOf word, String.ofList word) :: words) := by
  cases word with
  | nil => exact (nonempty rfl).elim
  | cons c word =>
    refine token (piece_word own stop apart) (fun broken => ?_) spells
    exact ne_of_isIdChar (own _ broken) (by decide) rfl

/-- A plain word before a blank or the end of the line. -/
theorem plain (plain : Plain word) (parted : Parted rest) (spells : Spells rest words) :
    Spells (word ++ rest) ((kindOf word, String.ofList word) :: words) := by
  have apart (c : Char) (head : c ∈ rest.head?) : isIdChar c = false := not_isIdChar_of_isBlank (parted c head)
  exact of_wordPiece plain.nonempty plain.own apart (plain.connectorPiece? parted) spells

/-! Blanks and symbols -/

theorem blank (blank : isBlank c = true) (spells : Spells rest words) : Spells (c :: rest) words := by
  have first : piece c rest = ⟨none, 0, false⟩ := by
    unfold piece
    rw [if_pos blank]
  refine skip first ?_ spells
  rintro rfl
  cases blank

theorem space (spells : Spells rest words) : Spells (' ' :: rest) words :=
  spells.blank rfl

theorem blanks (all : ∀ c ∈ text, isBlank c = true) (spells : Spells rest words) : Spells (text ++ rest) words := by
  induction text with
  | nil => exact spells
  | cons c text ih =>
    exact (ih fun x member => all x (List.mem_cons_of_mem c member)).blank (all c List.mem_cons_self)

/-- A symbol that could begin a connector stands for itself before a blank. -/
theorem piece_symbol {kind : TokenKind} (means : symbol? c = some kind) (unread : Connector.read? [c] = none)
    (proper : isBlank c = false ∧ c ≠ '"' ∧ c ≠ '-') (parted : Parted rest) :
    piece c ([] ++ rest) = ⟨some (kind, [c]), 0, false⟩ := by
  have apart : (if Connector.isCharacter c then connectorPiece? (c :: rest) else none) = none := by
    split
    · next own =>
      have run : (c :: rest).takeWhile Connector.isCharacter = [c] := by
        have stop (x : Char) (head : x ∈ rest.head?) : Connector.isCharacter x = false :=
          not_connector_of_isBlank (parted x head)
        rw [List.takeWhile_cons, if_pos own]
        exact congrArg (c :: ·) (takeWhile_of_stop [] stop).1
      have first : (c :: rest).take 2 ≠ ['-', '>'] := by
        rw [List.take_succ_cons]
        intro same
        exact proper.2.2 (List.cons.inj same).1
      unfold connectorPiece?
      simp only [run, first, unread, decide_false, Bool.false_and, Option.isSome_none, Bool.and_false,
        Bool.false_eq_true, if_false]
      exact if_neg fun same => proper.2.2 (List.cons.inj same).1
    · rfl
  unfold piece
  rw [List.nil_append, proper.1, apart, means]
  simp [proper.2.1]

theorem symbol {kind : TokenKind} (means : symbol? c = some kind) (unread : Connector.read? [c] = none)
    (proper : isBlank c = false ∧ c ≠ '"' ∧ c ≠ '-') (one : c ≠ '\n') (parted : Parted rest) (spells : Spells rest words) :
    Spells (c :: rest) ((kind, String.ofList [c]) :: words) :=
  token (piece_symbol means unread proper parted) (fun broken => one (List.mem_singleton.1 broken).symm) spells

theorem colon (parted : Parted rest) (spells : Spells rest words) : Spells (':' :: rest) ((.colon, ":") :: words) :=
  symbol rfl rfl (by decide) (by decide) parted spells

theorem slash (parted : Parted rest) (spells : Spells rest words) : Spells ('/' :: rest) ((.slash, "/") :: words) :=
  symbol rfl rfl (by decide) (by decide) parted spells

theorem leftBrace (spells : Spells rest words) : Spells ('\x7b' :: rest) ((.leftBrace, "\x7b") :: words) := by
  have first : piece '\x7b' ([] ++ rest) = ⟨some (.leftBrace, ['\x7b']), 0, false⟩ := by
    have other : Connector.isCharacter '\x7b' = false := by decide
    unfold piece
    rw [other]
    rfl
  exact token first (by decide) spells

theorem rightBrace (spells : Spells rest words) : Spells ('\x7d' :: rest) ((.rightBrace, "\x7d") :: words) := by
  have first : piece '\x7d' ([] ++ rest) = ⟨some (.rightBrace, ['\x7d']), 0, false⟩ := by
    have other : Connector.isCharacter '\x7d' = false := by decide
    unfold piece
    rw [other]
    rfl
  exact token first (by decide) spells

/-- Characters of an id are not taken for a connector before a colon. -/
theorem connectorPiece?_colon (nonempty : word ≠ []) (own : ∀ x ∈ word, isIdChar x = true) (parted : Parted rest) :
    connectorPiece? (word ++ ':' :: rest) = none := by
  apply connectorPiece?_word nonempty own
  · intro c head
    cases Option.some.inj head
    decide
  · intro whole
    have stop (c : Char) (head : c ∈ rest.head?) : Connector.isCharacter c = false :=
      not_connector_of_isBlank (parted c head)
    have run : (word ++ ':' :: rest).takeWhile Connector.isCharacter = word ++ [':'] := by
      have own : Connector.isCharacter ':' = true := by decide
      rw [List.takeWhile_append_of_pos whole, List.takeWhile_cons, if_pos own]
      exact congrArg (fun more => word ++ ':' :: more) (takeWhile_of_stop [] stop).1
    rw [run]
    exact Connector.read?_colon own

theorem not_isIdChar_colon (c : Char) (head : c ∈ (':' :: rest).head?) : isIdChar c = false := by
  cases Option.some.inj head
  rfl

/-- Characters of an id before a colon. -/
theorem before_colon (nonempty : word ≠ []) (own : ∀ x ∈ word, isIdChar x = true) (parted : Parted rest)
    (spells : Spells rest words) :
    Spells (word ++ ':' :: rest) ((kindOf word, String.ofList word) :: (.colon, ":") :: words) :=
  of_wordPiece nonempty own not_isIdChar_colon (connectorPiece?_colon nonempty own parted) (spells.colon parted)

theorem connector (c : Connector) (parted : Parted rest) (spells : Spells rest words) :
    Spells (c.text ++ rest) ((.connector, String.ofList c.text) :: words) := by
  cases split : c.text with
  | nil => simp [Connector.text] at split
  | cons x more =>
    refine token (piece_connector c split parted) (fun broken => ?_) spells
    have odd := Connector.isCharacter_of_mem_text (split ▸ broken)
    revert odd
    decide

end Spells

/-! Quoted texts -/

/-- A character is written between quotes as an escape or as itself. -/
theorem encodeChar_cases (c : Char) :
    (∃ x, Quoted.encodeChar c = ['\\', x] ∧ escaped x = c) ∨ (Quoted.encodeChar c = [c] ∧ c ≠ '\\' ∧ c ≠ '"') := by
  unfold Quoted.encodeChar
  by_cases backslash : c = '\\'
  · exact .inl ⟨'\\', if_pos backslash, backslash.symm⟩
  by_cases quote : c = '"'
  · exact .inl ⟨'"', by rw [if_neg backslash, if_pos quote], quote.symm⟩
  by_cases newline : c = '\n'
  · exact .inl ⟨'n', by rw [if_neg backslash, if_neg quote, if_pos newline], newline.symm⟩
  · exact .inr ⟨by rw [if_neg backslash, if_neg quote, if_neg newline], backslash, quote⟩

theorem newline_encodeChar : '\n' ∉ Quoted.encodeChar c := by
  unfold Quoted.encodeChar
  split
  · decide
  split
  · decide
  split
  · decide
  · next other => simpa using Ne.symm other

/-- A text between quotes ends at its own closing quote. -/
theorem quoted_encode (text rest : List Char) :
    quoted (text.flatMap Quoted.encodeChar ++ '"' :: rest) =
      (text, (text.flatMap Quoted.encodeChar).length + 1, false) := by
  induction text with
  | nil => rfl
  | cons c text ih =>
    rw [List.flatMap_cons, List.append_assoc, List.length_append]
    rcases encodeChar_cases c with ⟨x, same, meant⟩ | ⟨same, backslash, quote⟩
    · rw [same, List.cons_append, List.cons_append, List.nil_append, quoted, ih, meant]
      simp only [List.length_cons, List.length_nil, Nat.add_comm, Nat.add_left_comm]
    · rw [same, List.cons_append, List.nil_append, quoted, ih]
      · simp only [List.length_cons, List.length_nil, Nat.add_comm, Nat.add_left_comm]
      · exact quote
      · intro _ _ same
        exact (backslash same).elim

/-- A quoted text between its quotes. -/
theorem piece_quote (text rest : List Char) : piece '"' ((text.flatMap Quoted.encodeChar ++ ['"']) ++ rest) =
    ⟨some (.string, text), (text.flatMap Quoted.encodeChar ++ ['"']).length, false⟩ := by
  rw [List.append_assoc, List.length_append]
  unfold piece
  simp only [List.cons_append, List.nil_append, quoted_encode]
  rfl

theorem toList_quote (text : String) :
    (Quoted.quote text).toList = '"' :: (text.toList.flatMap Quoted.encodeChar ++ ['"']) :=
  String.toList_ofList

theorem Spells.quote (text : String) (spells : Spells rest words) :
    Spells ((Quoted.quote text).toList ++ rest) ((.string, text) :: words) := by
  have one : '\n' ∉ '"' :: (text.toList.flatMap Quoted.encodeChar ++ ['"']) := by
    simp only [List.mem_cons, List.mem_append, List.not_mem_nil, List.mem_flatMap, not_or, not_exists, not_and]
    refine ⟨by decide, fun c _ member => ?_, by decide⟩
    exact newline_encodeChar member
  have spelled := token (piece_quote text.toList rest) one spells
  rw [String.ofList_toList] at spelled
  rw [toList_quote]
  exact spelled

/-! Ids -/

/-- An id is written as one word, in quotes or without. -/
def nameKind (id : String) : TokenKind :=
  if Quoted.isPlain id then .id else .string

theorem kindOf_of_isPlain {id : String} (plain : Quoted.isPlain id = true) : Spells.kindOf id.toList = .id := by
  simp only [Quoted.isPlain, Bool.and_eq_true, Bool.not_eq_true'] at plain
  unfold Spells.kindOf
  rw [String.ofList_toList, if_neg]
  rw [← List.contains_iff_mem, plain.2]
  decide

theorem isPlain_chars {id : String} (plain : Quoted.isPlain id = true) :
    id.toList ≠ [] ∧ ∀ x ∈ id.toList, isIdChar x = true := by
  simp only [Quoted.isPlain, Bool.and_eq_true, Bool.not_eq_true', List.all_eq_true] at plain
  refine ⟨?_, plain.1.2⟩
  intro empty
  rw [String.toList_eq_nil_iff.1 empty] at plain
  cases plain.1.1

theorem Spells.id_colon (id : String) (parted : Parted rest) (spells : Spells rest words) :
    Spells ((Quoted.writeId id).toList ++ ':' :: rest) ((nameKind id, id) :: (.colon, ":") :: words) := by
  unfold Quoted.writeId nameKind
  cases plain : Quoted.isPlain id with
  | true =>
    obtain ⟨nonempty, own⟩ := isPlain_chars plain
    have spelled := before_colon nonempty own parted spells
    rw [kindOf_of_isPlain plain, String.ofList_toList] at spelled
    exact spelled
  | false => exact (spells.colon parted).quote id

/-- The start of the line of an edge. -/
theorem Spells.edge (id : String) (parted : Parted rest) (spells : Spells rest words) :
    Spells ((Quoted.writeId id).toList ++ (": edge".toList ++ rest))
      ((nameKind id, id) :: (.colon, ":") :: (.keyword, "edge") :: words) := by
  have edge : Plain "edge".toList := ⟨by decide, by decide, by decide⟩
  have header := Spells.id_colon id parted_space (Spells.plain edge parted spells).space
  rw [show kindOf "edge".toList = .keyword from rfl, String.ofList_toList] at header
  exact header

/-- An id as an end of an edge. It may not read as a connector where it has no quotes. -/
theorem Spells.id (id : String) (unread : Quoted.isPlain id = true → Connector.read? id.toList = none)
    (parted : Parted rest) (spells : Spells rest words) :
    Spells ((Quoted.writeId id).toList ++ rest) ((nameKind id, id) :: words) := by
  unfold Quoted.writeId nameKind
  cases plain : Quoted.isPlain id with
  | true =>
    obtain ⟨nonempty, own⟩ := isPlain_chars plain
    have spelled := Spells.plain ⟨nonempty, own, unread plain⟩ parted spells
    rw [kindOf_of_isPlain plain, String.ofList_toList] at spelled
    exact spelled
  | false => exact spells.quote id

/-! Lines in general -/

/-- Every quote of a line is closed. -/
def Closed (text : List Char) : Prop :=
  (pieces 0 text).any (·.2.unclosed) = false

theorem closed_cons : Closed (c :: rest) ↔ (piece c rest).unclosed = false ∧ Closed (rest.drop (piece c rest).more) := by
  unfold Closed
  rw [pieces, List.any_cons, Bool.or_eq_false_iff, any_pieces]

namespace Closed

theorem of_blanks (blank : ∀ c ∈ text, isBlank c = true) (closed : Closed (text ++ rest)) : Closed rest := by
  induction text with
  | nil => exact closed
  | cons c text ih =>
    have first : piece c (text ++ rest) = ⟨none, 0, false⟩ := by
      unfold piece
      rw [if_pos (blank c List.mem_cons_self)]
    have later := (closed_cons.1 closed).2
    rw [List.append_eq, first] at later
    exact ih (fun x member => blank x (List.mem_cons_of_mem c member)) later

/-- A word before a colon and a blank has no quote in it. -/
theorem of_colon (nonempty : word ≠ []) (own : ∀ x ∈ word, isIdChar x = true) (parted : Parted rest)
    (closed : Closed (word ++ ':' :: rest)) : Closed rest := by
  obtain ⟨c, word, rfl⟩ := List.exists_cons_of_ne_nil nonempty
  have first := piece_word own Spells.not_isIdChar_colon (Spells.connectorPiece?_colon nonempty own parted)
  have later := (closed_cons.1 closed).2
  rw [List.append_eq, first, show (wordPiece (c :: word)).more = word.length from rfl, List.drop_left] at later
  have last := (closed_cons.1 later).2
  rw [show piece ':' rest = _ from Spells.piece_symbol rfl rfl (by decide) parted] at last
  exact last

end Closed

/-- The words of a line, whatever is in it. -/
def wordsOf (text : List Char) : List Word :=
  (pieces 0 text).filterMap fun x => x.2.token.map fun (kind, value) => (kind, String.ofList value)

/-- A line without a newline and with closed quotes spells its words. -/
theorem spells_wordsOf (unbroken : '\n' ∉ text) (closed : Closed text) : Spells text (wordsOf text) where
  unbroken := unbroken
  shows line column := by
    have shown (text : List Char) (start column : Nat) : List.Forall₂ (Shows line)
        ((pieces start text).filterMap fun x => x.2.token.map fun (kind, value) => (kind, String.ofList value))
        (among line (pieces column text)) := by
      induction start, text using pieces.induct generalizing column with
      | case1 =>
        rw [pieces, pieces]
        exact .nil
      | case2 start c rest first ih =>
        rw [pieces, pieces]
        cases token : first.token with
        | none => simpa only [among, List.filterMap_cons, first, token, Option.map_none] using ih _
        | some word =>
          simp only [among, List.filterMap_cons, first, token, Option.map_some]
          exact .cons ⟨column, rfl⟩ (ih _)
    exact shown text 0 column
  closed column x member := by
    have none := (any_pieces column).trans closed
    rw [List.any_eq_false] at none
    exact Bool.not_eq_true _ ▸ none x member

theorem mem_wordsOf {w : Word} (member : w ∈ wordsOf text) : w.1 ≠ .newline ∧ w.1 ≠ .eof := by
  obtain ⟨x, listed, made⟩ := List.mem_filterMap.1 member
  obtain ⟨⟨kind, value⟩, found, rfl⟩ := Option.map_eq_some_iff.1 made
  obtain ⟨c, rest, same⟩ := exists_piece_of_mem listed
  exact proper_piece (same ▸ found)

theorem Spells.isClosed (spells : Spells text words) : Closed text :=
  List.any_eq_false.2 fun x member => by simp [spells.closed 0 x member]

/-- A line spells nothing but its words. -/
theorem Spells.eq_wordsOf (spells : Spells text words) : words = wordsOf text := by
  have unique : Relator.LeftUnique (Shows 0) := by
    rintro ⟨kind, value⟩ ⟨kind', value'⟩ t ⟨column, rfl⟩ ⟨column', same⟩
    cases same
    rfl
  exact List.left_unique_forall₂' unique (spells.shows 0 0) ((spells_wordsOf spells.unbroken spells.isClosed).shows 0 0)

theorem Spells.proper (spells : Spells text words) : ∀ w ∈ words, w.1 ≠ .newline ∧ w.1 ≠ .eof := by
  rw [spells.eq_wordsOf]
  exact fun _ => mem_wordsOf

end LiveDiagram.Token
