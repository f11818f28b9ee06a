import LiveDiagram.Proofs.Source.Cutting

/-! Ids in the lines of elements. An id is written in front of a colon, or as an end of an edge in front of a connector or
behind one. In each of these places it is one token that holds the id, whatever the id is. Only the kind of the token may be
wrong: an end that has no quotes and reads as a connector is taken for one. -/
namespace LiveDiagram.Token

/-- What an id is written for. -/
inductive Role
  | element
  | source
  | target
deriving DecidableEq, Repr

variable {role : Role} {front behind text word rest : List Char} {words : List Word} {c : Char} {id : String}

namespace Role

/-- The kind of the token that a written id is read as. -/
def kind (role : Role) (id : String) : TokenKind :=
  if role ≠ element ∧ Quoted.isPlain id ∧ (Connector.read? id.toList).isSome then .connector else nameKind id

/-- What stands around an id on its line. The line of an edge begins with the id of the edge itself, and its source may have
no name. -/
inductive Stands : Role → List Char → List Char → Prop
  | element {indent rest : List Char} : (∀ c ∈ indent, isBlank c = true) → Parted rest →
      Stands element indent (':' :: rest)
  | source {indent rest : List Char} (edge : String) (connector : Connector) : (∀ c ∈ indent, isBlank c = true) →
      Stands source (indent ++ (Quoted.writeId edge ++ ": edge ").toList) (' ' :: (connector.text ++ rest))
  | target {indent rest : List Char} (edge : String) (start : Option String) (connector : Connector) :
      (∀ c ∈ indent, isBlank c = true) → Parted rest →
      Stands target (indent ++ (Quoted.writeId edge ++ ": edge" ++ start.elim "" (" " ++ Quoted.writeId ·) ++ " " ++
        String.ofList connector.text ++ " ").toList) rest

end Role

/-! The token of an id -/

/-- A piece that spans a word is in front of the pieces of the rest. -/
theorem pieces_word {token : Option (TokenKind × List Char)} (first : piece c (word ++ rest) = ⟨token, word.length, false⟩)
    (column : Nat) : pieces column (c :: word ++ rest) =
      (column, ⟨token, word.length, false⟩) :: pieces (column + (c :: word).length) rest := by
  rw [List.cons_append, pieces, first, List.drop_left, List.length_cons, Nat.add_assoc]

/-- What is written for an id is one token of a kind, and the rest goes on behind it. -/
def ReadsAs (kind : TokenKind) (id : String) (rest : List Char) : Prop :=
  ∀ column, ∃ more, pieces column ((Quoted.writeId id).toList ++ rest) =
    (column, ⟨some (kind, id.toList), more, false⟩) :: pieces (column + (Quoted.writeId id).toList.length) rest

theorem readsAs_string (quoted : Quoted.isPlain id = false) (rest : List Char) : ReadsAs .string id rest := by
  intro column
  have written : (Quoted.writeId id).toList = '"' :: (id.toList.flatMap Quoted.encodeChar ++ ['"']) := by
    rw [Quoted.writeId, quoted, if_neg Bool.false_ne_true, toList_quote]
  rw [written]
  exact ⟨_, pieces_word (piece_quote id.toList rest) column⟩

theorem readsAs_id (plain : Quoted.isPlain id = true) (stop : ∀ c ∈ rest.head?, isIdChar c = false)
    (apart : connectorPiece? (id.toList ++ rest) = none) : ReadsAs .id id rest := by
  intro column
  obtain ⟨nonempty, own⟩ := isPlain_chars plain
  have kind := kindOf_of_isPlain plain
  rw [Quoted.writeId, if_pos plain]
  obtain ⟨c, word, split⟩ := List.exists_cons_of_ne_nil nonempty
  rw [split] at own apart kind ⊢
  have first : piece c (word ++ rest) = plainPiece (Spells.kindOf (c :: word)) (c :: word) := piece_word own stop apart
  rw [kind] at first
  exact ⟨_, pieces_word first column⟩

theorem readsAs_connector {connector : Connector} (plain : Quoted.isPlain id = true)
    (read : Connector.read? id.toList = some connector) (parted : Parted rest) : ReadsAs .connector id rest := by
  intro column
  rw [Quoted.writeId, if_pos plain]
  obtain ⟨c, word, split⟩ := List.exists_cons_of_ne_nil (isPlain_chars plain).1
  have text := Connector.text_of_read? read
  rw [split] at text ⊢
  exact ⟨_, pieces_word (piece_connector connector text parted) column⟩

/-- An id before a blank or the end of the line. -/
theorem readsAs_end (other : role ≠ .element) (id : String) (parted : Parted rest) : ReadsAs (role.kind id) id rest := by
  unfold Role.kind nameKind
  cases plain : Quoted.isPlain id with
  | false =>
    rw [if_neg (by simp)]
    exact readsAs_string plain rest
  | true =>
    cases read : Connector.read? id.toList with
    | some connector =>
      rw [if_pos ⟨other, rfl, rfl⟩]
      exact readsAs_connector plain read parted
    | none =>
      rw [if_neg (by simp)]
      obtain ⟨nonempty, own⟩ := isPlain_chars plain
      apply readsAs_id plain parted.apart.not_isIdChar
      exact Plain.connectorPiece? ⟨nonempty, own, read⟩ parted

theorem Role.Stands.readsAs (stands : role.Stands front behind) (id : String) : ReadsAs (role.kind id) id behind := by
  cases stands with
  | element blank parted =>
    unfold Role.kind nameKind
    rw [if_neg (by simp)]
    cases plain : Quoted.isPlain id with
    | false => exact readsAs_string plain _
    | true =>
      obtain ⟨nonempty, own⟩ := isPlain_chars plain
      apply readsAs_id plain Spells.not_isIdChar_colon
      exact Spells.connectorPiece?_colon nonempty own parted
  | source edge connector blank => exact readsAs_end (by decide) id parted_space
  | target edge start connector blank parted => exact readsAs_end (by decide) id parted

/-! What is in front of it -/

/-- A text that has the same pieces whatever follows. -/
def Sealed (text : List Char) : Prop :=
  ∀ column rest, pieces column (text ++ rest) = pieces column text ++ pieces (column + text.length) rest

theorem sealed_blanks (blank : ∀ c ∈ text, isBlank c = true) : Sealed text := by
  induction text with
  | nil =>
    intro column rest
    simp [pieces]
  | cons c text ih =>
    intro column rest
    have own := blank c List.mem_cons_self
    have later := ih (fun x member => blank x (List.mem_cons_of_mem c member)) (column + 1) rest
    have first (more : List Char) : pieces column (c :: more) = (column, ⟨none, 0, false⟩) :: pieces (column + 1) more := by
      rw [pieces, piece, if_pos own]
      rfl
    rw [List.cons_append, first, first, later, List.cons_append, List.length_cons, Nat.add_right_comm, Nat.add_assoc]

theorem sealed_spaced (closed : Closed text) : Sealed (text ++ [' ']) := by
  intro column rest
  have blank : Sealed [' '] := sealed_blanks (by decide)
  have spaced := pieces_append closed (show Parted [' '] from parted_space).apart column
  calc pieces column (text ++ [' '] ++ rest)
    _ = pieces column text ++ pieces (column + text.length) (' ' :: rest) := by
      rw [List.append_assoc]
      exact pieces_append closed parted_space.apart column
    _ = pieces column text ++ (pieces (column + text.length) [' '] ++ pieces (column + text.length + 1) rest) :=
      congrArg _ (blank _ rest)
    _ = _ := by rw [← List.append_assoc, ← spaced, List.length_append, List.length_singleton, Nat.add_assoc]

/-- The name of an end spells something, be it the id or a connector. -/
theorem Spells.exists_name (id : String) (parted : Parted rest) (spells : Spells rest words) :
    ∃ words', Spells ((Quoted.writeId id).toList ++ rest) words' := by
  by_cases unread : Quoted.isPlain id = true → Connector.read? id.toList = none
  · exact ⟨_, Spells.id id unread parted spells⟩
  · rw [Classical.not_imp] at unread
    obtain ⟨connector, read⟩ := Option.ne_none_iff_exists'.1 unread.2
    have spelled := spells.connector connector parted
    rw [Connector.text_of_read? read] at spelled
    rw [Quoted.writeId, if_pos unread.1]
    exact ⟨_, spelled⟩

theorem Role.Stands.sealed (stands : role.Stands front behind) : Sealed front := by
  cases stands with
  | element blank parted => exact sealed_blanks blank
  | source edge connector blank =>
    have spelled := Spells.blanks blank (Spells.edge edge parted_nil Spells.nil)
    have front := sealed_spaced spelled.isClosed
    simpa [String.toList_append] using front
  | target edge start connector blank parted =>
    have linked := (Spells.nil.connector connector parted_nil).space
    have started : ∃ words, Spells ((start.elim "" (" " ++ Quoted.writeId ·)).toList ++ ' ' :: connector.text) words ∧
        Parted ((start.elim "" (" " ++ Quoted.writeId ·)).toList ++ ' ' :: connector.text) := by
      cases start with
      | none => exact ⟨_, by simpa using linked, parted_space⟩
      | some id =>
        obtain ⟨words, named⟩ := Spells.exists_name id parted_space linked
        rw [Option.elim_some, String.toList_append, List.append_assoc]
        exact ⟨_, by simpa using named.space, parted_space⟩
    obtain ⟨words, spells, parted⟩ := started
    have front := sealed_spaced (Spells.blanks blank (Spells.edge edge parted spells)).isClosed
    simpa [String.toList_append] using front

/-! Lines -/

theorem column_of_mem_among {column line : Nat} {t : Token} (member : t ∈ among line (pieces column text)) :
    column ≤ t.column ∧ t.column < column + text.length := by
  obtain ⟨x, listed, made⟩ := List.mem_filterMap.1 member
  obtain ⟨_, _, rfl⟩ := Option.map_eq_some_iff.1 made
  exact column_of_mem_pieces listed

/-- Where an id is written there is one token, and it holds the id. It is an id or a quoted text, unless the id is that of an
end, has no quotes and is the text of a connector. -/
theorem ofLine_writeId (stands : role.Stands front behind) (id : String) (line : Nat) : ∃ before after,
    ofLine line (front ++ ((Quoted.writeId id).toList ++ behind)) =
      before ++ ⟨role.kind id, id, line, front.length⟩ :: after ∧
    (∀ t ∈ before, t.column < front.length) ∧
    ∀ t ∈ after, front.length + (Quoted.writeId id).toList.length ≤ t.column := by
  obtain ⟨more, own⟩ := stands.readsAs id front.length
  have cut : pieces 0 (front ++ ((Quoted.writeId id).toList ++ behind)) = pieces 0 front ++
      (front.length, ⟨some (role.kind id, id.toList), more, false⟩) ::
        pieces (front.length + (Quoted.writeId id).toList.length) behind := by
    rw [stands.sealed, Nat.zero_add, own]
  refine ⟨among line (pieces 0 front), among line (pieces (front.length + (Quoted.writeId id).toList.length) behind) ++
    [⟨.newline, "\n", line, (front ++ ((Quoted.writeId id).toList ++ behind)).length⟩], ?_, ?_, ?_⟩
  · unfold ofLine
    rw [cut, List.filterMap_append, List.filterMap_cons]
    simp [among]
  · intro t member
    have bounds := column_of_mem_among member
    omega
  · intro t member
    rcases List.mem_append.1 member with later | last
    · exact (column_of_mem_among later).1
    · cases List.mem_singleton.1 last
      simp only [List.length_append]
      omega

/-- The id of a source that is no text of a connector. -/
theorem ofLine_writeId_quoted : ∃ before after,
    ofLine 4 "  e: edge \"a b\" -- c".toList = before ++ ⟨.string, "a b", 4, 10⟩ :: after ∧
    (∀ t ∈ before, t.column < 10) ∧ ∀ t ∈ after, 15 ≤ t.column :=
  have stands : Role.source.Stands "  e: edge ".toList " -- c".toList :=
    .source "e" Connector.plain (show ∀ c ∈ [' ', ' '], isBlank c = true by decide)
  ofLine_writeId stands "a b" 4

/-- A source that is written without quotes and taken for a connector. -/
theorem ofLine_misread : Quoted.writeId "x--x" = "x--x" ∧
    ofLine 0 "e: edge x--x -- b".toList = [⟨.id, "e", 0, 0⟩, ⟨.colon, ":", 0, 1⟩, ⟨.keyword, "edge", 0, 3⟩,
      ⟨.connector, "x--x", 0, 8⟩, ⟨.connector, "--", 0, 13⟩, ⟨.id, "b", 0, 16⟩, ⟨.newline, "\n", 0, 17⟩] := by
  decide +kernel

end LiveDiagram.Token
