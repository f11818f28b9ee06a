import LiveDiagram.Proofs.Source.Spelling

/-! Where a line can be cut. Only a quoted text goes on over a blank or a quote. Every other piece ends in front of them as it
does at the end of the line, so that what is in front of such a place has the same pieces whatever follows. -/
namespace LiveDiagram.Token

variable {text rest : List Char} {c : Char}

/-- Whether a line may be cut in front of these characters: they begin with a blank or a quote, or there are none. -/
def Apart (rest : List Char) : Prop :=
  ∀ c ∈ rest.head?, isBlank c = true ∨ c = '"'

theorem Parted.apart (parted : Parted rest) : Apart rest :=
  fun c head => .inl (parted c head)

theorem apart_quote : Apart ('"' :: rest) := by
  intro c head
  exact .inr (Option.some.inj head).symm

theorem Apart.not_connector (apart : Apart rest) : ∀ c ∈ rest.head?, Connector.isCharacter c = false := by
  intro c head
  rcases apart c head with blank | rfl
  · exact not_connector_of_isBlank blank
  · decide

theorem Apart.not_isIdChar (apart : Apart rest) : ∀ c ∈ rest.head?, isIdChar c = false := by
  intro c head
  rcases apart c head with blank | rfl
  · exact not_isIdChar_of_isBlank blank
  · decide

/-- A place where a line may be cut is one where a connector may end, as it may at the end of the line. -/
theorem Apart.endsConnector_append (apart : Apart rest) (text : List Char) :
    endsConnector (text ++ rest) = endsConnector text := by
  cases text with
  | cons c text => rfl
  | nil =>
    cases rest with
    | nil => rfl
    | cons c rest =>
      rcases apart c rfl with blank | rfl
      · simp only [List.nil_append, endsConnector, blank, Bool.true_or]
      · rfl

theorem Apart.connectorPiece? (apart : Apart rest) (c : Char) (text : List Char) :
    connectorPiece? (c :: (text ++ rest)) = connectorPiece? (c :: text) := by
  have run := takeWhile_of_stop (c :: text) apart.not_connector
  have arrow : (decide ((c :: (text ++ rest)).take 2 = ['-', '>']) && endsConnector ((c :: (text ++ rest)).drop 2)) =
      (decide ((c :: text).take 2 = ['-', '>']) && endsConnector ((c :: text).drop 2)) := by
    cases text with
    | cons d text => simp [apart.endsConnector_append]
    | nil =>
      cases rest with
      | nil => rfl
      | cons d rest =>
        have other : d ≠ '>' := by
          rintro rfl
          rcases apart '>' rfl with blank | quote
          · cases blank
          · cases quote
        simp [other]
  rw [List.cons_append] at run
  unfold Token.connectorPiece?
  simp only [run.1, run.2, apart.endsConnector_append, arrow]

/-- A piece that is no quoted text does not go on behind a place where the line may be cut. -/
theorem Apart.piece (apart : Apart rest) (plain : c ≠ '"') : piece c (text ++ rest) = piece c text := by
  unfold Token.piece
  rw [apart.connectorPiece?, (takeWhile_of_stop text apart.not_isIdChar).1, if_neg plain, if_neg plain]

/-! Quoted texts -/

/-- A quoted text ends with its closing quote. -/
theorem quoted_append (closed : (quoted text).2.2 = false) (rest : List Char) : quoted (text ++ rest) = quoted text := by
  induction text using quoted.induct with
  | case1 => cases closed
  | case2 => rfl
  | case3 c text value used unclosed same ih =>
    rw [quoted] at closed
    rw [List.cons_append, List.cons_append, quoted, quoted, ih closed]
  | case4 c text quote escape value used unclosed same ih =>
    by_cases plain : c = '\\'
    · subst plain
      cases text with
      | nil => cases closed
      | cons d text => exact (escape d text rfl rfl).elim
    · rw [quoted_cons quote (.inl plain)] at closed
      rw [List.cons_append, quoted_cons quote (.inl plain), quoted_cons quote (.inl plain), ih closed]

/-! Lines -/

/-- A line is cut in front of a place where it may be, if all its quotes are closed there. -/
theorem pieces_append (closed : Closed text) (apart : Apart rest) (column : Nat) :
    pieces column (text ++ rest) = pieces column text ++ pieces (column + text.length) rest := by
  induction column, text using pieces.induct with
  | case1 column => simp [pieces]
  | case2 column c text first ih =>
    obtain ⟨own, later⟩ := closed_cons.1 closed
    have same : piece c (text ++ rest) = piece c text := by
      by_cases quote : c = '"'
      · subst quote
        exact congrArg (fun x => Piece.mk (some (.string, x.1)) x.2.1 x.2.2) (quoted_append own rest)
      · exact apart.piece quote
    have inside : first.more ≤ text.length := more_le c text
    rw [List.cons_append, pieces, pieces, same, List.drop_append_of_le_length inside, ih later, List.length_drop,
      List.length_cons, List.cons_append]
    congr 3
    omega

end LiveDiagram.Token
