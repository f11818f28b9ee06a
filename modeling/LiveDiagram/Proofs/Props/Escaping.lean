import LiveDiagram.Props.Codec

/-! Escapes on one line. Where the separators in a text are escaped, splitting and cutting pass over it, and taking the
escapes away gives the text back. -/
namespace LiveDiagram

namespace Text
variable {text rest : List Char} {c : Char}

/-- What holds of all characters of a text is decided on the text, not on all characters that there are. -/
instance decidableForallChar (p : Char → Prop) [DecidablePred p] (text : List Char) : Decidable (∀ c ∈ text, p c) :=
  List.decidableBAll p text

instance decidableForallCharOf (p : Char → Prop) [DecidablePred p] (c? : Option Char) : Decidable (∀ c ∈ c?, p c) :=
  Option.decidableForallMem c?

/-- A text without blanks at its ends. -/
def Trimmed (text : List Char) : Prop :=
  (∀ c ∈ text.head?, isBlank c = false) ∧ ∀ c ∈ text.getLast?, isBlank c = false

theorem dropWhile_of_head (proper : ∀ c ∈ text.head?, isBlank c = false) : text.dropWhile isBlank = text := by
  cases text with
  | nil => rfl
  | cons c text => rw [List.dropWhile_cons, proper c rfl, if_neg Bool.false_ne_true]

theorem head?_dropWhile (text : List Char) : ∀ c ∈ (text.dropWhile isBlank).head?, isBlank c = false := by
  induction text with
  | nil => simp
  | cons x text ih =>
    rw [List.dropWhile_cons]
    cases blank : isBlank x with
    | true => exact ih
    | false =>
      intro c head
      cases Option.some.inj head
      exact blank

/-- Trimming leaves exactly the texts without blanks at their ends as they are. -/
theorem trim_eq_iff : trim text = text ↔ Trimmed text := by
  constructor
  · intro same
    have last : ∀ c ∈ text.getLast?, isBlank c = false := by
      rw [← same, trim, List.getLast?_reverse]
      exact head?_dropWhile _
    refine ⟨?_, last⟩
    have back : text.reverse.dropWhile isBlank = text.reverse :=
      dropWhile_of_head (by rw [List.head?_reverse]; exact last)
    -- a text that lost blanks in front would be shorter now
    have short : (trim text).length ≤ (text.dropWhile isBlank).length := by
      rw [trim, List.length_reverse]
      exact Nat.le_trans (List.dropWhile_sublist _).length_le (by simp)
    have front : text.dropWhile isBlank = text := by
      apply (List.dropWhile_sublist isBlank).eq_of_length_le
      rw [same] at short
      exact short
    rw [← front]
    exact head?_dropWhile text
  · intro ⟨first, last⟩
    have back : text.reverse.dropWhile isBlank = text.reverse :=
      dropWhile_of_head (by rw [List.head?_reverse]; exact last)
    rw [trim, dropWhile_of_head first, back, List.reverse_reverse]

/-- A text keeps a good front and a good end when more stands between. -/
theorem Trimmed.append {front back : List Char} (nonempty : front ≠ []) (nonempty' : back ≠ [])
    (first : ∀ c ∈ front.head?, isBlank c = false) (last : ∀ c ∈ back.getLast?, isBlank c = false) :
    Trimmed (front ++ back) := by
  constructor
  · cases front with
    | nil => exact (nonempty rfl).elim
    | cons c front => exact first
  · cases ending : back.getLast? with
    | none => exact (nonempty' (List.getLast?_eq_none_iff.1 ending)).elim
    | some x => simpa [List.getLast?_append, ending] using last

end Text

namespace Codec
variable {separator : Char} {text rest : List Char}

/-- A text without a bare separator and without an unfinished escape. -/
inductive Sealed (separator : Char) : List Char → Prop
  | nil : Sealed separator []
  | escape (c : Char) {rest : List Char} : Sealed separator rest → Sealed separator ('\\' :: c :: rest)
  | plain {c : Char} {rest : List Char} : c ≠ '\\' → c ≠ separator → Sealed separator rest →
      Sealed separator (c :: rest)

namespace Sealed

theorem append (front : Sealed separator text) (back : Sealed separator rest) : Sealed separator (text ++ rest) := by
  induction front with
  | nil => exact back
  | escape c _ ih => exact .escape c ih
  | plain backslash other _ ih => exact .plain backslash other ih

theorem of_plain (plain : ∀ c ∈ text, c ≠ '\\' ∧ c ≠ separator) : Sealed separator text := by
  induction text with
  | nil => exact .nil
  | cons c text ih =>
    obtain ⟨backslash, other⟩ := plain c List.mem_cons_self
    exact .plain backslash other (ih fun x member => plain x (List.mem_cons_of_mem c member))

end Sealed

theorem split_ne_nil : split separator text ≠ [] := by
  unfold split
  split
  · simp
  · unfold extend
    split <;> simp
  · split
    · simp
    · unfold extend
      split <;> simp

theorem extend_extend {front more : List Char} {pieces : List (List Char)} :
    extend front (extend more pieces) = extend (front ++ more) pieces := by
  cases pieces with
  | nil => rfl
  | cons piece pieces => simp [extend]

theorem extend_nil {pieces : List (List Char)} (nonempty : pieces ≠ []) : extend [] pieces = pieces := by
  cases pieces with
  | nil => exact (nonempty rfl).elim
  | cons piece pieces => rfl

theorem split_plain {c : Char} (backslash : c ≠ '\\') (other : c ≠ separator) :
    split separator (c :: rest) = extend [c] (split separator rest) := by
  rw [split]
  · exact if_neg other
  · intro _ _ same
    exact (backslash same).elim

/-- Splitting passes over a sealed text. -/
theorem split_append (front : Sealed separator text) (rest : List Char) :
    split separator (text ++ rest) = extend text (split separator rest) := by
  induction front with
  | nil => exact (extend_nil split_ne_nil).symm
  | escape c _ ih =>
    rw [List.cons_append, List.cons_append, split, ih, extend_extend]
    rfl
  | plain backslash other _ ih =>
    rw [List.cons_append, split_plain backslash other, ih, extend_extend]
    rfl

theorem split_separator (proper : separator ≠ '\\') :
    split separator (separator :: rest) = [] :: split separator rest := by
  rw [split]
  · exact if_pos rfl
  · intro _ _ same
    exact (proper same).elim

/-- Sealed parts with separators between them are what splitting gives. -/
theorem split_intercalate (proper : separator ≠ '\\') {parts : List (List Char)} (nonempty : parts ≠ [])
    (all : ∀ part ∈ parts, Sealed separator part) : split separator ([separator].intercalate parts) = parts := by
  induction parts with
  | nil => exact (nonempty rfl).elim
  | cons part more ih =>
    have own := all part List.mem_cons_self
    cases more with
    | nil =>
      have alone := split_append own []
      rw [List.append_nil] at alone
      rw [List.intercalate_singleton, alone]
      simp [split, extend]
    | cons other more =>
      have later := ih (List.cons_ne_nil _ _) fun x member => all x (List.mem_cons_of_mem part member)
      rw [List.intercalate_cons_cons, List.append_assoc, split_append own _, List.cons_append, List.nil_append,
        split_separator proper, later]
      simp [extend]

/-- Cutting at the first separator behind a sealed text. -/
theorem cut_append (proper : separator ≠ '\\') (front : Sealed separator text) :
    cut separator (text ++ separator :: rest) = (text, some rest) := by
  induction front with
  | nil =>
    rw [List.nil_append, cut]
    · exact if_pos rfl
    · intro _ _ same
      exact (proper same).elim
  | escape c _ ih => rw [List.cons_append, List.cons_append, cut, ih]
  | plain backslash other _ ih =>
    rw [List.cons_append, cut, if_neg other, ih]
    intro _ _ same
    exact (backslash same).elim

/-! Escaped texts -/

theorem escape_cons (c : Char) (text : List Char) :
    escape (c :: text) = (if c = '\\' ∨ c = ';' ∨ c = '=' then ['\\', c] else [c]) ++ escape text := by
  simp [escape, or_assoc]

theorem sealed_escape (special : separator = ';' ∨ separator = '=') (text : List Char) :
    Sealed separator (escape text) := by
  induction text with
  | nil => exact .nil
  | cons c text ih =>
    rw [escape_cons]
    split
    · exact .escape c ih
    · next ordinary =>
      rw [not_or, not_or] at ordinary
      refine .plain ordinary.1 ?_ ih
      rcases special with rfl | rfl
      · exact ordinary.2.1
      · exact ordinary.2.2

/-- Taking escapes away gives an escaped text back. -/
theorem unescape_append (text rest : List Char) : unescape (escape text ++ rest) = text ++ unescape rest := by
  induction text with
  | nil => rfl
  | cons c text ih =>
    rw [escape_cons, List.append_assoc]
    split
    · rw [List.cons_append, List.cons_append, List.nil_append, unescape, ih]
      rfl
    · next ordinary =>
      rw [not_or] at ordinary
      rw [List.cons_append, List.nil_append, unescape, ih]
      · rfl
      · intro _ _ same
        exact (ordinary.1 same).elim

theorem unescape_escape (text : List Char) : unescape (escape text) = text := by
  simpa [unescape] using unescape_append text []

theorem escape_ne_nil (nonempty : text ≠ []) : escape text ≠ [] := by
  cases text with
  | nil => exact (nonempty rfl).elim
  | cons c text =>
    rw [escape_cons]
    split <;> simp

open Text (Trimmed)

theorem head?_escape (proper : ∀ c ∈ text.head?, Text.isBlank c = false) :
    ∀ c ∈ (escape text).head?, Text.isBlank c = false := by
  cases text with
  | nil => exact proper
  | cons x text =>
    rw [escape_cons]
    split
    · intro c head
      cases Option.some.inj head
      decide
    · intro c head
      cases Option.some.inj head
      exact proper _ rfl

theorem getLast?_escape (text : List Char) : (escape text).getLast? = text.getLast? := by
  induction text with
  | nil => rfl
  | cons c text ih =>
    rw [escape_cons, List.getLast?_append, ih]
    cases last : text.getLast? with
    | none =>
      rw [List.getLast?_eq_none_iff.1 last]
      split <;> rfl
    | some x =>
      rw [List.getLast?_cons]
      simp [last]

theorem trimmed_escape (trimmed : Trimmed text) : Trimmed (escape text) :=
  ⟨head?_escape trimmed.1, getLast?_escape text ▸ trimmed.2⟩

end Codec
end LiveDiagram
