import LiveDiagram.Proofs.Number.Written
import LiveDiagram.Proofs.Props.Escaping
import LiveDiagram.Proofs.Props.Tidy
import Mathlib.Data.List.TakeWhile

/-! Props and metadata read back from their line. Each entry assigns the scalar of one leaf to its path, and setting the
leaves one after the other builds the dictionary again. -/
namespace LiveDiagram

namespace Text
variable {c : Char}

theorem range_of_isDigit (digit : c.isDigit = true) : 48 ≤ c.toNat ∧ c.toNat < 58 := by
  simp only [Char.isDigit, Bool.and_eq_true, decide_eq_true_eq, ge_iff_le, UInt32.le_iff_toNat_le] at digit
  exact ⟨digit.1, Nat.lt_succ_of_le digit.2⟩

theorem not_isBlank_of_isDigit (digit : c.isDigit = true) : isBlank c = false := by
  have all : ∀ n < 58, 48 ≤ n → within blankBoundaries n = false := by decide
  obtain ⟨above, below⟩ := range_of_isDigit digit
  exact all c.toNat below above

theorem digitValue?_of_isDigit (digit : c.isDigit = true) : digitValue? c = some (c.toNat - '0'.toNat) := by
  have range := range_of_isDigit digit
  have first : (decide (48 ≤ c.toNat) && decide (c.toNat < 48 + 10)) = true := by
    simp only [Bool.and_eq_true, decide_eq_true_eq]
    exact range
  have zeros : digitZeros = 48 :: digitZeros.tail := rfl
  rw [digitValue?, zeros, List.find?_cons, first]
  rfl

theorem isDigit_of_isDigit (digit : c.isDigit = true) : isDigit c = true := by
  rw [isDigit, digitValue?_of_isDigit digit]
  rfl

theorem digitsValue_eq {digits : List Char} (all : ∀ c ∈ digits, c.isDigit = true) :
    digitsValue digits = Nat.ofDigitChars 10 digits 0 := by
  have general : ∀ (text : List Char) (start : Nat), (∀ c ∈ text, c.isDigit = true) →
      text.foldl (fun value c => 10 * value + (digitValue? c).getD 0) start = Nat.ofDigitChars 10 text start := by
    intro text
    induction text with
    | nil => exact fun _ _ => rfl
    | cons c text ih =>
      intro start all
      rw [List.foldl_cons, digitValue?_of_isDigit (all c List.mem_cons_self), Nat.ofDigitChars_cons]
      exact ih _ fun x member => all x (List.mem_cons_of_mem c member)
  exact general digits 0 all

/-- The digits of a number write it. -/
theorem digitsValue_toDigits (n : Nat) : digitsValue (Nat.toDigits 10 n) = n :=
  (digitsValue_eq fun _ member => Nat.isDigit_of_mem_toDigits (by decide) (by decide) member).trans
    Nat.ofDigitChars_ten_toDigits

end Text

namespace Numeral
open Text

/-- Digits alone, perhaps behind a minus sign, are a whole number. -/
theorem read?_digits {digits : List Char} (nonempty : digits ≠ []) (all : ∀ c ∈ digits, isDigit c = true) :
    read? digits = some ⟨false, digits, none, none⟩ ∧ read? ('-' :: digits) = some ⟨true, digits, none, none⟩ := by
  have whole : digits.takeWhile isDigit = digits := by
    rw [List.takeWhile_eq_self_iff]
    exact all
  have left : digits.dropWhile isDigit = [] := by
    rw [List.dropWhile_eq_nil_iff]
    exact all
  have there : digits.isEmpty = false := List.isEmpty_eq_false_iff.2 nonempty
  constructor
  · unfold read?
    split
    next negative unsigned same =>
    split at same
    · exact absurd (all '-' List.mem_cons_self) (by decide)
    · cases same
      simp only [whole, left, there, readExponent?, Option.map_some, Bool.false_eq_true, if_false]
  · unfold read?
    simp only [whole, left, there, readExponent?, Option.map_some, Bool.false_eq_true, if_false]

end Numeral

namespace Scalar

/-- Scalars that an entry of a props line can say: truth values, whole numbers and texts without blanks at their
ends, none with more digits than a whole number may have. -/
def Codable : Scalar → Prop
  | .bool _ => True
  | .int n => (Nat.toDigits 10 n.natAbs).length ≤ Fault.digitLimit
  | .text s => Text.trim s.toList = s.toList ∧
      ∀ n, Numeral.read? s.toList = some n → n.isInteger = true → n.whole.length ≤ Fault.digitLimit
  | .null | .float _ => False

end Scalar

namespace Codec
open Text (Trimmed)

/-- What an entry value stands for. -/
def meaning (value : List Char) (escaped : Bool) : Except Fault Scalar :=
  if escaped then .ok (.text (String.ofList value)) else scalarOf value

/-- A written value that stands for a scalar wherever an entry ends with it. -/
structure Denotes (value : List Char) (s : Scalar) : Prop where
  closed : Sealed ';' value
  trimmed : Trimmed value
  means : meaning (unescape value) (hasEscape value) = .ok s

theorem bare {value : List Char} (plain : ∀ c ∈ value, c ≠ '\\') : unescape value = value ∧ hasEscape value = false := by
  induction value with
  | nil => exact ⟨rfl, rfl⟩
  | cons c value ih =>
    have own := plain c List.mem_cons_self
    obtain ⟨same, none⟩ := ih fun x member => plain x (List.mem_cons_of_mem c member)
    constructor
    · rw [unescape, same]
      intro _ _ equal
      exact (own equal).elim
    · rw [hasEscape, none]
      intro _ _ equal
      exact (own equal).elim

/-- A whole number reads back from its digits, with or without a minus sign. -/
theorem scalarOf_digits {digits : List Char} (nonempty : digits ≠ []) (all : ∀ c ∈ digits, c.isDigit = true)
    (short : digits.length ≤ Fault.digitLimit) :
    scalarOf digits = .ok (.int (Text.digitsValue digits)) ∧
      scalarOf ('-' :: digits) = .ok (.int (-(Text.digitsValue digits : Int))) := by
  obtain ⟨positive, negative⟩ :=
    Numeral.read?_digits nonempty fun c member => Text.isDigit_of_isDigit (all c member)
  have letter {c : Char} {rest : List Char} (other : c.isDigit = false) : digits ≠ c :: rest := by
    rintro rfl
    rw [all c List.mem_cons_self] at other
    cases other
  have fits : ¬Fault.digitLimit < digits.length := Nat.not_lt.2 short
  constructor
  · unfold scalarOf
    rw [if_neg (letter rfl), if_neg (letter rfl), positive]
    simp only [Numeral.isInteger, Option.isNone_none, Bool.and_self, if_true, fits, if_false]
    rfl
  · unfold scalarOf
    rw [if_neg (by simp), if_neg (by simp), negative]
    simp only [Numeral.isInteger, Option.isNone_none, Bool.and_self, if_true, fits, if_false]
    rfl

theorem toList_plain_int (n : Int) : (Scalar.int n).plain.toList =
    if 0 ≤ n then Nat.toDigits 10 n.natAbs else '-' :: Nat.toDigits 10 n.natAbs := by
  change (n.repr).toList = _
  rw [Int.repr_eq_if]
  split
  · have same : n.toNat = n.natAbs := by omega
    rw [Nat.toList_repr, same]
  · have same : (-n).toNat = n.natAbs := by omega
    rw [String.toList_append, Nat.toList_repr, same]
    rfl

/-- A value with only characters of numbers stands for what it is read as. -/
theorem denotes_inked {value : List Char} {s : Scalar} (inked : ∀ c ∈ value, Binary64.Inked c) (read : scalarOf value = .ok s) :
    Denotes value s := by
  have marks : ∀ c ∈ ['.', 'e', '+', '-', 'i', 'n', 'f', 'a'], Text.isBlank c = false ∧ c ≠ '\\' ∧ c ≠ ';' := by decide
  have solid (c : Char) (member : c ∈ value) : Text.isBlank c = false ∧ c ≠ '\\' ∧ c ≠ ';' := by
    rcases inked c member with digit | mark
    · refine ⟨Text.not_isBlank_of_isDigit digit, ?_, ?_⟩ <;> rintro rfl <;> cases digit
    · exact marks c mark
  obtain ⟨same, escapes⟩ := bare fun c member => (solid c member).2.1
  refine ⟨.of_plain fun c member => (solid c member).2, ⟨fun c head => ?_, fun c last => ?_⟩, ?_⟩
  · exact (solid c (List.mem_of_mem_head? head)).1
  · exact (solid c (List.mem_of_mem_getLast? last)).1
  · rw [meaning, same, escapes, if_neg Bool.false_ne_true, read]

theorem denotes_int {n : Int} (short : (Nat.toDigits 10 n.natAbs).length ≤ Fault.digitLimit) :
    Denotes (Scalar.int n).plain.toList (.int n) := by
  have digits (c : Char) (member : c ∈ Nat.toDigits 10 n.natAbs) : c.isDigit = true :=
    Nat.isDigit_of_mem_toDigits (by decide) (by decide) member
  obtain ⟨positive, negative⟩ := scalarOf_digits Nat.toDigits_ne_nil digits short
  rw [Text.digitsValue_toDigits] at positive negative
  rw [toList_plain_int]
  split
  · next above =>
    have same : (n.natAbs : Int) = n := by omega
    rw [same] at positive
    exact denotes_inked (fun c member => .inl (digits c member)) positive
  · next below =>
    have same : -(n.natAbs : Int) = n := by omega
    rw [same] at negative
    exact denotes_inked (List.forall_mem_cons.2 ⟨.inr (by decide), fun c member => .inl (digits c member)⟩) negative

theorem denotes_bool (b : Bool) : Denotes (if b then ['t', 'r', 'u', 'e'] else ['f', 'a', 'l', 's', 'e']) (.bool b) := by
  cases b
  · exact ⟨.of_plain (by decide), by unfold Trimmed; decide, rfl⟩
  · exact ⟨.of_plain (by decide), by unfold Trimmed; decide, rfl⟩

theorem scalarOf_text {value : List Char} {s : String} (read : scalarOf value = .ok (.text s)) :
    s = String.ofList value := by
  unfold scalarOf at read
  split at read
  · cases read
  split at read
  · cases read
  split at read
  · split at read
    · split at read
      · cases read
      · cases read
    · split at read
      · cases read
      · cases read
        rfl
  · cases read
    rfl

/-- Only a whole number with too many digits cannot be read. -/
theorem exists_scalarOf {value : List Char}
    (short : ∀ n, Numeral.read? value = some n → n.isInteger = true → n.whole.length ≤ Fault.digitLimit) :
    ∃ s, scalarOf value = .ok s := by
  unfold scalarOf
  split
  · exact ⟨_, rfl⟩
  split
  · exact ⟨_, rfl⟩
  split
  · next n read =>
    split
    · next integer =>
      rw [if_neg (Nat.not_lt.2 (short n read integer))]
      exact ⟨_, rfl⟩
    · split
      · exact ⟨_, rfl⟩
      · exact ⟨_, rfl⟩
  · exact ⟨_, rfl⟩

theorem exists_scalarOf_text (x : Binary64) : ∃ s, scalarOf x.text.toList = .ok s := by
  refine exists_scalarOf fun n read integer => ?_
  rw [x.not_isInteger_text read] at integer
  cases integer

/-- A binary number is written as something that can be read. -/
theorem denotes_float (x : Binary64) : ∃ s, Denotes (Scalar.float x).plain.toList s := by
  obtain ⟨s, read⟩ := exists_scalarOf_text x
  exact ⟨s, denotes_inked x.inked_text.1 read⟩

theorem hasEscape_of_head? {text : List Char} (head : (escape text).head? = some '\\') :
    hasEscape (escape text) = true := by
  cases text with
  | nil => cases head
  | cons c text =>
    rw [escape_cons] at head ⊢
    split at head
    · next special =>
      rw [if_pos special]
      rfl
    · next ordinary =>
      exact (ordinary (.inl (Option.some.inj head))).elim

/-- A text whose first character is written with an escape. -/
theorem denotes_escaped {s : String} (ended : ∀ c ∈ s.toList.getLast?, Text.isBlank c = false) (nonempty : s.toList ≠ [])
    (ordinary : (escape s.toList).head? ≠ some '\\') : Denotes ('\\' :: escape s.toList) (.text s) := by
  cases split : s.toList with
  | nil => exact (nonempty split).elim
  | cons c rest =>
    have shape : escape (c :: rest) = c :: escape rest := by
      rw [split, escape_cons] at ordinary
      rw [escape_cons]
      split at ordinary
      · exact (ordinary rfl).elim
      · next proper => rw [if_neg proper]; rfl
    refine ⟨?_, ⟨?_, ?_⟩, ?_⟩
    · rw [shape]
      exact .escape c (sealed_escape (.inl rfl) rest)
    · intro x head
      cases Option.some.inj head
      decide
    · have last : ('\\' :: escape (c :: rest)).getLast? = s.toList.getLast? := by
        rw [List.getLast?_cons_of_ne_nil (escape_ne_nil (List.cons_ne_nil c rest)), getLast?_escape, split]
      rw [last]
      exact ended
    · have escapes : hasEscape ('\\' :: c :: escape rest) = true := rfl
      rw [shape, unescape, unescape_escape, ← split, meaning, escapes, if_pos rfl, String.ofList_toList]

/-- A text is written as it is, or with an escape in front where it would read as something else. -/
theorem written_text_cases {s : String} {value : List Char} (wrote : written true (.text s) = .ok value) :
    (value = escape s.toList ∧ (hasEscape (escape s.toList) = false → scalarOf s.toList = .ok (.text s))) ∨
      (value = '\\' :: escape s.toList ∧ s.toList ≠ [] ∧ (escape s.toList).head? ≠ some '\\') := by
  unfold written at wrote
  dsimp only at wrote
  split at wrote
  · next condition =>
    simp only [Bool.true_and, Bool.and_eq_true, Bool.not_eq_true', bne_iff_ne] at condition
    have nonempty : s.toList ≠ [] := by
      intro empty
      rw [String.toList_eq_nil_iff.1 empty] at condition
      cases condition.1
    cases read : scalarOf s.toList with
    | error fault =>
      rw [read] at wrote
      cases wrote
    | ok meant =>
      rw [read] at wrote
      cases meant with
      | text t =>
        cases wrote
        have same : t = s := (scalarOf_text read).trans String.ofList_toList
        exact .inl ⟨rfl, fun _ => same ▸ rfl⟩
      | null | bool | int | float =>
        cases wrote
        exact .inr ⟨rfl, nonempty, condition.2⟩
  · next condition =>
    cases wrote
    refine .inl ⟨rfl, fun bare => ?_⟩
    simp only [Bool.true_and, Bool.and_eq_true, Bool.not_eq_true', bne_iff_ne, not_and, Decidable.not_not] at condition
    cases empty : s.isEmpty with
    | true =>
      rw [String.isEmpty_iff.1 empty]
      rfl
    | false =>
      rw [hasEscape_of_head? (condition empty)] at bare
      cases bare

theorem denotes_written {s : String} {value : List Char} (trimmed : Trimmed s.toList)
    (wrote : written true (.text s) = .ok value) : Denotes value (.text s) := by
  rcases written_text_cases wrote with ⟨rfl, means⟩ | ⟨rfl, nonempty, ordinary⟩
  · refine ⟨sealed_escape (.inl rfl) _, trimmed_escape trimmed, ?_⟩
    rw [unescape_escape, meaning]
    cases bare : hasEscape (escape s.toList) with
    | true => rw [if_pos rfl, String.ofList_toList]
    | false => exact means bare
  · exact denotes_escaped trimmed.2 nonempty ordinary

theorem denotes_text {s : String} (codable : (Scalar.text s).Codable) :
    ∃ value, written true (.text s) = .ok value ∧ Denotes value (.text s) := by
  obtain ⟨meant, read⟩ := exists_scalarOf codable.2
  obtain ⟨value, wrote⟩ : ∃ value, written true (.text s) = .ok value := by
    unfold written
    dsimp only
    rw [read]
    split
    · cases meant <;> exact ⟨_, rfl⟩
    · exact ⟨_, rfl⟩
  exact ⟨value, wrote, denotes_written (Text.trim_eq_iff.1 codable.1) wrote⟩

/-- Nothing is read as null. -/
theorem scalarOf_ne_null {value : List Char} : scalarOf value ≠ .ok .null := by
  intro read
  unfold scalarOf at read
  split at read
  · cases read
  split at read
  · cases read
  split at read
  · split at read
    · split at read <;> cases read
    · split at read <;> cases read
  · cases read

theorem Denotes.ne_null {value : List Char} {s : Scalar} (denotes : Denotes value s) : s ≠ .null := by
  rintro rfl
  have means := denotes.means
  unfold meaning at means
  split at means
  · cases means
  · exact scalarOf_ne_null means

end Codec
end LiveDiagram
