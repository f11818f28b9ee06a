import LiveDiagram.Proofs.Document.Restated

/-! Lines of props that can be read. All that a line is made of can be read, whatever it means, but for texts with blanks in
front of a whole number that has too many digits: the blanks are written without an escape, and what is read is the
number. -/
namespace LiveDiagram

namespace Text
variable {text rest : List Char} {c : Char}

/-- A text keeps its end when blanks are dropped in front of it. -/
theorem trim_of_ended (ended : Ended text) : trim text = text.dropWhile isBlank := by
  have last : Ended (text.dropWhile isBlank) := by
    intro c last
    refine ended c ?_
    obtain ⟨front, split⟩ := List.dropWhile_suffix isBlank (l := text)
    rw [← split, List.getLast?_append, last]
    rfl
  rw [trim, dropWhile_of_head, List.reverse_reverse]
  rwa [List.head?_reverse]

theorem dropWhile_append_cons (solid : isBlank c = false) :
    (text ++ c :: rest).dropWhile isBlank = text.dropWhile isBlank ++ c :: rest := by
  rw [List.dropWhile_append]
  split
  · next empty => rw [List.isEmpty_iff.1 empty, List.dropWhile_cons, solid, if_neg Bool.false_ne_true, List.nil_append]
  · rfl

end Text

namespace Codec
open Text (Ended)
variable {front text value part : List Char} {target : List String} {s : Scalar}

theorem dropWhile_escape (text : List Char) : (escape text).dropWhile Text.isBlank = escape (text.dropWhile Text.isBlank) := by
  induction text with
  | nil => rfl
  | cons c text ih =>
    cases blank : Text.isBlank c with
    | true =>
      have ordinary : ¬(c = '\\' ∨ c = ';' ∨ c = '=') := by
        rintro (rfl | rfl | rfl) <;> cases blank
      rw [escape_cons, if_neg ordinary, List.cons_append, List.nil_append, List.dropWhile_cons_of_pos blank,
        List.dropWhile_cons_of_pos blank, ih]
    | false =>
      have solid : ∀ x ∈ (c :: text).head?, Text.isBlank x = false := by
        rintro x ⟨⟩
        exact blank
      rw [Text.dropWhile_of_head (head?_escape solid), Text.dropWhile_of_head solid]

theorem ended_escape (ended : Ended text) : Ended (escape text) := by
  rw [Ended, getLast?_escape]
  exact ended

/-- What is read where a value is written. -/
def reread (value : List Char) : Except Fault Scalar :=
  meaning (unescape (Text.trim value)) (hasEscape (Text.trim value))

theorem Denotes.reread (denotes : Denotes value s) : Codec.reread value = .ok s := by
  rw [Codec.reread, Text.trim_eq_iff.2 denotes.trimmed]
  exact denotes.means

/-- What stands behind the first equals sign of a part is its value, and what stands before it, without the blanks in front,
is its key. -/
theorem entry?_written (ended : Ended front) (ended' : Ended value) :
    entry? (escape front ++ '=' :: value) = some (if (front.dropWhile Text.isBlank).isEmpty
      then .malformed (escape (front.dropWhile Text.isBlank) ++ '=' :: value)
      else .pair (front.dropWhile Text.isBlank) (unescape (Text.trim value)) (hasEscape (Text.trim value))) := by
  have whole : Text.trim (escape front ++ '=' :: value) = escape (front.dropWhile Text.isBlank) ++ '=' :: value := by
    rw [Text.trim_of_ended, Text.dropWhile_append_cons (by decide), dropWhile_escape]
    intro c last
    rw [List.getLast?_append, List.getLast?_cons] at last
    cases ending : value.getLast? with
    | none =>
      rw [ending] at last
      cases Option.some.inj last
      decide
    | some x =>
      rw [ending] at last
      cases Option.some.inj last
      exact ended' x ending
  have filled : (escape (front.dropWhile Text.isBlank) ++ '=' :: value).isEmpty = false :=
    List.isEmpty_eq_false_iff.2 (List.append_ne_nil_of_right_ne_nil _ (List.cons_ne_nil _ _))
  have parts : cut '=' (escape (front.dropWhile Text.isBlank) ++ '=' :: value) =
      (escape (front.dropWhile Text.isBlank), some value) := cut_append (by decide) (sealed_escape (.inr rfl) _)
  have key : Text.trim (escape (front.dropWhile Text.isBlank)) = escape (front.dropWhile Text.isBlank) := by
    rw [← Text.trim_of_ended ended]
    exact Text.trim_eq_iff.2 (trimmed_escape (Text.trimmed_trim front))
  have none : (escape (front.dropWhile Text.isBlank)).isEmpty = (front.dropWhile Text.isBlank).isEmpty := by
    cases split : front.dropWhile Text.isBlank with
    | nil => rfl
    | cons c rest => exact List.isEmpty_eq_false_iff.2 (escape_ne_nil (List.cons_ne_nil c rest))
  unfold entry?
  simp only [whole, filled, parts, key, none, unescape_escape, Bool.false_eq_true, if_false]
  split <;> rfl

theorem enter_pair {p : Props} {key value : List Char} {escaped : Bool} : p.enter (.pair key value escaped) =
    if (path key).any (·.isEmpty) then .ok p
    else (meaning value escaped).map (p.setPath ((path key).map String.ofList)) := by
  unfold Props.enter meaning
  cases escaped <;> rfl

/-- A part that is written for a scalar at the end of a path. -/
inductive Writes : List Char → List String → Scalar → Prop
  | part {front : List String} {key : String} {s : Scalar} {value : List Char} (segments : ∀ k ∈ front, Segment k)
      (own : Segment key) (ended : Ended key.toList) (heard : s.Heard) (wrote : written true s = .ok value) :
      Writes (escape (dotted front ++ key.toList) ++ '=' :: value) (front ++ [key]) s

end Codec

/-! Scalars and dictionaries -/

/-- Texts that are no whole number with too many digits when blanks around them are dropped. -/
def Scalar.Brief : Scalar → Prop
  | .text s => ∀ n, Numeral.read? (Text.trim s.toList) = some n → n.isInteger = true → n.whole.length ≤ Fault.digitLimit
  | _ => True

/-- Dictionaries with only such texts. -/
def Props.Brief : Props → Prop
  | nil => True
  | leaf _ value rest => value.Brief ∧ rest.Brief
  | node _ sub rest => sub.Brief ∧ rest.Brief

namespace Scalar
open Codec
variable {s : Scalar} {value : List Char}

theorem sealed_written (heard : s.Heard) (wrote : written true s = .ok value) : Sealed ';' value ∧ Text.Ended value := by
  cases s with
  | null => exact heard.elim
  | bool b =>
    cases wrote
    exact ⟨(denotes_bool b).closed, (denotes_bool b).trimmed.2⟩
  | int n =>
    cases wrote
    exact ⟨(denotes_int heard).closed, (denotes_int heard).trimmed.2⟩
  | float x =>
    cases wrote
    obtain ⟨s, denotes⟩ := denotes_float x
    exact ⟨denotes.closed, denotes.trimmed.2⟩
  | text s =>
    have ended : Text.Ended s.toList := heard
    rcases written_text_cases wrote with ⟨rfl, _⟩ | ⟨rfl, nonempty, ordinary⟩
    · exact ⟨sealed_escape (.inl rfl) _, ended_escape ended⟩
    · have denotes := denotes_escaped ended nonempty ordinary
      exact ⟨denotes.closed, denotes.trimmed.2⟩

/-- What is read where a text is written without an escape in front. -/
theorem reread_escape {text : List Char} (ended : Text.Ended text) :
    reread (escape text) = meaning (Text.trim text) (hasEscape (escape (Text.trim text))) := by
  rw [reread, Text.trim_of_ended (ended_escape ended), dropWhile_escape, ← Text.trim_of_ended ended, unescape_escape]

theorem exists_reread (heard : s.Heard) (brief : s.Brief) (wrote : written true s = .ok value) :
    ∃ s', reread value = .ok s' := by
  cases s with
  | null => exact heard.elim
  | bool b =>
    cases wrote
    exact ⟨_, (denotes_bool b).reread⟩
  | int n =>
    cases wrote
    exact ⟨_, (denotes_int heard).reread⟩
  | float x =>
    cases wrote
    obtain ⟨s, denotes⟩ := denotes_float x
    exact ⟨s, denotes.reread⟩
  | text s =>
    have ended : Text.Ended s.toList := heard
    rcases written_text_cases wrote with ⟨rfl, _⟩ | ⟨rfl, nonempty, ordinary⟩
    · rw [reread_escape ended, meaning]
      split
      · exact ⟨_, rfl⟩
      · exact exists_scalarOf brief
    · exact ⟨_, (denotes_escaped ended nonempty ordinary).reread⟩

end Scalar

namespace Codec
open Text (Ended)
variable {part : List Char} {target : List String} {s : Scalar}

namespace Writes

theorem closed (writes : Writes part target s) : Sealed ';' part := by
  cases writes with
  | part segments own ended heard wrote =>
    exact (sealed_escape (.inl rfl) _).append (.plain (by decide) (by decide) (Scalar.sealed_written heard wrote).1)

/-- The entry of a written part, which sets what is read for the scalar somewhere, or nothing. -/
theorem exists_entry (writes : Writes part target s) : ∃ front key value, target = front ++ [key] ∧
    (∀ k ∈ front, Segment k) ∧ Segment key ∧ s.Heard ∧ written true s = .ok value ∧
    entry? part = some (if ((dotted front ++ key.toList).dropWhile Text.isBlank).isEmpty
      then .malformed (escape ((dotted front ++ key.toList).dropWhile Text.isBlank) ++ '=' :: value)
      else .pair ((dotted front ++ key.toList).dropWhile Text.isBlank) (unescape (Text.trim value))
        (hasEscape (Text.trim value))) := by
  cases writes with
  | @part front key s value segments own ended heard wrote =>
    refine ⟨front, key, value, rfl, segments, own, heard, wrote,
      entry?_written ?_ (Scalar.sealed_written heard wrote).2⟩
    rwa [Ended, List.getLast?_append_of_ne_nil _ own.toList_ne_nil]

theorem exists_enter {entry : Entry} (writes : Writes part target s) (brief : s.Brief) (made : entry? part = some entry)
    (p : Props) : ∃ q, p.enter entry = .ok q := by
  obtain ⟨_, _, value, _, _, _, heard, wrote, same⟩ := writes.exists_entry
  obtain ⟨s', read⟩ := Scalar.exists_reread heard brief wrote
  rw [made, Option.some.injEq] at same
  subst same
  split
  · exact ⟨p, rfl⟩
  · rw [enter_pair]
    split
    · exact ⟨p, rfl⟩
    · rw [show meaning (unescape (Text.trim value)) (hasEscape (Text.trim value)) = .ok s' from read]
      exact ⟨_, rfl⟩

end Writes
end Codec

namespace Props
open Codec
variable {p : Props}

theorem Brief.leaves (brief : p.Brief) : ∀ l ∈ p.leaves, l.2.Brief := by
  induction p with
  | nil => simp [Props.leaves]
  | leaf key s rest ih => exact List.forall_mem_cons.2 ⟨brief.1, ih brief.2⟩
  | node key sub rest below ih => exact forall_leaves_node.2 ⟨below brief.1, ih brief.2⟩

/-- Each leaf has its part in what is written. -/
theorem writes_assignments (front : List String) {parts : List (List Char)} (segments : ∀ key ∈ front, Segment key)
    (heard : p.Heard) (wrote : p.assignments (escape (dotted front)) = .ok parts) :
    List.Forall₂ (fun part l => Writes part (front ++ l.1) l.2) parts p.leaves := by
  induction p generalizing front parts with
  | nil =>
    cases wrote
    exact .nil
  | leaf key s rest ih =>
    obtain ⟨⟨own, ended, scalar⟩, others⟩ := heard
    have present : s ≠ .null := by
      rintro rfl
      exact scalar
    obtain ⟨value, later, written, after, rfl⟩ := exists_of_leaf present wrote
    rw [← escape_append]
    exact .cons (.part segments own ended scalar written) (ih front segments others after)
  | node key sub rest below ih =>
    obtain ⟨⟨own, _, inner⟩, others⟩ := heard
    obtain ⟨first, later, inside, after, rfl⟩ := exists_of_node wrote
    have deeper : ∀ x ∈ front ++ [key], Segment x := by
      intro x member
      rcases List.mem_append.1 member with old | new
      · exact segments x old
      · exact List.mem_singleton.1 new ▸ own
    rw [← dotted_append] at inside
    refine List.rel_append ?_ (ih front segments others after)
    rw [List.forall₂_map_right_iff]
    refine (below _ deeper inner inside).imp fun part l each => ?_
    rwa [List.append_assoc] at each

/-- The line that is written for heard props has a part for each leaf. -/
theorem exists_writes {line : Option String} (heard : p.Heard) (wrote : p.write = .ok line) :
    ∃ parts, List.Forall₂ (fun part l => Writes part l.1 l.2) parts p.leaves ∧
      ((line = none ∧ parts = []) ∨ ∃ text, line = some text ∧ entries text.toList = parts.filterMap entry?) := by
  obtain ⟨parts, assigned, rfl⟩ := exists_of_write wrote
  have each := writes_assignments [] (by simp) heard assigned
  refine ⟨parts, each, ?_⟩
  by_cases empty : parts = []
  · exact .inl ⟨by rw [empty]; rfl, empty⟩
  · exact .inr (entries_joined empty (sealed_of_forall₂ each fun _ _ writes => writes.closed))

theorem exists_foldlM {entries : List Entry} (enters : ∀ entry ∈ entries, ∀ p : Props, ∃ q, p.enter entry = .ok q) :
    ∀ p : Props, ∃ q, entries.foldlM enter p = .ok q := by
  induction entries with
  | nil => exact fun p => ⟨p, rfl⟩
  | cons entry entries ih =>
    intro p
    obtain ⟨q, entered⟩ := enters entry List.mem_cons_self p
    obtain ⟨q', others⟩ := ih (fun x member => enters x (List.mem_cons_of_mem entry member)) q
    exact ⟨q', by rw [List.foldlM_cons, entered]; exact others⟩

/-- The line of brief props can be read. -/
theorem exists_echo {line : Option String} (heard : p.Heard) (brief : p.Brief) (wrote : p.write = .ok line) :
    ∃ echo, p.echo? = .ok echo := by
  unfold echo?
  rw [wrote]
  cases line with
  | none => exact ⟨none, rfl⟩
  | some text =>
    obtain ⟨parts, each, ⟨⟨⟩, _⟩ | ⟨_, ⟨⟩, split⟩⟩ := exists_writes heard wrote
    have enters : ∀ entry ∈ entries text.toList, ∀ p : Props, ∃ q, p.enter entry = .ok q := by
      rw [split]
      intro entry member
      obtain ⟨part, listed, made⟩ := List.mem_filterMap.1 member
      obtain ⟨l, leaf, writes⟩ := exists_of_forall₂ each part listed
      exact writes.exists_enter (brief.leaves l leaf) made
    obtain ⟨q, read⟩ := exists_foldlM enters nil
    exact ⟨some q, by
      change (Props.read text >>= fun q => pure (some q)) = _
      rw [Props.read, read]
      rfl⟩

end Props
end LiveDiagram
