import LiveDiagram.Proofs.Number.Reading
import LiveDiagram.Proofs.Props.Echo
import LiveDiagram.Proofs.Props.Verbatim

/-! Props that are read, written and read again. They are what they were, with their types, where no blank is in front of a
path or a text and no number has a text without a point. -/
namespace LiveDiagram

namespace Text
variable {c : Char}

theorem isDigit_of_isBlank (blank : isBlank c = true) : isDigit c = false := by
  have apart : ∀ first ∈ digitZeros, ∀ n < 10, within blankBoundaries (first + n) = false := by decide +kernel
  unfold isDigit digitValue?
  cases found : digitZeros.find? fun first => first ≤ c.toNat && c.toNat < first + 10 with
  | none => rfl
  | some first =>
    have range := List.find?_some found
    simp only [Bool.and_eq_true, decide_eq_true_eq] at range
    have other := apart first (List.mem_of_find?_eq_some found) (c.toNat - first) (by omega)
    rw [show first + (c.toNat - first) = c.toNat by omega] at other
    exact absurd blank (by rw [isBlank, other]; decide)

end Text

namespace Codec
open Text (isBlank isDigit)
variable {c : Char} {rest : List Char}

theorem read?_blank (blank : isBlank c = true) : Numeral.read? (c :: rest) = none := by
  have other : ¬isDigit c = true := by simp [Text.isDigit_of_isBlank blank]
  unfold Numeral.read?
  split
  next negative unsigned same =>
  split at same
  · next minus =>
    cases minus
    cases blank
  · cases same
    rw [List.takeWhile_cons_of_neg other, List.dropWhile_cons_of_neg other]
    split
    · next point =>
      cases point
      cases blank
    · rfl

/-- A text with a blank in front is read as a text. -/
theorem scalarOf_blank (blank : isBlank c = true) : scalarOf (c :: rest) = .ok (.text (String.ofList (c :: rest))) := by
  unfold scalarOf
  rw [if_neg (by rintro ⟨⟩; cases blank), if_neg (by rintro ⟨⟩; cases blank), read?_blank blank]

theorem written_blank {s : String} (head : s.toList.head? = some c) (blank : isBlank c = true) :
    written true (.text s) = .ok (escape s.toList) := by
  obtain ⟨rest, same⟩ := List.head?_eq_some_iff.1 head
  unfold written
  dsimp only
  rw [same, scalarOf_blank blank]
  split <;> rfl

end Codec

/-! Scalars -/

namespace Scalar
open Codec
variable {s : Scalar} {value : List Char}

/-- Scalars that are read as they are where they are written: numbers with a point in their text, texts without a blank in
front, and all others. -/
def Lasting : Scalar → Prop
  | .float x => '.' ∈ x.text.toList
  | .text s => ∀ c ∈ s.toList.head?, Text.isBlank c = false
  | _ => True

instance (s : Scalar) : Decidable s.Lasting :=
  match s with
  | .float x => inferInstanceAs (Decidable ('.' ∈ x.text.toList))
  | .text s => inferInstanceAs (Decidable (∀ c ∈ s.toList.head?, Text.isBlank c = false))
  | .null | .bool _ | .int _ => .isTrue trivial

theorem lasting_iff (heard : s.Heard) : s.Lasting ↔ s.Exact := by
  cases s with
  | float x =>
    obtain ⟨d, rfl⟩ := heard
    exact (Binary64.scalarOf_text Decimal.nearest_eq.symm).symm
  | null | bool | int | text => rfl

theorem lasting_of_reread (heard : s.Heard) (wrote : written true s = .ok value) (same : reread value = .ok s) :
    s.Lasting := by
  cases s with
  | null | bool | int => trivial
  | float x =>
    cases wrote
    obtain ⟨s, read⟩ := exists_scalarOf_text x
    rw [lasting_iff heard, Exact, read]
    exact (denotes_inked x.inked_text.1 read).reread.symm.trans same
  | text s =>
    have ended : Text.Ended s.toList := heard
    have trimmed (same : s = String.ofList (Text.trim s.toList)) : (text s).Lasting := by
      refine (Text.trim_eq_iff.1 ?_).1
      rw [← String.toList_ofList (l := Text.trim s.toList), ← same]
    intro c head
    rw [Bool.eq_false_iff]
    intro blank
    -- with a blank in front no escape is written there, and the blank is gone from what is read
    have bare : value = escape s.toList := Except.ok.inj (wrote.symm.trans (written_blank head blank))
    rw [bare, reread_escape ended, meaning] at same
    have solid : (text s).Lasting := by
      split at same
      · exact trimmed (Scalar.text.inj (Except.ok.inj same)).symm
      · exact trimmed (scalarOf_text same)
    rw [solid c head] at blank
    cases blank

/-- What is read where a scalar is written, if it can be written and read. -/
def again? (s : Scalar) : Except Fault Scalar := do
  reread (← written true s)

/-- What is read where a scalar is written, the scalar itself where nothing can be. -/
def again (s : Scalar) : Scalar :=
  match s.again? with
  | .ok s' => s'
  | .error _ => s

theorem lasting_of_again? (heard : s.Heard) (same : s.again? = .ok s) : s.Lasting := by
  obtain ⟨value, wrote, read⟩ := bind_eq_ok.1 same
  exact lasting_of_reread heard wrote read

end Scalar

/-! Dictionaries -/

namespace Props
open Codec
variable {p q : Props} {text : String}

/-- Dictionaries with only such scalars. -/
def Lasting (p : Props) : Prop :=
  ∀ l ∈ p.leaves, l.2.Lasting

instance (p : Props) : Decidable p.Lasting :=
  inferInstanceAs (Decidable (∀ l ∈ p.leaves, l.2.Lasting))

theorem Heard.leaves (heard : p.Heard) : ∀ l ∈ p.leaves, l.2.Heard := by
  induction p with
  | nil => simp [Props.leaves]
  | leaf key s rest ih => exact List.forall_mem_cons.2 ⟨heard.1.2.2, ih heard.2⟩
  | node key sub rest below ih => exact forall_leaves_node.2 ⟨below heard.1.2.2, ih heard.2⟩

theorem Lasting.exact (lasting : p.Lasting) (heard : p.Heard) : p.Exact := by
  induction p with
  | nil => trivial
  | leaf key s rest ih =>
    obtain ⟨own, others⟩ := List.forall_mem_cons.1 lasting
    exact ⟨(Scalar.lasting_iff heard.1.2.2).1 own, ih others heard.2⟩
  | node key sub rest below ih =>
    obtain ⟨inside, others⟩ := forall_leaves_node.1 lasting
    exact ⟨below inside heard.1.2.2, ih others heard.2⟩

/-- A path that leads to a leaf begins with a key of the dictionary. -/
theorem mem_keys_of_leaves : ∀ l ∈ p.leaves, ∀ key ∈ l.1.head?, key ∈ p.keys := by
  induction p with
  | nil => simp [Props.leaves]
  | leaf key s rest ih =>
    refine List.forall_mem_cons.2 ⟨fun k head => ?_, fun l member k head => List.mem_cons_of_mem key (ih l member k head)⟩
    cases head
    exact List.mem_cons_self
  | node key sub rest _ ih =>
    refine List.forall_mem_append.2 ⟨fun l member k head => ?_, fun l member k head =>
      List.mem_cons_of_mem key (ih l member k head)⟩
    obtain ⟨_, _, rfl⟩ := List.mem_map.1 member
    cases head
    exact List.mem_cons_self

/-! What is read again has no blank in front of a path -/

theorem Flush.set {key : String} {value : Value} (flush : p.Flush) (own : ∀ c ∈ key.toList.head?, Text.isBlank c = false) :
    (p.set key value).Flush := by
  intro k member
  rw [mem_keys, get?_set] at member
  split at member
  · next same => exact same ▸ own
  · exact flush k (mem_keys.2 member)

theorem Flush.setPath {path : List String} {s : Scalar} (flush : p.Flush)
    (own : ∀ key ∈ path.head?, ∀ c ∈ key.toList.head?, Text.isBlank c = false) : (p.setPath path s).Flush := by
  cases path with
  | nil => exact flush
  | cons key path =>
    cases path with
    | nil => exact flush.set (own key rfl)
    | cons next path => exact flush.set (own key rfl)

/-- A path begins as its key does. -/
theorem head?_path {key : List Char} (full : ¬(path key).any (·.isEmpty) = true) :
    ∀ piece ∈ (path key).head?, piece.head? = key.head? := by
  cases key with
  | nil => exact absurd rfl full
  | cons c rest =>
    intro piece head
    rw [path] at full head
    split at full
    · exact absurd rfl full
    · next other =>
      rw [if_neg other] at head
      cases pieces : path rest with
      | nil =>
        rw [pieces] at head
        cases head
        rfl
      | cons first more =>
        rw [pieces] at head
        cases head
        rfl

theorem Flush.enter {key value : List Char} {escaped : Bool} (flush : p.Flush)
    (own : ∀ c ∈ key.head?, Text.isBlank c = false) (entered : p.enter (.pair key value escaped) = .ok q) : q.Flush := by
  rw [enter_pair] at entered
  split at entered
  · cases entered
    exact flush
  · next full =>
    cases means : meaning value escaped with
    | error fault =>
      rw [means] at entered
      cases entered
    | ok s =>
      rw [means] at entered
      cases entered
      refine flush.setPath fun k head c first => ?_
      rw [List.head?_map] at head
      obtain ⟨piece, there, rfl⟩ := Option.map_eq_some_iff.1 head
      rw [String.toList_ofList, head?_path full piece there] at first
      exact own c first

/-- What is read from a line that was written is flush, whatever was written. -/
theorem flush_of_writes {line : String} (heard : p.Heard) (wrote : p.write = .ok (some line)) (read : Props.read line = .ok q) :
    q.Flush := by
  obtain ⟨parts, each, ⟨⟨⟩, _⟩ | ⟨_, ⟨⟩, split⟩⟩ := exists_writes heard wrote
  rw [Props.read, split] at read
  refine enter_induction (fun entry member d d' flush entered => ?_) (by simp [Flush, keys]) read
  obtain ⟨part, listed, made⟩ := List.mem_filterMap.1 member
  obtain ⟨l, _, writes⟩ := exists_of_forall₂ each part listed
  obtain ⟨front, key, value, _, _, _, _, _, same⟩ := writes.exists_entry
  cases made.symm.trans same
  split at entered
  · cases entered
    exact flush
  · -- the key is what was written without its blanks in front, as these are written bare
    exact flush.enter (Text.head?_dropWhile _) entered

/-! What is read again for the leaves -/

/-- The dictionary with what is read again for its scalars. -/
def again : Props → Props
  | nil => nil
  | leaf key s rest => leaf key s.again rest.again
  | node key sub rest => node key sub.again rest.again

theorem leaves_again : p.again.leaves = p.leaves.map fun l => (l.1, l.2.again) := by
  induction p with
  | nil => rfl
  | leaf key s rest ih => exact congrArg (([key], s.again) :: ·) ih
  | node key sub rest below ih =>
    rw [again, Props.leaves, Props.leaves, List.map_append, below, ih, List.map_map, List.map_map]
    rfl

theorem keys_again : p.again.keys = p.keys := by
  induction p with
  | nil => rfl
  | leaf key s rest ih => exact congrArg (key :: ·) ih
  | node key sub rest _ ih => exact congrArg (key :: ·) ih

theorem Tidy.again (tidy : p.Tidy) : p.again.Tidy := by
  have absent {rest : Props} {key : String} (fresh : rest.get? key = none) : rest.again.get? key = none := by
    rw [← Option.not_isSome_iff_eq_none, ← mem_keys, keys_again, mem_keys, fresh]
    exact Bool.false_ne_true
  induction p with
  | nil => trivial
  | leaf key s rest ih => exact ⟨absent tidy.1, ih tidy.2⟩
  | node key sub rest below ih => exact ⟨absent tidy.1, below tidy.2.1, ih tidy.2.2⟩

theorem Heard.full (heard : p.Heard) : p.Full := by
  induction p with
  | nil => trivial
  | leaf key s rest ih => exact ih heard.2
  | node key sub rest below ih => exact ⟨heard.1.2.1, below heard.1.2.2, ih heard.2⟩

theorem Full.again (full : p.Full) : p.again.Full := by
  induction p with
  | nil => trivial
  | leaf key s rest ih => exact ih full
  | node key sub rest below ih =>
    refine ⟨fun empty => full.1 ?_, below full.2.1, ih full.2.2⟩
    cases sub with
    | nil => rfl
    | leaf | node => cases empty

theorem head?_dotted {front : List String} {key : String} (segments : ∀ k ∈ front, Segment k) :
    ∀ first ∈ (front ++ [key]).head?, (dotted front ++ key.toList).head? = first.toList.head? := by
  intro first head
  cases front with
  | nil =>
    cases head
    rfl
  | cons k front =>
    have filled := (segments k List.mem_cons_self).toList_ne_nil
    cases head
    rw [dotted, List.flatMap_cons, List.append_assoc, List.append_assoc, List.head?_append_of_ne_nil _ filled]

/-- The part that is written for a scalar sets what is read again for it, if no blank is in front of its path. -/
theorem enter_eq {part : List Char} {target : List String} {s : Scalar} (writes : Writes part target s)
    (solid : ∀ key ∈ target.head?, ∀ c ∈ key.toList.head?, Text.isBlank c = false) :
    ∃ entry, entry? part = some entry ∧ ∀ p : Props, p.enter entry = s.again?.map (p.setPath target) := by
  obtain ⟨front, key, value, rfl, segments, own, _, wrote, same⟩ := writes.exists_entry
  obtain ⟨names, full⟩ := path_dotted segments own
  have bare : (dotted front ++ key.toList).dropWhile Text.isBlank = dotted front ++ key.toList := by
    refine Text.dropWhile_of_head fun c head => ?_
    obtain ⟨first, there⟩ : ∃ first, (front ++ [key]).head? = some first := by
      cases front <;> exact ⟨_, rfl⟩
    rw [head?_dotted segments first there] at head
    exact solid first there c head
  have filled : (dotted front ++ key.toList).isEmpty = false :=
    List.isEmpty_eq_false_iff.2 (List.append_ne_nil_of_right_ne_nil _ own.toList_ne_nil)
  rw [bare, filled, if_neg Bool.false_ne_true] at same
  refine ⟨_, same, fun p => ?_⟩
  rw [enter_pair, full, if_neg Bool.false_ne_true, names, Scalar.again?, wrote]
  rfl

/-- The parts that were written set, one after the other, what is read again for the leaves. -/
theorem foldlM_writes {parts : List (List Char)} {leaves : List (List String × Scalar)}
    (each : List.Forall₂ (fun part l => Writes part l.1 l.2) parts leaves)
    (solid : ∀ l ∈ leaves, ∀ key ∈ l.1.head?, ∀ c ∈ key.toList.head?, Text.isBlank c = false)
    (folds : (parts.filterMap entry?).foldlM enter p = .ok q) :
    q = p.assign (leaves.map fun l => (l.1, l.2.again)) ∧ ∀ l ∈ leaves, l.2.again? = .ok l.2.again := by
  induction each generalizing p with
  | nil =>
    cases folds
    exact ⟨rfl, by simp⟩
  | @cons part l parts leaves writes _ ih =>
    obtain ⟨own, others⟩ := List.forall_mem_cons.1 solid
    obtain ⟨entry, made, enters⟩ := enter_eq writes own
    rw [List.filterMap_cons, made, List.foldlM_cons, enters] at folds
    cases read : l.2.again? with
    | error fault =>
      rw [read] at folds
      cases folds
    | ok s =>
      have same : l.2.again = s := by
        rw [Scalar.again, read]
      rw [read] at folds
      obtain ⟨whole, later⟩ := ih others folds
      refine ⟨?_, List.forall_mem_cons.2 ⟨by rw [read, same], later⟩⟩
      rw [whole, List.map_cons, same]
      rfl

/-- A line that was written for flush props is read as the dictionary with what is read again for its scalars. -/
theorem eq_again {line : String} (heard : p.Heard) (tidy : p.Tidy) (flush : p.Flush) (wrote : p.write = .ok (some line))
    (read : Props.read line = .ok q) : q = p.again ∧ ∀ l ∈ p.leaves, l.2.again? = .ok l.2.again := by
  obtain ⟨parts, each, ⟨⟨⟩, _⟩ | ⟨_, ⟨⟩, split⟩⟩ := exists_writes heard wrote
  rw [Props.read, split] at read
  obtain ⟨whole, later⟩ := foldlM_writes each
    (fun l leaf key head => flush key (mem_keys_of_leaves l leaf key head)) read
  refine ⟨?_, later⟩
  rw [whole, ← leaves_again, nil_assign tidy.again heard.full.again]

theorem lasting_of_read {line : String} (heard : p.Heard) (tidy : p.Tidy) (flush : p.Flush)
    (wrote : p.write = .ok (some line)) (read : Props.read line = .ok p) : p.Lasting := by
  obtain ⟨whole, later⟩ := eq_again heard tidy flush wrote read
  have same : p.leaves.map (fun l => (l.1, l.2.again)) = p.leaves.map id := by
    rw [← leaves_again, ← whole, List.map_id]
  intro l leaf
  have own : l.2.again = l.2 := congrArg Prod.snd (List.map_inj_left.1 same l leaf)
  exact Scalar.lasting_of_again? (heard.leaves l leaf) ((later l leaf).trans (congrArg Except.ok own))

/-- Props that were read and have a line come back from it, each leaf with its type, exactly if no path and no text has a blank
in front and each number has a text with a point. Only without entries they have no line. -/
theorem read_again {line : Option String} (read : Props.read text = .ok p) (wrote : p.write = .ok line) :
    (p = nil ∧ line = none) ∨
      ∃ again, line = some again ∧ (Props.read again = .ok p ↔ p.Flush ∧ p.Lasting) := by
  obtain ⟨heard, tidy⟩ := heard_read read
  by_cases empty : p = nil
  · subst empty
    cases wrote
    exact .inl ⟨rfl, rfl⟩
  · right
    cases line with
    | none =>
      obtain ⟨parts, each, ⟨_, rfl⟩ | ⟨_, ⟨⟩, _⟩⟩ := exists_writes heard wrote
      exact (leaves_ne_nil heard.full empty (List.forall₂_nil_left_iff.1 each)).elim
    | some again =>
      refine ⟨again, rfl, fun same => ?_, fun ⟨flush, lasting⟩ => ?_⟩
      · have flush := flush_of_writes heard wrote same
        exact ⟨flush, lasting_of_read heard tidy flush wrote same⟩
      · obtain ⟨parts, assigned, _⟩ := exists_of_write wrote
        obtain ⟨line, wrote', _, there⟩ := read_write tidy (heard.told (lasting.exact heard) flush assigned)
        obtain ⟨line, rfl, same⟩ := there empty
        cases wrote.symm.trans wrote'
        exact same

/-- Keys and texts that were written with escapes, a number that is written otherwise than it was, and a text that looks like
one. -/
theorem read_again_escaped :
    ∃ p : Props, Props.read "a\\=b.\\;c=\\12;x=015e2;y=-0.00150e3;z=\\;" = .ok p ∧
      p.write = .ok (some "a\\=b.\\;c=\\12;x=015e2;y=-1.5;z=\\;") ∧
      Props.read "a\\=b.\\;c=\\12;x=015e2;y=-1.5;z=\\;" = .ok p := by
  let p : Props := node "a=b" (leaf ";c" (.text "12") nil)
    (leaf "x" (.text "015e2") (leaf "y" (.float (Decimal.mk true 15 (-1)).nearest) (leaf "z" (.text ";") nil)))
  have read : Props.read "a\\=b.\\;c=\\12;x=015e2;y=-0.00150e3;z=\\;" = .ok p := by decide +kernel
  have wrote : p.write = .ok (some "a\\=b.\\;c=\\12;x=015e2;y=-1.5;z=\\;") := by decide +kernel
  refine ⟨p, read, wrote, ?_⟩
  obtain ⟨again, same, iff⟩ := (read_again read wrote).resolve_left fun empty => absurd empty.1 (by decide)
  cases same
  exact iff.2 (by decide +kernel)

/-- A blank in front of a text, a number without a point in its text, and a blank in front of a key. -/
theorem read_again_changed :
    (Props.read "x=\\ 10" = .ok (leaf "x" (.text " 10") nil) ∧ (leaf "x" (.text " 10") nil).write = .ok (some "x= 10") ∧
      Props.read "x= 10" = .ok (leaf "x" (.int 10) nil)) ∧
    (Props.read "x=0.00001" = .ok (leaf "x" (.float (Decimal.mk false 1 (-5)).nearest) nil) ∧
      (leaf "x" (.float (Decimal.mk false 1 (-5)).nearest) nil).write = .ok (some "x=1e-05") ∧
      Props.read "x=1e-05" = .ok (leaf "x" (.text "1e-05") nil)) ∧
    Props.read "\\ a=1" = .ok (leaf " a" (.int 1) nil) ∧ (leaf " a" (.int 1) nil).write = .ok (some " a=1") ∧
      Props.read " a=1" = .ok (leaf "a" (.int 1) nil) := by
  decide +kernel

end Props
end LiveDiagram
