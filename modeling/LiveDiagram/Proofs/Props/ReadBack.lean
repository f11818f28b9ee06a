import LiveDiagram.Proofs.Outcome
import LiveDiagram.Proofs.Props.Coding
import LiveDiagram.Proofs.Props.Leaves
import LiveDiagram.Proofs.Props.Repeating
import Mathlib.Data.List.Forall2

/-! Lines of props and of metadata read back as the dictionaries that were written. -/
namespace LiveDiagram

/-- A key that a path can hold. -/
def Codec.Segment (key : String) : Prop :=
  key ≠ "" ∧ '.' ∉ key.toList

theorem Codec.Segment.toList_ne_nil {key : String} (segment : Segment key) : key.toList ≠ [] :=
  fun empty => segment.1 (String.toList_eq_nil_iff.1 empty)

namespace Props

/-- Dictionaries that a props line can say: below `front`, keys have neither dots nor nothing in them, paths have no
blanks at their ends, and no dictionary inside is empty. -/
def Codable (front : List Char) : Props → Prop
  | nil => True
  | leaf key value rest =>
    Codec.Segment key ∧ Text.trim (front ++ key.toList) = front ++ key.toList ∧ value.Codable ∧ rest.Codable front
  | node key sub rest =>
    Codec.Segment key ∧ sub ≠ nil ∧ sub.Codable (front ++ key.toList ++ ['.']) ∧ rest.Codable front

/-- Dictionaries whose entries are read back from what is written for them, those of `Codable` among them. -/
def Told (front : List Char) : Props → Prop
  | nil => True
  | leaf key value rest =>
    Codec.Segment key ∧ Text.trim (front ++ key.toList) = front ++ key.toList ∧
      (∃ text, Codec.written true value = .ok text ∧ Codec.Denotes text value) ∧ rest.Told front
  | node key sub rest =>
    Codec.Segment key ∧ sub ≠ nil ∧ sub.Told (front ++ key.toList ++ ['.']) ∧ rest.Told front

/-- Flat dictionaries of texts, keys and texts without blanks at their ends. -/
def Flat : Props → Prop
  | nil => True
  | leaf key value rest =>
    (key ≠ "" ∧ Text.trim key.toList = key.toList) ∧ (∃ s, value = .text s ∧ Text.trim s.toList = s.toList) ∧ rest.Flat
  | node .. => False

/-- The entries but for those under the given keys. -/
def without (excluded : List String) : Props → Props
  | nil => nil
  | leaf key value rest => if excluded.contains key then rest.without excluded else leaf key value (rest.without excluded)
  | node key sub rest => if excluded.contains key then rest.without excluded else node key sub (rest.without excluded)

end Props

namespace Codec
open Text (Trimmed)

variable {key value text rest : List Char} {parts : List (List Char)}

/-! Entries -/

/-- An entry is cut at its equals sign. -/
theorem entry?_pair (closed : Sealed '=' key) (nonempty : key ≠ []) (trimmed : Trimmed key) (trimmed' : Trimmed value) :
    entry? (key ++ '=' :: value) = some (.pair (unescape key) (unescape value) (hasEscape value)) := by
  have whole : Trimmed (key ++ '=' :: value) := by
    refine .append nonempty (List.cons_ne_nil _ _) trimmed.1 fun c last => ?_
    rw [List.getLast?_cons] at last
    cases ending : value.getLast? with
    | none =>
      rw [ending] at last
      cases Option.some.inj last
      decide
    | some x =>
      rw [ending] at last
      cases Option.some.inj last
      exact trimmed'.2 x ending
  have there : (key ++ '=' :: value).isEmpty = false :=
    List.isEmpty_eq_false_iff.2 (List.append_ne_nil_of_left_ne_nil nonempty _)
  have filled : key.isEmpty = false := List.isEmpty_eq_false_iff.2 nonempty
  unfold entry?
  rw [Text.trim_eq_iff.2 whole]
  have cut : cut '=' (key ++ '=' :: value) = (key, some value) := cut_append (by decide) closed
  simp only [there, cut, Text.trim_eq_iff.2 trimmed, filled,
    Text.trim_eq_iff.2 trimmed', Bool.false_eq_true, if_false]

theorem entries_joined (nonempty : parts ≠ []) (all : ∀ part ∈ parts, Sealed ';' part) :
    ∃ line, Props.joined parts = some line ∧ entries line.toList = parts.filterMap entry? := by
  refine ⟨String.ofList ([';'].intercalate parts), ?_, ?_⟩
  · unfold Props.joined
    rw [if_neg]
    intro empty
    exact nonempty (List.isEmpty_iff.1 empty)
  · rw [entries, String.toList_ofList, split_intercalate (by decide) nonempty all]

/-! Paths -/

theorem path_segment (free : '.' ∉ text) : path text = [text] := by
  induction text with
  | nil => rfl
  | cons c text ih =>
    rw [List.mem_cons, not_or] at free
    rw [path, if_neg (Ne.symm free.1), ih free.2]
    rfl

theorem path_append (free : '.' ∉ text) : path (text ++ '.' :: rest) = text :: path rest := by
  induction text with
  | nil => exact if_pos rfl
  | cons c text ih =>
    rw [List.mem_cons, not_or] at free
    rw [List.cons_append, path, if_neg (Ne.symm free.1), ih free.2]
    rfl

/-- Keys with a dot behind each. -/
def dotted (front : List String) : List Char :=
  front.flatMap fun key => key.toList ++ ['.']

theorem dotted_append (front : List String) (key : String) :
    dotted (front ++ [key]) = dotted front ++ key.toList ++ ['.'] := by
  simp [dotted]

/-- The path of a key behind others. -/
theorem path_dotted {front : List String} (segments : ∀ key ∈ front, Segment key) {key : String} (own : Segment key) :
    (path (dotted front ++ key.toList)).map String.ofList = front ++ [key] ∧
      (path (dotted front ++ key.toList)).any (·.isEmpty) = false := by
  have filled {key : String} (own : Segment key) : key.toList.isEmpty = false :=
    List.isEmpty_eq_false_iff.2 own.toList_ne_nil
  induction front with
  | nil =>
    rw [dotted, List.flatMap_nil, List.nil_append, path_segment own.2]
    simp [filled own]
  | cons first front ih =>
    have here := segments first List.mem_cons_self
    obtain ⟨names, full⟩ := ih fun x member => segments x (List.mem_cons_of_mem first member)
    have shape : dotted (first :: front) ++ key.toList = first.toList ++ '.' :: (dotted front ++ key.toList) := by
      simp [dotted]
    rw [shape, path_append here.2]
    simp [names, full, filled here]

theorem escape_append (text rest : List Char) : escape (text ++ rest) = escape text ++ escape rest :=
  List.flatMap_append

/-- A written part assigns a scalar to a path. -/
structure Assigns (part : List Char) (target : List String) (s : Scalar) : Prop where
  closed : Sealed ';' part
  enters : ∃ entry, entry? part = some entry ∧ ∀ p : Props, p.enter entry = .ok (p.setPath target s)

theorem assigns {front : List String} {key : String} {s : Scalar} (segments : ∀ key ∈ front, Segment key)
    (own : Segment key) (trimmed : Text.trim (dotted front ++ key.toList) = dotted front ++ key.toList)
    (denotes : Denotes value s) :
    Assigns (escape (dotted front) ++ escape key.toList ++ '=' :: value) (front ++ [key]) s := by
  rw [← escape_append]
  have nonempty : dotted front ++ key.toList ≠ [] := List.append_ne_nil_of_right_ne_nil _ own.toList_ne_nil
  obtain ⟨names, full⟩ := path_dotted segments own
  refine ⟨?_, _, entry?_pair (sealed_escape (.inr rfl) _) (escape_ne_nil nonempty)
    (trimmed_escape (Text.trim_eq_iff.1 trimmed)) denotes.trimmed, fun p => ?_⟩
  · exact (sealed_escape (.inl rfl) _).append (.plain (by decide) (by decide) denotes.closed)
  · rw [unescape_escape]
    unfold Props.enter
    simp only [full, Bool.false_eq_true, if_false, names]
    have means := denotes.means
    unfold meaning at means
    split
    · next escapes =>
      rw [if_pos escapes] at means
      rw [means]
      rfl
    · next escapes =>
      rw [if_neg escapes] at means
      rw [means]
      rfl

theorem exists_of_forall₂ {β γ : Type} {r : β → γ → Prop} {front : List β} {back : List γ} (each : List.Forall₂ r front back) :
    ∀ x ∈ front, ∃ y ∈ back, r x y := by
  induction each with
  | nil => simp
  | @cons x y _ _ first _ ih =>
    intro z member
    rcases List.mem_cons.1 member with rfl | later
    · exact ⟨y, List.mem_cons_self, first⟩
    · obtain ⟨y', inside, own⟩ := ih z later
      exact ⟨y', List.mem_cons_of_mem y inside, own⟩

theorem sealed_of_forall₂ {γ : Type} {r : List Char → γ → Prop} {targets : List γ}
    (each : List.Forall₂ r parts targets) (closed : ∀ part target, r part target → Sealed ';' part) :
    ∀ part ∈ parts, Sealed ';' part := by
  intro part member
  obtain ⟨target, _, own⟩ := exists_of_forall₂ each part member
  exact closed part target own

end Codec

namespace Scalar
open Codec

theorem exists_written {s : Scalar} (codable : s.Codable) : ∃ value, written true s = .ok value ∧ Denotes value s := by
  cases s with
  | null => exact codable.elim
  | float => exact codable.elim
  | bool b => exact ⟨_, rfl, denotes_bool b⟩
  | int n => exact ⟨_, rfl, denotes_int codable⟩
  | text s => exact denotes_text codable

end Scalar

namespace Props
open Codec

variable {p : Props}

theorem Codable.told {front : List Char} (codable : p.Codable front) : p.Told front := by
  induction p generalizing front with
  | nil => trivial
  | leaf key value rest ih => exact ⟨codable.1, codable.2.1, value.exists_written codable.2.2.1, ih codable.2.2.2⟩
  | node key sub rest below ih => exact ⟨codable.1, codable.2.1, below codable.2.2.1, ih codable.2.2.2⟩

theorem Told.full {front : List Char} (told : p.Told front) : p.Full := by
  induction p generalizing front with
  | nil => trivial
  | leaf key value rest ih => exact ih told.2.2.2
  | node key sub rest below ih => exact ⟨told.2.1, below told.2.2.1, ih told.2.2.2⟩

/-! What is written for props, if anything is -/

section
variable {key : String} {s : Scalar} {sub rest : Props} {front : List Char} {parts : List (List Char)}

theorem exists_of_leaf (present : s ≠ .null) (wrote : (leaf key s rest).assignments front = .ok parts) :
    ∃ value later, written true s = .ok value ∧ rest.assignments front = .ok later ∧
      parts = (front ++ escape key.toList ++ '=' :: value) :: later := by
  have wrote : (do
      let value ← written true s
      return (front ++ escape key.toList ++ '=' :: value) :: (← rest.assignments front)) = Except.ok parts := by
    cases s with
    | null => exact (present rfl).elim
    | bool | int | float | text => exact wrote
  obtain ⟨value, written, rest'⟩ := bind_eq_ok.1 wrote
  obtain ⟨later, others, same⟩ := bind_eq_ok.1 rest'
  exact ⟨value, later, written, others, (Except.ok.inj same).symm⟩

theorem exists_of_node (wrote : (node key sub rest).assignments (escape front) = .ok parts) :
    ∃ first later, sub.assignments (escape (front ++ key.toList ++ ['.'])) = .ok first ∧
      rest.assignments (escape front) = .ok later ∧ parts = first ++ later := by
  have deeper : escape front ++ escape key.toList ++ ['.'] = escape (front ++ key.toList ++ ['.']) := by
    rw [escape_append, escape_append]
    rfl
  rw [assignments, deeper] at wrote
  obtain ⟨first, inner, rest'⟩ := bind_eq_ok.1 wrote
  obtain ⟨later, others, same⟩ := bind_eq_ok.1 rest'
  exact ⟨first, later, inner, others, (Except.ok.inj same).symm⟩

theorem exists_of_write {line : Option String} (wrote : p.write = .ok line) :
    ∃ parts, p.assignments (escape []) = .ok parts ∧ line = joined parts := by
  unfold write at wrote
  obtain ⟨parts, assigned, same⟩ := bind_eq_ok.1 wrote
  exact ⟨parts, assigned, (Except.ok.inj same).symm⟩

end

/-- Each leaf has a part that assigns it. -/
theorem exists_assignments (front : List String) (segments : ∀ key ∈ front, Segment key)
    (told : p.Told (dotted front)) :
    ∃ parts, p.assignments (escape (dotted front)) = .ok parts ∧
      List.Forall₂ (fun part l => Assigns part (front ++ l.1) l.2) parts p.leaves := by
  -- For every path in front, which grows by the key of a dict on the way to the leaves in it.
  induction p generalizing front with
  | nil => exact ⟨[], rfl, .nil⟩
  | leaf key s rest ih =>
    obtain ⟨own, trimmed, ⟨value, written, denotes⟩, others⟩ := told
    obtain ⟨parts, later, assign⟩ := ih front segments others
    refine ⟨_, ?_, .cons (assigns segments own trimmed denotes) assign⟩
    cases s with
    | null => exact (denotes.ne_null rfl).elim
    | bool | int | float | text =>
      simp only [assignments, written, later]
      rfl
  | node key sub rest below ih =>
    obtain ⟨own, _, inner, others⟩ := told
    have deeper : ∀ x ∈ front ++ [key], Segment x := by
      intro x member
      rcases List.mem_append.1 member with old | new
      · exact segments x old
      · exact List.mem_singleton.1 new ▸ own
    obtain ⟨first, written, assign⟩ := below _ deeper ((dotted_append front key).symm ▸ inner)
    obtain ⟨later, written', assign'⟩ := ih front segments others
    have prefixed : escape (dotted front) ++ escape key.toList ++ ['.'] = escape (dotted (front ++ [key])) := by
      rw [dotted_append, escape_append, escape_append]
      rfl
    refine ⟨first ++ later, ?_, ?_⟩
    · simp only [assignments, prefixed, written, written']
      rfl
    · refine List.rel_append ?_ assign'
      rw [List.forall₂_map_right_iff]
      refine assign.imp fun part l each => ?_
      rw [List.append_assoc] at each
      exact each

theorem foldlM_enter {parts : List (List Char)} {entries : List (List String × Scalar)} {q : Props}
    (each : List.Forall₂ (fun part l => Assigns part l.1 l.2) parts entries) :
    (parts.filterMap entry?).foldlM enter q = .ok (q.assign entries) := by
  induction each generalizing q with
  | nil => rfl
  | cons first _ ih =>
    obtain ⟨entry, made, enters⟩ := first.enters
    rw [List.filterMap_cons, made, List.foldlM_cons, enters]
    exact ih

/-- Props read back from the line that is written for them, and no line is written for none. -/
theorem read_write (tidy : p.Tidy) (told : p.Told []) :
    ∃ line, p.write = .ok line ∧ (p = nil → line = none) ∧ (p ≠ nil → ∃ text, line = some text ∧ read text = .ok p) := by
  obtain ⟨parts, written, assign⟩ := exists_assignments [] (by simp) told
  have line : p.write = .ok (joined parts) := by
    unfold write
    change (p.assignments (escape (dotted [])) >>= fun parts => pure (joined parts)) = _
    rw [written]
    rfl
  refine ⟨joined parts, line, ?_, fun nonempty => ?_⟩
  · rintro rfl
    cases assign
    rfl
  · have there : parts ≠ [] := by
      rintro rfl
      exact leaves_ne_nil told.full nonempty (List.forall₂_nil_left_iff.1 assign)
    have closed := sealed_of_forall₂ assign fun _ _ each => each.closed
    obtain ⟨text, same, read⟩ := entries_joined there closed
    refine ⟨text, same, ?_⟩
    rw [Props.read, read, foldlM_enter assign, nil_assign tidy told.full]

/-! Metadata -/

variable {rest : Props} {excluded : List String} {key k : String} {value v : Value}

theorem without_cons : (cons k v rest).without excluded =
    if excluded.contains k then rest.without excluded else cons k v (rest.without excluded) := by
  cases v <;> rfl

theorem without_set (out : excluded.contains key = true) : (p.set key value).without excluded = p.without excluded := by
  induction p using byFirst with
  | nil => exact without_cons.trans (if_pos out)
  | cons k v rest _ ih =>
    rw [set_cons]
    split
    · next same => rw [without_cons, without_cons, same, if_pos out, if_pos out]
    · rw [without_cons, without_cons, ih]

theorem without_without : (p.without excluded).without excluded = p.without excluded := by
  induction p using byFirst with
  | nil => rfl
  | cons k v rest _ ih =>
    rw [without_cons]
    split
    · exact ih
    · next kept => rw [without_cons, if_neg kept, ih]

theorem get?_without : (p.without excluded).get? key = if excluded.contains key then none else p.get? key := by
  induction p using byFirst with
  | nil => exact (ite_self _).symm
  | cons k v rest _ ih =>
    rw [without_cons, get?_cons]
    by_cases out : excluded.contains k = true
    · rw [if_pos out, ih]
      by_cases own : k = key
      · rw [← own, if_pos out, if_pos out]
      · rw [if_neg own]
    · rw [if_neg out, get?_cons, ih]
      by_cases own : k = key
      · rw [← own, if_pos rfl, if_pos rfl, if_neg out]
      · rw [if_neg own, if_neg own]

theorem Tidy.without (tidy : p.Tidy) : (p.without excluded).Tidy := by
  induction p using byFirst with
  | nil => trivial
  | cons k v rest _ ih =>
    obtain ⟨fresh, inner, later⟩ := tidy_cons.1 tidy
    rw [without_cons]
    split
    · exact ih later
    · refine tidy_cons.2 ⟨?_, inner, ih later⟩
      rw [get?_without, fresh, ite_self]

/-- A written part that is an entry of metadata. -/
structure Names (part : List Char) (entry : String × Value) : Prop where
  closed : Sealed ';' part
  enters : ∃ key value escaped, entry? part = some (.pair key value escaped) ∧
    entry = (String.ofList key, .scalar (.text (String.ofList value)))

theorem exists_parts (excluded : List String) (flat : p.Flat) :
    List.Forall₂ Names (p.toList.filterMap fun (key, value) =>
      if excluded.contains key then none
      else (metadataText? value).map fun text => escape key.toList ++ '=' :: text) (p.without excluded).toList := by
  induction p with
  | nil => exact .nil
  | leaf key value rest ih =>
    obtain ⟨⟨nonempty, trimmed⟩, ⟨s, rfl, trimmed'⟩, others⟩ := flat
    rw [toList, List.filterMap_cons, without]
    dsimp only
    split
    · next none =>
      split at none
      · next out =>
        rw [if_pos out]
        exact ih others
      · cases none
    · next part some =>
      split at some
      · cases some
      · next kept =>
        cases some
        rw [if_neg kept]
        refine .cons ⟨?_, _, _, _, entry?_pair (sealed_escape (.inr rfl) _) ?_
          (trimmed_escape (Text.trim_eq_iff.1 trimmed)) (trimmed_escape (Text.trim_eq_iff.1 trimmed')), ?_⟩ (ih others)
        · exact (sealed_escape (.inl rfl) _).append (.plain (by decide) (by decide) (sealed_escape (.inl rfl) _))
        · exact escape_ne_nil fun empty => nonempty (String.toList_eq_nil_iff.1 empty)
        · rw [unescape_escape, unescape_escape, String.ofList_toList, String.ofList_toList]
  | node => exact flat.elim

theorem foldl_names {parts : List (List Char)} {entries : List (String × Value)} {q : Props}
    (each : List.Forall₂ Names parts entries) :
    (parts.filterMap entry?).foldl (fun p entry => match entry with
      | .malformed _ => p
      | .pair key value _ => p.set (String.ofList key) (.scalar (.text (String.ofList value)))) q =
      entries.foldl (fun p entry => p.set entry.1 entry.2) q := by
  induction each generalizing q with
  | nil => rfl
  | cons first _ ih =>
    obtain ⟨key, value, escaped, made, rfl⟩ := first.enters
    rw [List.filterMap_cons, made, List.foldl_cons, List.foldl_cons]
    exact ih

theorem overlay_eq_foldl {q : Props} : q.overlay p = p.toList.foldl (fun p entry => p.set entry.1 entry.2) q := by
  induction p generalizing q with
  | nil => rfl
  | leaf key v rest ih => exact ih
  | node key sub rest _ ih => exact ih

/-- Metadata but for the excluded keys read back from the line that is written for them, and no line is written for
none. -/
theorem readMetadata_write (excluded : List String) (tidy : p.Tidy) (flat : p.Flat) :
    (p.without excluded = nil → p.writeMetadata excluded = none) ∧
      (p.without excluded ≠ nil →
        ∃ text, p.writeMetadata excluded = some text ∧ readMetadata text = p.without excluded) := by
  have each := exists_parts excluded flat
  constructor
  · intro none
    rw [none] at each
    rw [writeMetadata, List.forall₂_nil_right_iff.1 each]
    rfl
  · intro nonempty
    have length := List.Forall₂.length_eq each
    rw [writeMetadata]
    generalize p.toList.filterMap _ = parts at each length
    have there : parts ≠ [] := by
      rintro rfl
      exact nonempty (toList_inj (List.eq_nil_of_length_eq_zero length.symm))
    obtain ⟨text, same, read⟩ := entries_joined there (sealed_of_forall₂ each fun _ _ own => own.closed)
    refine ⟨text, same, ?_⟩
    rw [readMetadata, read]
    exact (foldl_names each).trans (overlay_eq_foldl.symm.trans (nil_overlay tidy.without))

/-- What was written is read back, leaves with their types: props that a line can say, and metadata but for the
excluded keys. -/
theorem lines_read_back :
    (∀ p : Props, p.Tidy → p.Codable [] → p ≠ nil → ∃ line, p.write = .ok (some line) ∧ read line = .ok p) ∧
      ∀ (excluded : List String) (m : Props), m.Tidy → m.Flat →
        (m.without excluded = nil → m.writeMetadata excluded = none) ∧
          (m.without excluded ≠ nil →
            ∃ line, m.writeMetadata excluded = some line ∧ readMetadata line = m.without excluded) := by
  refine ⟨fun p tidy codable nonempty => ?_, fun excluded m => readMetadata_write excluded⟩
  obtain ⟨_, wrote, _, there⟩ := read_write tidy codable.told
  obtain ⟨line, rfl, read⟩ := there nonempty
  exact ⟨line, wrote, read⟩

/-- Keys with separators, and texts that look like a number and a truth value. -/
theorem lines_read_back_escaped :
    read "style.a\\=b\\;=\\12;style.\\\\=\\true;n=-5" =
        .ok (node "style" (leaf "a=b;" (.text "12") (leaf "\\" (.text "true") nil)) (leaf "n" (.int (-5)) nil)) ∧
      readMetadata "k\\;=\\=" = leaf "k;" (.text "=") nil := by
  have number (n : Numeral) (read : Numeral.read? "12".toList = some n) : n.whole.length ≤ Fault.digitLimit := by
    cases (show Numeral.read? "12".toList = some ⟨false, ['1', '2'], none, none⟩ from rfl).symm.trans read
    decide
  have word (n : Numeral) (read : Numeral.read? "true".toList = some n) : n.whole.length ≤ Fault.digitLimit := by
    cases (show Numeral.read? "true".toList = none from rfl).symm.trans read
  have small : (Scalar.int (-5)).Codable := by
    unfold Scalar.Codable
    decide
  constructor
  · obtain ⟨line, wrote, read⟩ := lines_read_back.1
      (node "style" (leaf "a=b;" (.text "12") (leaf "\\" (.text "true") nil)) (leaf "n" (.int (-5)) nil))
      ⟨by decide, ⟨by decide, by decide, trivial⟩, by decide, trivial⟩
      ⟨⟨by decide, by decide⟩, by decide,
        ⟨⟨by decide, by decide⟩, by decide, ⟨by decide, fun n read _ => number n read⟩,
          ⟨by decide, by decide⟩, by decide, ⟨by decide, fun n read _ => word n read⟩, trivial⟩,
        ⟨by decide, by decide⟩, by decide, small, trivial⟩
      (by decide)
    have same := wrote.symm.trans (show _ = Except.ok (some "style.a\\=b\\;=\\12;style.\\\\=\\true;n=-5") by decide +kernel)
    cases same
    exact read
  · obtain ⟨line, wrote, read⟩ := (lines_read_back.2 ["x"] (leaf "x" (.text "1") (leaf "k;" (.text "=") nil))
      ⟨by decide, by decide, trivial⟩
      ⟨⟨by decide, by decide⟩, ⟨_, rfl, by decide⟩, ⟨by decide, by decide⟩, ⟨_, rfl, by decide⟩, trivial⟩).2 (by decide)
    cases wrote.symm.trans (show _ = some "k\\;=\\=" by decide +kernel)
    exact read

end Props
end LiveDiagram
