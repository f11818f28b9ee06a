import LiveDiagram.Proofs.Connector.Residue
import LiveDiagram.Proofs.Props.Repeating

/-! What reading makes of a line, whatever the line is. No key stands twice and no dictionary inside is empty; paths,
texts and numbers are such as an entry can say, with no blank behind them. Blanks in front can come from an escape. -/
namespace LiveDiagram

namespace Text

/-- A text without blanks at its end. -/
def Ended (text : List Char) : Prop :=
  ∀ c ∈ text.getLast?, isBlank c = false

theorem trimmed_trim (text : List Char) : Trimmed (trim text) := by
  have last : Ended (trim text) := by
    rw [Ended, trim, List.getLast?_reverse]
    exact head?_dropWhile _
  refine ⟨fun c head => ?_, last⟩
  have front : ∀ (l : List Char), (∀ c ∈ l.head?, isBlank c = false) →
      ∀ c ∈ ((l.reverse.dropWhile isBlank).reverse).head?, isBlank c = false := by
    intro l proper c head
    have within : (l.reverse.dropWhile isBlank).reverse <+: l := by
      have suffix := List.dropWhile_suffix isBlank (l := l.reverse)
      simpa using List.reverse_prefix.2 suffix
    obtain ⟨more, whole⟩ := within
    refine proper c ?_
    rw [← whole, List.head?_append, Option.mem_def.1 head]
    rfl
  exact front _ (head?_dropWhile text) c head

theorem digitsValue_lt (digits : List Char) : digitsValue digits < Nat.pow 10 digits.length := by
  have small (c : Char) : (digitValue? c).getD 0 < 10 := by
    unfold digitValue?
    cases found : digitZeros.find? fun first => first ≤ c.toNat && c.toNat < first + 10 with
    | none => exact Nat.zero_lt_succ 9
    | some first =>
      have range := List.find?_some found
      simp only [Bool.and_eq_true, decide_eq_true_eq] at range
      simp only [Option.map_some, Option.getD_some]
      omega
  have general : ∀ (text : List Char) (start : Nat),
      text.foldl (fun value c => 10 * value + (digitValue? c).getD 0) start < (start + 1) * 10 ^ text.length := by
    intro text
    induction text with
    | nil =>
      intro start
      simp
    | cons c text ih =>
      intro start
      have own := small c
      calc (c :: text).foldl (fun value c => 10 * value + (digitValue? c).getD 0) start
          < (10 * start + (digitValue? c).getD 0 + 1) * 10 ^ text.length := ih _
        _ ≤ ((start + 1) * 10) * 10 ^ text.length := Nat.mul_le_mul_right _ (by omega)
        _ = (start + 1) * 10 ^ (c :: text).length := by rw [List.length_cons, Nat.pow_succ, Nat.mul_assoc, Nat.mul_comm 10]
  exact Nat.lt_of_lt_of_eq (general digits 0) (by simp)

end Text

/-- Scalars that a value on the line can stand for. -/
def Scalar.Heard : Scalar → Prop
  | .null => False
  | .bool _ => True
  | .int n => (Nat.toDigits 10 n.natAbs).length ≤ Fault.digitLimit
  | .float x => ∃ d : Decimal, x = d.nearest
  | .text s => Text.Ended s.toList

namespace Props

/-- Entries with keys that end a path or lead on to a dictionary, and with values that can be read. -/
def Heard : Props → Prop
  | nil => True
  | leaf key value rest => (Codec.Segment key ∧ Text.Ended key.toList ∧ value.Heard) ∧ rest.Heard
  | node key sub rest => (Codec.Segment key ∧ sub ≠ nil ∧ sub.Heard) ∧ rest.Heard

/-- Flat dictionaries of texts with no blank behind keys and texts. -/
def Worded : Props → Prop
  | nil => True
  | leaf key value rest =>
    (key ≠ "" ∧ Text.Ended key.toList) ∧ (∃ s, value = .text s ∧ Text.Ended s.toList) ∧ rest.Worded
  | node .. => False

/-- What can be read under a key. -/
def HeardAt (key : String) : Value → Prop
  | .scalar s => Codec.Segment key ∧ Text.Ended key.toList ∧ s.Heard
  | .dict d => Codec.Segment key ∧ d ≠ nil ∧ d.Heard

variable {p q rest : Props} {key : String} {value : Value}

theorem heard_cons : (cons key value rest).Heard ↔ HeardAt key value ∧ rest.Heard := by
  cases value <;> rfl

theorem cons_ne_nil : cons key value rest ≠ nil := by
  cases value <;> simp [cons]

theorem set_ne_nil : p.set key value ≠ nil := by
  cases p using byFirst with
  | nil => exact cons_ne_nil
  | cons k v rest =>
    rw [set_cons]
    split
    · exact cons_ne_nil
    · exact cons_ne_nil

theorem merge_ne_nil {override : Bool} (nonempty : p ≠ nil) : p.merge override q ≠ nil := by
  induction q generalizing p with
  | nil => exact nonempty
  | leaf k v rest ih =>
    rw [merge]
    refine ih ?_
    split
    · exact set_ne_nil
    · exact nonempty
  | node k sub rest _ ih =>
    rw [merge]
    refine ih ?_
    split
    · exact set_ne_nil
    · split
      · exact set_ne_nil
      · exact nonempty

/-- Of two dictionaries, one with entries leaves entries in the merged one. -/
theorem merge_ne_nil_of_right (nonempty : q ≠ nil) : p.merge true q ≠ nil := by
  cases q with
  | nil => exact (nonempty rfl).elim
  | leaf k v rest =>
    rw [merge, Bool.or_true, if_pos rfl]
    exact merge_ne_nil set_ne_nil
  | node k sub rest =>
    rw [merge]
    refine merge_ne_nil ?_
    split
    · exact set_ne_nil
    · have gives (held : Option Value) : givesWay true held = true := by
        unfold givesWay
        split <;> rfl
      rw [if_pos (gives _)]
      exact set_ne_nil

namespace Heard

theorem set (heard : p.Heard) (own : HeardAt key value) : (p.set key value).Heard := by
  induction p using byFirst with
  | nil => exact heard_cons.2 ⟨own, trivial⟩
  | cons k v rest _ ih =>
    obtain ⟨first, others⟩ := heard_cons.1 heard
    rw [set_cons]
    split
    · exact heard_cons.2 ⟨‹k = key› ▸ own, others⟩
    · exact heard_cons.2 ⟨first, ih others⟩

theorem get? (heard : p.Heard) (found : p.get? key = some value) : HeardAt key value := by
  induction p using byFirst with
  | nil => cases found
  | cons k v rest _ ih =>
    obtain ⟨first, others⟩ := heard_cons.1 heard
    rw [get?_cons] at found
    split at found
    · next same =>
      cases found
      exact same ▸ first
    · exact ih others found

theorem erase (heard : p.Heard) : (p.erase key).Heard := by
  induction p using byFirst with
  | nil => trivial
  | cons k v rest _ ih =>
    obtain ⟨first, others⟩ := heard_cons.1 heard
    rw [erase_cons]
    split
    · exact others
    · exact heard_cons.2 ⟨first, ih others⟩

theorem merge (heard : p.Heard) (more : q.Heard) : (p.merge true q).Heard := by
  induction q generalizing p with
  | nil => exact heard
  | leaf k v rest ih =>
    rw [Props.merge, Bool.or_true, if_pos rfl]
    exact ih (heard.set more.1) more.2
  | node k sub rest below ih =>
    obtain ⟨⟨segment, nonempty, inner⟩, others⟩ := more
    rw [Props.merge]
    refine ih ?_ others
    split
    · next current found =>
      exact heard.set ⟨segment, merge_ne_nil_of_right nonempty, below (heard.get? found).2.2 inner⟩
    · split
      · exact heard.set ⟨segment, merge_ne_nil_of_right nonempty, below trivial inner⟩
      · exact heard

theorem setPath {path : List String} {v : Scalar} (heard : p.Heard) (segments : ∀ key ∈ path, Codec.Segment key)
    (ended : ∀ key ∈ path.getLast?, Text.Ended key.toList) (own : v.Heard) : (p.setPath path v).Heard := by
  induction path generalizing p with
  | nil => exact heard
  | cons key path ih =>
    have segment := segments key List.mem_cons_self
    cases path with
    | nil => exact heard.set ⟨segment, ended key rfl, own⟩
    | cons next path =>
      have inner : (p.dictAt key).Heard := by
        unfold dictAt
        split
        · next found => exact (heard.get? found).2.2
        · trivial
      rw [setPath_cons (List.cons_ne_nil _ _)]
      refine heard.set ⟨segment, ?_, ih inner (fun x member => segments x (List.mem_cons_of_mem key member)) ended⟩
      cases path with
      | nil => exact set_ne_nil
      | cons _ _ => exact set_ne_nil

end Heard

theorem Tidy.setPath {path : List String} {v : Scalar} (tidy : p.Tidy) : (p.setPath path v).Tidy := by
  induction path generalizing p with
  | nil => exact tidy
  | cons key path ih =>
    cases path with
    | nil => exact tidy.set trivial
    | cons next path =>
      have inner : (p.dictAt key).Tidy := by
        unfold dictAt
        split
        · next found => exact tidy.get? found
        · trivial
      rw [setPath_cons (List.cons_ne_nil _ _)]
      exact tidy.set (ih inner)

namespace Worded

theorem set {s : String} (worded : p.Worded) (nonempty : key ≠ "") (ended : Text.Ended key.toList)
    (ended' : Text.Ended s.toList) : (p.set key (.scalar (.text s))).Worded := by
  induction p with
  | nil => exact ⟨⟨nonempty, ended⟩, ⟨s, rfl, ended'⟩, trivial⟩
  | leaf k v rest ih =>
    rw [Props.set]
    split
    · next same =>
      subst same
      exact ⟨⟨nonempty, ended⟩, ⟨s, rfl, ended'⟩, worded.2.2⟩
    · exact ⟨worded.1, worded.2.1, ih worded.2.2⟩
  | node => exact worded.elim

theorem overlay (worded : p.Worded) (more : q.Worded) : (p.overlay q).Worded := by
  induction q generalizing p with
  | nil => exact worded
  | leaf k v rest ih =>
    obtain ⟨⟨nonempty, ended⟩, ⟨s, rfl, ended'⟩, others⟩ := more
    exact ih (worded.set nonempty ended ended') others
  | node => exact more.elim

end Worded

end Props

/-! Reading a line -/

namespace Codec
open Text (Ended)
variable {text part key value : List Char} {escaped : Bool}

theorem getLast?_unescape (text : List Char) : (unescape text).getLast? = text.getLast? := by
  induction text using unescape.induct with
  | case1 c rest ih => rw [unescape, List.getLast?_cons, ih, List.getLast?_cons_cons, List.getLast?_cons]
  | case2 c rest other ih =>
    rw [unescape, List.getLast?_cons, ih, List.getLast?_cons]
    exact other
  | case3 => rfl

theorem unescape_ne_nil (nonempty : text ≠ []) : unescape text ≠ [] := by
  intro empty
  have last := getLast?_unescape text
  rw [empty, eq_comm, List.getLast?_nil, List.getLast?_eq_none_iff] at last
  exact nonempty last

/-- Keys and values of entries have no blank behind them, and keys have something in them. -/
theorem ended_of_entry? (found : entry? part = some (.pair key value escaped)) :
    key ≠ [] ∧ Ended key ∧ Ended value := by
  unfold entry? at found
  dsimp only at found
  split at found
  · cases found
  split at found
  · cases found
  split at found
  · cases found
  · next proper =>
    cases found
    refine ⟨unescape_ne_nil fun empty => proper (List.isEmpty_iff.2 empty), ?_, ?_⟩
    · rw [Ended, getLast?_unescape]
      exact (Text.trimmed_trim _).2
    · rw [Ended, getLast?_unescape]
      exact (Text.trimmed_trim _).2

theorem ended_of_mem_entries (member : .pair key value escaped ∈ entries text) : key ≠ [] ∧ Ended key ∧ Ended value := by
  obtain ⟨part, _, found⟩ := List.mem_filterMap.1 member
  exact ended_of_entry? found

theorem path_ne_nil (text : List Char) : path text ≠ [] := by
  cases text with
  | nil => exact List.cons_ne_nil _ _
  | cons c rest =>
    rw [path]
    split
    · exact List.cons_ne_nil _ _
    · cases path rest <;> exact List.cons_ne_nil _ _

theorem undotted_of_mem_path {piece : List Char} (member : piece ∈ path text) : '.' ∉ piece := by
  induction text generalizing piece with
  | nil =>
    cases List.mem_singleton.1 member
    exact List.not_mem_nil
  | cons c rest ih =>
    rw [path] at member
    split at member
    · rcases List.mem_cons.1 member with rfl | later
      · exact List.not_mem_nil
      · exact ih later
    · next other =>
      cases pieces : path rest with
      | nil => exact (path_ne_nil rest pieces).elim
      | cons first more =>
        rw [pieces] at member ih
        rcases List.mem_cons.1 member with rfl | later
        · have own := ih List.mem_cons_self
          simpa [Ne.symm other] using own
        · exact ih (List.mem_cons_of_mem first later)

/-- A path ends as its key does. -/
theorem ended_of_path {piece : List Char} (ended : Ended text) (last : piece ∈ (path text).getLast?) : Ended piece := by
  induction text generalizing piece with
  | nil =>
    cases Option.some.inj last
    exact ended
  | cons c rest ih =>
    have after : Ended rest := by
      cases rest with
      | nil => simp [Ended]
      | cons x rest => rwa [Ended, List.getLast?_cons_cons] at ended
    rw [path] at last
    split at last
    · rw [List.getLast?_cons_of_ne_nil (path_ne_nil rest)] at last
      exact ih after last
    · cases pieces : path rest with
      | nil => exact (path_ne_nil rest pieces).elim
      | cons first more =>
        rw [pieces] at last ih
        cases more with
        | cons next more => exact ih after (by simpa [extend] using last)
        | nil =>
          have own : Ended first := ih after rfl
          obtain rfl : [c] ++ first = piece := by simpa [extend] using last
          cases first with
          | cons x first =>
            rw [Ended, List.singleton_append, List.getLast?_cons_cons]
            exact own
          | nil =>
            -- no piece but the last is empty, so the key ends with its first character
            have empty : rest = [] := by
              cases rest with
              | nil => rfl
              | cons x rest =>
                rw [path] at pieces
                split at pieces
                · exact (path_ne_nil rest (List.cons.inj pieces).2).elim
                · cases inner : path rest with
                  | nil => exact (path_ne_nil rest inner).elim
                  | cons => rw [inner] at pieces; cases pieces
            rw [empty] at ended
            exact ended

/-- What an unescaped value stands for can be read. -/
theorem heard_scalarOf {s : Scalar} (ended : Ended value) (read : scalarOf value = .ok s) : s.Heard := by
  have text : (Scalar.text (String.ofList value)).Heard := by
    rw [Scalar.Heard, String.toList_ofList]
    exact ended
  unfold scalarOf at read
  split at read
  · cases read
    trivial
  split at read
  · cases read
    trivial
  split at read
  · next n _ =>
    split at read
    · split at read
      · cases read
      · next fits =>
        cases read
        have size : (n.integer).natAbs = Text.digitsValue n.whole := by
          rw [Numeral.integer]
          split <;> simp
        rw [Scalar.Heard, size]
        by_cases empty : n.whole = []
        · rw [empty]
          decide
        · exact Nat.le_trans ((Nat.length_toDigits_le_iff (by decide) (List.length_pos_iff.2 empty)).2
            (Text.digitsValue_lt n.whole)) (Nat.le_of_not_lt fits)
    · split at read
      · cases read
        exact ⟨_, rfl⟩
      · cases read
        exact text
  · cases read
    exact text

end Codec

namespace Props
open Codec
variable {p q : Props} {text : String}

theorem heard_enter {entry : Entry} (heard : p.Heard ∧ p.Tidy)
    (proper : ∀ key value escaped, entry = .pair key value escaped → Text.Ended key ∧ Text.Ended value)
    (entered : p.enter entry = .ok q) : q.Heard ∧ q.Tidy := by
  cases entry with
  | malformed => cases entered; exact heard
  | pair key value escaped =>
    obtain ⟨ended, ended'⟩ := proper key value escaped rfl
    unfold enter at entered
    dsimp only at entered
    split at entered
    · cases entered
      exact heard
    · next full =>
      have segments : ∀ piece ∈ (path key).map String.ofList, Segment piece := by
        intro piece member
        obtain ⟨chars, inside, rfl⟩ := List.mem_map.1 member
        refine ⟨fun empty => full ?_, ?_⟩
        · rw [List.any_eq_true]
          exact ⟨chars, inside, List.isEmpty_iff.2 (by simpa using congrArg String.toList empty)⟩
        · rw [String.toList_ofList]
          exact undotted_of_mem_path inside
      have last : ∀ piece ∈ ((path key).map String.ofList).getLast?, Text.Ended piece.toList := by
        intro piece member
        rw [List.getLast?_map] at member
        obtain ⟨chars, inside, rfl⟩ := Option.map_eq_some_iff.1 member
        rw [String.toList_ofList]
        exact ended_of_path ended inside
      obtain ⟨s, read, same⟩ : ∃ s, s.Heard ∧ q = p.setPath ((path key).map String.ofList) s := by
        cases escaped with
        | true =>
          cases entered
          refine ⟨_, ?_, rfl⟩
          rw [Scalar.Heard, String.toList_ofList]
          exact ended'
        | false =>
          cases read : scalarOf value with
          | error fault => simp [read] at entered
          | ok s =>
            simp only [read] at entered
            cases entered
            exact ⟨s, heard_scalarOf ended' read, rfl⟩
      rw [same]
      exact ⟨heard.1.setPath segments last read, heard.2.setPath⟩

/-- What each entry keeps, all of them keep. -/
theorem enter_induction {holds : Props → Prop} {list : List Entry}
    (keeps : ∀ entry ∈ list, ∀ p q : Props, holds p → p.enter entry = .ok q → holds q) (start : holds p)
    (folds : list.foldlM enter p = .ok q) : holds q := by
  induction list generalizing p with
  | nil =>
    cases folds
    exact start
  | cons entry list ih =>
    rw [List.foldlM_cons] at folds
    obtain ⟨next, entered, others⟩ := bind_eq_ok.1 folds
    exact ih (fun x member => keeps x (List.mem_cons_of_mem entry member))
      (keeps entry List.mem_cons_self p next start entered) others

/-- Whatever a line of props is, what it is read as can be read. -/
theorem heard_read (read : Props.read text = .ok p) : p.Heard ∧ p.Tidy := by
  refine enter_induction (fun entry member _ _ heard entered => heard_enter heard (fun key value escaped same => ?_) entered)
    (⟨trivial, trivial⟩ : (nil : Props).Heard ∧ (nil : Props).Tidy) read
  exact (ended_of_mem_entries (same ▸ member)).2

/-- Whatever a line of metadata is, what it is read as is words. -/
theorem worded_readMetadata (text : String) : (readMetadata text).Worded ∧ (readMetadata text).Tidy := by
  have heard : (nil : Props).Worded ∧ (nil : Props).Tidy := ⟨trivial, trivial⟩
  have proper : ∀ key value escaped, .pair key value escaped ∈ entries text.toList →
      key ≠ [] ∧ Text.Ended key ∧ Text.Ended value := fun _ _ _ member => ended_of_mem_entries member
  unfold readMetadata
  generalize (nil : Props) = start at heard ⊢
  generalize entries text.toList = list at proper ⊢
  induction list generalizing start with
  | nil => exact heard
  | cons entry list ih =>
    refine ih _ ?_ fun key value escaped member => proper key value escaped (List.mem_cons_of_mem entry member)
    cases entry with
    | malformed => exact heard
    | pair key value escaped =>
      obtain ⟨nonempty, ended, ended'⟩ := proper key value escaped List.mem_cons_self
      refine ⟨heard.1.set (fun empty => nonempty ?_) ?_ ?_, heard.2.set trivial⟩
      · simpa using congrArg String.toList empty
      · rwa [String.toList_ofList]
      · rwa [String.toList_ofList]

end Props

namespace Connector
open Props (Heard HeardAt)
variable {p : Props} {key : String}

theorem heard_dropping {drop : Props → Props} (heard : p.Heard) (drops : ∀ d : Props, d.Heard → (drop d).Heard) :
    (dropping p key drop).Heard := by
  rcases dropping_cases p key drop with same | same | ⟨d, found, nonempty, same⟩
  · rw [same]
    exact heard
  · rw [same]
    exact heard.erase
  · obtain ⟨segment, _, inner⟩ := heard.get? found
    rw [same]
    exact heard.set ⟨segment, nonempty, drops d inner⟩

theorem heard_residue (heard : p.Heard) : (residue p).Heard := by
  unfold residue
  refine heard_dropping (heard_dropping heard fun arrow heard => ?_) fun stroke heard => heard.erase.erase
  exact heard_dropping (heard_dropping heard fun _ heard => heard.erase) fun _ heard => heard.erase

/-- What a connector says of the stroke. -/
def stroke (line : Line) : Props :=
  .leaf "width" (.int line.width) (line.pattern?.elim .nil fun pattern => .leaf "pattern" (.text pattern) .nil)

/-- What a connector says of the arrowhead at one end, before what it says of the other. -/
def tip (key : String) (head : Option Arrowhead) (rest : Props) : Props :=
  head.elim rest fun head => .node key (.leaf "type" (.text head.name) .nil) rest

/-- What a connector says of both arrowheads. -/
def tips (start stop : Option Arrowhead) : Props :=
  tip "start" start (tip "end" stop .nil)

theorem namesHead_name (head : Arrowhead) : EdgeStyle.namesHead (.scalar (.text head.name)) = true := by
  cases head <;> rfl

/-- The props of a connector, entry by entry. -/
theorem props_eq (c : Connector) : c.props = .node "stroke" (stroke c.line)
    (if tips c.start c.stop = .nil then .nil else .node "arrow" (tips c.start c.stop) .nil) := by
  obtain ⟨line, start, stop⟩ := c
  have unnamed : EdgeStyle.namesHead (.scalar .null) = false := rfl
  cases start <;> cases stop <;> cases line <;>
    simp [props, style, EdgeStyle.props, namesHead_name, unnamed, tips, tip, stroke, Props.set, Props.cons,
      Props.isEmpty, Value.ofText?, Line.pattern?, Value.isPresent, Scalar.isPresent]

/-- The props of a connector can be read. -/
theorem heard_props (c : Connector) : c.props.Heard ∧ c.props.Tidy := by
  have known : ∀ key ∈ ["stroke", "width", "pattern", "arrow", "start", "end", "type"],
      (key ≠ "" ∧ '.' ∉ key.toList) ∧ ∀ x ∈ key.toList.getLast?, Text.isBlank x = false := by decide
  have names : ∀ head ∈ Arrowhead.all, ∀ x ∈ head.name.toList.getLast?, Text.isBlank x = false := by decide
  have width (line : Line) : (Scalar.int line.width).Heard := by
    unfold Scalar.Heard
    cases line <;> decide
  have pattern (line : Line) : ∀ s ∈ line.pattern?, (Scalar.text s).Heard := by
    unfold Scalar.Heard Text.Ended
    cases line <;> decide
  have stroke : (stroke c.line).Heard ∧ (Connector.stroke c.line).Tidy := by
    unfold Connector.stroke
    cases said : c.line.pattern? with
    | none => exact ⟨⟨⟨(known _ (by decide)).1, (known _ (by decide)).2, width _⟩, trivial⟩, rfl, trivial⟩
    | some s =>
      exact ⟨⟨⟨(known _ (by decide)).1, (known _ (by decide)).2, width _⟩,
        ⟨(known _ (by decide)).1, (known _ (by decide)).2, pattern _ s said⟩, trivial⟩, rfl, rfl, trivial⟩
  have tip {key : String} (own : key = "start" ∨ key = "end") (head : Option Arrowhead) {rest : Props}
      (fresh : rest.get? key = none) (both : rest.Heard ∧ rest.Tidy) :
      (tip key head rest).Heard ∧ (Connector.tip key head rest).Tidy := by
    have segment : Codec.Segment key := by
      rcases own with rfl | rfl <;> exact (known _ (by decide)).1
    cases head with
    | none => exact both
    | some head =>
      exact ⟨⟨⟨segment, by simp, ⟨(known _ (by decide)).1, (known _ (by decide)).2, names head head.mem_all⟩, trivial⟩,
        both.1⟩, fresh, ⟨rfl, trivial⟩, both.2⟩
  have tips : (tips c.start c.stop).Heard ∧ (Connector.tips c.start c.stop).Tidy := by
    refine tip (.inl rfl) c.start ?_ (tip (.inr rfl) c.stop rfl ⟨trivial, trivial⟩)
    cases c.stop <;> rfl
  rw [props_eq]
  split
  · exact ⟨⟨⟨(known _ (by decide)).1, by simp [Connector.stroke], stroke.1⟩, trivial⟩, rfl, stroke.2, trivial⟩
  · next some =>
    exact ⟨⟨⟨(known _ (by decide)).1, by simp [Connector.stroke], stroke.1⟩,
      ⟨(known _ (by decide)).1, some, tips.1⟩, trivial⟩, rfl, stroke.2, rfl, tips.2, trivial⟩

end Connector
end LiveDiagram
