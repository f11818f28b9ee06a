import LiveDiagram.Source.Highlight
import Mathlib.Data.List.Forall2

/-! Fragments read as markup. A small reader tells characters from tags, and takes a quoted value to its closing quote,
whatever is in between. What it finds in the fragment of a line are the spans of the line around its characters; and the
title of an error is the whole of its message. -/
namespace LiveDiagram.Markup

open Highlight

/-! Reading markup -/

structure Tag where
  name : List Char
  attributes : List (List Char × List Char)
deriving DecidableEq, Repr

inductive Item
  | char (c : Char)
  | tag (t : Tag)
deriving DecidableEq, Repr

/-- The place where a reader is: between tags, or within the name of a tag, the name of an attribute, a value or between them. -/
inductive Mode
  | content
  | name (seen : List Char)
  | key (t : Tag) (seen : List Char)
  | equals (t : Tag) (seen : List Char)
  | value (t : Tag) (key seen : List Char)
  | behind (t : Tag)
deriving DecidableEq, Repr

/-- Reads one character. A less-than sign can only begin a tag, and within a value only the quote means something. -/
def Mode.step : Mode → Char → Option (Mode × List Item)
  | content, c => if c = '<' then some (name [], []) else some (content, [.char c])
  | name seen, c =>
    if c = '>' then some (content, [.tag ⟨seen, []⟩])
    else if c = ' ' then some (key ⟨seen, []⟩ [], [])
    else if c = '<' then none
    else some (name (seen ++ [c]), [])
  | key t seen, c =>
    if c = '=' then some (equals t seen, [])
    else if c = '<' then none
    else some (key t (seen ++ [c]), [])
  | equals t seen, c => if c = '"' then some (value t seen [], []) else none
  | value t k seen, c =>
    if c = '"' then some (behind { t with attributes := t.attributes ++ [(k, seen)] }, [])
    else if c = '<' then none
    else some (value t k (seen ++ [c]), [])
  | behind t, c =>
    if c = ' ' then some (key t [], [])
    else if c = '>' then some (content, [.tag t])
    else none

/-- Reads a text from a place on: where this leads, and the items on the way. -/
def read (m : Mode) : List Char → Option (Mode × List Item)
  | [] => some (m, [])
  | c :: rest => (m.step c).bind fun first => (read first.1 rest).map fun later => (later.1, first.2 ++ later.2)

/-- The characters between the tags. -/
def characters (items : List Item) : List Char :=
  items.filterMap fun
    | .char c => some c
    | .tag _ => none

def tags (items : List Item) : List Tag :=
  items.filterMap fun
    | .char _ => none
    | .tag t => some t

/-! References -/

/-- The references in content and what they mean. -/
def references : List (List Char × Char) :=
  [("&amp;".toList, '&'), ("&lt;".toList, '<'), ("&gt;".toList, '>')]

/-- The references in a quoted value. -/
def valueReferences : List (List Char × Char) :=
  references ++ [("&quot;".toList, '"'), ("&#x27;".toList, '\'')]

/-- Puts what they mean in the place of references. -/
def decode (known : List (List Char × Char)) : List Char → List Char
  | [] => []
  | c :: rest =>
    match known.find? (·.1.isPrefixOf (c :: rest)) with
    | some (reference, meant) => meant :: decode known (rest.drop (reference.length - 1))
    | none => c :: decode known rest
termination_by text => text.length
decreasing_by all_goals simp only [List.length_drop, List.length_cons]; omega

/-! Spans -/

def span (kind : SpanKind) : Tag :=
  ⟨"span".toList, [("class".toList, kind.className.toList)]⟩

def errorSpan (title : List Char) : Tag :=
  ⟨"span".toList, [("class".toList, "syntax-error".toList), ("title".toList, title)]⟩

def spanEnd : Tag :=
  ⟨"/span".toList, []⟩

/-- Characters and balanced spans. -/
inductive Nested : List Item → Prop
  | nil : Nested []
  | char (c : Char) {rest : List Item} : Nested rest → Nested (.char c :: rest)
  | span (kind : SpanKind) {inner rest : List Item} : Nested inner → Nested rest →
      Nested (.tag (Markup.span kind) :: inner ++ .tag spanEnd :: rest)

/-- What stands for a line: its characters with spans around some of them, and the span of its error around them all. -/
structure Shows (message? : Option String) (line : String) (items : List Item) : Prop where
  text : decode references (characters items) = line.toList
  spans : message? = none → Nested items
  error : ∀ message ∈ message?, ∃ title inner, items = .tag (errorSpan title) :: inner ++ [.tag spanEnd] ∧ Nested inner ∧
    decode valueReferences title = message.toList

variable {m next last : Mode} {text rest : List Char} {items more inner : List Item} {c : Char}

/-! Steps of the reader -/

theorem read_append (first : read m text = some (next, items)) (second : read next rest = some (last, more)) :
    read m (text ++ rest) = some (last, items ++ more) := by
  induction text generalizing m items with
  | nil =>
    cases first
    exact second
  | cons c text ih =>
    obtain ⟨taken, stepped, later⟩ := Option.bind_eq_some_iff.1 first
    obtain ⟨others, onward, same⟩ := Option.map_eq_some_iff.1 later
    cases same
    rw [List.cons_append, read, stepped, Option.bind_some, ih onward, Option.map_some, List.append_assoc]

theorem read_content (plain : '<' ∉ text) : read .content text = some (.content, text.map .char) := by
  induction text with
  | nil => rfl
  | cons c text ih =>
    rw [List.mem_cons, not_or] at plain
    rw [read, Mode.step, if_neg (Ne.symm plain.1), Option.bind_some, ih plain.2]
    rfl

/-- A value without quotes and less-than signs is not at its end. -/
theorem read_value (plain : '"' ∉ text ∧ '<' ∉ text) (t : Tag) (k seen : List Char) :
    read (.value t k seen) text = some (.value t k (seen ++ text), []) := by
  induction text generalizing seen with
  | nil => simp [read]
  | cons c text ih =>
    simp only [List.mem_cons, not_or] at plain
    rw [read, Mode.step, if_neg (Ne.symm plain.1.1), if_neg (Ne.symm plain.2.1), Option.bind_some,
      ih ⟨plain.1.2, plain.2.2⟩, List.append_assoc]
    rfl

/-- Whether a tag is begun and not read to its end. -/
def pending : Mode → Nat
  | .content => 0
  | _ => 1

theorem count_step {found : List Item} (stepped : m.step c = some (next, found)) :
    List.count '<' [c] + pending m = (tags found).length + pending next := by
  cases m <;> simp only [Mode.step] at stepped <;> grind [tags, pending]

/-- Every less-than sign begins a tag. -/
theorem count_read (found : read m text = some (last, items)) :
    text.count '<' + pending m = (tags items).length + pending last := by
  induction text generalizing m items with
  | nil =>
    cases found
    rfl
  | cons c text ih =>
    obtain ⟨taken, stepped, later⟩ := Option.bind_eq_some_iff.1 found
    obtain ⟨others, onward, same⟩ := Option.map_eq_some_iff.1 later
    cases same
    have first := count_step stepped
    have behind := ih onward
    rw [← List.singleton_append, List.count_append]
    unfold tags at *
    rw [List.filterMap_append, List.length_append]
    omega

/-! Balance -/

theorem Nested.characters (text : List Char) : Nested (text.map .char) := by
  induction text with
  | nil => exact .nil
  | cons c text ih => exact ih.char c

theorem Nested.append (first : Nested items) (second : Nested more) : Nested (items ++ more) := by
  induction first with
  | nil => exact second
  | char c _ ih => exact ih.char c
  | span kind inside _ _ ih =>
    rw [List.append_assoc, List.cons_append]
    exact .span kind inside ih

theorem characters_append (items more : List Item) : characters (items ++ more) = characters items ++ characters more :=
  List.filterMap_append

theorem characters_map (text : List Char) : characters (text.map .char) = text := by
  unfold characters
  rw [List.filterMap_map]
  exact List.filterMap_some

/-! Escapes -/

theorem decode_flatMap {known : List (List Char × Char)} {escape : Char → List Char}
    (meant : ∀ c rest, decode known (escape c ++ rest) = c :: decode known rest) (text : List Char) :
    decode known (text.flatMap escape) = text := by
  induction text with
  | nil => simp [decode]
  | cons c text ih => rw [List.flatMap_cons, meant, ih]

/-- A character that begins no reference stands for itself. -/
theorem decode_cons {known : List (List Char × Char)} (begins : ∀ r ∈ known, r.1.head? = some '&') (plain : c ≠ '&')
    (rest : List Char) : decode known (c :: rest) = c :: decode known rest := by
  have none : known.find? (·.1.isPrefixOf (c :: rest)) = none := by
    rw [List.find?_eq_none]
    intro r member front
    have first := begins r member
    cases name : r.1 with
    | nil => simp [name] at first
    | cons d name =>
      rw [‹r.1 = _›] at first front
      simp at first front
      exact plain (front.1 ▸ first)
  rw [decode, none]

/-- A reference stands for what it means. -/
theorem decode_reference {known : List (List Char × Char)} {meant : Char} (name rest : List Char)
    (found : known.find? (·.1.isPrefixOf (c :: (name ++ rest))) = some (c :: name, meant)) :
    decode known (c :: name ++ rest) = meant :: decode known rest := by
  rw [List.cons_append, decode, found]
  simp

theorem decode_escapeChar {known : List (List Char × Char)} (begins : ∀ r ∈ known, r.1.head? = some '&')
    (ampersand : ∀ rest, known.find? (·.1.isPrefixOf ("&amp;".toList ++ rest)) = some ("&amp;".toList, '&'))
    (less : ∀ rest, known.find? (·.1.isPrefixOf ("&lt;".toList ++ rest)) = some ("&lt;".toList, '<'))
    (greater : ∀ rest, known.find? (·.1.isPrefixOf ("&gt;".toList ++ rest)) = some ("&gt;".toList, '>'))
    (c : Char) (rest : List Char) : decode known (escapeChar c ++ rest) = c :: decode known rest := by
  unfold escapeChar
  split
  · next same => exact same ▸ decode_reference _ rest (ampersand rest)
  split
  · next same => exact same ▸ decode_reference _ rest (less rest)
  split
  · next same => exact same ▸ decode_reference _ rest (greater rest)
  · next plain _ _ => exact decode_cons begins plain rest

theorem decode_content (text : List Char) : decode references (text.flatMap escapeChar) = text :=
  decode_flatMap (decode_escapeChar (by decide) (fun _ => rfl) (fun _ => rfl) (fun _ => rfl)) text

theorem decode_value (text : List Char) : decode valueReferences (text.flatMap escapeAttributeChar) = text := by
  apply decode_flatMap
  intro c rest
  unfold escapeAttributeChar
  split
  · next same => exact same ▸ decode_reference "quot;".toList rest rfl
  split
  · next same => exact same ▸ decode_reference "#x27;".toList rest rfl
  · exact decode_escapeChar (by decide) (fun _ => rfl) (fun _ => rfl) (fun _ => rfl) c rest

/-- Nothing that is written for a character is a less-than sign. -/
theorem less_not_mem_escapeChar (c : Char) : '<' ∉ escapeChar c := by
  unfold escapeChar
  split
  · decide
  split
  · decide
  split
  · decide
  · next other _ => simpa using Ne.symm other

theorem less_not_mem_content (text : List Char) : '<' ∉ text.flatMap escapeChar := by
  rw [List.mem_flatMap]
  rintro ⟨c, _, there⟩
  exact less_not_mem_escapeChar c there

theorem not_mem_value (text : List Char) :
    '"' ∉ text.flatMap escapeAttributeChar ∧ '<' ∉ text.flatMap escapeAttributeChar := by
  have quote (c : Char) (other : c ≠ '"') : '"' ∉ escapeChar c := by
    unfold escapeChar
    split
    · decide
    split
    · decide
    split
    · decide
    · simpa using Ne.symm other
  have own (c : Char) : '"' ∉ escapeAttributeChar c ∧ '<' ∉ escapeAttributeChar c := by
    unfold escapeAttributeChar
    split
    · decide
    split
    · decide
    · next other _ => exact ⟨quote c other, less_not_mem_escapeChar c⟩
  simp only [List.mem_flatMap, not_exists, not_and]
  exact ⟨fun c _ => (own c).1, fun c _ => (own c).2⟩

/-! Lines -/

/-- The items of a stretch. -/
def itemsOf (s : Stretch) : List Item :=
  let content := (s.text.flatMap escapeChar).map .char
  match s.kind with
  | none => content
  | some kind => .tag (span kind) :: content ++ [.tag spanEnd]

theorem read_span (kind : SpanKind) : read .content ("<span class=\"".toList ++ kind.className.toList ++ "\">".toList) =
    some (.content, [.tag (span kind)]) := by
  cases kind <;> decide

theorem read_spanEnd : read .content "</span>".toList = some (.content, [.tag spanEnd]) := by
  decide

theorem read_stretch (s : Stretch) : read .content s.render = some (.content, itemsOf s) := by
  have content := read_content (less_not_mem_content s.text)
  unfold Stretch.render itemsOf
  cases s.kind with
  | none => exact content
  | some kind => exact read_append (read_append (read_span kind) content) read_spanEnd

theorem read_stretches (stretches : List Stretch) :
    read .content (stretches.flatMap Stretch.render) = some (.content, stretches.flatMap itemsOf) := by
  induction stretches with
  | nil => rfl
  | cons s stretches ih => exact read_append (read_stretch s) ih

theorem nested_stretches (stretches : List Stretch) : Nested (stretches.flatMap itemsOf) := by
  induction stretches with
  | nil => exact .nil
  | cons s stretches ih =>
    apply Nested.append _ ih
    have content := Nested.characters (s.text.flatMap escapeChar)
    unfold itemsOf
    cases s.kind with
    | none => exact content
    | some kind => exact .span kind content .nil

theorem characters_stretches (stretches : List Stretch) :
    characters (stretches.flatMap itemsOf) = (stretches.flatMap Stretch.text).flatMap escapeChar := by
  induction stretches with
  | nil => rfl
  | cons s stretches ih =>
    have own : characters (itemsOf s) = s.text.flatMap escapeChar := by
      unfold itemsOf
      cases s.kind with
      | none => exact characters_map _
      | some kind =>
        dsimp only
        rw [characters_append]
        simp [characters]
    rw [List.flatMap_cons, characters_append, own, ih, List.flatMap_cons, List.flatMap_append]

/-- The stretches of a line are cut out of it without gaps. -/
theorem text_stretches (before : Option Char) (line : List Char) : (stretches before line).flatMap Stretch.text = line := by
  induction before, line using stretches.induct with
  | case1 => simp [stretches]
  | case2 before c rest kind more same text ih =>
    rw [stretches, same]
    dsimp only
    rw [List.flatMap_cons, ih, List.cons_append, List.take_append_drop]

/-- The fragment of a line without its error. -/
theorem read_renderLine (line : List Char) : ∃ items, read .content (renderLine line) = some (.content, items) ∧
    Nested items ∧ decode references (characters items) = line := by
  refine ⟨_, read_stretches (stretches none line), nested_stretches _, ?_⟩
  rw [characters_stretches, text_stretches, decode_content]

theorem read_renderError (message : String) (fragment : List Char) (shown : read .content fragment = some (.content, items)) :
    read .content (renderError message fragment) =
      some (.content, .tag (errorSpan (message.toList.flatMap escapeAttributeChar)) :: items ++ [.tag spanEnd]) := by
  have opening : read .content "<span class=\"syntax-error\" title=\"".toList =
      some (.value ⟨"span".toList, [("class".toList, "syntax-error".toList)]⟩ "title".toList [], []) := by
    decide
  have title := read_value (not_mem_value message.toList) ⟨"span".toList, [("class".toList, "syntax-error".toList)]⟩
    "title".toList []
  have closing : read (.value ⟨"span".toList, [("class".toList, "syntax-error".toList)]⟩ "title".toList
      (message.toList.flatMap escapeAttributeChar)) "\">".toList =
        some (.content, [.tag (errorSpan (message.toList.flatMap escapeAttributeChar))]) := rfl
  exact read_append (read_append (read_append (read_append opening title) closing) shown) read_spanEnd

/-- The fragment of a line, with its error if it has one. -/
theorem exists_shown (message? : Option String) (line : String) : ∃ items,
    read .content (match message? with
      | some message => renderError message (renderLine line.toList)
      | none => renderLine line.toList) = some (.content, items) ∧ Shows message? line items := by
  obtain ⟨items, found, nested, text⟩ := read_renderLine line.toList
  cases message? with
  | none => exact ⟨items, found, text, fun _ => nested, nofun⟩
  | some message =>
    refine ⟨_, read_renderError message _ found, ?_, nofun, ?_⟩
    · have inner : characters (.tag (errorSpan (message.toList.flatMap escapeAttributeChar)) :: items ++ [.tag spanEnd]) =
          characters items := by
        rw [characters_append]
        exact List.append_nil _
      rw [inner]
      exact text
    · intro _ same
      cases same
      exact ⟨_, items, rfl, nested, decode_value message.toList⟩

/-- Each line has a fragment that shows it and nothing else, and every less-than sign in it begins one of the tags. -/
theorem render_shows (error? : Int → Option String) (lines : List String) :
    List.Forall₂ (fun line fragment => ∃ items, read .content fragment.toList = some (.content, items) ∧
        Shows (error? line.2) line.1 items ∧ fragment.toList.count '<' = (tags items).length)
      lines.zipIdx (render error? lines) := by
  have shown (first : Nat) : List.Forall₂ (fun line fragment => ∃ items,
      read .content fragment.toList = some (.content, items) ∧ Shows (error? line.2) line.1 items ∧
        fragment.toList.count '<' = (tags items).length)
      (lines.zipIdx first) (renderLines error? first lines) := by
    induction lines generalizing first with
    | nil => exact .nil
    | cons line lines ih =>
      obtain ⟨items, found, shows⟩ := exists_shown (error? first) line
      have signs := count_read found
      rw [List.zipIdx_cons, renderLines]
      refine .cons ⟨items, ?_, shows, ?_⟩ (ih (first + 1))
      · rw [String.toList_ofList]
        exact found
      · rw [String.toList_ofList]
        exact signs
  exact shown 0

end LiveDiagram.Markup
