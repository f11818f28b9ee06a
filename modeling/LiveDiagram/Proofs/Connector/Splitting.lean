import LiveDiagram.Proofs.Connector.Merging
import LiveDiagram.Proofs.Connector.Reading

/-! The one way to take a connector apart. Arrowheads and lines share characters, but no text is made of them in two
ways, so whichever line is tried first and wherever it is looked for, the same connector is found. -/
namespace LiveDiagram

/-- A style made of the entries of the tables: a line that has a symbol, and an arrowhead or none at each end. -/
structure EdgeStyle.Tabled (s : EdgeStyle) : Prop where
  line : ∃ line : Line, (Value.scalar (.int line.width)).same s.width = true ∧
    (Value.ofText? line.pattern?).same s.pattern = true
  start : ∃ head : Option Arrowhead, s.start = .ofText? (head.map Arrowhead.name)
  stop : ∃ head : Option Arrowhead, s.stop = .ofText? (head.map Arrowhead.name)

/-- A style with a symbol for everything in it is the style of a connector, up to how its width is written. -/
theorem EdgeStyle.Tabled.exists_connector? {s : EdgeStyle} (tabled : s.Tabled) : ∃ c : Connector,
    s.connector? = .ok (some c) ∧ c.style.width.same s.width = true ∧ c.style.pattern.same s.pattern = true ∧
      c.style.start = s.start ∧ c.style.stop = s.stop := by
  obtain ⟨⟨line, width, pattern⟩, ⟨start, first⟩, ⟨stop, last⟩⟩ := tabled
  obtain ⟨found, lookup⟩ : ∃ found, s.line? = some found := by
    refine Option.isSome_iff_exists.1 (List.find?_isSome.2 ⟨line, line.mem_all, ?_⟩)
    rw [width, pattern]
    rfl
  have own := List.find?_some lookup
  rw [Bool.and_eq_true] at own
  refine ⟨⟨found, start, stop⟩, ?_, own.1, own.2, first.symm, last.symm⟩
  unfold connector?
  rw [lookup, first, last]
  simp only [Connector.head?_name, bind, Except.bind]
  rfl

namespace Connector

variable {c c' : Connector} {text left middle right : List Char}

/-- A text as the symbol of an arrowhead or nothing, the symbol of a line, and again of an arrowhead or nothing. -/
structure Split (text left middle right : List Char) : Prop where
  whole : text = left ++ middle ++ right
  left : left = [] ∨ ∃ head : Arrowhead, left = head.startSymbol
  middle : ∃ line : Line, middle = [line.symbol.1, line.symbol.2]
  right : right = [] ∨ ∃ head : Arrowhead, right = head.endSymbol

/-- No two connectors have one text. -/
theorem text_inj (same : c.text = c'.text) : c = c' := by
  have first := read?_text c
  rw [same, read?_text c'] at first
  exact (Option.some.inj first).symm

/-- The parts of a text are the symbols of a connector. -/
theorem split_iff : Split text left middle right ↔ ∃ c : Connector, text = c.text ∧
    left = c.start.elim [] Arrowhead.startSymbol ∧ middle = [c.line.symbol.1, c.line.symbol.2] ∧
      right = c.stop.elim [] Arrowhead.endSymbol := by
  have optional {symbol : Arrowhead → List Char} {part : List Char} :
      (part = [] ∨ ∃ head, part = symbol head) ↔ ∃ head : Option Arrowhead, part = head.elim [] symbol :=
    (Option.exists (p := fun head => part = head.elim [] symbol)).symm
  constructor
  · rintro ⟨whole, first, ⟨line, rfl⟩, last⟩
    obtain ⟨start, rfl⟩ := optional.1 first
    obtain ⟨stop, rfl⟩ := optional.1 last
    exact ⟨⟨line, start, stop⟩, whole, rfl, rfl, rfl⟩
  · rintro ⟨c, rfl, rfl, rfl, rfl⟩
    exact ⟨rfl, optional.2 ⟨_, rfl⟩, ⟨_, rfl⟩, optional.2 ⟨_, rfl⟩⟩

/-- A text can be taken apart exactly if it is read. -/
theorem exists_read?_iff : (∃ c, read? text = some c) ↔ ∃ left middle right, Split text left middle right := by
  constructor
  · rintro ⟨c, found⟩
    exact ⟨_, _, _, split_iff.2 ⟨c, (text_of_read? found).symm, rfl, rfl, rfl⟩⟩
  · rintro ⟨left, middle, right, split⟩
    obtain ⟨c, rfl, _⟩ := split_iff.1 split
    exact ⟨c, read?_text c⟩

theorem Split.unique {left' middle' right' : List Char} (split : Split text left middle right)
    (split' : Split text left' middle' right') : left = left' ∧ middle = middle' ∧ right = right' := by
  obtain ⟨c, whole, rfl, rfl, rfl⟩ := split_iff.1 split
  obtain ⟨c', whole', rfl, rfl, rfl⟩ := split_iff.1 split'
  cases text_inj (whole.symm.trans whole')
  exact ⟨rfl, rfl, rfl⟩

/-- Whatever line at whatever place has arrowheads on both sides is what is read. -/
theorem read?_of_heads {line : Line} {start stop : Option Arrowhead}
    (whole : text = left ++ [line.symbol.1, line.symbol.2] ++ right)
    (first : head? Arrowhead.startSymbol left = some start) (last : head? Arrowhead.endSymbol right = some stop) :
    read? text = some ⟨line, start, stop⟩ := by
  have own : text = Connector.text ⟨line, start, stop⟩ := by
    rw [whole, ← symbol_of_head? first, ← symbol_of_head? last]
    rfl
  rw [own, read?_text]

/-- The connector of its own props. -/
theorem ofProps?_props (c : Connector) : ofProps? c.props = .ok (some c) :=
  ofProps?_merge c (p := .nil) trivial ⟨rfl, rfl⟩

/-- A text is read exactly if it can be taken apart, which goes in one way only, and every line that is tried at a place
where it fits finds the same connector. It is told by its style and by its props, and is written as the text. The
styles made of table entries are all written as texts, and are read again from them. -/
theorem unambiguous :
    (∀ text : List Char,
      ((∃ c, read? text = some c) ↔ ∃ left middle right, Split text left middle right) ∧
      (∀ left middle right left' middle' right', Split text left middle right → Split text left' middle' right' →
        left = left' ∧ middle = middle' ∧ right = right') ∧
      (∀ (left right : List Char) (line : Line) (start stop : Option Arrowhead),
        text = left ++ [line.symbol.1, line.symbol.2] ++ right → head? Arrowhead.startSymbol left = some start →
          head? Arrowhead.endSymbol right = some stop → read? text = some ⟨line, start, stop⟩) ∧
      (∀ c, read? text = some c →
        c.text = text ∧ c.style.connector? = .ok (some c) ∧ ofProps? c.props = .ok (some c))) ∧
    ∀ s : EdgeStyle, s.Tabled → ∃ c, s.connector? = .ok (some c) ∧ read? c.text = some c ∧
      c.style.width.same s.width = true ∧ c.style.pattern.same s.pattern = true ∧
        c.style.start = s.start ∧ c.style.stop = s.stop := by
  constructor
  · intro text
    refine ⟨exists_read?_iff, fun _ _ _ _ _ _ split split' => split.unique split',
      fun _ _ _ _ _ whole first last => read?_of_heads whole first last, fun c found => ?_⟩
    exact ⟨text_of_read? found, connector?_style c, ofProps?_props c⟩
  · intro s tabled
    obtain ⟨c, found, same⟩ := tabled.exists_connector?
    exact ⟨c, found, read?_text c, same⟩

theorem unambiguous_bars :
    (∀ left middle right, Split "-|-.|-".toList left middle right →
      left = ['-', '|'] ∧ middle = ['-', '.'] ∧ right = ['|', '-']) ∧
    ∃ c, EdgeStyle.connector? ⟨.scalar (.bool true), .scalar (.text "dotted"), .null, .scalar (.text "BAR")⟩ =
      .ok (some c) ∧ read? c.text = some c := by
  constructor
  · intro left middle right split
    exact (unambiguous.1 _).2.1 _ _ _ _ _ _ split
      ⟨by decide, .inr ⟨.bar, rfl⟩, ⟨.thinDashed, rfl⟩, .inr ⟨.bar, rfl⟩⟩
  · obtain ⟨c, found, read, _⟩ := unambiguous.2
      ⟨.scalar (.bool true), .scalar (.text "dotted"), .null, .scalar (.text "BAR")⟩
      ⟨⟨.thinDotted, by decide, by decide⟩, ⟨none, rfl⟩, ⟨some .bar, rfl⟩⟩
    exact ⟨c, found, read⟩

end Connector
end LiveDiagram
