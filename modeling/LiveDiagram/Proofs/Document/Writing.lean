import LiveDiagram.Proofs.Connector.Drawing
import LiveDiagram.Proofs.Document.Mirroring
import LiveDiagram.Proofs.Props.Overlong

/-! Documents that can be written. The writer ends in a fault where an edge has props in which line and arrowheads cannot
be looked up, and where a text is a whole number with too many digits, which is tried as a number before it is written. -/
namespace LiveDiagram

/-! Lines of props -/

/-- Texts that are no whole number with too many digits. -/
def Scalar.Short : Scalar → Prop
  | .text s => ∀ n, Numeral.read? s.toList = some n → n.isInteger = true → n.whole.length ≤ Fault.digitLimit
  | _ => True

/-- Dictionaries with only such texts. -/
def Props.Short : Props → Prop
  | nil => True
  | leaf _ value rest => value.Short ∧ rest.Short
  | node _ sub rest => sub.Short ∧ rest.Short

instance (s : Scalar) : Decidable s.Short :=
  match s with
  | .text s => inferInstanceAs (Decidable (∀ n ∈ Numeral.read? s.toList, n.isInteger = true → n.whole.length ≤ Fault.digitLimit))
  | .null | .bool _ | .int _ | .float _ => .isTrue trivial

instance Props.decidableShort : (p : Props) → Decidable p.Short
  | nil => .isTrue trivial
  | leaf _ value rest => @instDecidableAnd value.Short rest.Short inferInstance (decidableShort rest)
  | node _ sub rest => @instDecidableAnd sub.Short rest.Short (decidableShort sub) (decidableShort rest)

namespace Codec
variable {value : List Char}

/-- A value is taken for a scalar unless it is a whole number with too many digits. -/
theorem exists_scalarOf_iff : (∃ s, scalarOf value = .ok s) ↔
    ∀ n, Numeral.read? value = some n → n.isInteger = true → n.whole.length ≤ Fault.digitLimit := by
  refine ⟨fun ⟨s, taken⟩ n read integer => ?_, exists_scalarOf⟩
  rcases scalarOf_ends value with ⟨_, short⟩ | ⟨digits, failed, _⟩
  · exact Nat.le_of_not_lt fun many => short _ ⟨n, read, integer, rfl, many⟩
  · rw [failed] at taken
    cases taken

/-- A whole number begins with a minus sign or a digit, so that nothing in front of it is escaped. -/
theorem head?_escape_of_isInteger {n : Numeral} (read : Numeral.read? value = some n) (integer : n.isInteger = true) :
    (escape value).head? ≠ some '\\' := by
  have digits := Numeral.digits_of_isInteger read integer
  cases value with
  | nil => simp [escape]
  | cons c rest =>
    have ordinary : ¬(c = '\\' ∨ c = ';' ∨ c = '=') := by
      rintro (rfl | rfl | rfl) <;> exact absurd (digits _ List.mem_cons_self) (by decide)
    rw [escape_cons, if_neg ordinary]
    rintro ⟨⟩
    exact ordinary (.inl rfl)

end Codec

theorem Scalar.exists_written_iff {s : Scalar} : (∃ value, Codec.written true s = .ok value) ↔ s.Short := by
  cases s with
  | null | bool | int | float => exact ⟨fun _ => trivial, fun _ => ⟨_, rfl⟩⟩
  | text s =>
    refine Iff.trans ?_ Codec.exists_scalarOf_iff
    simp only [Codec.written]
    split
    · refine (exists_bind_iff fun t _ => ?_).trans (and_iff_left trivial)
      cases t <;> exact ⟨fun _ => trivial, fun _ => ⟨_, rfl⟩⟩
    · next untried =>
      -- only a text that can be no number is written without being tried
      refine ⟨fun _ => Codec.exists_scalarOf fun n read integer => absurd ?_ untried, fun _ => ⟨_, rfl⟩⟩
      have filled : s ≠ "" := by
        rintro rfl
        cases read
      simp [filled, Codec.head?_escape_of_isInteger read integer]

namespace Props
variable {p : Props}

theorem exists_assignments_iff (front : List Char) : (∃ parts, p.assignments front = .ok parts) ↔ p.Short := by
  induction p generalizing front with
  | nil => exact ⟨fun _ => trivial, fun _ => ⟨_, rfl⟩⟩
  | leaf key s rest ih =>
    by_cases absent : s = .null
    · subst absent
      exact (ih front).trans ⟨fun short => ⟨trivial, short⟩, And.right⟩
    · have step : (leaf key s rest).assignments front = (do
          let value ← Codec.written true s
          return (front ++ Codec.escape key.toList ++ '=' :: value) :: (← rest.assignments front)) := by
        cases s with
        | null => exact (absent rfl).elim
        | bool | int | float | text => rfl
      rw [step]
      refine (exists_bind_iff fun value _ => ?_).trans (and_congr Scalar.exists_written_iff (ih front))
      exact (exists_bind_iff fun _ _ => ⟨fun _ => trivial, fun _ => ⟨_, rfl⟩⟩).trans (and_iff_left trivial)
  | node key sub rest below ih =>
    refine (exists_bind_iff fun first _ => ?_).trans (and_congr (below _) (ih front))
    exact (exists_bind_iff fun _ _ => ⟨fun _ => trivial, fun _ => ⟨_, rfl⟩⟩).trans (and_iff_left trivial)

/-- Props have a line, or none for want of entries, exactly where their texts are short. -/
theorem exists_write_iff : (∃ line, p.write = .ok line) ↔ p.Short := by
  refine Iff.trans ?_ (exists_assignments_iff [])
  exact (exists_bind_iff fun _ _ => ⟨fun _ => trivial, fun _ => ⟨_, rfl⟩⟩).trans (and_iff_left trivial)

end Props

/-! Elements and documents -/

variable {α : Type} {config : Config α}

namespace Element
variable {e : Element α} {children : Outline α}

/-- An element that can be written: if it is an edge, line and arrowheads can be looked up in its props, and no text in the
props of its body is a whole number with too many digits. -/
structure Writable (e : Element α) : Prop where
  drawable : e.isEdge = true → e.props.Drawable
  short : e.bodyProps.Short

instance : Decidable e.Writable :=
  decidable_of_iff ((e.isEdge = true → e.props.Drawable) ∧ e.bodyProps.Short)
    ⟨fun ⟨drawable, short⟩ => ⟨drawable, short⟩, fun writable => ⟨writable.drawable, writable.short⟩⟩

theorem exists_entries_iff (metadata : e.metadata.Texts) :
    (∃ texts, Writer.entries config e e.bodyProps = .ok texts) ↔ e.bodyProps.Short := by
  unfold Writer.entries
  rw [styleEntry_eq metadata]
  refine Iff.trans ?_ Props.exists_write_iff
  exact (exists_bind_iff fun _ _ => ⟨fun _ => trivial, fun _ => ⟨_, rfl⟩⟩).trans (and_iff_left trivial)

theorem exists_plan_iff (metadata : e.metadata.Texts) :
    (∃ plan, Writer.plan config e children = .ok plan) ↔ e.Writable := by
  have edges : (∀ start stop, e.content = .edge start stop → ∃ c, Connector.ofProps? e.props = .ok c) ↔
      (e.isEdge = true → e.props.Drawable) := by
    simp only [Props.exists_ofProps?_iff]
    cases same : e.content with
    | node => simp [isEdge, kind, same, Content.kind]
    | edge => simp [isEdge, kind, same, Content.kind]
  constructor
  · rintro ⟨plan, planned⟩
    obtain ⟨drawn, texts, entered, _⟩ := exists_of_plan planned
    exact ⟨edges.1 drawn, (exists_entries_iff metadata).1 ⟨texts, entered⟩⟩
  · intro writable
    obtain ⟨texts, entered⟩ : ∃ texts, Writer.entries config e e.bodyProps = .ok texts :=
      (exists_entries_iff metadata).2 writable.short
    exact ⟨_, plan_eq (edges.2 writable.drawable) entered⟩

end Element

namespace Outline
variable {o : Outline α} {leftOut : Option String}

/-- The lines around an element are written where its own, those of its children and those after it are. -/
theorem exists_around_iff {e : Element α} {children : Outline α} {indent : String} {others : Except Fault (List String)}
    {join : Writer.Plan → List String → List String → List String} {below after : Prop} (metadata : e.metadata.Texts)
    (inner : (∃ texts, Writer.lines config indent (e.inlinedId? children) children = .ok texts) ↔ below)
    (later : (∃ texts, others = .ok texts) ↔ after) :
    (∃ texts, (do
      let plan ← Writer.plan config e children
      let below ← Writer.lines config indent plan.inlined children
      return join plan below (← others)) = .ok texts) ↔ e.Writable ∧ below ∧ after := by
  refine (exists_bind_iff fun plan planned => ?_).trans (and_congr (e.exists_plan_iff metadata) Iff.rfl)
  obtain ⟨_, _, _, rfl⟩ := Element.exists_of_plan planned
  refine (exists_bind_iff fun _ _ => ?_).trans (and_congr inner later)
  exact (exists_bind_iff fun _ _ => ⟨fun _ => trivial, fun _ => ⟨_, rfl⟩⟩).trans (and_iff_left trivial)

theorem exists_lines_iff {indent : String} (metadata : ∀ e ∈ o.shown leftOut, e.metadata.Texts) :
    (∃ texts, Writer.lines config indent leftOut o = .ok texts) ↔ ∀ e ∈ o.shown leftOut, e.Writable := by
  induction o generalizing indent leftOut with
  | nil => exact ⟨fun _ _ member => (nomatch member), fun _ => ⟨_, rfl⟩⟩
  | cons e children rest inner later =>
    rw [Writer.lines]
    by_cases out : leftOut = some e.id
    · rw [shown, if_pos out] at metadata ⊢
      rw [if_pos out]
      exact later metadata
    · rw [shown_cons out, List.forall_mem_cons, List.forall_mem_append] at metadata
      rw [if_neg out, shown_cons out, List.forall_mem_cons, List.forall_mem_append]
      exact exists_around_iff metadata.1 (inner metadata.2.1) (later metadata.2.2)

theorem exists_write_iff (metadata : ∀ e ∈ o.shown none, e.metadata.Texts) :
    (∃ texts, Writer.write config o = .ok texts) ↔ ∀ e ∈ o.shown none, e.Writable := by
  induction o with
  | nil => exact ⟨fun _ _ member => (nomatch member), fun _ => ⟨_, rfl⟩⟩
  | cons e children rest _ later =>
    have kept : none ≠ some e.id := by simp
    rw [shown_cons kept, List.forall_mem_cons, List.forall_mem_append] at metadata
    rw [Writer.write, shown_cons kept, List.forall_mem_cons, List.forall_mem_append]
    exact exists_around_iff metadata.1 (exists_lines_iff metadata.2.1) (later metadata.2.2)

end Outline

/-- A document that texts brought about has a text exactly where each element that has a line in it can be written. -/
theorem Work.OfTexts.text_returns [Coordinate α] {w : Workspace α} (texts : OfTexts w) :
    (∃ text, w.document.text = .ok text) ↔ ∀ e ∈ w.document.shown, e.Writable := by
  have brought := texts.brought
  have metadata : ∀ e ∈ w.document.shown, e.metadata.Texts := by
    intro e member
    have found := brought.unfolds.find?_of_mem_shown member
    exact (brought.spoken e (List.mem_of_find?_eq_some found)).metadata.1.texts
  have lines : (∃ lines, Writer.write .standard (w.document.outline w.document.top) = .ok lines) ↔
      ∀ e ∈ w.document.shown, e.Writable := Outline.exists_write_iff metadata
  refine Iff.trans ?_ lines
  exact (exists_bind_iff fun _ _ => ⟨fun _ => trivial, fun _ => ⟨_, rfl⟩⟩).trans (and_iff_left trivial)

/-- An edge with a stroke of its own, an arrowhead without a symbol, and something beyond its type. -/
theorem Work.OfTexts.text_returns_styled :
    ∃ (w : Workspace Quantity) (text : String), OfTexts w ∧ w.document.text = .ok text ∧
      ∃ e ∈ w.document.shown, e.isEdge = true ∧ e.props.size = 2 := by
  let w := Workspace.blank.taking "e: edge \x7b\n  props: \"stroke.width=3;arrow.end.type=ARC;arrow.end.size=2\"\n\x7d"
  have texts : OfTexts w := .taking (.empty _ _) (by decide +kernel)
  obtain ⟨text, written⟩ := texts.text_returns.2 (by decide +kernel)
  exact ⟨w, text, texts, written, by decide +kernel⟩

/-- Texts that are accepted, and then the document has no text: a number stands for the whole stroke, and a type of
arrowhead has entries of its own. -/
theorem Work.OfTexts.text_stops :
    ∃ w w' : Workspace Quantity, OfTexts w ∧ w.document.text = .error (.notEntries "int") ∧ OfTexts w' ∧
      w'.document.text = .error .unhashable := by
  refine ⟨Workspace.blank.taking "e: edge \x7b\n  props: \"stroke=1\"\n\x7d",
    Workspace.blank.taking "e: edge \x7b\n  props: \"arrow.start.type.x=1\"\n\x7d", .taking (.empty _ _) ?_, ?_,
    .taking (.empty _ _) ?_, ?_⟩
  · decide +kernel
  · decide +kernel
  · decide +kernel
  · decide +kernel

end LiveDiagram
