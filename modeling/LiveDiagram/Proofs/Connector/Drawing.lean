import LiveDiagram.Proofs.Connector.Merging

/-! Edge props in which line and arrowheads can be looked up. The lookups go from dictionary to dictionary, and a type of
arrowhead is looked up by its name; where the props hold something else there, they end in a fault. -/
namespace LiveDiagram

namespace EdgeStyle
variable {type : Value} {s : EdgeStyle}

/-- A value that can be looked up as a name: anything but a dictionary with entries. -/
def Nameable : Value → Prop
  | .scalar _ => True
  | .dict d => d = .nil

instance (type : Value) : Decidable (Nameable type) :=
  match type with
  | .scalar _ => .isTrue trivial
  | .dict d => inferInstanceAs (Decidable (d = .nil))

/-- A type that asks for no arrowhead or for one that has a symbol. -/
def Known (type : Value) : Prop :=
  namesHead type = true → ∃ head : Arrowhead, type = .scalar (.text head.name)

instance (type : Value) : Decidable (Known type) :=
  haveI : Decidable (∃ head : Arrowhead, type = .scalar (.text head.name)) :=
    decidable_of_iff (∃ head ∈ Arrowhead.all, type = .scalar (.text head.name))
      ⟨fun ⟨head, _, same⟩ => ⟨head, same⟩, fun ⟨head, same⟩ => ⟨head, head.mem_all, same⟩⟩
  inferInstanceAs (Decidable (_ → _))

/-- A type is refused, or has no symbol, or tells an arrowhead or none. -/
theorem head?_cases (type : Value) :
    (¬Nameable type ∧ head? type = .error .unhashable) ∨ (Nameable type ∧ ¬Known type ∧ head? type = .ok none) ∨
      (Nameable type ∧ Known type ∧ ∃ head, head? type = .ok (some head)) := by
  by_cases named : namesHead type = true
  · unfold head?
    rw [if_pos named]
    cases type with
    | dict d =>
      refine .inl ⟨?_, rfl⟩
      rintro rfl
      cases named
    | scalar v =>
      cases v with
      | text name =>
        cases found : Arrowhead.ofName? name with
        | none =>
          refine .inr (.inl ⟨trivial, fun known => ?_, by simp only [found, Option.map_none]⟩)
          obtain ⟨head, same⟩ := known named
          cases same
          rw [Connector.ofName?_name] at found
          cases found
        | some head =>
          have same : head.name = name := by simpa using List.find?_some found
          exact .inr (.inr ⟨trivial, fun _ => ⟨head, by rw [same]⟩, some head, by simp only [found, Option.map_some]⟩)
      | null | bool | int | float =>
        refine .inr (.inl ⟨trivial, fun known => ?_, rfl⟩)
        obtain ⟨head, same⟩ := known named
        cases same
  · have plain : head? type = .ok (some none) := if_neg named
    refine .inr (.inr ⟨?_, fun named' => (named named').elim, none, plain⟩)
    cases type with
    | scalar => trivial
    | dict d =>
      cases d with
      | nil => rfl
      | leaf | node => exact (named rfl).elim

/-- The lookup of arrowheads stops at the first that has no symbol, and is not made at all where the line has none. -/
theorem exists_connector?_iff : (∃ c, s.connector? = .ok c) ↔
    (s.line?.isSome = true → Nameable s.start ∧ (Known s.start → Nameable s.stop)) := by
  unfold connector?
  cases s.line? with
  | none => exact ⟨fun _ lined => (nomatch lined), fun _ => ⟨none, rfl⟩⟩
  | some line =>
    simp only [Option.isSome_some, forall_const]
    rcases head?_cases s.start with ⟨refused, found⟩ | ⟨nameable, unknown, found⟩ | ⟨nameable, known, head, found⟩
    · rw [found]
      exact ⟨fun ⟨_, ended⟩ => (nomatch ended), fun fine => (refused fine.1).elim⟩
    · rw [found]
      exact ⟨fun _ => ⟨nameable, fun known => (unknown known).elim⟩, fun _ => ⟨none, rfl⟩⟩
    · rw [found]
      rcases head?_cases s.stop with ⟨refused, found'⟩ | ⟨nameable', _, found'⟩ | ⟨nameable', _, head', found'⟩
      · rw [found']
        exact ⟨fun ⟨_, ended⟩ => (nomatch ended), fun fine => (refused (fine.2 known)).elim⟩
      · rw [found']
        exact ⟨fun _ => ⟨nameable, fun _ => nameable'⟩, fun _ => ⟨none, rfl⟩⟩
      · rw [found']
        exact ⟨fun _ => ⟨nameable, fun _ => nameable'⟩, fun _ => ⟨_, rfl⟩⟩

end EdgeStyle

namespace Props
open EdgeStyle (Nameable Known)
variable {p : Props} {key : String}

/-- Under the key stands a dictionary, or nothing that counts. -/
def Opens (p : Props) (key : String) : Prop :=
  ∀ s, p.get? key = some (.scalar s) → s.isPresent = false

instance : Decidable (p.Opens key) :=
  match found : p.get? key with
  | some (.scalar s) =>
    decidable_of_iff (s.isPresent = false)
      ⟨fun absent t found' => by cases found.symm.trans found'; exact absent, fun opens => opens s found⟩
  | some (.dict _) => .isTrue fun _ found' => nomatch found.symm.trans found'
  | none => .isTrue fun _ found' => nomatch found.symm.trans found'

/-- The style that props tell where all dictionaries can be opened. -/
def style (p : Props) : EdgeStyle where
  width := ((p.dictAt "stroke").get? "width").getD (.scalar (.int 1))
  pattern := ((p.dictAt "stroke").get? "pattern").getD .null
  start := EdgeStyle.typeIn ((p.dictAt "arrow").dictAt "start")
  stop := EdgeStyle.typeIn ((p.dictAt "arrow").dictAt "end")

/-- Edge props in which line and arrowheads can be looked up. -/
structure Drawable (p : Props) : Prop where
  stroke : p.Opens "stroke"
  arrow : p.Opens "arrow"
  start : (p.dictAt "arrow").Opens "start"
  stop : (p.dictAt "arrow").Opens "end"
  heads : p.style.line?.isSome = true → Nameable p.style.start ∧ (Known p.style.start → Nameable p.style.stop)

instance : Decidable p.Drawable :=
  decidable_of_iff (p.Opens "stroke" ∧ p.Opens "arrow" ∧ (p.dictAt "arrow").Opens "start" ∧ (p.dictAt "arrow").Opens "end" ∧
      (p.style.line?.isSome = true → Nameable p.style.start ∧ (Known p.style.start → Nameable p.style.stop)))
    ⟨fun ⟨stroke, arrow, start, stop, heads⟩ => ⟨stroke, arrow, start, stop, heads⟩,
      fun drawable => ⟨drawable.stroke, drawable.arrow, drawable.start, drawable.stop, drawable.heads⟩⟩

/-- Entries are refused under a scalar that counts. -/
theorem entries_cases (p : Props) (key : String) :
    (p.Opens key ∧ EdgeStyle.entries p key = .ok (p.dictAt key)) ∨
      (¬p.Opens key ∧ ∃ fault, EdgeStyle.entries p key = .error fault) := by
  unfold EdgeStyle.entries Opens dictAt
  cases p.get? key with
  | none => exact .inl ⟨by simp, rfl⟩
  | some value =>
    cases value with
    | dict d => exact .inl ⟨by simp, rfl⟩
    | scalar s =>
      cases present : s.isPresent with
      | false => exact .inl ⟨by simp [present], by simp [present]⟩
      | true => exact .inr ⟨by simp [present], _, by simp [present]; rfl⟩

theorem ofProps_cases (p : Props) :
    ((p.Opens "stroke" ∧ p.Opens "arrow" ∧ (p.dictAt "arrow").Opens "start" ∧ (p.dictAt "arrow").Opens "end") ∧
      EdgeStyle.ofProps p = .ok p.style) ∨
    (¬(p.Opens "stroke" ∧ p.Opens "arrow" ∧ (p.dictAt "arrow").Opens "start" ∧ (p.dictAt "arrow").Opens "end") ∧
      ∃ fault, EdgeStyle.ofProps p = .error fault) := by
  unfold EdgeStyle.ofProps
  rcases entries_cases p "stroke" with ⟨stroke, found⟩ | ⟨shut, fault, found⟩
  · rcases entries_cases p "arrow" with ⟨arrow, found'⟩ | ⟨shut, fault, found'⟩
    · rcases entries_cases (p.dictAt "arrow") "start" with ⟨start, tip⟩ | ⟨shut, fault, tip⟩
      · rcases entries_cases (p.dictAt "arrow") "end" with ⟨stop, tip'⟩ | ⟨shut, fault, tip'⟩
        · refine .inl ⟨⟨stroke, arrow, start, stop⟩, ?_⟩
          simp only [found, found', tip, tip', bind, Except.bind]
          rfl
        · exact .inr ⟨fun all => shut all.2.2.2, fault, by simp only [found, found', tip, tip', bind, Except.bind]⟩
      · exact .inr ⟨fun all => shut all.2.2.1, fault, by simp only [found, found', tip, bind, Except.bind]⟩
    · exact .inr ⟨fun all => shut all.2.1, fault, by simp only [found, found', bind, Except.bind]⟩
  · exact .inr ⟨fun all => shut all.1, fault, by simp only [found, bind, Except.bind]⟩

/-- A connector is sought in edge props without a fault exactly where line and arrowheads can be looked up. -/
theorem exists_ofProps?_iff : (∃ c, Connector.ofProps? p = .ok c) ↔ p.Drawable := by
  unfold Connector.ofProps?
  rcases ofProps_cases p with ⟨⟨stroke, arrow, start, stop⟩, found⟩ | ⟨shut, fault, found⟩
  · rw [found]
    exact EdgeStyle.exists_connector?_iff.trans
      ⟨fun heads => ⟨stroke, arrow, start, stop, heads⟩, fun drawable => drawable.heads⟩
  · rw [found]
    exact ⟨fun ⟨_, ended⟩ => (nomatch ended),
      fun drawable => (shut ⟨drawable.stroke, drawable.arrow, drawable.start, drawable.stop⟩).elim⟩

end Props
end LiveDiagram
