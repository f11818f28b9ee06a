import LiveDiagram.Proofs.Document.Consistent

/-! Bringing a new element into a document: registered, put in its place, and with its arcs drawn. -/
namespace LiveDiagram.Document

variable {α : Type} {d : Document α} {e : Element α} {parent : Option String} {x : String}

/-- The document with a new element in its place, its arcs drawn. -/
def enter (d : Document α) (e : Element α) (parent : Option String) : Document α :=
  ((d.register e).attach e.id parent).connect e.id

/-- The others stay as they are, but for the parent, which has one more child. -/
theorem find?_enter (absent : d.contains e.id = false) (topmost : e.parent = none) (childless : e.children = [])
    (held : ∀ holder, parent = some holder → d.contains holder = true) :
    (d.enter e parent).find? x =
      if x = e.id then some { e with birth := d.births, parent := parent }
      else (d.find? x).map fun p => { p with children := p.children ++ if parent = some x then [e.id] else [] } := by
  have unplaced : (d.register e).parentOf e.id = none := parentOf_register_self absent topmost
  unfold enter
  rw [find?_connect, find?_attach, find?_register_of_absent absent]
  by_cases own : x = e.id
  · have apart : parent ≠ some x := fun same => ne_of_contains (held x same) absent own
    rcases e with ⟨_, _, _, _, _, _, _⟩
    cases childless
    simp [own] at apart ⊢
    simp [apart]
  · cases d.find? x <;> simp [own, unplaced]

theorem parentOf_enter : (d.enter e parent).parentOf x = if x = e.id then parent else (d.register e).parentOf x := by
  have registered : (d.register e).contains e.id = true := contains_register.2 (.inr rfl)
  unfold enter
  have drawn : (((d.register e).attach e.id parent).connect e.id).parentOf x =
      ((d.register e).attach e.id parent).parentOf x := by
    simp only [parentOf, find?_connect]
  rw [drawn, parentOf_attach registered]

theorem surroundings_enter : (d.enter e parent).surroundings = d.surroundings := by
  unfold enter
  rw [surroundings_connect, surroundings_attach]
  rfl

theorem births_enter : (d.enter e parent).births = d.births + 1 := by
  unfold enter
  rw [births_connect, births_attach]
  rfl

theorem handles_enter : (d.enter e parent).handles = d.handles ++ [⟨e.id, d.births⟩] := by
  unfold enter
  rw [handles_connect, handles_attach, handles_register]

theorem top_enter (consistent : d.Consistent) (absent : d.contains e.id = false) (topmost : e.parent = none) :
    (d.enter e parent).top = d.top ++ if parent = none then [e.id] else [] := by
  have unplaced : (d.register e).parentOf e.id = none := parentOf_register_self absent topmost
  have outside : e.id ∉ (d.register e).top := consistent.not_mem_top absent
  unfold enter
  rw [top_connect, top_attach, top_detach, if_pos unplaced, List.erase_of_not_mem outside]
  rfl

/-- A new element in its place leaves the invariant intact. -/
theorem Consistent.enter (consistent : d.Consistent) (absent : d.contains e.id = false) (topmost : e.parent = none)
    (childless : e.children = []) (fits : ∀ relation p, e.end? relation = some p → d.Fits p)
    (held : ∀ holder, parent = some holder → d.contains holder = true) : (d.enter e parent).Consistent := by
  have sound := Sound.register consistent absent topmost childless fits
  have registered : (d.register e).contains e.id = true := contains_register.2 (.inr rfl)
  refine (sound.attach registered ?_ (.inr rfl)).connect
  exact fun holder same => contains_register.2 (.inl (held holder same))

/-- Putting an element that is in no place at the top. -/
theorem attach_top {id : String} (topmost : d.parentOf id = none) (unplaced : id ∉ d.top) :
    d.attach id none = { d with top := d.top ++ [id] } := by
  have detached : d.detach id = { d with top := d.top.erase id } := by
    unfold detach
    unfold parentOf at topmost
    rw [topmost]
  change { d.detach id with top := (d.detach id).top ++ [id] } = _
  rw [detached]
  simp only [List.erase_of_not_mem unplaced]

variable [Coordinate α]

/-- Registering an element changes no state. -/
theorem snapshot_register (consistent : d.Consistent) (absent : d.contains e.id = false) {p : Element α}
    (found : d.find? x = some p) : (d.register e).snapshot p = d.snapshot p := by
  apply snapshot_congr
  intro relation node anchor ending
  have fits : d.Fits (.connected node anchor) :=
    consistent.end_fits relation x _ (endOf_eq_some.2 ⟨p, found, ending⟩)
  unfold boxOf
  rw [find?_register_of_ne (ne_of_contains (contains_of_node? fits) absent)]

end LiveDiagram.Document
