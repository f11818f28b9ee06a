import LiveDiagram.Document.Writer
import LiveDiagram.Proofs.Edit.Step
import Mathlib.Logic.Relation

/-! Outlines that leave nothing out. Where no element moves, every element is younger than the one that it is nested in,
so that the containment has no cycles, and an outline as deep as the document has elements holds all that is nested. -/
namespace LiveDiagram

variable {α : Type}

namespace Document
variable {d : Document α} {ids : List String}

/-- Every element is younger than the one that it is nested in. -/
def Layered (d : Document α) : Prop :=
  ∀ id e holder p, d.find? id = some e → e.parent = some holder → d.find? holder = some p → p.birth < e.birth

theorem layered_of_bare (bare : d.elements = []) : d.Layered := by
  intro id e holder p found
  rw [find?, bare] at found
  cases found

/-- A change that leaves elements in their places. -/
theorem Layered.modify {id : String} {change : Element α → Element α} (layered : d.Layered)
    (keeps : Element.KeepsPlace change) : (d.modify id change).Layered := by
  have kept {x : String} {e : Element α} (found : (d.modify id change).find? x = some e) :
      ∃ e₀, d.find? x = some e₀ ∧ e₀.birth = e.birth ∧ e₀.parent = e.parent := by
    rw [find?_modify keeps.id] at found
    split at found
    · obtain ⟨e₀, lookup, rfl⟩ := Option.map_eq_some_iff.1 found
      exact ⟨e₀, lookup, (congrArg Handle.birth (keeps.handle e₀)).symm, (keeps.parent e₀).symm⟩
    · exact ⟨e, found, rfl, rfl⟩
  intro x e holder p found nested found'
  obtain ⟨e₀, lookup, birth, parent⟩ := kept found
  obtain ⟨p₀, lookup', birth', _⟩ := kept found'
  rw [← birth, ← birth']
  exact layered x e₀ holder p₀ lookup (parent.trans nested) lookup'

theorem birth_lt (consistent : d.Consistent) {id : String} {e : Element α} (found : d.find? id = some e) :
    e.birth < d.births :=
  consistent.births_lt e.handle (List.mem_map_of_mem (List.mem_of_find?_eq_some found))

section
variable [Coordinate α]

theorem Layered.step {terms : Terms} {t t' : Transaction α} (layered : t.document.Layered)
    (consistent : t.document.Consistent) (fixed : terms.moves = false) (step : Step terms t t') :
    t'.document.Layered := by
  cases step with
  | say => exact layered
  | record => exact layered
  | adjust id covered keeps tidy => exact layered.modify keeps.toKeepsPlace
  | join id covered keeps box fits tidy =>
    intro x e holder p found nested found'
    rw [find?_connect] at found found'
    exact layered.modify keeps x e holder p found nested found'
  | enter e parent covered absent topmost childless fits held tidy =>
    have lookup (x : String) := find?_enter (x := x) absent topmost childless fun holder same => (held holder same).1
    intro x q holder p found nested found'
    rw [lookup] at found found'
    split at found
    · cases found
      split at found'
      · next same =>
        have there := (held holder nested).1
        rw [same, absent] at there
        cases there
      · obtain ⟨p₀, lookup', rfl⟩ := Option.map_eq_some_iff.1 found'
        show p₀.birth < t.document.births
        exact birth_lt consistent lookup'
    · obtain ⟨q₀, lookup', rfl⟩ := Option.map_eq_some_iff.1 found
      split at found'
      · next same =>
        -- nothing is nested in an element before it is there
        have there := Sound.contains_parent consistent
          (show t.document.parentOf x = some holder by rw [parentOf, lookup']; exact nested)
        rw [same, absent] at there
        cases there
      · obtain ⟨p₀, lookup'', rfl⟩ := Option.map_eq_some_iff.1 found'
        exact layered x q₀ holder p₀ lookup' nested lookup''
  | move id parent moved =>
    rw [fixed] at moved
    cases moved
  | expel id present loose =>
    have kept {x : String} {e : Element α} (found : (t.document.expel id).find? x = some e) :
        ∃ e₀, t.document.find? x = some e₀ ∧ e₀.birth = e.birth ∧ e₀.parent = e.parent := by
      rw [find?_expel loose] at found
      split at found
      · cases found
      · obtain ⟨e₀, lookup, rfl⟩ := Option.map_eq_some_iff.1 found
        exact ⟨e₀, lookup, rfl, rfl⟩
    intro x e holder p found nested found'
    obtain ⟨e₀, lookup, birth, parent⟩ := kept found
    obtain ⟨p₀, lookup', birth', _⟩ := kept found'
    rw [← birth, ← birth']
    exact layered x e₀ holder p₀ lookup (parent.trans nested) lookup'

theorem Layered.steps {terms : Terms} {t t' : Transaction α} (layered : t.document.Layered)
    (consistent : t.document.Consistent) (fixed : terms.moves = false) (steps : Steps terms t t') :
    t'.document.Layered := by
  induction steps with
  | refl => exact layered
  | tail before step ih => exact ih.step (consistent.steps before) fixed step

end

/-! Outlines -/

/-- An outline of elements with all that is nested in them. -/
inductive Unfolds (d : Document α) : List String → Outline α → Prop
  | nil : Unfolds d [] .nil
  | cons {id : String} {ids : List String} {e : Element α} {children rest : Outline α} (found : d.find? id = some e)
      (inner : Unfolds d e.children children) (later : Unfolds d ids rest) : Unfolds d (id :: ids) (.cons e children rest)

/-- How many elements are no older than the given one. -/
def younger (d : Document α) (e : Element α) : Nat :=
  d.elements.countP fun x => e.birth ≤ x.birth

theorem younger_lt {p e : Element α} (member : p ∈ d.elements) (older : p.birth < e.birth) :
    d.younger e < d.younger p := by
  unfold younger
  obtain ⟨before, after, split⟩ := List.append_of_mem member
  have rest (l : List (Element α)) :
      l.countP (fun x => e.birth ≤ x.birth) ≤ l.countP fun x => p.birth ≤ x.birth := by
    refine List.countP_mono_left fun x _ holds => ?_
    rw [decide_eq_true_eq] at holds ⊢
    omega
  have early := rest before
  have late := rest after
  rw [split, List.countP_append, List.countP_append, List.countP_cons, List.countP_cons]
  simp only [Nat.not_le.2 older, decide_false, Bool.false_eq_true, if_false, Nat.le_refl, decide_true, if_true]
  omega

/-- The children of an element are there, nested in it. -/
theorem child_found (consistent : d.Consistent) {id child : String} {e : Element α} (found : d.find? id = some e)
    (member : child ∈ e.children) : ∃ c, d.find? child = some c ∧ c.parent = some id := by
  have listed : child ∈ d.childIds id := by
    rw [childIds, found]
    exact member
  have nested := (consistent.mem_children id child).1 listed
  rw [parentOf, Option.bind_eq_some_iff] at nested
  exact nested

theorem unfolds_outlineTo (consistent : d.Consistent) (layered : d.Layered) {depth : Nat}
    (deep : ∀ id ∈ ids, ∃ e, d.find? id = some e ∧ d.younger e ≤ depth) : d.Unfolds ids (d.outlineTo depth ids) := by
  induction depth generalizing ids with
  | zero =>
    cases ids with
    | nil => exact .nil
    | cons id ids =>
      obtain ⟨e, found, none⟩ := deep id List.mem_cons_self
      have some : 0 < d.younger e :=
        List.countP_pos_iff.2 ⟨e, List.mem_of_find?_eq_some found, by simp⟩
      omega
  | succ depth ih =>
    rw [outlineTo]
    induction ids with
    | nil => exact .nil
    | cons id ids later =>
      obtain ⟨e, found, bound⟩ := deep id List.mem_cons_self
      rw [List.filterMap_cons, found]
      refine .cons found (ih fun child member => ?_) (later fun x member => deep x (List.mem_cons_of_mem id member))
      obtain ⟨c, there, nested⟩ := child_found consistent found member
      have shallower := younger_lt (List.mem_of_find?_eq_some found) (layered child c id e there nested found)
      exact ⟨c, there, by omega⟩

/-- The outline of elements that are there leaves nothing out. -/
theorem unfolds_outline (consistent : d.Consistent) (layered : d.Layered) (there : ∀ id ∈ ids, d.contains id = true) :
    d.Unfolds ids (d.outline ids) := by
  refine unfolds_outlineTo consistent layered fun id member => ?_
  obtain ⟨e, found⟩ := contains_iff_find?.1 (there id member)
  exact ⟨e, found, List.countP_le_length⟩

/-- The elements of the topmost level are those of the ids. -/
theorem Unfolds.roots {o : Outline α} (unfolds : d.Unfolds ids o) : o.roots = ids.filterMap d.find? := by
  induction unfolds with
  | nil => rfl
  | cons found _ _ _ ih => rw [Outline.roots, List.filterMap_cons, found, ih]

/-! Nothing is in an outline twice -/

/-- An element is the other one, or is nested in it on some level. -/
def Within (d : Document α) : String → String → Prop :=
  Relation.ReflTransGen fun x holder => d.parentOf x = some holder

variable {x r r' holder : String} {e p : Element α}

theorem mem_subtree_iff_within (consistent : d.Consistent) : x ∈ d.subtree r ↔ d.Within x r := by
  have nests : (fun x holder => d.parentOf x = some holder) = Function.swap (Links.Nests d.links) := by
    funext x holder
    exact propext (consistent.nests_iff holder x).symm
  rw [subtree, Links.mem_subtree, Within, nests, Relation.reflTransGen_swap]

theorem birth_lt_of_parentOf (layered : d.Layered) (nested : d.parentOf x = some holder) (found : d.find? x = some e)
    (found' : d.find? holder = some p) : p.birth < e.birth := by
  rw [parentOf, found] at nested
  exact layered x e holder p found nested found'

theorem birth_le_of_within (layered : d.Layered) (within : d.Within x holder) (found : d.find? x = some e)
    (found' : d.find? holder = some p) : p.birth ≤ e.birth := by
  induction within generalizing p with
  | refl =>
    cases found.symm.trans found'
    exact Nat.le_refl _
  | tail _ nested ih =>
    obtain ⟨c, there, _⟩ := Option.bind_eq_some_iff.1 nested
    exact Nat.le_of_lt (Nat.lt_of_lt_of_le (birth_lt_of_parentOf layered nested there found') (ih there))

/-- Nothing is nested in what it holds. -/
theorem not_within_of_parentOf (consistent : d.Consistent) (layered : d.Layered) (nested : d.parentOf x = some holder) :
    ¬d.Within holder x := by
  intro within
  obtain ⟨e, found, _⟩ := Option.bind_eq_some_iff.1 nested
  obtain ⟨p, found'⟩ := contains_iff_find?.1 (Sound.contains_parent consistent nested)
  have younger := birth_lt_of_parentOf layered nested found found'
  have older := birth_le_of_within layered within found' found
  omega

/-- No element is nested in what it holds. -/
def Acyclic (d : Document α) : Prop :=
  ∀ x holder, d.parentOf x = some holder → ¬d.Within holder x

theorem Layered.acyclic (layered : d.Layered) (consistent : d.Consistent) : d.Acyclic :=
  fun _ _ nested => not_within_of_parentOf consistent layered nested

/-- Of two elements with the same place, no more than one holds a third one. -/
theorem Acyclic.eq_of_within (acyclic : d.Acyclic) (beside : d.parentOf r = d.parentOf r')
    (within : d.Within x r) (within' : d.Within x r') : r = r' := by
  have apart {r r' : String} (beside : d.parentOf r = d.parentOf r') (within : d.Within r r') : r = r' := by
    rcases Relation.ReflTransGen.cases_head within with same | ⟨holder, nested, within⟩
    · exact same
    · exact (acyclic r' holder (beside ▸ nested) within).elim
  have unique : Relator.RightUnique fun x holder => d.parentOf x = some holder :=
    fun _ _ _ nested nested' => Option.some.inj (nested.symm.trans nested')
  rcases Relation.ReflTransGen.total_of_right_unique unique within within' with below | above
  · exact apart beside below
  · exact (apart beside.symm above).symm

theorem Unfolds.within {o : Outline α} (consistent : d.Consistent) (unfolds : d.Unfolds ids o) (member : e ∈ o.preorder) :
    ∃ r ∈ ids, d.Within e.id r := by
  induction unfolds with
  | nil => cases member
  | cons found _ _ inner later =>
    rcases List.mem_cons.1 member with rfl | member
    · exact ⟨_, List.mem_cons_self, find?_eq_some_id found ▸ .refl⟩
    · rcases List.mem_append.1 member with below | after
      · obtain ⟨r, listed, within⟩ := inner below
        obtain ⟨c, there, nested⟩ := child_found consistent found listed
        exact ⟨_, List.mem_cons_self, within.tail (by rw [parentOf, there]; exact nested)⟩
      · obtain ⟨r, listed, within⟩ := later after
        exact ⟨r, List.mem_cons_of_mem _ listed, within⟩

/-- All elements of an outline that unfolds distinct elements with the same place are distinct. -/
theorem Unfolds.nodup {o : Outline α} (consistent : d.Consistent) (layered : d.Layered) (unfolds : d.Unfolds ids o)
    (distinct : ids.Nodup) (place : Option String) (placed : ∀ r ∈ ids, d.parentOf r = place) :
    (o.preorder.map Element.id).Nodup := by
  induction unfolds generalizing place with
  | nil => exact List.nodup_nil
  | @cons id ids e children rest found below after inner later =>
    obtain ⟨fresh, distinct⟩ := List.nodup_cons.1 distinct
    have named := find?_eq_some_id found
    have nested {r : String} (listed : r ∈ e.children) : d.parentOf r = some id := by
      obtain ⟨c, there, nested⟩ := child_found consistent found listed
      rw [parentOf, there]
      exact nested
    have siblings : e.children.Nodup := by
      have all := consistent.children_nodup id
      rw [childIds, found] at all
      exact all
    -- what is nested in the first is not nested in those after it
    have apart {x : String} (within : d.Within x id) : x ∉ rest.preorder.map Element.id := by
      intro member
      obtain ⟨y, there, rfl⟩ := List.mem_map.1 member
      obtain ⟨r, listed, within'⟩ := after.within consistent there
      have beside : d.parentOf id = d.parentOf r :=
        (placed id List.mem_cons_self).trans (placed r (List.mem_cons_of_mem id listed)).symm
      exact fresh ((layered.acyclic consistent).eq_of_within beside within within' ▸ listed)
    rw [Outline.preorder, List.map_cons, List.map_append, List.nodup_cons, List.nodup_append, List.mem_append]
    refine ⟨?_, inner siblings (some id) (fun r listed => nested listed),
      later distinct place fun r listed => placed r (List.mem_cons_of_mem id listed), ?_⟩
    · rintro (member | member)
      · obtain ⟨y, there, same⟩ := List.mem_map.1 member
        obtain ⟨r, listed, within⟩ := below.within consistent there
        rw [same, named] at within
        exact not_within_of_parentOf consistent layered (nested listed) within
      · exact apart (named.symm ▸ .refl) member
    · rintro x member y member' rfl
      obtain ⟨c, there, rfl⟩ := List.mem_map.1 member
      obtain ⟨r, listed, within⟩ := below.within consistent there
      exact apart (within.tail (nested listed)) member'

end Document
end LiveDiagram
