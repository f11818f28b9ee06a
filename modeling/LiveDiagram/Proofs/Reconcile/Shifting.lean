import LiveDiagram.Proofs.Document.Unfolding
import LiveDiagram.Proofs.Reconcile.Frame

/-! What is left of a document when edits that move nothing have gone over it. Whatever was there before and is there
still has its kind and its place; what went lay below an element that went with it, and what came is new. -/
namespace LiveDiagram

variable {α : Type}

namespace Document

/-- Whatever is no younger than the first document was there already, of the same kind and in the same place. -/
structure Inherits (c c' : Document α) : Prop where
  births : c.births ≤ c'.births
  former : ∀ x e', c'.find? x = some e' → e'.birth < c.births →
    ∃ e, c.find? x = some e ∧ e.birth = e'.birth ∧ e.kind = e'.kind ∧ e.parent = e'.parent

variable {c u c' : Document α} {x l : String} {e : Element α}

theorem contains_of_keeps (kept : c.keeps c' x = true) : c.contains x = true ∧ c'.contains x = true := by
  obtain ⟨e, e', found, found', _⟩ := keeps_iff.1 kept
  exact ⟨contains_of_find? found, contains_of_find? found'⟩

theorem keeps_self (there : c.contains x = true) : c.keeps c x = true := by
  obtain ⟨e, found⟩ := contains_iff_find?.1 there
  exact keeps_iff.2 ⟨e, e, found, found, rfl⟩

theorem keeps_trans (first : c.keeps u x = true) (second : u.keeps c' x = true) : c.keeps c' x = true := by
  obtain ⟨e, p, found, between, birth⟩ := keeps_iff.1 first
  obtain ⟨q, e', between', found', birth'⟩ := keeps_iff.1 second
  cases between.symm.trans between'
  exact keeps_iff.2 ⟨e, e', found, found', birth'.trans birth⟩

theorem keeps_between (first : c.keeps u x = true) (second : c.keeps c' x = true) : u.keeps c' x = true := by
  obtain ⟨e, p, found, between, birth⟩ := keeps_iff.1 first
  obtain ⟨q, e', found', there, birth'⟩ := keeps_iff.1 second
  cases found.symm.trans found'
  exact keeps_iff.2 ⟨p, e', between, there, birth'.trans birth.symm⟩

theorem isLive_of_keeps {h : Handle} (kept : c.keeps c' h.id = true) (consistent : c.Consistent)
    (live : c.isLive h = true) : c'.isLive h = true := by
  obtain ⟨e, e', found, found', birth⟩ := keeps_iff.1 kept
  obtain ⟨p, member, rfl⟩ := List.mem_map.1 (isLive_iff.1 live)
  cases (find?_of_mem consistent.ids_nodup member).symm.trans found
  refine isLive_iff.2 (List.mem_map.2 ⟨e', mem_of_find? found', ?_⟩)
  unfold Element.handle
  rw [find?_eq_some_id found', birth]
  rfl

namespace Inherits

theorem refl (c : Document α) : c.Inherits c where
  births := Nat.le_refl _
  former _ e' found _ := ⟨e', found, rfl, rfl, rfl⟩

theorem trans (first : c.Inherits u) (second : u.Inherits c') : c.Inherits c' where
  births := Nat.le_trans first.births second.births
  former x e' found old := by
    obtain ⟨p, between, birth, kind, parent⟩ := second.former x e' found (Nat.lt_of_lt_of_le old first.births)
    obtain ⟨e, found, birth', kind', parent'⟩ := first.former x p between (birth ▸ old)
    exact ⟨e, found, birth'.trans birth, kind'.trans kind, parent'.trans parent⟩

theorem of_changes {id : String} {change : Element α → Element α} (keeps : Element.KeepsPlace change)
    (changes : c.Changes id change c') : c.Inherits c' where
  births := Nat.le_of_eq changes.births.symm
  former x e' found _ := by
    rw [changes.find?] at found
    split at found
    · obtain ⟨e, former, rfl⟩ := Option.map_eq_some_iff.1 found
      exact ⟨e, former, congrArg Handle.birth (keeps.handle e).symm, (keeps.kind e).symm, (keeps.parent e).symm⟩
    · exact ⟨e', found, rfl, rfl, rfl⟩

theorem of_keeps (inherits : c.Inherits c') (consistent : c.Consistent) (kept : c.keeps c' x = true) :
    ∃ e e', c.find? x = some e ∧ c'.find? x = some e' ∧ e'.birth = e.birth ∧ e'.kind = e.kind ∧ e'.parent = e.parent := by
  obtain ⟨e, e', found, found', birth⟩ := keeps_iff.1 kept
  obtain ⟨p, former, _, kind, parent⟩ := inherits.former x e' found' (birth ▸ birth_lt consistent found)
  cases found.symm.trans former
  exact ⟨e, e', found, found', birth, kind.symm, parent.symm⟩

/-- What stayed to the end stayed in between. -/
theorem keeps_left (later : u.Inherits c') (births : c.births ≤ u.births) (consistent : c.Consistent)
    (kept : c.keeps c' x = true) : c.keeps u x = true := by
  obtain ⟨e, e', found, found', birth⟩ := keeps_iff.1 kept
  have old := birth_lt consistent found
  obtain ⟨p, between, birth', _⟩ := later.former x e' found' (by omega)
  exact keeps_iff.2 ⟨e, p, found, between, birth'.trans birth⟩

/-- An element that stayed lies below what it lay below before. -/
theorem within (inherits : c.Inherits c') (consistent : c.Consistent) (consistent' : c'.Consistent) (layered : c'.Layered)
    (within : c'.Within x l) (kept : c.keeps c' x = true) : c.Within x l ∧ c.keeps c' l = true := by
  induction within using Relation.ReflTransGen.head_induction_on with
  | refl => exact ⟨.refl, kept⟩
  | @head x p nested _ ih =>
    obtain ⟨e, e', found, found', birth, _, parent⟩ := inherits.of_keeps consistent kept
    obtain ⟨q, there⟩ := contains_iff_find?.1 (consistent'.contains_parent nested)
    -- The holder is older than what it holds, so it was there before too.
    have older := birth_lt_of_parentOf layered nested found' there
    have young := birth_lt consistent found
    obtain ⟨q', there', birth', _⟩ := inherits.former p q there (by omega)
    obtain ⟨below, kept'⟩ := ih (keeps_iff.2 ⟨q', q, there', there, birth'.symm⟩)
    refine ⟨.head ?_ below, kept'⟩
    rw [parentOf, found', Option.bind_some] at nested
    rw [parentOf, found, Option.bind_some, ← parent, nested]

end Inherits
end Document

variable [Coordinate α]

theorem Step.inherits {terms : Terms} {t t' : Transaction α} (still : terms.moves = false) (step : Step terms t t') :
    t.document.Inherits t'.document := by
  cases step with
  | say => exact .refl _
  | record => exact .refl _
  | adjust id covered keeps tidy => exact .of_changes keeps.toKeepsPlace (Document.changes_modify keeps.toKeepsPlace)
  | join id covered keeps box fits tidy => exact .of_changes keeps (Document.changes_modify keeps).connect
  | enter e parent covered absent topmost childless fits held tidy =>
    refine ⟨Document.births_enter ▸ Nat.le_succ _, fun x e' found old => ?_⟩
    rw [Document.find?_enter absent topmost childless fun holder same => (held holder same).1] at found
    split at found
    · cases found
      exact (Nat.lt_irrefl _ old).elim
    · obtain ⟨p, former, rfl⟩ := Option.map_eq_some_iff.1 found
      exact ⟨p, former, rfl, rfl, rfl⟩
  | move id parent moved =>
    rw [still] at moved
    cases moved
  | expel id present loose covered parent =>
    refine ⟨Nat.le_of_eq Document.births_expel.symm, fun x e' found _ => ?_⟩
    rw [Document.find?_expel loose] at found
    split at found
    · cases found
    · obtain ⟨p, former, rfl⟩ := Option.map_eq_some_iff.1 found
      exact ⟨p, former, rfl, rfl, rfl⟩

theorem Steps.inherits {terms : Terms} {t t' : Transaction α} (still : terms.moves = false) (steps : Steps terms t t') :
    t.document.Inherits t'.document := by
  induction steps with
  | refl => exact .refl _
  | tail _ step ih => exact ih.trans (step.inherits still)

/-- What goes lies below an element that `drops` lets go, and goes with it; what comes is as `new` says. -/
structure Document.Shift (drops : String → Prop) (new : String → ElementKind → Option String → Prop)
    (c c' : Document α) : Prop extends c.Inherits c' where
  stays : ∀ x, c.contains x = true → c.keeps c' x = true ∨ ∃ l, drops l ∧ c.Within x l ∧ c.keeps c' l = false
  comes : ∀ x e', c'.find? x = some e' → c.births ≤ e'.birth → new x e'.kind e'.parent

namespace Document.Shift
variable {drops : String → Prop} {new : String → ElementKind → Option String → Prop} {c u c' : Document α}

omit [Coordinate α] in
theorem of_changes {id : String} {change : Element α → Element α} (consistent : c.Consistent)
    (keeps : Element.KeepsPlace change) (changes : c.Changes id change c') : c.Shift drops new c' where
  toInherits := .of_changes keeps changes
  stays x there := by
    obtain ⟨e, found⟩ := contains_iff_find?.1 there
    refine .inl (keeps_iff.2 ?_)
    by_cases own : x = id
    · refine ⟨e, change e, found, ?_, congrArg Handle.birth (keeps.handle e)⟩
      rw [changes.find?, if_pos own, found]
      rfl
    · exact ⟨e, e, found, by rw [changes.find?, if_neg own, found], rfl⟩
  comes x e' found young := by
    have old : ∀ p, c.find? x = some p → p.birth < c.births := fun p former => birth_lt consistent former
    rw [changes.find?] at found
    split at found
    · obtain ⟨p, former, rfl⟩ := Option.map_eq_some_iff.1 found
      have same : (change p).birth = p.birth := congrArg Handle.birth (keeps.handle p)
      have older := old p former
      omega
    · have older := old e' found
      omega

theorem of_swept {roots ids : List String} (consistent : c.Consistent) (inherits : c.Inherits c')
    (swept : c.Swept roots ids c') (dropped : ∀ r ∈ roots, drops r) : c.Shift drops new c' where
  toInherits := inherits
  stays x there := by
    by_cases leaves : x ∈ ids
    · obtain ⟨r, root, inside⟩ := (swept.below x).1 leaves
      refine .inr ⟨r, dropped r root, (mem_subtree_iff_within consistent).1 inside, ?_⟩
      have gone : r ∈ ids := (swept.below r).2 ⟨r, root, mem_subtree_self⟩
      rw [Framed.keeps_cleared swept.cleared]
      simp [gone]
    · refine .inl ?_
      rw [Framed.keeps_cleared swept.cleared, keeps_self there]
      simpa using leaves
  comes x e' found young := by
    rw [swept.cleared] at found
    split at found
    · cases found
    · obtain ⟨p, former, rfl⟩ := Option.map_eq_some_iff.1 found
      have same : (c.bereft ids p).birth = p.birth := congrArg Handle.birth (handle_bereft p)
      have older := birth_lt consistent former
      omega

omit [Coordinate α] in
theorem of_enter {e : Element α} {parent : Option String} (consistent : c.Consistent) (absent : c.contains e.id = false)
    (topmost : e.parent = none) (childless : e.children = []) (held : ∀ p, parent = some p → c.contains p = true)
    (brought : new e.id e.kind parent) : c.Shift drops new (c.enter e parent) := by
  have found (x : String) : (c.enter e parent).find? x = _ := find?_enter absent topmost childless held
  refine ⟨⟨births_enter ▸ Nat.le_succ _, fun x e' found' old => ?_⟩, fun x there => .inl ?_, fun x e' found' young => ?_⟩
  · rw [found] at found'
    split at found'
    · cases found'
      exact (Nat.lt_irrefl _ old).elim
    · obtain ⟨p, former, rfl⟩ := Option.map_eq_some_iff.1 found'
      exact ⟨p, former, rfl, rfl, rfl⟩
  · obtain ⟨p, former⟩ := contains_iff_find?.1 there
    have other : x ≠ e.id := by
      rintro rfl
      rw [absent] at there
      cases there
    exact keeps_iff.2 ⟨p, _, former, (found x).trans ((if_neg other).trans (congrArg _ former)), rfl⟩
  · rw [found] at found'
    split at found'
    · next own =>
      cases found'
      exact own ▸ brought
    · obtain ⟨p, former, rfl⟩ := Option.map_eq_some_iff.1 found'
      have older := birth_lt consistent former
      dsimp only at young
      omega

omit [Coordinate α] in
theorem mono {drops' : String → Prop} {new' : String → ElementKind → Option String → Prop}
    (shift : c.Shift drops new c') (more : ∀ l, drops l → drops' l)
    (more' : ∀ x kind parent, new x kind parent → new' x kind parent) : c.Shift drops' new' c' where
  toInherits := shift.toInherits
  stays x there := (shift.stays x there).imp_right fun ⟨l, dropped, rest⟩ => ⟨l, more l dropped, rest⟩
  comes x e' found young := more' x _ _ (shift.comes x e' found young)

omit [Coordinate α] in
theorem trans (first : c.Shift drops new u) (second : u.Shift drops new c') (consistent : c.Consistent)
    (consistent' : u.Consistent) (layered : u.Layered) : c.Shift drops new c' where
  toInherits := first.toInherits.trans second.toInherits
  stays x there := by
    have left {l : String} := second.keeps_left (x := l) first.births consistent
    rcases first.stays x there with kept | ⟨l, dropped, within, gone⟩
    · rcases second.stays x (contains_of_keeps kept).2 with kept' | ⟨l, dropped, within, gone⟩
      · exact .inl (keeps_trans kept kept')
      · obtain ⟨below, kept'⟩ := first.within consistent consistent' layered within kept
        refine .inr ⟨l, dropped, below, eq_false_of_ne_true fun back => ?_⟩
        rw [keeps_between kept' back] at gone
        cases gone
    · refine .inr ⟨l, dropped, within, eq_false_of_ne_true fun back => ?_⟩
      rw [left back] at gone
      cases gone
  comes x e' found young := by
    by_cases later : u.births ≤ e'.birth
    · exact second.comes x e' found later
    · obtain ⟨p, between, birth, kind, parent⟩ := second.former x e' found (by omega)
      rw [← kind, ← parent]
      exact first.comes x p between (birth ▸ young)

end Document.Shift
end LiveDiagram
