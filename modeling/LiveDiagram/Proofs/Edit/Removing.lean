import LiveDiagram.Number.Quantity
import LiveDiagram.Proofs.Document.Outliving
import LiveDiagram.Proofs.Document.Unfolding
import LiveDiagram.Proofs.Edit.Proceeding

/-! Removing one element. It leaves with all that is nested in it on any level, and nothing that stays refers to what
has left. -/
namespace LiveDiagram

variable {α : Type} [Coordinate α]

namespace Document.Cleared
variable {d d' : Document α} {ids : List String} {x r holder : String} {e : Element α}

theorem parentOf_of_some (cleared : d.Cleared ids d') (nested : d'.parentOf x = some holder) : d.parentOf x = some holder := by
  have stays : x ∉ ids := (cleared.contains.1 (contains_of_parentOf nested)).2
  rw [← cleared.parentOf stays, nested]

theorem within (cleared : d.Cleared ids d') (within : d'.Within x r) : d.Within x r :=
  Relation.ReflTransGen.mono (fun _ _ => cleared.parentOf_of_some) x r within

theorem acyclic (cleared : d.Cleared ids d') (acyclic : d.Acyclic) : d'.Acyclic :=
  fun x holder nested within => acyclic x holder (cleared.parentOf_of_some nested) (cleared.within within)

/-- Where elements have left, the others outlive them. -/
theorem outlives (cleared : d.Cleared ids d') (consistent : d.Consistent) (found : d.find? x = some e) :
    d.Outlives d' (· ∈ ids) e (d.bereft ids e) :=
  outlives_bereft consistent found (d.bereft ids e).children fun _ _ stays => cleared.boxOf stays

end Document.Cleared

/-- Elements nested in the same one can be removed one after the other. -/
theorem Proceeds.removeAll {t : Transaction α} {holder : String} {siblings : List (Element α)}
    (consistent : t.document.Consistent) (acyclic : t.document.Acyclic)
    (nested : ∀ e ∈ siblings, t.document.parentOf e.id = some holder) (distinct : (siblings.map Element.id).Nodup) :
    Proceeds t (siblings.forM fun e => Edit.remove e.id) := by
  induction siblings generalizing t with
  | nil => exact .pure
  | cons first rest ih =>
    have parent := nested first List.mem_cons_self
    rw [List.map_cons, List.nodup_cons] at distinct
    refine .bind (.remove consistent (Document.contains_of_parentOf parent)) fun _ u removed => ?_
    obtain ⟨_, steps, cleared, _⟩ := Edit.remove_steps ⟨false, false⟩ consistent removed
    refine ih (consistent.steps steps) (cleared.acyclic acyclic) (fun e member => ?_) distinct.2
    have beside := nested e (List.mem_cons_of_mem _ member)
    refine (cleared.parentOf fun inside => distinct.1 ?_).trans beside
    have same := acyclic.eq_of_within (beside.trans parent.symm) .refl
      ((Document.mem_subtree_iff_within consistent).1 inside)
    exact same ▸ List.mem_map_of_mem member

/-- Removing an element of a sound document returns, and exactly it and what is within it are gone. An end that was at a
node that is gone is free at its center, all other ends are as they were, and no edge that stays has other bounds. The
parent of the element loses it from its children, whose order stays, and whatever was neither its parent nor an edge
with an end at a node that is gone has its state from before. -/
theorem Edit.remove_outlived {t : Transaction α} {id : String} (consistent : t.document.Consistent)
    (isOpen : t.ledger.closed = false) (present : t.document.contains id = true) :
    ∃ t', Gives (Edit.remove id) t () t' ∧ t'.document.Consistent ∧
      (∀ x, t'.document.contains x = true ↔ t.document.contains x = true ∧ ¬t.document.Within x id) ∧
      ∀ x e, t.document.find? x = some e → ¬t.document.Within x id → ∃ e', t'.document.find? x = some e' ∧
        t.document.Outlives t'.document (t.document.Within · id) e e' ∧
        (t.document.parentOf id = some x → e'.children = e.children.erase id) ∧
        (t.document.parentOf id ≠ some x → e'.children = e.children) ∧
        (t.document.parentOf id ≠ some x →
          (∀ relation node anchor, e.end? relation = some (.connected node anchor) → ¬t.document.Within node id) →
          t'.document.state? x = t.document.state? x) := by
  obtain ⟨_, t', removed, _⟩ := Proceeds.remove consistent present isOpen
  obtain ⟨_, steps, cleared, _⟩ := Edit.remove_steps ⟨true, true⟩ consistent removed
  have gone (x : String) : x ∈ t.document.subtree id ↔ t.document.Within x id := Document.mem_subtree_iff_within consistent
  refine ⟨t', removed, consistent.steps steps, fun x => by rw [cleared.contains, gone], fun x e found stays => ?_⟩
  have outside : x ∉ t.document.subtree id := fun inside => stays ((gone x).1 inside)
  have after : t'.document.find? x = some (t.document.bereft (t.document.subtree id) e) := by
    rw [cleared, if_neg outside, found]
    rfl
  have outlives : t.document.Outlives t'.document (t.document.Within · id) e
      (t.document.bereft (t.document.subtree id) e) := by
    have outlives := cleared.outlives consistent found
    rwa [funext fun x => propext (gone x)] at outlives
  have children : (if t.document.parentOf id = some x then e.children.filter (· ≠ id) else e.children) =
      (t.document.bereft (t.document.subtree id) e).children := Document.children_outside consistent outside found
  have others (other : t.document.parentOf id ≠ some x) :
      (t.document.bereft (t.document.subtree id) e).children = e.children := by
    rw [← children, if_neg other]
  refine ⟨_, after, outlives, fun parent => ?_, others, fun other loose => ?_⟩
  · have distinct : e.children.Nodup := by
      have all := consistent.children_nodup x
      rwa [Document.childIds, found] at all
    rw [← children, if_pos parent, distinct.erase_eq_filter]
    exact List.filter_congr fun child _ => by rw [Bool.eq_iff_iff]; simp
  · rw [Document.state?_of_find? after, Document.state?_of_find? found, outlives.state loose (others other)]

/-- An edge with an end at a node that is nested in the one that leaves. -/
theorem Edit.remove_outlived_nested :
    ∃ t t' : Transaction Quantity, t.document.Consistent ∧ t.document.Within "b" "a" ∧
      Gives (Edit.remove "a") t () t' ∧ t'.document.contains "b" = false ∧
      ∃ k k', t.document.find? "k" = some k ∧ k.end? .start = some (.atCenter "b") ∧
        t'.document.find? "k" = some k' ∧ t'.document.boundsOf k' = t.document.boundsOf k := by
  obtain ⟨t, consistent, isOpen, present, parent, topmost, k, found, start⟩ : ∃ t : Transaction Quantity,
      t.document.Consistent ∧ t.ledger.closed = false ∧ t.document.contains "a" = true ∧
        t.document.parentOf "b" = some "a" ∧ t.document.parentOf "k" = none ∧
        ∃ k, t.document.find? "k" = some k ∧ k.end? .start = some (.atCenter "b") := by
    let box : Content Quantity := .node ⟨"rect", Document.page, "", none⟩
    let line : Content Quantity := .edge (.atCenter "b") (.free .origin)
    let outer : Edit Quantity Unit := Edit.insert (.new "a" box .nil .nil) none
    let inner : Edit Quantity Unit := Edit.insert (.new "b" box .nil .nil) (some ⟨"a", 0⟩)
    let edge : Edit Quantity Unit := Edit.insert (.new "k" line .nil .nil) none
    let t₀ : Transaction Quantity := ⟨Document.empty Document.page, .opened Quantity true, ⟨⟨fun _ => "", 0⟩, []⟩⟩
    let t₁ := (outer.run t₀).2
    let t₂ := (inner.run t₁).2
    let t₃ := (edge.run t₂).2
    have boxed (d : Document Quantity) (id : String) (relation : Relation) (p : Endpoint Quantity)
        (ending : (Element.new id box .nil .nil).end? relation = some p) : d.Fits p := by
      cases relation <;> cases ending
    have fits (relation : Relation) (p : Endpoint Quantity)
        (ending : (Element.new "k" line .nil .nil).end? relation = some p) : t₂.document.Fits p := by
      have there : (t₂.document.node? "b").isSome = true := by decide +kernel
      cases relation <;> cases ending
      · exact there
      · trivial
    obtain ⟨_, first, _⟩ : ∃ b, Gives outer t₀ b t₁ ∧ _ := exists_gives (fun _ => true) (by decide +kernel)
    obtain ⟨_, second, _⟩ : ∃ b, Gives inner t₁ b t₂ ∧ _ := exists_gives (fun _ => true) (by decide +kernel)
    obtain ⟨_, third, _⟩ : ∃ b, Gives edge t₂ b t₃ ∧ _ := exists_gives (fun _ => true) (by decide +kernel)
    have older : (0 : Nat) < t₁.document.births := by decide +kernel
    have empty := Document.consistent_empty (Document.page : Bounds Quantity)
    have consistent₁ : t₁.document.Consistent := empty.steps
      (Edit.insert_steps ⟨true, false⟩ empty rfl rfl (boxed _ _) (by simp) (by simp) first).2.2.2
    have consistent₂ : t₂.document.Consistent := consistent₁.steps
      (Edit.insert_steps ⟨true, false⟩ consistent₁ rfl rfl (boxed _ _) (by rintro _ ⟨⟩; exact older) (by simp) second).2.2.2
    have consistent : t₃.document.Consistent := consistent₂.steps
      (Edit.insert_steps ⟨true, false⟩ consistent₂ rfl rfl fits (by simp) (by simp) third).2.2.2
    have start : (t₃.document.find? "k").bind (Element.end? .start) = some (.atCenter "b") := by decide +kernel
    exact ⟨t₃, consistent, by decide +kernel, by decide +kernel, by decide +kernel, by decide +kernel,
      Option.bind_eq_some_iff.1 start⟩
  have nested : t.document.Within "b" "a" := .single parent
  have outside : ¬t.document.Within "k" "a" := by
    intro within
    rcases Relation.ReflTransGen.cases_head within with same | ⟨holder, parent, _⟩
    · exact absurd same (by decide)
    · rw [topmost] at parent
      cases parent
  obtain ⟨t', removed, _, gone, stay⟩ := Edit.remove_outlived consistent isOpen present
  obtain ⟨k', found', outlives, _⟩ := stay "k" k found outside
  refine ⟨t, t', consistent, nested, removed, ?_, k, k', found, start, found', outlives.bounds⟩
  rw [← Bool.not_eq_true, gone]
  exact fun both => both.2 nested

end LiveDiagram
