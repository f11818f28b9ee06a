import LiveDiagram.Document.History
import LiveDiagram.Proofs.Edit.Proceeding

/-! Removals in a transaction that keeps no records. Each of them returns, and together they clear the document of
the removed elements and all that was below them. -/
namespace LiveDiagram

variable {α : Type}

/-- A ledger that is open and asks for no records. -/
def Ledger.Idle (l : Ledger α) : Prop :=
  l.closed = false ∧ l.tracking = false

namespace Ledger.Idle
variable {l : Ledger α} {id : String} {state : Option (Snapshot α)}

theorem keep (idle : l.Idle) : l.keep id state = l := by
  unfold Ledger.keep
  simp [idle.2]

theorem opened : (Ledger.opened α false).Idle := ⟨rfl, rfl⟩

end Ledger.Idle

/-- Steps leave an idle ledger as it is. -/
theorem Ledger.Idle.steps [Coordinate α] {terms : Terms} {t t' : Transaction α} (idle : t.ledger.Idle)
    (steps : Steps terms t t') : t'.ledger = t.ledger := by
  induction steps with
  | refl => rfl
  | tail _ step ih =>
    refine .trans ?_ ih
    rw [← ih] at idle
    cases step with
    | record => exact idle.keep
    | _ => rfl

namespace Edit
variable [Coordinate α] {t t' : Transaction α} {id : String} {b : Unit}

/-- A consistent document in a transaction with this ledger. -/
def Stable (l : Ledger α) (t : Transaction α) : Prop :=
  t.document.Consistent ∧ t.ledger = l

/-- Removing an element that is there returns. -/
theorem remove_returns {l : Ledger α} (idle : l.Idle) (stable : Stable l t) (present : t.document.contains id = true) :
    ∃ t', Gives (remove id) t () t' ∧ Stable l t' := by
  obtain ⟨consistent, rfl⟩ := stable
  obtain ⟨_, t', removed, _⟩ := Proceeds.remove consistent present idle.1
  have steps := (remove_steps ⟨true, true⟩ consistent removed).2.1
  exact ⟨t', removed, consistent.steps steps, idle.steps steps⟩

end Edit

/-! Removing all that is to be absent -/

namespace Document
variable {d d' : Document α} {roots : List String} {x : String}

/-- What is there of the given ids, and all below it. -/
def Below (d : Document α) (roots : List String) (x : String) : Prop :=
  ∃ root ∈ roots, d.contains root = true ∧ x ∈ d.subtree root

theorem below_cons {root : String} :
    d.Below (root :: roots) x ↔ (d.contains root = true ∧ x ∈ d.subtree root) ∨ d.Below roots x := by
  simp only [Below, List.mem_cons, or_and_right, exists_or, exists_eq_left]

theorem Below.contains (below : d.Below roots x) (consistent : d.Consistent) : d.contains x = true := by
  obtain ⟨root, _, present, inside⟩ := below
  exact contains_of_mem_subtree consistent present inside

/-- Once an element has left with all below it, the others below the given ids are still there. -/
theorem Cleared.below_iff [Coordinate α] {root : String} (cleared : d.Cleared (d.subtree root) d')
    (consistent : d.Consistent) (consistent' : d'.Consistent) (stays : x ∉ d.subtree root) :
    d'.Below roots x ↔ d.Below roots x := by
  have whole (parent child : String) (nested : d.parentOf child = some parent) :
      parent ∈ d.subtree root → child ∈ d.subtree root := mem_subtree_of_parent consistent nested
  have same (other : String) : x ∈ d'.subtree other ↔ x ∈ d.subtree other :=
    cleared.mem_subtree consistent consistent' whole stays
  constructor
  · rintro ⟨other, member, present, inside⟩
    exact ⟨other, member, (cleared.contains.1 present).1, (same other).1 inside⟩
  · rintro ⟨other, member, present, inside⟩
    have outside : other ∉ d.subtree root := by
      intro gone
      have path := (Links.mem_subtree.1 gone).trans (Links.mem_subtree.1 inside)
      exact stays (Links.mem_subtree.2 path)
    exact ⟨other, member, cleared.contains.2 ⟨present, outside⟩, (same other).2 inside⟩

end Document

namespace Edit
variable [Coordinate α] {t t' : Transaction α}

/-- Removing elements as far as they are there returns, and clears the document of all that was below them. -/
theorem removals_return {β : Type} {l : Ledger α} (idle : l.Idle) (entries : List (String × β)) (stable : Stable l t) :
    ∃ t' ids, Gives (entries.forM fun (id, _) => removeIfPresent id) t () t' ∧ Stable l t' ∧
      t.document.Cleared ids t'.document ∧ ∀ x, x ∈ ids ↔ t.document.Below (entries.map Prod.fst) x := by
  induction entries generalizing t with
  | nil => exact ⟨t, [], gives_forM_nil.2 rfl, stable, .refl _, by simp [Document.Below]⟩
  | cons entry rest ih =>
    obtain ⟨id, value⟩ := entry
    cases present : t.document.contains id with
    | false =>
      have first : Gives (removeIfPresent id) t () t := by
        simp only [removeIfPresent, gives_bind, gives_document]
        exact ⟨_, _, ⟨rfl, rfl⟩, by simp [present]⟩
      obtain ⟨t', ids, others, stable', cleared, same⟩ := ih stable
      refine ⟨t', ids, gives_forM_cons.2 ⟨t, first, others⟩, stable', cleared, fun x => ?_⟩
      rw [same, List.map_cons, Document.below_cons, present]
      simp
    | true =>
      obtain ⟨u, removed, stable'⟩ := remove_returns idle stable present
      have first : Gives (removeIfPresent id) t () u := by
        simp only [removeIfPresent, gives_bind, gives_document]
        refine ⟨_, _, ⟨rfl, rfl⟩, ?_⟩
        rw [present]
        exact removed
      have early := (remove_steps ⟨true, true⟩ stable.1 removed).2.2.1
      obtain ⟨t', ids, others, stable'', late, same⟩ := ih stable'
      refine ⟨t', ids ++ t.document.subtree id, gives_forM_cons.2 ⟨u, first, others⟩, stable'', early.trans late,
        fun x => ?_⟩
      -- What has gone with the first is below it; what has not is below the others as it was before.
      rw [List.mem_append, same, List.map_cons, Document.below_cons, present]
      by_cases inside : x ∈ t.document.subtree id
      · simp [inside]
      · simp only [early.below_iff stable.1 stable'.1 inside, inside, and_false, or_false, false_or]

end Edit
end LiveDiagram
