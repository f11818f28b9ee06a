import LiveDiagram.Proofs.Edit.Listing
import LiveDiagram.Proofs.Reconcile.Pass

/-! The order in which a pass records the topmost elements that it leaves out. They are recorded one after the other, but an
edge among them may be recorded early, when an element that it is attached to leaves before it. -/
namespace LiveDiagram

variable {α : Type}

/-- Of elements that leave the top in this order, one is recorded before another: it stands in front of that one, or it is an
edge that is let go by an element in front of that one. -/
def Document.Precedes (d : Document α) (roots : List String) (x y : String) : Prop :=
  [x, y].Sublist roots ∨ ∃ r, [r, y].Sublist roots ∧ d.AttachedBelow r x

/-- What stands in front, or is let go there, precedes what stands behind. -/
theorem Document.Precedes.of_early {d : Document α} {roots front back : List String} {x y : String}
    (split : roots = front ++ back) (early : x ∈ front ∨ ∃ r ∈ front, d.AttachedBelow r x) (behind : y ∈ back) :
    d.Precedes roots x y := by
  have apart {z : String} (gone : z ∈ front) : [z, y].Sublist roots :=
    split ▸ (List.singleton_sublist.2 gone).append (List.singleton_sublist.2 behind)
  exact early.imp apart fun ⟨r, gone, attached⟩ => ⟨r, apart gone, attached⟩

variable [Coordinate α]

/-- Where the removal of topmost elements, one after the other, is when some of them have left. -/
structure Tallied (d : Document α) (roots done : List String) (t : Transaction α) : Prop where
  consistent : t.document.Consistent
  swept : ∃ ids, d.Swept done ids t.document
  recorded : Recorded d t
  listed : done ⊆ t.ledger.ids
  early : ∀ x ∈ t.ledger.ids, x ∈ roots → x ∈ done ∨ ∃ r ∈ done, d.AttachedBelow r x
  order : t.ledger.ids.Pairwise fun x y => x ∈ roots → y ∈ roots → d.Precedes roots x y

namespace Document
variable {d d' : Document α} {roots ids : List String} {r x : String}

/-- What is attached below an element that stays was attached below it before. -/
theorem Swept.attachedBelow (swept : d.Swept roots ids d') (consistent : d.Consistent) (consistent' : d'.Consistent)
    (there : d'.contains r = true) (attached : d'.AttachedBelow r x) : d.AttachedBelow r x := by
  obtain ⟨n, inside, attached⟩ := attached
  have stays : n ∉ ids := (swept.cleared.contains.1 (contains_of_mem_subtree consistent' there inside)).2
  refine ⟨n, ?_, swept.cleared.attachedEdges_subset consistent consistent' attached⟩
  exact (swept.cleared.mem_subtree consistent consistent' (fun _ _ => swept.mem_of_parent consistent) stays).1 inside

end Document

namespace Tallied
variable {d : Document α} {roots done rest : List String} {t t' : Transaction α} {r : String}

theorem opened (consistent : d.Consistent) (context : Context) :
    Tallied d roots [] ⟨d, .opened α true, context⟩ where
  consistent := consistent
  swept := ⟨[], .refl d⟩
  recorded := .opened d context
  listed := List.nil_subset _
  early _ member := (List.not_mem_nil member).elim
  order := .nil

/-- A note records nothing. -/
theorem say (tallied : Tallied d roots done t) (context : Context) :
    Tallied d roots done { t with context := context } :=
  have said : Step ⟨false, false⟩ t { t with context := context } := .say t context
  ⟨tallied.consistent, tallied.swept, tallied.recorded.step tallied.consistent rfl said, tallied.listed, tallied.early, tallied.order⟩

/-- The next element leaves. -/
theorem remove (tallied : Tallied d roots done t) (consistent : d.Consistent) (top : ∀ x ∈ roots, x ∈ d.top)
    (next : roots = done ++ r :: rest) (given : Gives (Edit.remove r) t () t') : Tallied d roots (done ++ [r]) t' := by
  obtain ⟨ids, swept⟩ := tallied.swept
  obtain ⟨there, steps, cleared, _⟩ := Edit.remove_steps ⟨false, false⟩ tallied.consistent given
  have consistent' := tallied.consistent.steps steps
  have swept' := swept.trans (Edit.remove_swept tallied.consistent given) consistent tallied.consistent
  have root : r ∈ roots := next ▸ List.mem_append_right done List.mem_cons_self
  have alone {x : String} (topmost : x ∈ roots) : d.parentOf x = none := ((consistent.mem_top x).1 (top x topmost)).2.1
  have present := swept.cleared.contains.1 there
  have topmost : t.document.parentOf r = none := (swept.cleared.parentOf present.2).trans (alone root)
  obtain ⟨state, more, grown, only⟩ := Edit.lists_remove tallied.consistent topmost given
  have recorded' := tallied.recorded.steps tallied.consistent rfl steps
  have distinct : t'.ledger.ids.Nodup := recorded'.keys_nodup
  have kept {x : String} : x ∈ (t.ledger.keep r state).ids ↔ x ∈ t.ledger.ids ∨ x = r :=
    Ledger.mem_ids_keep tallied.recorded.tracking
  rw [grown] at distinct
  have fresh := (List.nodup_append.1 distinct).2.2
  have early {x : String} (member : x ∈ t'.ledger.ids) (later : x ∈ roots) :
      x ∈ done ++ [r] ∨ ∃ r' ∈ done ++ [r], d.AttachedBelow r' x := by
    rw [grown, List.mem_append, kept] at member
    rcases member with (old | rfl) | new
    · refine (tallied.early x old later).imp (List.mem_append_left _) ?_
      exact fun ⟨r', gone, attached⟩ => ⟨r', List.mem_append_left _ gone, attached⟩
    · exact .inl (List.mem_append_right _ List.mem_cons_self)
    · refine .inr ⟨r, List.mem_append_right _ List.mem_cons_self, ?_⟩
      rcases only x new with inside | attached
      · -- Nothing below the element is topmost but itself, and that is recorded already.
        have other : x ≠ r := fun same => fresh r (kept.2 (.inr rfl)) x new same.symm
        obtain ⟨p, _, nested⟩ := Document.exists_parent_mem_subtree tallied.consistent inside other
        have stays := swept.cleared.contains.1 (Document.contains_of_mem_subtree tallied.consistent there inside)
        rw [swept.cleared.parentOf stays.2, alone later] at nested
        cases nested
      · exact swept.attachedBelow consistent tallied.consistent there attached
  refine ⟨consistent', ⟨_, swept'⟩, recorded', fun x member => ?_, fun x => early, ?_⟩
  · rw [grown, List.mem_append, kept]
    refine .inl ((List.mem_append.1 member).imp (tallied.listed ·) List.mem_singleton.1)
  · have behind {y : String} (member : y ∈ more) (later : y ∈ roots) : y ∈ rest := by
      rw [next, List.mem_append, List.mem_cons] at later
      rcases later with left | rfl | behind
      · exact (fresh y (kept.2 (.inl (tallied.listed left))) y member rfl).elim
      · exact (fresh y (kept.2 (.inr rfl)) y member rfl).elim
      · exact behind
    have split : roots = (done ++ [r]) ++ rest := next.trans (List.append_cons done r rest)
    have late {x y : String} (member : x ∈ (t.ledger.keep r state).ids ++ more) (left : x ∈ roots) (member' : y ∈ more)
        (right : y ∈ roots) : d.Precedes roots x y :=
      .of_early split (early (grown ▸ member) left) (behind member' right)
    rw [grown, List.pairwise_append]
    refine ⟨?_, List.pairwise_of_forall_mem_list fun x member y member' left right => ?_, fun x member y member' left right => ?_⟩
    · rw [Ledger.ids_keep]
      split
      · exact tallied.order
      · refine List.pairwise_append.2 ⟨tallied.order, List.pairwise_singleton _ r, fun x member y last left _ => ?_⟩
        obtain rfl := List.mem_singleton.1 last
        exact .of_early next (tallied.early x member left) List.mem_cons_self
    · exact late (List.mem_append_right _ member) left member' right
    · exact late (List.mem_append_left _ member) left member' right

end Tallied

namespace Reconcile
variable {d : Document α} {context : Context} {ids : List String} {t : Transaction α}

/-- All that is left out at the top is recorded when it leaves, in the order of the document but for edges that are let
go early. -/
theorem removeOthers_tallies (consistent : d.Consistent)
    (given : Gives (removeOthers ids) ⟨d, .opened α true, context⟩ () t) :
    Tallied d (d.top.filter (!ids.contains ·)) (d.top.filter (!ids.contains ·)) t := by
  simp only [removeOthers, gives_bind, Edit.gives_document] at given
  obtain ⟨_, _, ⟨here, rfl⟩, given⟩ := given
  rw [here] at given
  generalize same : d.top.filter (!ids.contains ·) = roots at given ⊢
  have top : ∀ x ∈ roots, x ∈ d.top := same ▸ fun x member => (List.mem_filter.1 member).1
  have general (done rest : List String) (u : Transaction α) (split : roots = done ++ rest) (tallied : Tallied d roots done u)
      (given : Gives (rest.forM fun id => do Edit.note (.removing id); Edit.remove id) u () t) : Tallied d roots roots t := by
    induction rest generalizing done u with
    | nil =>
      rw [List.append_nil] at split
      exact gives_forM_nil.1 given ▸ split ▸ tallied
    | cons r rest ih =>
      obtain ⟨v, round, others⟩ := gives_forM_cons.1 given
      obtain ⟨_, u', noted, removed⟩ := gives_bind.1 round
      obtain rfl := Edit.gives_note.1 noted
      refine ih (done ++ [r]) v (split.trans (List.append_cons done r rest)) ?_ others
      exact (tallied.say _).remove consistent top split removed
  exact general [] roots _ rfl (.opened consistent context) given

end Reconcile
end LiveDiagram
