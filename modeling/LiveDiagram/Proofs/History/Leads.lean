import LiveDiagram.Proofs.Edit.Removals
import LiveDiagram.Proofs.History.Reinstatement

/-! States that lead from one document to another. A restore of such states returns, and makes the elements with a
state those of the other document; what it does not list it leaves alone. -/
namespace LiveDiagram

variable {α : Type}

namespace States

/-- The ids that a restore is given. -/
def ids (states : States α) : List String :=
  states.map Prod.fst

/-- The ids that are to be absent. -/
def absent (states : States α) : List String :=
  (states.filter (·.2.isNone)).map Prod.fst

variable {states : States α} {x : String} {s : Snapshot α}

theorem mem_absent : x ∈ states.absent ↔ (x, none) ∈ states := by
  simp only [absent, List.mem_map, List.mem_filter, Option.isNone_iff_eq_none, Prod.exists]
  grind

theorem mem_ids {state : Option (Snapshot α)} (listed : (x, state) ∈ states) : x ∈ states.ids :=
  List.mem_map_of_mem listed

/-- In a list without repeated ids an id has one state. -/
theorem unique (distinct : states.ids.Nodup) {a b : Option (Snapshot α)} (first : (x, a) ∈ states)
    (second : (x, b) ∈ states) : a = b :=
  congrArg Prod.snd (List.inj_on_of_nodup_map distinct first second rfl)

theorem mem_presentOf : s ∈ Edit.presentOf states ↔ ∃ id, (id, some s) ∈ states := by
  simp only [Edit.presentOf, List.mem_filterMap, Prod.exists, exists_eq_right]

end States

variable [Coordinate α]

/-- States of one document that a restore can bring about in another. -/
structure States.Lead (states : States α) (d g : Document α) : Prop where
  consistent : d.Consistent
  goal_consistent : g.Consistent
  distinct : states.ids.Nodup
  goal : ∀ x s, (x, s) ∈ states → s = g.state? x
  others : ∀ x, x ∉ states.ids → d.contains x = g.contains x ∧ d.parentOf x = g.parentOf x ∧
    d.childIds x = g.childIds x ∧ (d.node? x).isSome = (g.node? x).isSome
  /-- Whatever leaves has a state. -/
  whole : ∀ x, d.Below states.absent x → x ∈ states.ids
  /-- An edge without a state has no end at a node that leaves. -/
  loose : ∀ relation edge node anchor, edge ∉ states.ids →
    d.endOf relation edge = some (.connected node anchor) → ¬d.Below states.absent node
  kinds : ∀ x s e, (x, some s) ∈ states → d.find? x = some e → ¬d.Below states.absent x → e.kind = s.kind

namespace States.Lead
variable {states : States α} {d d' g : Document α} {x : String} {s : Snapshot α} {ids : List String}

theorem named (lead : states.Lead d g) (listed : (x, some s) ∈ states) : s.id = x := by
  obtain ⟨e, found, state⟩ := Option.map_eq_some_iff.1 (lead.goal x _ listed).symm
  rw [← state]
  exact Document.find?_eq_some_id found

theorem not_contains_goal (lead : states.Lead d g) (listed : x ∈ states.absent) : g.contains x = false := by
  have state := lead.goal x none (mem_absent.1 listed)
  rw [Document.not_contains_iff]
  exact Option.map_eq_none_iff.1 state.symm

theorem mem_ids_presentOf (lead : states.Lead d g) :
    x ∈ (Edit.presentOf states).map Snapshot.id ↔ ∃ s, (x, some s) ∈ states := by
  constructor
  · intro member
    obtain ⟨s, present, rfl⟩ := List.mem_map.1 member
    obtain ⟨id, listed⟩ := mem_presentOf.1 present
    exact ⟨s, lead.named listed ▸ listed⟩
  · rintro ⟨s, listed⟩
    exact List.mem_map.2 ⟨s, mem_presentOf.2 ⟨x, listed⟩, lead.named listed⟩

theorem nodup_presentOf (lead : states.Lead d g) : ((Edit.presentOf states).map Snapshot.id).Nodup := by
  have general : ∀ entries : States α, (∀ id s, (id, some s) ∈ entries → s.id = id) →
      ((Edit.presentOf entries).map Snapshot.id).Sublist (entries.map Prod.fst) := by
    intro entries named
    induction entries with
    | nil => exact .slnil
    | cons entry rest ih =>
      have rest' := ih fun id s listed => named id s (List.mem_cons_of_mem _ listed)
      obtain ⟨id, state⟩ := entry
      cases state with
      | none => exact rest'.cons _
      | some s =>
        have own := named id s List.mem_cons_self
        simp only [Edit.presentOf, List.filterMap_cons, List.map_cons, own]
        exact rest'.cons_cons _
  exact lead.distinct.sublist (general states fun _ _ listed => lead.named listed)

/-- An element without a state stays as it is when the others leave. -/
theorem find?_unlisted (lead : states.Lead d g) (cleared : d.Cleared ids d')
    (gone : ∀ x, x ∈ ids ↔ d.Below states.absent x) (unlisted : x ∉ states.ids) : d'.find? x = d.find? x := by
  have stays : x ∉ ids := fun inside => unlisted (lead.whole x ((gone x).1 inside))
  rw [cleared, if_neg stays]
  cases found : d.find? x with
  | none => rfl
  | some e =>
    rw [Option.map_some, Document.bereft_eq]
    · intro relation node anchor ending inside
      exact lead.loose relation x node anchor unlisted (Document.endOf_eq_some.2 ⟨e, found, ending⟩) ((gone node).1 inside)
    · intro child member inside
      have children : child ∈ d.childIds x := Document.mem_childIds.2 ⟨e, found, member⟩
      have nested := (lead.consistent.mem_children x child).1 children
      obtain ⟨root, listed, present, below⟩ := (gone child).1 inside
      by_cases same : child = root
      · rw [(lead.others x unlisted).2.2.1, lead.goal_consistent.mem_children] at children
        have there := Document.contains_of_parentOf children
        rw [same, lead.not_contains_goal listed] at there
        cases there
      · obtain ⟨parent, inner, held⟩ := Document.exists_parent_mem_subtree lead.consistent below same
        cases nested.symm.trans held
        exact unlisted (lead.whole x ⟨root, listed, present, inner⟩)

theorem find?_absent (cleared : d.Cleared ids d') (gone : ∀ x, x ∈ ids ↔ d.Below states.absent x)
    (listed : x ∈ states.absent) : d'.find? x = none := by
  rw [cleared]
  split
  · rfl
  · next stays =>
    have missing : d.find? x = none := by
      rw [← Document.not_contains_iff, ← Bool.not_eq_true]
      intro present
      exact stays ((gone x).2 ⟨x, listed, present, Document.mem_subtree_self⟩)
    rw [missing]
    rfl

/-- Once what is to be absent has left, the document is ready for the states. -/
theorem ready (lead : states.Lead d g) (consistent : d'.Consistent) (cleared : d.Cleared ids d')
    (gone : ∀ x, x ∈ ids ↔ d.Below states.absent x) : d'.Ready (Edit.presentOf states) g where
  consistent := consistent
  goal := lead.goal_consistent
  distinct := lead.nodup_presentOf
  target s member := by
    obtain ⟨id, listed⟩ := mem_presentOf.1 member
    rw [lead.named listed]
    exact (lead.goal id _ listed).symm
  kinds s member e found := by
    obtain ⟨id, listed⟩ := mem_presentOf.1 member
    cases lead.named listed
    rw [cleared] at found
    split at found
    · cases found
    · next stays =>
      obtain ⟨former, lookup, rfl⟩ := Option.map_eq_some_iff.1 found
      rw [Document.kind_bereft]
      exact lead.kinds s.id s former listed lookup fun below => stays ((gone s.id).2 below)
  others x unlisted := by
    rw [lead.mem_ids_presentOf] at unlisted
    by_cases listed : x ∈ states.ids
    · obtain ⟨⟨_, state⟩, entry, rfl⟩ := List.mem_map.1 listed
      cases state with
      | some s => exact (unlisted ⟨s, entry⟩).elim
      | none =>
        have missing := find?_absent cleared gone (mem_absent.2 entry)
        have missing' := Document.not_contains_iff.1 (lead.not_contains_goal (mem_absent.2 entry))
        simp only [Document.contains, Document.parentOf, Document.childIds, Document.isSome_node?, missing, missing',
          true_and]
    · have same := lead.find?_unlisted cleared gone listed
      have others := lead.others x listed
      simp only [Document.contains, Document.parentOf, Document.childIds, Document.isSome_node?, same] at others ⊢
      exact others

/-- A restore of states that lead to a document returns. It makes the elements with states those of that document,
removes those that are to be absent, and leaves the others alone. -/
theorem restored (lead : states.Lead d g) {t : Transaction α} (idle : t.ledger.Idle) (same : t.document = d) :
    ∃ t', Gives (Edit.restore states) t () t' ∧ t'.document.Consistent ∧ t'.document.history = d.history ∧
      (∀ x, x ∉ states.ids → t'.document.find? x = d.find? x) ∧
      (∀ x, (x, none) ∈ states → t'.document.find? x = none) ∧
      ∀ x s, (x, some s) ∈ states → t'.document.Reborn g x := by
  subst same
  obtain ⟨u, ids, removed, stable, cleared, gone⟩ := Edit.removals_return idle (states.filter (·.2.isNone))
    ⟨lead.consistent, rfl⟩
  have ready := lead.ready stable.1 cleared gone
  obtain ⟨rest, reborn⟩ := ready.restored
  have given := Edit.restore_returns removed ready
  refine ⟨_, given, ?_, Edit.history_restore lead.consistent given, ?_, ?_, ?_⟩
  · refine Edit.consistent_restore lead.consistent ?_ given
    intro x s listed
    exact Document.Consistent.nodup_children_state lead.goal_consistent (lead.goal x _ listed).symm
  · intro x unlisted
    have apart : x ∉ (Edit.presentOf states).map Snapshot.id := by
      rw [lead.mem_ids_presentOf]
      rintro ⟨s, listed⟩
      exact unlisted (mem_ids listed)
    exact (rest x apart).trans (lead.find?_unlisted cleared gone unlisted)
  · intro x listed
    have apart : x ∉ (Edit.presentOf states).map Snapshot.id := by
      rw [lead.mem_ids_presentOf]
      rintro ⟨s, present⟩
      cases unique lead.distinct listed present
    exact (rest x apart).trans (find?_absent cleared gone (mem_absent.2 listed))
  · intro x s listed
    cases lead.named listed
    exact reborn s (mem_presentOf.2 ⟨s.id, listed⟩)

end States.Lead
end LiveDiagram
