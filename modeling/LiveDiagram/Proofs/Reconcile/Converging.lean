import LiveDiagram.Proofs.Reconcile.Settled

/-! Passes over a forest that was brought into the document already. They add and remove nothing; the second one turns
the ends of edges that name a node further on in the forest, and the third one changes nothing at all. -/
namespace LiveDiagram

/-- An id of an edge that names a node which does not come before it. -/
def Forest.Forward (f : Forest) (x : String) : Prop :=
  ∃ before s after, f.sites none = before ++ s :: after ∧ s.id = x ∧
    ∃ n ∈ s.head.ends, n ∈ Site.nodeIds (f.sites none) ∧ n ∉ Site.nodeIds before

variable {α : Type} [Coordinate α]

/-- A state that is the same as itself. Every state is, unless it has a coordinate that is not a number. -/
def Document.SteadyAt (d : Document α) (x : String) : Prop :=
  ∀ s, d.state? x = some s → s.same s = true

theorem Document.steadyAt_of_all {d : Document α}
    (all : d.elements.all fun e => (d.snapshot e).same (d.snapshot e)) (x : String) : d.SteadyAt x := by
  intro s held
  obtain ⟨e, found, rfl⟩ := Option.map_eq_some_iff.1 held
  exact List.all_eq_true.1 all e (mem_of_find? found)

/-- What the ends of an edge are connected to. -/
def Snapshot.links (s : Snapshot α) : List (Option (String × String)) :=
  match s.content with
  | .node _ => []
  | .edge start stop => [start.link, stop.link]

theorem Snapshot.links_of_same {s s' : Snapshot α} (same : s'.same s = true) : s'.links = s.links := by
  simp only [Snapshot.same, Bool.and_eq_true] at same
  obtain ⟨_, content⟩ := same
  unfold links
  cases own : s'.content with
  | node c' =>
    cases other : s.content with
    | node c => rfl
    | edge start stop => simp [own, other, ContentState.same] at content
  | edge start' stop' =>
    cases other : s.content with
    | node c => simp [own, other, ContentState.same] at content
    | edge start stop =>
      simp only [own, other, ContentState.same, EndpointState.same, Bool.and_eq_true, beq_iff_eq] at content
      dsimp only
      rw [content.1.2, content.2.2]

namespace Endpoint
variable {nodes : List String} {known : String → Bool} {name : Option String} {free unresolved : Point α}

omit [Coordinate α] in
/-- An end stays when its name leads to no other node than before. -/
theorem resolve_still (still : ∀ n, name = some n → known n = true → n ∈ nodes) :
    (name.filter known).elim (.resolve nodes free unresolved name) atCenter = .resolve nodes free unresolved name := by
  cases given : name.filter known with
  | none => rfl
  | some n =>
    obtain ⟨rfl, there⟩ := Option.filter_eq_some_iff.1 given
    unfold resolve
    exact (if_pos (still n rfl there)).symm

omit [Coordinate α] in
/-- An end turns when its name leads to a node that was not there before. -/
theorem resolve_turns {n : String} (named : name = some n) (there : known n = true) (fresh : n ∉ nodes) :
    ((name.filter known).elim (.resolve nodes free unresolved name) atCenter).link? ≠
      (resolve nodes free unresolved name).link? := by
  subst named
  unfold resolve
  dsimp only
  rw [Option.filter_some, if_pos there, if_neg fresh]
  exact Option.some_ne_none _

end Endpoint

namespace Built
variable {config : Config α} {ids ids' : IdSupply} {f : Forest} {d d' : Document α} {before after : List Site} {s : Site}
  {e : Element α} (built : Built config ids (f.sites none) d ids') (suits : ids.Suits f.preorder)
  (split : f.sites none = before ++ s :: after)

include built suits split

theorem knows_iff {n : String} (mentioned : n ∈ s.head.ends) : d.knows n = true ↔ n ∈ Site.nodeIds (f.sites none) := by
  rw [← f.heads_sites none] at suits
  exact built.isSome_node? suits (Nat.le_refl _) (split ▸ List.mem_append_right before List.mem_cons_self)
    (List.mem_cons_of_mem s.id mentioned)

/-- An element stays when its declaration names nodes before it only. -/
theorem rejoin_still (found : d.find? s.id = some e)
    (still : ∀ n ∈ s.head.ends, n ∈ Site.nodeIds (f.sites none) → n ∈ Site.nodeIds before) :
    s.head.rejoin d.knows e = e := by
  obtain ⟨birth, bounds, placed⟩ := built.placed before s after split
  obtain rfl := Option.some.inj (found.symm.trans placed)
  cases head : s.head.head with
  | node shape name style => exact Declaration.rejoin_eq_self head
  | edge source target label =>
    have kept (n : String) (mentioned : source = some n ∨ target = some n) (known : d.knows n = true) :
        n ∈ Site.nodeIds before := by
      have spoken : n ∈ s.head.ends := by
        unfold Declaration.ends
        rw [head]
        rcases mentioned with rfl | rfl <;> simp
      exact still n spoken ((built.knows_iff suits split spoken).1 known)
    unfold Site.element Site.content
    rw [head]
    dsimp only
    rw [Declaration.rejoin_edge head, Endpoint.resolve_still fun n same => kept n (.inl same),
      Endpoint.resolve_still fun n same => kept n (.inr same)]

/-- The state of an edge that names a later node shows its new connection. -/
theorem rejoin_turns (found : d.find? s.id = some e) {n : String} (spoken : n ∈ s.head.ends)
    (there : n ∈ Site.nodeIds (f.sites none)) (later : n ∉ Site.nodeIds before) :
    (d'.snapshot (s.head.rejoin d.knows e)).links ≠ (d.snapshot e).links := by
  obtain ⟨birth, bounds, placed⟩ := built.placed before s after split
  obtain rfl := Option.some.inj (found.symm.trans placed)
  have known := (built.knows_iff suits split spoken).2 there
  cases head : s.head.head with
  | node shape name style =>
    unfold Declaration.ends at spoken
    rw [head] at spoken
    cases spoken
  | edge source target label =>
    have mentioned : source = some n ∨ target = some n := by
      unfold Declaration.ends at spoken
      rw [head] at spoken
      simpa using spoken
    unfold Site.element Site.content
    rw [head]
    dsimp only
    rw [Declaration.rejoin_edge head]
    intro same
    rcases mentioned with first | second
    · exact Endpoint.resolve_turns first known later (List.cons.inj same).1
    · exact Endpoint.resolve_turns second known later (List.cons.inj (List.cons.inj same).2).1

omit suits split in
theorem of_same (same : d'.SameContent d) : Built config ids (f.sites none) d' ids' where
  consistent := built.consistent.of_same same
  supply := built.supply
  there x := by
    unfold Document.contains
    rw [Document.find?_of_same same.elements]
    exact built.there x
  top := same.top.trans built.top
  met := built.met
  placed := by simpa only [Document.find?_of_same same.elements] using built.placed
  labelled := by simpa only [Document.find?_of_same same.elements] using built.labelled

end Built

/-- A pass over a forest whose sites are all settled adds and removes nothing, and joins the ends that are named. -/
theorem Work.reconcile_again (config : Config α) {f : Forest} {d : Document α} (context : Context)
    (consistent : d.Consistent) (kept : ∀ x ∈ d.top, x ∈ f.preorder.map Declaration.id)
    (settled : ∀ s ∈ f.sites none, ∃ e, Settled d s e) :
    ∃ outcome w, Gives (Work.reconcile config f) ⟨d, context⟩ outcome w ∧
      w.document.SameContent (d.rejoinAll f.preorder) ∧ outcome.added = [] ∧ outcome.removed = [] := by
  obtain ⟨reference, visited⟩ := Reconcile.visit_again config context.ids consistent settled
  obtain ⟨outcome, w, given, same, _⟩ := Work.reconcile_returns kept visited
  obtain ⟨⟨_, added⟩, ⟨_, removed⟩, _⟩ := Work.outcome_reconcile consistent given
  have there (x : String) : w.document.contains x = d.contains x := by
    have turned : d.Turned (d.rejoinAll f.preorder) := Document.turned_rejoinAll
    have found := turned x
    rw [← Document.find?_of_same same.elements] at found
    unfold Document.contains
    rw [← Option.isSome_map, found, Option.isSome_map]
  refine ⟨outcome, w, given, same, ?_, ?_⟩
  · refine List.eq_nil_iff_forall_not_mem.2 fun x member => ?_
    obtain ⟨before, after⟩ := (added x).1 member
    rw [there, before] at after
    cases after
  · refine List.eq_nil_iff_forall_not_mem.2 fun x member => ?_
    obtain ⟨before, after⟩ := (removed x).1 member
    rw [there, before] at after
    cases after

/-- An element whose state stays is told as updated only if the state is not the same as itself. -/
theorem Work.not_steadyAt_of_mem_updated {config : Config α} {f : Forest} {d : Document α} {context : Context}
    {outcome : Outcome} {w : Workspace α} {x : String} (consistent : d.Consistent)
    (given : Gives (Work.reconcile config f) ⟨d, context⟩ outcome w) (member : x ∈ outcome.updated)
    (still : w.document.state? x = d.state? x) : ¬d.SteadyAt x := by
  intro steady
  obtain ⟨_, _, _, updated, _⟩ := Work.outcome_reconcile consistent given
  obtain ⟨s, s', before, after, differs⟩ := updated x member
  rw [still, before, Option.some.injEq] at after
  rw [← after, steady s before] at differs
  cases differs

/-- A pass without changes leaves no trace in the history. -/
theorem Work.history_of_unchanged {config : Config α} {f : Forest} {d : Document α} {context : Context}
    {outcome : Outcome} {w : Workspace α} (consistent : d.Consistent)
    (given : Gives (Work.reconcile config f) ⟨d, context⟩ outcome w) (added : outcome.added = [])
    (removed : outcome.removed = []) (updated : outcome.updated = []) :
    outcome = ⟨[], [], []⟩ ∧ w.document.history = d.history := by
  obtain ⟨_, _, _, _, history, _⟩ := Work.recorded_reconcile consistent given
  obtain ⟨_, _, _⟩ := outcome
  cases added
  cases removed
  cases updated
  exact ⟨rfl, history⟩

/-- The elements of a built document that a second pass changes are the edges that name later nodes. -/
theorem Built.again {config : Config α} {ids ids' : IdSupply} {f : Forest} {d : Document α} (context : Context)
    (built : Built config ids (f.sites none) d ids') (suits : ids.Suits f.preorder)
    (distinct : (f.preorder.map Declaration.id).Nodup) (tidy : f.Tidy) :
    ∃ outcome w, Gives (Work.reconcile config f) ⟨d, context⟩ outcome w ∧
      w.document.SameContent (d.rejoinAll f.preorder) ∧ outcome.added = [] ∧ outcome.removed = [] ∧
      (∀ x, ¬f.Forward x → w.document.state? x = d.state? x) ∧ (∀ x, f.Forward x → x ∈ outcome.updated) := by
  have bare (x : String) (member : x ∈ d.top) : x ∈ f.preorder.map Declaration.id := by
    rw [built.top] at member
    obtain ⟨s, inside, rfl⟩ := List.mem_map.1 member
    exact Forest.mem_ids_of_mem_sites (List.mem_filter.1 inside).1
  obtain ⟨outcome, w, given, same, added, removed⟩ :=
    Work.reconcile_again config context built.consistent bare fun s => built.settled suits distinct tidy
  have turned : d.Turned w.document := by
    intro x
    rw [Document.find?_of_same same.elements]
    exact Document.turned_rejoinAll x
  have found {before after : List Site} {s : Site} (split : f.sites none = before ++ s :: after) :
      w.document.find? s.id = (d.find? s.id).map (s.head.rejoin d.knows) := by
    rw [Document.find?_of_same same.elements]
    have member : s ∈ f.sites none := split ▸ List.mem_append_right before List.mem_cons_self
    exact Document.find?_rejoinAll_of_mem distinct (Forest.mem_preorder_of_mem_sites member)
  refine ⟨outcome, w, given, same, added, removed, fun x stays => ?_, fun x forward => ?_⟩
  · refine Document.state?_congr ?_ fun _ _ _ _ => turned.boxOf
    by_cases inside : x ∈ f.preorder.map Declaration.id
    · rw [← f.ids_sites none] at inside
      obtain ⟨s, member, rfl⟩ := List.mem_map.1 inside
      obtain ⟨before, after, split⟩ := List.append_of_mem member
      obtain ⟨birth, bounds, lookup⟩ := built.placed before s after split
      rw [found split, lookup, Option.map_some, built.rejoin_still suits split lookup]
      intro n spoken there
      by_contra later
      exact stays ⟨before, s, after, split, rfl, n, spoken, there, later⟩
    · rw [Document.find?_of_same same.elements, Document.find?_rejoinAll_of_not_mem inside]
  · obtain ⟨before, s, after, split, rfl, n, spoken, there, later⟩ := forward
    obtain ⟨e, lookup⟩ : ∃ e, d.find? s.id = some e := by
      obtain ⟨birth, bounds, lookup⟩ := built.placed before s after split
      exact ⟨_, lookup⟩
    have turns : (w.document.snapshot (s.head.rejoin d.knows e)).links ≠ (d.snapshot e).links :=
      built.rejoin_turns suits split lookup spoken there later
    have lookup' := found split
    rw [lookup, Option.map_some] at lookup'
    have before' := Document.state?_of_find? lookup
    have after' := Document.state?_of_find? lookup'
    have differs : (w.document.snapshot (s.head.rejoin d.knows e)).same (d.snapshot e) = false := by
      rw [← Bool.not_eq_true]
      exact fun same => turns (Snapshot.links_of_same same)
    obtain ⟨_, _, _, _, told⟩ := Work.outcome_reconcile built.consistent given
    refine (told s.id ⟨_, _, before', after', differs⟩).resolve_right fun same => ?_
    rw [before', after', Option.some.injEq] at same
    exact turns (congrArg Snapshot.links same)

end LiveDiagram
