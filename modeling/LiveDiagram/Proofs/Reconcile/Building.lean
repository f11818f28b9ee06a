import LiveDiagram.Proofs.Reconcile.Creating
import LiveDiagram.Proofs.Reconcile.Report

/-! Building a document from nothing. A pass over a forest with distinct ids returns in a document without elements, and
brings one element for each declaration and one label for each labelled edge. -/
namespace LiveDiagram

variable {α : Type} [Coordinate α]

/-- A pass that leaves out nothing of the document's top returns when its visit does, with the document that the visit
leads to. -/
theorem Work.reconcile_returns {config : Config α} {f : Forest} {d d' : Document α} {context : Context} {ids' : IdSupply}
    {reference : Option (Bounds α)} (kept : ∀ x ∈ d.top, x ∈ f.preorder.map Declaration.id)
    (visited : Leads d context.ids (Reconcile.visit config none none f) reference d' ids') :
    ∃ outcome w, Gives (Work.reconcile config f) ⟨d, context⟩ outcome w ∧ w.document.SameContent d' ∧
      w.context.ids = ids' := by
  have removed : Leads d context.ids (Reconcile.removeOthers (f.linesById.map Prod.fst)) () d context.ids := by
    have none : d.top.filter (!(f.linesById.map Prod.fst).contains ·) = [] := by
      rw [List.filter_eq_nil_iff]
      intro x member
      simp [List.contains_eq_mem, Forest.mem_linesById.2 (kept x member)]
    unfold Reconcile.removeOthers
    refine .document ?_
    rw [none]
    exact .pure
  obtain ⟨t, given, document, supply, isOpen⟩ := (removed.bind (f := fun _ => discard (Reconcile.visit config none none f)) visited.discard)
    ⟨d, .opened α true, context⟩ ⟨rfl, rfl, rfl⟩
  obtain ⟨_, u, first, second⟩ := gives_bind.1 given
  obtain ⟨diff, t', committed, supply'⟩ := Edit.commit_returns isOpen
  obtain ⟨_, rfl, told⟩ := Edit.gives_commit committed
  have passed : Gives (Reconcile.pass config f) ⟨d, .opened α true, context⟩ t.diff t' :=
    gives_bind.2 ⟨_, u, first, gives_bind.2 ⟨_, t, second, committed⟩⟩
  refine ⟨_, _, gives_bind.2 ⟨_, _, Work.gives_transact.2 ⟨t', passed, rfl⟩, gives_bind.2 ⟨(), _, gives_modify.2 rfl,
    gives_bind.2 ⟨(), _, gives_modify.2 rfl, gives_pure.2 ⟨rfl, rfl⟩⟩⟩⟩, ?_, supply'.trans supply⟩
  have same : Document.SameContent (Reconcile.conclude t.diff t'.document) t'.document := Reconcile.conclude_same
  rw [told, document] at same
  rw [told, document]
  exact ⟨same.1, same.2, same.3, same.4⟩

/-- A visit of a forest with distinct ids builds it in a document without elements. -/
theorem Reconcile.visit_builds (config : Config α) {f : Forest} {d : Document α} {ids : IdSupply}
    (consistent : d.Consistent) (vacant : d.elements = []) (distinct : (f.preorder.map Declaration.id).Nodup)
    (suits : ids.Suits f.preorder) :
    ∃ reference d' ids', Leads d ids (visit config none none f) reference d' ids' ∧
      Built config ids (f.sites none) d' ids' := by
  have distinct' : ((f.sites none).map Site.id).Nodup := f.ids_sites none ▸ distinct
  have suits' : ids.Suits ((f.sites none).map Site.head) := f.heads_sites none ▸ suits
  have round (done : List Site) (s : Site) (rest : List Site) (split : f.sites none = done ++ s :: rest) :
      Rounds config (Built config ids) done s := by
    rw [split] at distinct' suits'
    exact Built.rounds suits' distinct'
  have split : f.sites none = [] ++ (f.sites none ++ []) := (List.append_nil _).symm
  have under : Under d [] none none := ⟨rfl, by simp, by simp⟩
  obtain ⟨reference, d', ids', visited, _, built⟩ :=
    leads_visit (Built config ids) round f none split (built_nil consistent vacant) under
  exact ⟨reference, d', ids', visited, built⟩

/-- Every label is that of a site. -/
theorem Site.exists_labelled {sites : List Site} {k : Nat} (within : k < Declaration.labels (sites.map head)) :
    ∃ before s after text, sites = before ++ s :: after ∧ s.head.label? = some text ∧
      Declaration.labels (before.map head) = k := by
  induction sites generalizing k with
  | nil => simp [Declaration.labels] at within
  | cons s rest ih =>
    have onward {j : Nat} (step : Declaration.labels ([s].map head) + j = k)
        (later : j < Declaration.labels (rest.map head)) : ∃ before s' after text, s :: rest = before ++ s' :: after ∧
          s'.head.label? = some text ∧ Declaration.labels (before.map head) = k := by
      obtain ⟨before, s', after, text, rfl, given, rfl⟩ := ih later
      refine ⟨[s] ++ before, s', after, text, rfl, given, ?_⟩
      rw [labels_append, step]
    change k < Declaration.labels (([s] ++ rest).map head) at within
    rw [labels_append, labels_singleton] at within
    rw [labels_singleton] at onward
    cases given : s.head.label? with
    | none =>
      simp only [given, Option.isSome_none, Bool.false_eq_true, if_false, Nat.zero_add] at within onward
      exact onward rfl within
    | some text =>
      simp only [given, Option.isSome_some, if_true] at within onward
      cases k with
      | zero => exact ⟨[], s, rest, text, rfl, given, rfl⟩
      | succ k => exact onward (Nat.add_comm 1 k) (by omega)

namespace Built
variable {config : Config α} {ids ids' : IdSupply} {done : List Site} {d : Document α}

/-- A built document has nothing but the elements of the sites and their labels. -/
theorem cases (built : Built config ids done d ids') {x : String} {e : Element α} (found : d.find? x = some e) :
    ∃ before s after, done = before ++ s :: after ∧
      ((∃ children birth bounds, e = s.element config before children birth bounds) ∨
        ∃ text birth bounds, s.head.label? = some text ∧ e = s.label config ids before text birth bounds) := by
  rcases (built.there x).1 (Document.contains_of_find? found) with met | ⟨k, within, rfl⟩
  · obtain ⟨s, member, rfl⟩ := List.mem_map.1 met
    obtain ⟨before, after, split⟩ := List.append_of_mem member
    obtain ⟨birth, bounds, lookup⟩ := built.placed before s after split
    exact ⟨before, s, after, split, .inl ⟨_, birth, bounds, Option.some.inj (found.symm.trans lookup)⟩⟩
  · obtain ⟨before, s, after, text, split, given, rfl⟩ := Site.exists_labelled within
    obtain ⟨birth, bounds, lookup⟩ := built.labelled before s after text split given
    exact ⟨before, s, after, split, .inr ⟨text, birth, bounds, given, Option.some.inj (found.symm.trans lookup)⟩⟩

/-- In a built document exactly the nodes below edges are labels. -/
theorem isLabelled_iff (built : Built config ids done d ids') {x : String} {e : Element α} (found : d.find? x = some e)
    (node : e.isNode = true) :
    e.isLabelled = true ↔ ∃ p q, e.parent = some p ∧ d.find? p = some q ∧ q.isEdge = true := by
  have edge {p : Declaration} (met : p ∈ done.map Site.head) :
      (∃ q, d.find? p.id = some q ∧ q.isEdge = true) ↔ p.kind = .edge := by
    obtain ⟨q, found, kind⟩ := built.kind_found met
    simp only [found, Option.some.injEq, exists_eq_left', Element.isEdge, kind, decide_eq_true_eq]
  obtain ⟨before, s, after, split, ⟨children, birth, bounds, rfl⟩ | ⟨text, birth, bounds, given, rfl⟩⟩ := built.cases found
  · have member : s ∈ done := split ▸ List.mem_append_right before List.mem_cons_self
    have labelled : (s.element config before children birth bounds).isLabelled = s.holder.any (·.kind = .edge) := by
      unfold Element.isNode at node
      rw [Site.kind_element, decide_eq_true_eq] at node
      unfold Declaration.kind at node
      simp only [Element.isLabelled, Site.element, Site.content]
      cases head : s.head.head with
      | node shape name =>
        unfold Content.label?
        cases s.holder.any (·.kind = .edge) <;> rfl
      | edge source target label =>
        rw [head] at node
        cases node
    rw [labelled]
    cases held : s.holder with
    | none => simp [Site.element, Site.around, held]
    | some p =>
      have around : (s.element config before children birth bounds).parent = some p.id :=
        congrArg (Option.map Declaration.id) held
      simp only [around, Option.some.injEq, exists_and_left, exists_eq_left', edge (built.met s member p held),
        Option.any_some, decide_eq_true_eq]
  · have member : s ∈ done := split ▸ List.mem_append_right before List.mem_cons_self
    have kind : s.head.kind = .edge := by
      unfold Declaration.label? at given
      unfold Declaration.kind
      split at given <;> simp_all
    obtain ⟨q, lookup, isEdge⟩ := (edge (List.mem_map_of_mem member)).2 kind
    exact ⟨fun _ => ⟨s.id, q, rfl, lookup, isEdge⟩, fun _ => rfl⟩

end Built

/-- A pass over a forest with distinct ids builds it in a document without elements, whatever the settings. It adds one
element for each declaration, and one for the label of each edge that carries one. The topmost elements are those of the
roots. The element of a declaration has its label and the elements of the declarations right below it as its children;
what else it holds is given by the declaration, and for the ends of an edge by the nodes before it. -/
theorem Work.reconcile_builds (config : Config α) {f : Forest} {d : Document α} {context : Context}
    (consistent : d.Consistent) (vacant : d.elements = []) (distinct : (f.preorder.map Declaration.id).Nodup)
    (suits : context.ids.Suits f.preorder) :
    ∃ outcome w, Gives (Work.reconcile config f) ⟨d, context⟩ outcome w ∧
      (outcome.removed = [] ∧ outcome.updated = [] ∧ outcome.added.Perm (f.preorder.map Declaration.id ++
        (List.range (Declaration.labels f.preorder)).map context.ids.ahead)) ∧
      (∀ x, w.document.contains x = true ↔ x ∈ outcome.added) ∧
      w.document.top = f.roots.map Declaration.id ∧
      (∀ before s after, f.sites none = before ++ s :: after →
        (∃ birth bounds, w.document.find? s.id =
          some (s.element config before (s.labelIds context.ids before ++ s.listed) birth bounds)) ∧
        ∀ text, s.head.label? = some text → ∃ birth bounds, w.document.find? (Site.labelId context.ids before) =
          some (s.label config context.ids before text birth bounds)) ∧
      ∀ x e, w.document.find? x = some e → e.isNode = true → (e.isLabelled = true ↔
        ∃ p q, e.parent = some p ∧ w.document.find? p = some q ∧ q.isEdge = true) := by
  obtain ⟨reference, d', ids', visited, built⟩ := Reconcile.visit_builds config consistent vacant distinct suits
  have empty (x : String) : d.find? x = none := by
    unfold Document.find?
    rw [vacant]
    rfl
  have bare (x : String) (member : x ∈ d.top) : x ∈ f.preorder.map Declaration.id := by
    have there := ((consistent.mem_top x).1 member).1
    simp [Document.contains, empty] at there
  obtain ⟨outcome, w, given, same, _⟩ := Work.reconcile_returns bare visited
  have found (x : String) : w.document.find? x = d'.find? x := Document.find?_of_same same.elements x
  obtain ⟨⟨addedNodup, added⟩, ⟨_, removed⟩, _, updated, _⟩ := Work.outcome_reconcile consistent given
  have there (x : String) : w.document.contains x = true ↔ x ∈ outcome.added := by
    rw [added]
    simp [Document.contains, empty]
  refine ⟨outcome, w, given, ⟨?_, ?_, ?_⟩, there, ?_, fun before s after split => ⟨?_, fun text given => ?_⟩, fun x e => ?_⟩
  · refine List.eq_nil_iff_forall_not_mem.2 fun x member => ?_
    have before := ((removed x).1 member).1
    simp [Document.contains, empty] at before
  · refine List.eq_nil_iff_forall_not_mem.2 fun x member => ?_
    obtain ⟨s, _, before, _⟩ := updated x member
    simp [Document.state?, empty] at before
  · refine (List.perm_ext_iff_of_nodup addedNodup ?_).2 fun x => ?_
    · refine List.nodup_append.2 ⟨distinct, ?_, ?_⟩
      · refine List.Nodup.map_on (fun i member j member' => ?_) List.nodup_range
        exact suits.distinct i (List.mem_range.1 member) j (List.mem_range.1 member')
      · rintro _ inside _ drawn rfl
        obtain ⟨s, member, named⟩ := List.mem_map.1 (f.ids_sites none ▸ inside)
        obtain ⟨k, within, same⟩ := List.mem_map.1 drawn
        rw [← f.heads_sites none] at suits within
        exact Built.ahead_ne suits member Built.id_mem_mentions (List.mem_range.1 within) (named.trans same.symm)
    · have contained : w.document.contains x = d'.contains x := by
        unfold Document.contains
        rw [found]
      rw [← there, contained, built.there, f.ids_sites, f.heads_sites]
      simp only [List.mem_append, List.mem_map, List.mem_range, eq_comm (a := x)]
  · rw [same.top, built.top]
    have roots : Site.below ((none : Option Declaration).map Declaration.id) (f.sites none) = _ :=
      Forest.below_sites_holder (by simp)
    exact roots
  · obtain ⟨birth, bounds, lookup⟩ := built.placed before s after split
    have member : s ∈ f.sites none := split ▸ List.mem_append_right before List.mem_cons_self
    rw [Forest.below_sites_id distinct (by simp) member] at lookup
    exact ⟨birth, bounds, (found _).trans lookup⟩
  · obtain ⟨birth, bounds, lookup⟩ := built.labelled before s after text split given
    exact ⟨birth, bounds, (found _).trans lookup⟩
  · simp only [found]
    exact built.isLabelled_iff

/-- A labelled edge from a node before it to one that is not there. -/
theorem Work.reconcile_builds_edge :
    ∃ (config : Config Quantity) (outcome : Outcome) (w : Workspace Quantity) (context : Context) (f : Forest),
      Gives (Work.reconcile config f) ⟨Document.empty Document.page, context⟩ outcome w ∧
        outcome.added.Perm ["a", "e", "*"] ∧ w.document.top = ["a", "e"] ∧
        ∃ e, w.document.find? "e" = some e ∧ e.children = ["*"] ∧ e.end? .start = some (.atCenter "a") ∧
          e.end? .stop = some (.free config.unresolvedStop) := by
  let a : Declaration := ⟨"a", 1, .node "rect" none none, none, none, none⟩
  let e : Declaration := ⟨"e", 2, .edge (some "a") (some "b") (some "x"), none, none, none⟩
  let f : Forest := .cons a .nil (.cons e .nil .nil)
  let context : Context := ⟨⟨fun n => String.ofList (List.replicate (n + 1) '*'), 0⟩, []⟩
  have suits : context.ids.Suits f.preorder := by
    refine ⟨fun i within j within' _ => ?_, fun i within => ?_⟩
    · have one : Declaration.labels f.preorder = 1 := rfl
      omega
    · obtain rfl : i = 0 := Nat.lt_one_iff.1 within
      decide
  obtain ⟨outcome, w, given, ⟨_, _, added⟩, _, top, placed, _⟩ := Work.reconcile_builds .standard
    (Document.consistent_empty (Document.page : Bounds Quantity)) rfl (by decide : (f.preorder.map Declaration.id).Nodup) suits
  obtain ⟨⟨birth, bounds, found⟩, _⟩ := placed [⟨none, a, []⟩] ⟨none, e, []⟩ [] rfl
  exact ⟨.standard, outcome, w, context, f, given, added, top, _, found, rfl, rfl, rfl⟩

end LiveDiagram
