import LiveDiagram.Proofs.Reconcile.Visiting

/-! How the visit of one declaration can take the element of another one away. An edge drops labels that its declaration
does not list, with all that was below them before the pass and all that has come in below that since. -/
namespace LiveDiagram

variable {α : Type}

namespace Site

/-- One declaration stands in the body of another, on whatever level. -/
def Inside (sites : List Site) : String → String → Prop :=
  Relation.TransGen fun x around => ∃ s ∈ sites, s.id = x ∧ s.around = some around

/-- The visit of a site takes an id away: what the id leads to, or an element that it stands in the body of, is below a
label that the visit drops. -/
def Uproots (sites : List Site) (d : Document α) (s : Site) (x : String) : Prop :=
  ∃ y, (y = x ∨ Inside sites x y) ∧ ∃ l, s.Drops d l ∧ y ∈ d.subtree l

end Site

/-- What a pass sets out with: a sound document, declarations of a forest with distinct ids, and ids to come that neither
of them has. -/
structure Outset (sites : List Site) (ids : IdSupply) (d : Document α) : Prop where
  consistent : d.Consistent
  layered : d.Layered
  distinct : (Site.known sites).Nodup
  around : ∀ s ∈ sites, ∀ p, s.around = some p → p ∈ Site.known sites
  below : ∀ s ∈ sites, ∀ r ∈ sites, r.around = some s.id → r.id ∈ s.listed
  listed : ∀ s ∈ sites, ∀ x ∈ s.listed, x ∈ Site.known sites
  fresh : ∀ i < Declaration.labels (sites.map Site.head), ∀ j < Declaration.labels (sites.map Site.head),
    ids.ahead i = ids.ahead j → i = j
  unknown : ∀ i < Declaration.labels (sites.map Site.head), ids.ahead i ∉ Site.known sites
  unused : ∀ i < Declaration.labels (sites.map Site.head), d.contains (ids.ahead i) = false

theorem Outset.of_forest {f : Forest} {ids : IdSupply} {d : Document α} (consistent : d.Consistent)
    (layered : d.Layered) (distinct : (f.preorder.map Declaration.id).Nodup) (suits : ids.Suits f.preorder)
    (unused : ∀ i < Declaration.labels f.preorder, d.contains (ids.ahead i) = false) :
    Outset (f.sites none) ids d := by
  have known : Site.known (f.sites none) = f.preorder.map Declaration.id := f.ids_sites none
  have heads : (f.sites none).map Site.head = f.preorder := f.heads_sites none
  refine ⟨consistent, layered, known ▸ distinct, fun s member p around => ?_, fun s member r inside around => ?_,
    fun s member x listed => ?_, heads ▸ suits.distinct, fun i within => ?_, heads ▸ unused⟩
  · obtain ⟨p, held, rfl⟩ := Option.map_eq_some_iff.1 around
    rcases Forest.holder_of_mem_sites member with none | ⟨d, declared, own⟩
    · rw [none] at held
      cases held
    · cases own.symm.trans held
      exact known ▸ List.mem_map_of_mem declared
  · rw [← Forest.below_sites_id distinct (by simp) member]
    exact List.mem_map_of_mem (List.mem_filter.2 ⟨inside, by simpa using around⟩)
  · exact known ▸ Forest.listed_subset member listed
  · rw [known]
    intro inside
    obtain ⟨d, declared, same⟩ := List.mem_map.1 inside
    refine suits.unused i (heads ▸ within) (List.mem_flatMap.2 ⟨d, declared, ?_⟩)
    exact same ▸ List.mem_cons_self

variable [Coordinate α]

/-- Where a pass is when it has visited some of its sites. -/
structure Tracked (sites : List Site) (ids : IdSupply) (d : Document α) (done : List Site) (drawn : Nat)
    (t : Transaction α) : Prop extends t.Ready where
  strides : Strides sites d.births d t.document
  few : drawn ≤ Declaration.labels (done.map Site.head)
  supply : t.context.ids = ids.skip drawn
  origin : ∀ x e, t.document.find? x = some e → d.keeps t.document x = true ∨ d.births ≤ e.birth ∧
    ((∃ s ∈ done, x = s.id ∧ e.kind = s.head.kind ∧ e.parent = s.around) ∨
      ∃ i < drawn, x = ids.ahead i ∧ ∃ s ∈ done, e.parent = some s.id)
  lost : ∀ x, d.contains x = true → d.keeps t.document x = false →
    (∃ r ∈ d.top, r ∉ Site.known sites ∧ x ∈ d.subtree r ∧ d.keeps t.document r = false) ∨
      ∃ s ∈ done, ∃ l, s.Drops d l ∧ x ∈ d.subtree l ∧ d.keeps t.document l = false

theorem Site.labels_le {sites done rest : List Site} {s : Site} (next : sites = done ++ s :: rest) :
    Declaration.labels (done.map head) + Declaration.labels [s.head] ≤ Declaration.labels (sites.map head) := by
  rw [next, List.append_cons, Site.labels_append, Site.labels_append]
  exact Nat.le_add_right _ _

namespace Tracked
variable {sites done rest : List Site} {ids : IdSupply} {d : Document α} {drawn : Nat} {t t' : Transaction α} {s : Site}
  {l x : String} (outset : Outset sites ids d) (tracked : Tracked sites ids d done drawn t)
  (next : sites = done ++ s :: rest)

include outset tracked

theorem framed : Framed sites d t.document :=
  .strides outset.consistent outset.listed tracked.strides

include next

/-- What a visit drops was there before the pass, and would have been dropped then. -/
theorem drops_before (drops : s.Drops t.document l) : s.Drops d l ∧ d.keeps t.document l = true := by
  have framed := tracked.framed outset
  have here : s ∈ sites := next ▸ List.mem_append_right done List.mem_cons_self
  have label {l : String} (label : t.document.LabelIn s.id l) (unlisted : l ∉ s.listed) :
      d.keeps t.document l = true ∧ d.LabelIn s.id l := by
    have ⟨e, found, _, parent⟩ := label
    suffices kept : d.keeps t.document l = true from ⟨kept, (framed.labelIn kept).1 label⟩
    rcases tracked.origin l e found with kept | ⟨_, ⟨r, met, rfl, _, around⟩ | ⟨i, _, rfl, r, met, around⟩⟩
    · exact kept
    · have inside : r ∈ sites := next ▸ List.mem_append_left _ met
      exact (unlisted (outset.below s here r inside (around.symm.trans parent))).elim
    · have distinct := outset.distinct
      rw [next, Site.known, List.map_append, List.nodup_append] at distinct
      have same : r.id = s.id := Option.some.inj (around.symm.trans parent)
      exact (distinct.2.2 _ (List.mem_map_of_mem met) _ List.mem_cons_self same).elim
  obtain ⟨kept, former⟩ := label drops.label drops.unlisted
  have around : d.keeps t.document s.id = true := framed.upward l s.id kept former.parentOf
  refine ⟨⟨drops.edge, (framed.isEdge around).1 drops.isEdge, former, drops.unlisted, fun given => ?_⟩, kept⟩
  obtain ⟨l', other, label', unlisted⟩ := drops.several given
  exact ⟨l', other, (label label' unlisted).2, unlisted⟩

/-- What is below a label that a visit drops, the visit uproots. -/
theorem uproots (drops : s.Drops t.document l) (within : t.document.Within x l) (known : x ∈ Site.known sites) :
    Site.Uproots sites d s x := by
  have framed := tracked.framed outset
  obtain ⟨former, stays⟩ := tracked.drops_before outset next drops
  have fresh {i : Nat} (before : i < drawn) : i < Declaration.labels (sites.map Site.head) := by
    have few := tracked.few
    have labels := Site.labels_le next
    omega
  -- Up the way to the label, elements are from before as far as the first one that is, and stand in the body of it below.
  have way : (d.keeps t.document x = true → d.Within x l) ∧ (d.keeps t.document x = false →
      (∃ y, Site.Inside sites x y ∧ d.Within y l) ∨ ∃ i < drawn, x = ids.ahead i) := by
    clear known
    induction within using Relation.ReflTransGen.head_induction_on with
    | refl =>
      refine ⟨fun _ => .refl, fun gone => ?_⟩
      rw [stays] at gone
      cases gone
    | @head x p nested _ ih =>
      refine ⟨fun kept => ?_, fun gone => ?_⟩
      · rw [framed.parentOf kept] at nested
        exact .head nested (ih.1 (framed.upward x p kept nested))
      · obtain ⟨e, found, parent⟩ := Document.parentOf_eq_some.1 nested
        rcases tracked.origin x e found with kept | ⟨_, ⟨r, met, rfl, _, around⟩ | ⟨i, before, rfl, _⟩⟩
        · rw [kept] at gone
          cases gone
        · have inside : r ∈ sites := next ▸ List.mem_append_left _ met
          have held : r.around = some p := around.symm.trans parent
          have step : Site.Inside sites r.id p := .single ⟨r, inside, rfl, held⟩
          cases kept : d.keeps t.document p with
          | true => exact .inl ⟨p, step, ih.1 kept⟩
          | false =>
            rcases ih.2 kept with ⟨y, beyond, below⟩ | ⟨i, before, rfl⟩
            · exact .inl ⟨y, step.trans beyond, below⟩
            · exact (outset.unknown i (fresh before) (outset.around r inside _ held)).elim
        · exact .inr ⟨i, before, rfl⟩
  cases kept : d.keeps t.document x with
  | true => exact ⟨x, .inl rfl, l, former, (Document.mem_subtree_iff_within outset.consistent).2 (way.1 kept)⟩
  | false =>
    rcases way.2 kept with ⟨y, beyond, below⟩ | ⟨i, before, rfl⟩
    · exact ⟨y, .inr beyond, l, former, (Document.mem_subtree_iff_within outset.consistent).2 below⟩
    · exact (outset.unknown i (fresh before) known).elim

/-- A visit keeps track. -/
theorem visited {around : Option String} {k : Nat} (ready : t'.Ready) (strides : Strides sites d.births t.document t'.document)
    (placed : around = s.around) (few : k ≤ Declaration.labels [s.head]) (supply : t'.context.ids = t.context.ids.skip k)
    (shift : t.document.Shift (s.Drops t.document) (Brought (s.Enters around) (s.Labels (t.context.ids.ahead 0)) k)
      t'.document) : Tracked sites ids d (done ++ [s]) (drawn + k) t' where
  toReady := ready
  strides := tracked.strides.trans strides
  few := by
    rw [Site.labels_append]
    exact Nat.add_le_add tracked.few few
  supply := by
    rw [supply, tracked.supply]
    exact congrArg (IdSupply.mk ids.name) (Nat.add_assoc ..)
  origin x e' found := by
    have later {r : Site} (met : r ∈ done) : r ∈ done ++ [s] := List.mem_append_left _ met
    have mine : s ∈ done ++ [s] := List.mem_append_right done (List.mem_singleton.2 rfl)
    by_cases young : t.document.births ≤ e'.birth
    · refine .inr ⟨Nat.le_trans tracked.strides.births_le young, ?_⟩
      rcases shift.comes x e' found young with ⟨rfl, kind, parent⟩ | ⟨more, _, rfl, parent⟩
      · exact .inl ⟨s, mine, rfl, kind, parent.trans placed⟩
      · refine .inr ⟨drawn, by omega, ?_, s, mine, parent⟩
        rw [tracked.supply]
        rfl
    · obtain ⟨e, former, birth, kind, parent⟩ := shift.former x e' found (Nat.lt_of_not_le young)
      rcases tracked.origin x e former with kept | ⟨new, ⟨r, met, same, own, held⟩ | ⟨i, before, same, r, met, held⟩⟩
      · obtain ⟨p, _, there, former', old⟩ := Document.keeps_iff.1 kept
        cases former.symm.trans former'
        exact .inl (Document.keeps_iff.2 ⟨p, e', there, found, birth.symm.trans old⟩)
      · exact .inr ⟨birth ▸ new, .inl ⟨r, later met, same, kind.symm.trans own, parent.symm.trans held⟩⟩
      · exact .inr ⟨birth ▸ new, .inr ⟨i, by omega, same, r, later met, parent.symm.trans held⟩⟩
  lost x there gone := by
    have framed := tracked.framed outset
    have left {l : String} (missing : d.keeps t.document l = false) : d.keeps t'.document l = false := by
      refine eq_false_of_ne_true fun kept => ?_
      rw [shift.keeps_left tracked.strides.births_le outset.consistent kept] at missing
      cases missing
    cases kept : d.keeps t.document x with
    | false =>
      rcases tracked.lost x there kept with ⟨r, top, unknown, inside, missing⟩ | ⟨r, met, l, drops, inside, missing⟩
      · exact .inl ⟨r, top, unknown, inside, left missing⟩
      · exact .inr ⟨r, List.mem_append_left _ met, l, drops, inside, left missing⟩
    | true =>
      rcases shift.stays x (Document.contains_of_keeps kept).2 with stays | ⟨l, drops, within, missing⟩
      · rw [Document.keeps_trans kept stays] at gone
        cases gone
      · obtain ⟨former, stays⟩ := tracked.drops_before outset next drops
        have below := (Document.mem_subtree_iff_within tracked.consistent).2 within
        have inside := (framed.mem_subtree outset.consistent tracked.consistent kept below).2
        refine .inr ⟨s, List.mem_append_right done (List.mem_singleton.2 rfl), l, former, inside, ?_⟩
        refine eq_false_of_ne_true fun back => ?_
        rw [Document.keeps_between stays back] at missing
        cases missing

end Tracked
end LiveDiagram
