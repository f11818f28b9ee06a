import LiveDiagram.Proofs.Reconcile.Touching
import LiveDiagram.Proofs.Reconcile.Uprooting

/-! A whole pass over a forest. It returns unless a visit uproots the very declaration that it visits, and leaves the
element of each declaration there unless the visit of a later one uproots it. -/
namespace LiveDiagram

variable {α : Type}

/-- What declarations lead to stays, but for what the visits of some of them uproot. -/
structure Survives (sites part : List Site) (d c c' : Document α) : Prop extends c.Inherits c' where
  stays : ∀ x ∈ Site.known sites, c.contains x = true → c.keeps c' x = true ∨ ∃ s ∈ part, Site.Uproots sites d s x

/-- Each declaration has led to an element of its kind, unless the visit of a later one has uprooted it. -/
def Site.Met (sites : List Site) (d c : Document α) : List Site → Prop
  | [] => True
  | s :: later =>
    ((∃ e, c.find? s.id = some e ∧ e.kind = s.head.kind) ∨ ∃ r ∈ later, Uproots sites d r s.id) ∧ Met sites d c later

namespace Survives
variable {sites part part' : List Site} {d c u c' : Document α}

theorem refl (sites : List Site) (d c : Document α) : Survives sites part d c c where
  toInherits := .refl c
  stays _ _ there := .inl (Document.keeps_self there)

theorem trans (first : Survives sites part d c u) (second : Survives sites part' d u c') :
    Survives sites (part ++ part') d c c' where
  toInherits := first.toInherits.trans second.toInherits
  stays x known there := by
    rcases first.stays x known there with kept | ⟨s, member, uproots⟩
    · rcases second.stays x known (Document.contains_of_keeps kept).2 with kept' | ⟨s, member, uproots⟩
      · exact .inl (Document.keeps_trans kept kept')
      · exact .inr ⟨s, List.mem_append_right _ member, uproots⟩
    · exact .inr ⟨s, List.mem_append_left _ member, uproots⟩

theorem mono (survives : Survives sites part d c c') (more : part ⊆ part') : Survives sites part' d c c' where
  toInherits := survives.toInherits
  stays x known there :=
    (survives.stays x known there).imp_right fun ⟨s, member, uproots⟩ => ⟨s, more member, uproots⟩

/-- What led to an element does so later, or is uprooted. -/
theorem found (survives : Survives sites part d c c') (consistent : c.Consistent) {s : Site} (known : s ∈ sites)
    (met : ∃ e, c.find? s.id = some e ∧ e.kind = s.head.kind) :
    (∃ e, c'.find? s.id = some e ∧ e.kind = s.head.kind) ∨ ∃ r ∈ part, Site.Uproots sites d r s.id := by
  obtain ⟨e, found, kind⟩ := met
  refine (survives.stays s.id (List.mem_map_of_mem known) (Document.contains_of_find? found)).imp_left fun kept => ?_
  obtain ⟨p, e', former, found', _, same, _⟩ := survives.of_keeps consistent kept
  cases found.symm.trans former
  exact ⟨e', found', same.trans kind⟩

end Survives

namespace Site.Met
variable {sites part part' : List Site} {d c c' : Document α}

theorem append (met : Met sites d c part) (met' : Met sites d c' part') (survives : Survives sites part' d c c')
    (consistent : c.Consistent) (within : ∀ s ∈ part, s ∈ sites) : Met sites d c' (part ++ part') := by
  induction part with
  | nil => exact met'
  | cons s later ih =>
    refine ⟨?_, ih met.2 fun r member => within r (List.mem_cons_of_mem s member)⟩
    rcases met.1 with there | ⟨r, member, uproots⟩
    · refine (survives.found consistent (within s List.mem_cons_self) there).imp_right ?_
      exact fun ⟨r, member, uproots⟩ => ⟨r, List.mem_append_right _ member, uproots⟩
    · exact .inr ⟨r, List.mem_append_left _ member, uproots⟩

theorem split (met : Met sites d c part) {before after : List Site} {s : Site} (same : part = before ++ s :: after) :
    (∃ e, c.find? s.id = some e ∧ e.kind = s.head.kind) ∨ ∃ r ∈ after, Uproots sites d r s.id := by
  induction before generalizing part with
  | nil =>
    subst same
    exact met.1
  | cons first before ih =>
    subst same
    exact ih met.2 rfl

end Site.Met

/-- The elements that a document has for declarations are of their kinds. -/
def Site.Kindred (sites : List Site) (d : Document α) : Prop :=
  ∀ s ∈ sites, ∀ e ∈ d.find? s.id, e.kind = s.head.kind

instance {sites : List Site} {d : Document α} : Decidable (Site.Kindred sites d) :=
  inferInstanceAs (Decidable (∀ s ∈ sites, ∀ e ∈ d.find? s.id, e.kind = s.head.kind))

/-- A declaration that has no element, or one that the pass may remove, stands in the body of an element that an earlier
declaration in that body uproots. -/
def Site.Orphans (sites : List Site) (d : Document α) : Prop :=
  ∃ done s rest, sites = done ++ s :: rest ∧ (d.contains s.id = true → Removable sites d s.id) ∧
    ∃ r ∈ done, ∃ p, s.around = some p ∧ Inside sites r.id p ∧ Uproots sites d r p

/-- All that stands in a forest below a declaration is in the body of it. -/
theorem Site.inside_holder {sites : List Site} {f : Forest} {p : Declaration}
    (within : ∀ s ∈ f.sites (some p), s ∈ sites) : ∀ s ∈ f.sites (some p), Inside sites s.id p.id := by
  induction f generalizing p with
  | nil => simp [Forest.sites]
  | cons d children rest first second =>
    have root : Inside sites d.id p.id := .single ⟨_, within _ List.mem_cons_self, rfl, rfl⟩
    intro s member
    rcases List.mem_cons.1 member with rfl | member
    · exact root
    · rcases List.mem_append.1 member with child | other
      · refine (first (fun r inner => within r ?_) s child).trans root
        exact List.mem_cons_of_mem _ (List.mem_append_left _ inner)
      · exact second (fun r inner => within r (List.mem_cons_of_mem _ (List.mem_append_right _ inner))) s other

variable [Coordinate α]

namespace Tracked
variable {sites done more rest : List Site} {ids : IdSupply} {d : Document α} {drawn : Nat} {t t' : Transaction α} {s : Site}

/-- Sites that are left out count as visited. -/
theorem skip (tracked : Tracked sites ids d done drawn t) : Tracked sites ids d (done ++ more) drawn t where
  toReady := tracked.toReady
  strides := tracked.strides
  few := by
    rw [Site.labels_append]
    exact Nat.le_add_right_of_le tracked.few
  supply := tracked.supply
  origin x e found := by
    refine (tracked.origin x e found).imp_right fun ⟨young, origin⟩ => ⟨young, origin.imp ?_ ?_⟩
    · exact fun ⟨r, met, held⟩ => ⟨r, List.mem_append_left _ met, held⟩
    · exact fun ⟨i, before, same, r, met, held⟩ => ⟨i, before, same, r, List.mem_append_left _ met, held⟩
  lost x there gone := by
    refine (tracked.lost x there gone).imp_right ?_
    exact fun ⟨r, met, dropped⟩ => ⟨r, List.mem_append_left _ met, dropped⟩

variable (outset : Outset sites ids d) (tracked : Tracked sites ids d done drawn t) (next : sites = done ++ s :: rest)

include outset tracked next

/-- The next id to come is not taken. -/
theorem unused (labelled : s.head.label?.isSome = true) :
    t.document.contains (t.context.ids.ahead 0) = false ∧ t.context.ids.ahead 0 ≠ s.id := by
  have supply : t.context.ids.ahead 0 = ids.ahead drawn := by
    rw [tracked.supply]
    rfl
  have labels := Site.labels_le next
  rw [Reconcile.labels_one labelled] at labels
  have few := tracked.few
  have within : drawn < Declaration.labels (sites.map Site.head) := by omega
  rw [supply]
  have apart {r : Site} (inside : r ∈ sites) : ids.ahead drawn ≠ r.id :=
    fun same => outset.unknown drawn within (same ▸ List.mem_map_of_mem inside)
  refine ⟨eq_false_of_ne_true fun there => ?_, apart (next ▸ List.mem_append_right done List.mem_cons_self)⟩
  obtain ⟨e, found⟩ := Document.contains_iff_find?.1 there
  rcases tracked.origin _ e found with kept | ⟨_, ⟨r, met, same, _⟩ | ⟨i, before, same, _⟩⟩
  · have former := (Document.contains_of_keeps kept).1
    rw [outset.unused drawn within] at former
    cases former
  · exact apart (next ▸ List.mem_append_left _ met) same
  · have same := outset.fresh drawn within i (by omega) same
    omega

/-- An element of another kind than its declaration was there before the pass. -/
theorem kind_before {e : Element α} (found : t.document.find? s.id = some e) :
    ∃ p, d.find? s.id = some p ∧ p.kind = e.kind := by
  have here : s.id ∈ Site.known sites := List.mem_map_of_mem (next ▸ List.mem_append_right done List.mem_cons_self)
  rcases tracked.origin s.id e found with kept | ⟨_, ⟨r, met, same, _⟩ | ⟨i, before, same, _⟩⟩
  · obtain ⟨p, e', former, found', birth⟩ := Document.keeps_iff.1 kept
    cases found.symm.trans found'
    exact ⟨p, former, ((tracked.framed outset).lasting s.id p e former found birth).kind.symm⟩
  · have distinct := outset.distinct
    rw [next, Site.known, List.map_append, List.nodup_append] at distinct
    exact (distinct.2.2 _ (List.mem_map_of_mem met) _ List.mem_cons_self same.symm).elim
  · have labels := Site.labels_le next
    have few := tracked.few
    exact (outset.unknown i (by omega) (same ▸ here)).elim

end Tracked

/-- The element around the next declarations is there, or the visit of one in it has uprooted it. -/
structure Held (sites done : List Site) (d : Document α) (holder : Option Declaration) (parent : Option Handle)
    (t : Transaction α) : Prop where
  named : parent.map Handle.id = holder.map Declaration.id
  known : ∀ p, holder = some p → p.id ∈ Site.known sites
  older : ∀ h, parent = some h → Reconcile.Older t h
  live : ∀ h, parent = some h → t.document.isLive h = true ∨
    ∃ r ∈ done, Site.Inside sites r.id h.id ∧ Site.Uproots sites d r h.id

omit [Coordinate α] in
theorem Held.top {sites done : List Site} {d : Document α} {t : Transaction α} : Held sites done d none none t where
  named := rfl
  known := by simp
  older := by simp
  live := by simp

/-- What visits of some sites lead to, one after the other. -/
structure Stage (sites : List Site) (ids : IdSupply) (d : Document α) (done part : List Site) (t t' : Transaction α) :
    Prop where
  tracked : ∃ drawn, Tracked sites ids d (done ++ part) drawn t'
  survives : Survives sites part d t.document t'.document
  met : Site.Kindred sites d → Site.Met sites d t'.document part

namespace Stage
variable {sites done part part' : List Site} {ids : IdSupply} {d : Document α} {drawn : Nat} {t u t' : Transaction α}

theorem nil (tracked : Tracked sites ids d done drawn t) : Stage sites ids d done [] t t where
  tracked := ⟨drawn, (List.append_nil done).symm ▸ tracked⟩
  survives := .refl sites d t.document
  met _ := trivial

theorem trans (first : Stage sites ids d done part t u) (second : Stage sites ids d (done ++ part) part' u t')
    (within : ∀ s ∈ part, s ∈ sites) : Stage sites ids d done (part ++ part') t t' where
  tracked := List.append_assoc done part part' ▸ second.tracked
  survives := first.survives.trans second.survives
  met kindred := by
    obtain ⟨_, tracked⟩ := first.tracked
    exact (first.met kindred).append (second.met kindred) second.survives tracked.consistent within

/-- Sites are left out below one that met an element of another kind. -/
theorem skip (stage : Stage sites ids d done part t t') (other : ¬Site.Kindred sites d) :
    Stage sites ids d done (part ++ part') t t' where
  tracked := by
    obtain ⟨drawn, tracked⟩ := stage.tracked
    exact ⟨drawn, List.append_assoc done part part' ▸ tracked.skip⟩
  survives := stage.survives.mono (List.subset_append_left part part')
  met kindred := (other kindred).elim

/-- Visits in the body of an element leave it there, or uproot it. -/
theorem held (stage : Stage sites ids d done part t t') {holder : Option Declaration} {parent : Option Handle}
    (held : Held sites done d holder parent t) (consistent : t.document.Consistent)
    (inside : ∀ s ∈ part, ∀ p, holder = some p → Site.Inside sites s.id p.id) :
    Held sites (done ++ part) d holder parent t' where
  named := held.named
  known := held.known
  older h own := Nat.lt_of_lt_of_le (held.older h own) stage.survives.births
  live h own := by
    obtain ⟨p, around, same⟩ := Option.map_eq_some_iff.1 (held.named.symm.trans (congrArg _ own))
    refine (held.live h own).elim (fun live => ?_) fun ⟨r, met, gone⟩ => .inr ⟨r, List.mem_append_left part met, gone⟩
    have there : t.document.contains h.id = true :=
      Document.contains_iff_mem.2 (List.mem_map_of_mem (Document.isLive_iff.1 live))
    rcases stage.survives.stays h.id (same ▸ held.known p around) there with kept | ⟨s, member, uproots⟩
    · exact .inl (Document.isLive_of_keeps kept consistent live)
    · exact .inr ⟨s, List.mem_append_right done member, same ▸ inside s member p around, uproots⟩

end Stage

namespace Reconcile
variable {sites done rest : List Site} {ids : IdSupply} {d : Document α} {drawn : Nat} {t : Transaction α} {s : Site}
  {config : Config α} {parent : Option Handle} {reference : Option (Bounds α)}

/-- A visit keeps track, and gives a handle of the element unless it is of another kind. It stops only where it has to
create an element in the body of one that is uprooted. -/
theorem visitOne_round (outset : Outset sites ids d) (tracked : Tracked sites ids d done drawn t)
    (next : sites = done ++ s :: rest) (held : Held sites done d s.holder parent t) :
    Ends (visitOne config parent reference s.head s.listed) t
      (fun o t' => Stage sites ids d done [s] t t' ∧ (∀ h, o = some h → h.id = s.id ∧ t'.document.isLive h = true) ∧
        (o = none → ¬Site.Kindred sites d))
      fun fault _ => fault = .parentGone ∧ Site.Orphans sites d := by
  have here : s ∈ sites := next ▸ List.mem_append_right done List.mem_cons_self
  by_cases lost : t.document.contains s.id = false ∧ ∃ h, parent = some h ∧ t.document.isLive h = false
  · obtain ⟨absent, h, rfl, dead⟩ := lost
    refine Ends.mono (visitOne_ends tracked.isOpen absent (held.older h rfl) dead) (fun _ _ _ none => none.elim) ?_
    rintro fault _ rfl
    obtain ⟨r, met, gone⟩ := (held.live h rfl).resolve_left fun live => by
      rw [dead] at live
      cases live
    refine ⟨rfl, done, s, rest, next, fun there => ?_, r, met, h.id, held.named.symm, gone⟩
    refine (tracked.framed outset).gone s.id there (eq_false_of_ne_true fun kept => ?_)
    rw [(Document.contains_of_keeps kept).2] at absent
    cases absent
  · have live (absent : t.document.contains s.id = false) (h : Handle) (own : parent = some h) :
        t.document.isLive h = true := by
      by_contra dead
      exact lost ⟨absent, h, own, Bool.not_eq_true _ ▸ dead⟩
    have unused := tracked.unused outset next
    have carries : Carries _ _ _ _ t (visitOne config parent reference s.head s.listed) := carries_visitOne live unused
    obtain ⟨o, t', given, ready, k, few, supply, shift⟩ := carries tracked.toReady
    have known (h : Handle) (own : parent = some h) : h.id ∈ Site.known sites := by
      obtain ⟨p, around, same⟩ := Option.map_eq_some_iff.1 (held.named.symm.trans (congrArg _ own))
      exact same ▸ held.known p around
    have strides := treads_visitOne here held.older known tracked.consistent tracked.strides.births_le o t' given
    obtain ⟨gives, misses⟩ := visited tracked.toReady ready shift (fun given => (unused given).2) given
    have other (none : o = none) : ¬Site.Kindred sites d := fun kindred => by
      obtain ⟨e, found, other⟩ := misses none
      obtain ⟨p, former, kind⟩ := tracked.kind_before outset next found
      exact other (kind.symm.trans (kindred s here p former))
    refine .of_gives given ⟨⟨⟨drawn + k, tracked.visited outset next ready strides held.named few supply shift⟩,
      ⟨shift.toInherits, fun x known there => ?_⟩, fun kindred => ⟨?_, trivial⟩⟩,
      fun h same => ⟨(gives h same).1, (gives h same).2.1⟩, other⟩
    · refine (shift.stays x there).imp_right fun ⟨l, drops, within, _⟩ => ?_
      exact ⟨s, List.mem_singleton.2 rfl, tracked.uproots outset next drops within known⟩
    · cases o with
      | none => exact (other rfl kindred).elim
      | some h => exact .inl (gives h rfl).2.2

/-- A visit of a forest keeps track, and meets its declarations. It stops only where it has to create an element in the
body of one that is uprooted. -/
theorem visit_ends {f : Forest} {holder : Option Declaration} (outset : Outset sites ids d)
    (tracked : Tracked sites ids d done drawn t) (next : sites = done ++ (f.sites holder ++ rest))
    (held : Held sites done d holder parent t) :
    Ends (visit config parent reference f) t (fun _ t' => Stage sites ids d done (f.sites holder) t t')
      fun fault _ => fault = .parentGone ∧ Site.Orphans sites d := by
  induction f generalizing done rest drawn holder parent reference t with
  | nil => exact .of_gives (gives_pure.2 ⟨rfl, rfl⟩) (.nil tracked)
  | cons head children others first second =>
    let s : Site := ⟨holder, head, children.roots.map Declaration.id⟩
    let body := [s] ++ children.sites (some head)
    have split : (Forest.cons head children others).sites holder = body ++ others.sites holder := rfl
    have known : ∀ r ∈ body, r ∈ sites := fun r member => by
      rw [next, split]
      exact List.mem_append_right done (List.mem_append_left rest (List.mem_append_left _ member))
    have inside (r : Site) (member : r ∈ body) (p : Declaration) (around : holder = some p) :
        Site.Inside sites r.id p.id := by
      subst around
      refine Site.inside_holder (f := .cons head children others) (fun r member => ?_) r (List.mem_append_left _ member)
      exact next ▸ List.mem_append_right done (List.mem_append_left rest member)
    have onward : sites = done ++ body ++ (others.sites holder ++ rest) := by
      rw [next, split, List.append_assoc body, ← List.append_assoc done body]
    -- Whether the body has been visited or left out, the others are visited then.
    have beyond {reference : Option (Bounds α)} {v : Transaction α} (stage : Stage sites ids d done body t v) :
        Ends (visit config parent reference others) v
          (fun _ t' => Stage sites ids d done ((Forest.cons head children others).sites holder) t t')
          fun fault _ => fault = .parentGone ∧ Site.Orphans sites d := by
      obtain ⟨_, tracked'⟩ := stage.tracked
      have visits : Ends (visit config parent reference others) v _ _ :=
        second tracked' onward (stage.held held tracked.consistent inside)
      exact visits.mono (fun _ _ _ later => stage.trans later known) fun _ _ stopped => stopped
    rw [split, List.append_assoc, List.append_assoc, List.singleton_append] at next
    unfold visit
    refine .bind (visitOne_round outset tracked next held) fun o u _ visited => ?_
    obtain ⟨stage, gives, misses⟩ := visited
    cases o with
    | none => exact beyond (stage.skip (misses rfl))
    | some h =>
      obtain ⟨named, live⟩ := gives h rfl
      obtain ⟨_, tracked'⟩ := stage.tracked
      have around : Held sites (done ++ [s]) d (some head) (some h) u := by
        refine ⟨congrArg Option.some named, ?_, ?_, ?_⟩
        · rintro _ ⟨⟩
          exact List.mem_map_of_mem (known s List.mem_cons_self)
        · rintro _ ⟨⟩
          exact tracked'.consistent.births_lt h (Document.isLive_iff.1 live)
        · rintro _ ⟨⟩
          exact .inl live
      refine .andThen (Edit.gives_document.2 ⟨rfl, rfl⟩) ?_
      refine .bind (first tracked' (next.trans (List.append_cons ..)) around) fun reference' v _ below => ?_
      refine beyond (stage.trans below fun r member => ?_)
      exact List.mem_singleton.1 member ▸ known s List.mem_cons_self

end Reconcile
end LiveDiagram
