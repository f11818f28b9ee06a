import LiveDiagram.Proofs.Document.Applying
import LiveDiagram.Proofs.History.Order
import LiveDiagram.Proofs.Reconcile.Report
import LiveDiagram.Proofs.Reconcile.Tallying

/-! The order of the topmost elements when a pass is undone. Those that the text kept come first, and those that it left out
come back behind them, in the order in which the pass recorded them. -/
namespace LiveDiagram

variable {α : Type}

/-- The topmost elements under other ids than these. -/
def Document.leftOut (d : Document α) (known : List String) : List String :=
  d.top.filter (!known.contains ·)

/-- What returns in the order of these elements but for edges that were let go early, returns in just this order if none of
them is such an edge. -/
theorem Document.eq_of_precedes {d : Document α} {roots back : List String} (distinct : roots.Nodup)
    (precedes : back.Pairwise (d.Precedes roots)) (all : back.Perm roots)
    (unattached : ∀ r ∈ roots, ∀ x ∈ roots, ¬d.AttachedBelow r x) : back = roots := by
  have order : roots.Pairwise fun x y => roots.idxOf x < roots.idxOf y :=
    List.pairwise_iff_getElem.2 fun i j _ _ less => by rwa [distinct.idxOf_getElem, distinct.idxOf_getElem]
  have inside {x : String} (member : x ∈ back) : x ∈ roots := all.subset member
  refine List.Perm.eq_of_pairwise (fun x y _ _ less more => (Nat.lt_asymm less more).elim) ?_ order all
  refine List.Pairwise.imp_of_mem (fun member _ before => ?_) precedes
  rcases before with between | ⟨r, between, attached⟩
  · exact List.pairwise_iff_forall_sublist.1 order between
  · exact (unattached r (between.subset List.mem_cons_self) _ (inside member) attached).elim

variable [Coordinate α]

/-- A pass over declarations with these ids, from a document to the end of its transaction, as the topmost elements see
it. -/
structure Topped (known : List String) (d : Document α) (t : Transaction α) : Prop where
  consistent : d.Consistent
  consistent' : t.document.Consistent
  recorded : Recorded d t
  kept : ∀ x ∈ d.top, d.keeps t.document x = known.contains x
  gone : ∀ x ∈ d.top, known.contains x = false → t.document.contains x = false
  place : ∀ x, d.keeps t.document x = true → t.document.parentOf x = d.parentOf x
  top : t.document.top.filter (d.keeps t.document) = d.top.filter (d.keeps t.document)
  order : t.ledger.ids.Pairwise fun x y => x ∈ d.leftOut known → y ∈ d.leftOut known → d.Precedes (d.leftOut known) x y
  history : t.document.history = d.history

/-- A pass that returns removes what it leaves out, and goes on by steps. -/
theorem Work.stages_reconcile {config : Config α} {f : Forest} {w w' : Workspace α} {outcome : Outcome}
    (consistent : w.document.Consistent) (given : Gives (Work.reconcile config f) w outcome w') :
    ∃ t u heard, Gives (Reconcile.removeOthers (f.linesById.map Prod.fst))
        ⟨w.document, .opened α true, w.context⟩ () t ∧ Steps ⟨false, false⟩ t u ∧ u.document.history = w.document.history ∧
      w'.document = Reconcile.conclude u.diff (u.document.told heard) ∧ outcome = u.diff.outcome := by
  simp only [Work.reconcile, gives_bind, Work.gives_transact, Work.change, Work.note, gives_modify, gives_pure] at given
  obtain ⟨_, _, ⟨v, passed, rfl⟩, _, _, rfl, _, _, rfl, rfl, rfl⟩ := given
  simp only [Reconcile.pass, gives_bind, gives_discard] at passed
  obtain ⟨_, t, removed, _, u, ⟨_, visited⟩, committed⟩ := passed
  have early : Steps ⟨false, false⟩ ⟨w.document, .opened α true, w.context⟩ t := Reconcile.walks_removeOthers consistent _ _ removed
  have late : Steps ⟨false, false⟩ t u := Reconcile.walks_visit (by simp) (by simp) (consistent.steps early) _ _ visited
  obtain ⟨_, rfl, told⟩ := Edit.gives_commit committed
  have steps : Steps ⟨false, false⟩ ⟨w.document, .opened α true, w.context⟩ u := early.trans late
  exact ⟨t, u, _, removed, late, steps.history_eq, by rw [told], rfl⟩

omit [Coordinate α] in
theorem Document.eq_of_mem_subtree {d : Document α} {r x : String} (consistent : d.Consistent) (topmost : x ∈ d.top)
    (inside : x ∈ d.subtree r) : x = r := by
  by_contra other
  obtain ⟨p, _, nested⟩ := exists_parent_mem_subtree consistent inside other
  rw [((consistent.mem_top x).1 topmost).2.1] at nested
  cases nested

namespace Tracked
variable {sites : List Site} {ids : IdSupply} {d : Document α} {drawn : Nat} {t : Transaction α} {x : String}
  (outset : Outset sites ids d) (tracked : Tracked sites ids d sites drawn t) (topmost : x ∈ d.top)

include outset tracked topmost

/-- A topmost element is gone only if the text leaves it out. -/
theorem unknown_of_gone (gone : d.keeps t.document x = false) : x ∉ Site.known sites := by
  have own := (outset.consistent.mem_top x).1 topmost
  rcases tracked.lost x own.1 gone with ⟨r, _, unknown, inside, _⟩ | ⟨s, _, l, drops, inside, _⟩
  · exact Document.eq_of_mem_subtree outset.consistent topmost inside ▸ unknown
  · -- A label is below its edge, so nothing topmost is below it.
    obtain ⟨e, found, _, parent⟩ := drops.label
    obtain rfl := Document.eq_of_mem_subtree outset.consistent topmost inside
    rw [Document.parentOf, found, Option.bind_some, parent] at own
    cases own.2.1

/-- A topmost element that is gone does not come back under its id. -/
theorem not_contains_of_gone (gone : d.keeps t.document x = false) : t.document.contains x = false := by
  have own := (outset.consistent.mem_top x).1 topmost
  refine eq_false_of_ne_true fun there => ?_
  obtain ⟨e, found⟩ := Document.contains_iff_find?.1 there
  rcases tracked.origin x e found with kept | ⟨_, ⟨s, member, rfl, _⟩ | ⟨i, before, rfl, _⟩⟩
  · rw [gone] at kept
    cases kept
  · exact tracked.unknown_of_gone outset topmost gone (List.mem_map_of_mem member)
  · have absent := outset.unused i (Nat.lt_of_lt_of_le before tracked.few)
    rw [own.1] at absent
    cases absent

end Tracked

namespace Work
variable {f : Forest} {w w' : Workspace α} {outcome : Outcome}

/-- What a pass does to the topmost elements. -/
theorem topped_reconcile (outset : Outset (f.sites none) w.context.ids w.document)
    (given : Gives (Work.reconcile .standard f) w outcome w') :
    ∃ u heard, Topped (f.preorder.map Declaration.id) w.document u ∧
      w'.document = Reconcile.conclude u.diff (u.document.told heard) ∧ outcome = u.diff.outcome := by
  obtain ⟨drawn, t, tracked, same, _⟩ := (reconcile_ends outset).of_ends given
  obtain ⟨v, u, heard, removed, steps, history, concluded, reported⟩ := stages_reconcile outset.consistent given
  refine ⟨u, heard, ?_, concluded, reported⟩
  have tallied := Reconcile.removeOthers_tallies outset.consistent removed
  have known (x : String) : (f.linesById.map Prod.fst).contains x = (f.preorder.map Declaration.id).contains x := by
    rw [Bool.eq_iff_iff, List.contains_iff_mem, List.contains_iff_mem, Forest.mem_linesById]
  simp only [known] at tallied
  let leaving := w.document.leftOut (f.preorder.map Declaration.id)
  have tallied : Tallied w.document leaving leaving v := tallied
  have recorded := tallied.recorded.steps tallied.consistent rfl steps
  have framed := tracked.framed outset
  have ended : Document.SameContent u.document t.document := by
    have conclude : Document.SameContent (Reconcile.conclude u.diff (u.document.told heard)) (u.document.told heard) :=
      Reconcile.conclude_same
    rw [← concluded] at conclude
    exact ⟨conclude.1.symm.trans same.1, conclude.2.symm.trans same.2, conclude.3.symm.trans same.3,
      conclude.4.symm.trans same.4⟩
  have found (x : String) : u.document.find? x = t.document.find? x := Document.find?_of_same ended.elements x
  have there (x : String) : u.document.contains x = t.document.contains x := congrArg Option.isSome (found x)
  have keeps : w.document.keeps u.document = w.document.keeps t.document := Document.keeps_congr fun x => by rw [found]
  have kept (x : String) (topmost : x ∈ w.document.top) :
      w.document.keeps t.document x = (f.preorder.map Declaration.id).contains x := by
    cases declared : (f.preorder.map Declaration.id).contains x with
    | true =>
      refine eq_true_of_ne_false fun gone => tracked.unknown_of_gone outset topmost gone ?_
      rw [Site.known, f.ids_sites]
      exact List.contains_iff_mem.1 declared
    | false =>
      -- It has left with the others, and whatever has come since is younger.
      refine eq_false_of_ne_true fun lasting => ?_
      obtain ⟨e, e', former, latter, birth⟩ := Document.keeps_iff.1 (keeps ▸ lasting)
      have older := Nat.lt_of_lt_of_le (Document.birth_lt outset.consistent former) tallied.recorded.births_le
      obtain ⟨p, between, _⟩ := (steps.inherits rfl).former x e' latter (birth ▸ older)
      obtain ⟨ids, swept⟩ := tallied.swept
      have left : x ∈ ids := (swept.below x).2 ⟨x, List.mem_filter.2 ⟨topmost, by rw [declared, Bool.not_false]⟩, Document.mem_subtree_self⟩
      rw [swept.cleared, if_pos left] at between
      cases between
  refine ⟨outset.consistent, tallied.consistent.steps steps, recorded, fun x topmost => keeps ▸ kept x topmost,
    fun x topmost unknown => ?_, fun x lasting => ?_, ?_, ?_, history⟩
  · rw [there]
    exact tracked.not_contains_of_gone outset topmost ((kept x topmost).trans unknown)
  · rw [keeps] at lasting
    rw [Document.parentOf, found]
    exact framed.parentOf lasting
  · rw [keeps, ended.top]
    exact framed.top
  · obtain ⟨more, grown, _⟩ := steps.lists
    have distinct : u.ledger.ids.Nodup := recorded.keys_nodup
    rw [grown] at distinct ⊢
    have fresh {x y : String} (member : y ∈ more) (left : y ∈ leaving) : w.document.Precedes leaving x y :=
      ((List.nodup_append.1 distinct).2.2 y (tallied.listed left) y member rfl).elim
    exact List.pairwise_append.2 ⟨tallied.order, List.pairwise_of_forall_mem_list fun _ _ _ member _ => fresh member,
      fun _ _ _ member _ => fresh member⟩

end Work

/-- A topmost element of the document before the pass that is there after it is topmost then. -/
theorem Topped.mem_top {known : List String} {d : Document α} {t : Transaction α} {x : String} (topped : Topped known d t)
    (topmost : x ∈ d.top) (there : t.document.contains x = true) :
    x ∈ t.document.top ∧ d.keeps t.document x = true := by
  have own := (topped.consistent.mem_top x).1 topmost
  have kept : d.keeps t.document x = true := by
    rw [topped.kept x topmost]
    refine eq_true_of_ne_false fun unknown => ?_
    rw [topped.gone x topmost unknown] at there
    cases there
  exact ⟨(topped.consistent'.mem_top x).2 ⟨there, (topped.place x kept).trans own.2.1, by simp⟩, kept⟩

/-- A document in which the additions of a pass have been taken back, and the states to restore in it. -/
structure TakenBack (d : Document α) (t : Transaction α) (present : List (Snapshot α)) (u : Document α) : Prop where
  consistent : u.Consistent
  contains : ∀ x, u.contains x = true ↔
    t.document.contains x = true ∧ ¬t.document.Below (Diff.ids t.diff.added) x
  top : u.top = t.document.top.filter u.contains
  ids : present.map Snapshot.id = Diff.ids t.diff.removed ++ Diff.ids t.diff.updated
  states : ∀ s ∈ present, d.state? s.id = some s

namespace TakenBack
variable {known : List String} {d u : Document α} {t : Transaction α} {present : List (Snapshot α)} {x p : String}
  (topped : Topped known d t) (back : TakenBack d t present u)

include back

theorem mem_ids : x ∈ present.map Snapshot.id ↔ x ∈ Diff.ids t.diff.removed ∨ x ∈ Diff.ids t.diff.updated := by
  rw [back.ids, List.mem_append]

theorem parent {s : Snapshot α} (member : s ∈ present) : s.parent = d.parentOf s.id := by
  rw [Document.parentOf_eq_state?, back.states s member]
  rfl

theorem housed_iff {there : String → Bool} : Document.Housed there present x = true ↔
    x ∈ present.map Snapshot.id ∧ ∃ p, d.parentOf x = some p ∧ there p = true := by
  simp only [Document.Housed, List.any_eq_true, Bool.and_eq_true, decide_eq_true_eq, Option.any_eq_true]
  constructor
  · rintro ⟨s, member, rfl, p, nested, there⟩
    exact ⟨List.mem_map_of_mem member, p, back.parent member ▸ nested, there⟩
  · rintro ⟨member, p, nested, there⟩
    obtain ⟨s, own, rfl⟩ := List.mem_map.1 member
    exact ⟨s, own, rfl, p, (back.parent own).trans nested, there⟩

theorem not_contains_of_removed (removed : x ∈ Diff.ids t.diff.removed) (topped : Topped known d t) :
    u.contains x = false := by
  have gone := (topped.recorded.mem_removed.1 removed).2
  rw [← Bool.not_eq_true, back.contains, gone]
  simp

include topped

/-- An element that is topmost after the pass and was there before is not taken back. -/
theorem contains_of_top (former : d.contains x = true) (topmost : x ∈ t.document.top) : u.contains x = true := by
  refine (back.contains x).2 ⟨((topped.consistent'.mem_top x).1 topmost).1, fun below => ?_⟩
  obtain ⟨root, added, _, inside⟩ := below
  obtain rfl := Document.eq_of_mem_subtree topped.consistent' topmost inside
  have new := (topped.recorded.mem_added.1 added).1
  rw [former] at new
  cases new

/-- An element whose former parent does not come back was below it after the pass, and went with it. -/
theorem lost_of_parent (nested : d.parentOf x = some p) (missing : u.ThereWith present p = false) :
    t.document.contains x = true ∧ u.contains x = false := by
  have former : d.contains p = true := topped.consistent.contains_parent nested
  obtain ⟨gone, unlisted⟩ := Bool.or_eq_false_iff.1 missing
  rw [← Bool.not_eq_true, List.contains_iff_mem, back.mem_ids, not_or] at unlisted
  have agrees : t.document.AgreesAt d p := by
    refine topped.recorded.agreesAt (fun added => ?_) unlisted.1 unlisted.2
    have new := (topped.recorded.mem_added.1 added).1
    rw [former] at new
    cases new
  have below : t.document.parentOf x = some p := by
    rw [← topped.consistent'.mem_children, agrees.childIds, topped.consistent.mem_children]
    exact nested
  refine ⟨Document.contains_of_parentOf below, ?_⟩
  rw [← Bool.not_eq_true, back.contains] at gone ⊢
  rintro ⟨_, stays⟩
  refine gone ⟨agrees.contains.trans former, fun ⟨root, added, present, inside⟩ => stays ⟨root, added, present, ?_⟩⟩
  exact Document.mem_subtree_of_parent topped.consistent' below inside

theorem homeless {s : Snapshot α} (member : s ∈ present) (alone : s.parent.any (u.ThereWith present) = false)
    (there : u.contains s.id = true) : s.id ∈ u.top := by
  rw [back.parent member] at alone
  cases nested : d.parentOf s.id with
  | some p =>
    rw [nested, Option.any_some] at alone
    rw [(back.lost_of_parent topped nested alone).2] at there
    cases there
  | none =>
    have former : d.contains s.id = true := by
      rw [Document.contains_eq_state?, back.states s member]
      rfl
    have topmost := (topped.consistent.mem_top s.id).2 ⟨former, nested, by simp⟩
    rw [back.top, List.mem_filter]
    exact ⟨(topped.mem_top topmost ((back.contains s.id).1 there).1).1, there⟩

/-- The elements that the text kept are the ones that stay at the top. -/
theorem filter_top : u.top.filter (!Document.Housed (u.ThereWith present) present ·) = d.top.filter known.contains := by
  have kept : d.top.filter (d.keeps t.document) = d.top.filter known.contains := List.filter_congr topped.kept
  rw [back.top, List.filter_filter, ← kept, ← topped.top]
  refine List.filter_congr fun x topmost => ?_
  have own := (topped.consistent'.mem_top x).1 topmost
  rw [Bool.eq_iff_iff, Bool.and_eq_true, Bool.not_eq_true']
  constructor
  · rintro ⟨stays, there⟩
    refine eq_true_of_ne_false fun lost => ?_
    have former : d.contains x = true := by
      refine eq_true_of_ne_false fun absent => ((back.contains x).1 there).2 ?_
      exact ⟨x, topped.recorded.mem_added.2 ⟨absent, own.1⟩, own.1, Document.mem_subtree_self⟩
    -- It was below another element, and the pass put it to the top: so its state is restored, and takes it from there.
    cases nested : d.parentOf x with
    | none =>
      have topmost' := (topped.consistent.mem_top x).2 ⟨former, nested, by simp⟩
      rw [(topped.mem_top topmost' own.1).2] at lost
      cases lost
    | some p =>
      have updated : x ∈ Diff.ids t.diff.updated := by
        by_contra unlisted
        have agrees : t.document.AgreesAt d x := topped.recorded.agreesAt
          (fun added => by rw [(topped.recorded.mem_added.1 added).1] at former; cases former)
          (fun removed => by rw [(topped.recorded.mem_removed.1 removed).2] at own; cases own.1) unlisted
        rw [agrees.parentOf, nested] at own
        cases own.2.1
      rw [← Bool.not_eq_true, back.housed_iff] at stays
      refine stays ⟨back.mem_ids.2 (.inr updated), p, nested, eq_true_of_ne_false fun missing => ?_⟩
      rw [(back.lost_of_parent topped nested missing).2] at there
      cases there
  · intro lasting
    have alone := (topped.place x lasting).symm.trans own.2.1
    refine ⟨?_, back.contains_of_top topped (Document.contains_of_keeps lasting).1 topmost⟩
    rw [← Bool.not_eq_true, back.housed_iff, alone]
    simp

/-- What the pass removed comes to the top if it was there. -/
theorem filter_removed : ((Diff.ids t.diff.removed).filter (!u.contains ·)).filter
    (!Document.Housed (u.ThereWith present) present ·) = (Diff.ids t.diff.removed).filter (d.leftOut known).contains := by
  rw [List.filter_filter]
  refine List.filter_congr fun x removed => ?_
  obtain ⟨former, gone⟩ := topped.recorded.mem_removed.1 removed
  rw [back.not_contains_of_removed removed topped, Bool.eq_iff_iff, Bool.not_false, Bool.and_true, Bool.not_eq_true',
    List.contains_iff_mem, Document.leftOut, List.mem_filter, topped.consistent.mem_top, ← Bool.not_eq_true, back.housed_iff]
  constructor
  · intro stays
    have alone : d.parentOf x = none := by
      refine Option.eq_none_iff_forall_ne_some.2 fun p nested => stays ⟨back.mem_ids.2 (.inl removed), p, nested, ?_⟩
      refine eq_true_of_ne_false fun missing => ?_
      rw [(back.lost_of_parent topped nested missing).1] at gone
      cases gone
    have topmost := (topped.consistent.mem_top x).2 ⟨former, alone, by simp⟩
    refine ⟨⟨former, alone, by simp⟩, ?_⟩
    rw [← topped.kept x topmost, Bool.not_eq_true', ← Bool.not_eq_true]
    intro kept
    rw [(Document.contains_of_keeps kept).2] at gone
    cases gone
  · rintro ⟨⟨_, alone, _⟩, _⟩ ⟨_, p, nested, _⟩
    rw [alone] at nested
    cases nested

/-- What the pass updated comes to the top if its former parent does not come back. -/
theorem mem_strays : x ∈ ((Diff.ids t.diff.updated).filter (!u.contains ·)).filter
    (!Document.Housed (u.ThereWith present) present ·) ↔
      u.ThereWith present x = true ∧ ∃ p, d.parentOf x = some p ∧ u.ThereWith present p = false := by
  simp only [List.mem_filter, Bool.not_eq_true', ← Bool.not_eq_true (Document.Housed _ _ _), back.housed_iff]
  constructor
  · rintro ⟨⟨updated, lost⟩, stays⟩
    have listed := back.mem_ids.2 (.inr updated)
    refine ⟨by simp [Document.ThereWith, listed], ?_⟩
    obtain ⟨_, s, s', state, state', _⟩ := topped.recorded.mem_updated.1 updated
    have former : d.contains x = true := by rw [Document.contains_eq_state?, state]; rfl
    have there : t.document.contains x = true := by rw [Document.contains_eq_state?, state']; rfl
    cases nested : d.parentOf x with
    | none =>
      have topmost := (topped.consistent.mem_top x).2 ⟨former, nested, by simp⟩
      rw [back.contains_of_top topped former (topped.mem_top topmost there).1] at lost
      cases lost
    | some p => exact ⟨p, rfl, eq_false_of_ne_true fun there => stays ⟨listed, p, nested, there⟩⟩
  · rintro ⟨there, p, nested, missing⟩
    obtain ⟨after, lost⟩ := back.lost_of_parent topped nested missing
    rw [Document.ThereWith, lost, Bool.false_or, List.contains_iff_mem, back.mem_ids] at there
    refine ⟨⟨there.resolve_left fun removed => ?_, lost⟩, ?_⟩
    · rw [(topped.recorded.mem_removed.1 removed).2] at after
      cases after
    · rintro ⟨_, q, nested', there'⟩
      cases nested.symm.trans nested'
      rw [missing] at there'
      cases there'

end TakenBack

omit [Coordinate α] in
theorem Document.SameContent.subtree {d d' : Document α} (same : d.SameContent d') (id : String) :
    d.subtree id = d'.subtree id := by
  unfold Document.subtree
  rw [same.links]

namespace Topped
variable {known : List String} {d c : Document α} {t : Transaction α} {description : String}

/-- Restoring the states from before a pass takes the additions back, and goes through its phases from there. -/
theorem takenBack (topped : Topped known d t) (same : c.SameContent t.document) {context : Context} {v : Transaction α}
    (given : Gives (Edit.restore (Action.compound description t.diff.sets).before) ⟨c, .opened α false, context⟩ () v) :
    ∃ present u, TakenBack d t present u ∧ v.document.top = (u.restored present).top ∧
      ∀ x, v.document.contains x = (u.restored present).contains x := by
  have distinct := topped.recorded.nodup_diff
  have consistent := topped.consistent'.of_same same
  have stable : Edit.Stable (.opened α false) ⟨c, .opened α false, context⟩ := ⟨consistent, rfl⟩
  have states (c : Change α) (member : c ∈ t.diff) (s : Snapshot α) (before : c.before = some s) :
      s.id = c.id ∧ d.state? s.id = some s := by
    have state : d.state? c.id = some s := (topped.recorded.mem_diff.1 member).2.1.symm.trans before
    obtain ⟨e, found, rfl⟩ := Option.map_eq_some_iff.1 state
    obtain named := Document.find?_eq_some_id found
    exact ⟨named, (congrArg d.state? named).trans state⟩
  obtain ⟨u, removed, restored⟩ := Edit.gives_restore given
  obtain ⟨u', ids, removed', ⟨consistent', _⟩, cleared, below⟩ := Edit.removals_return .opened _ stable
  obtain ⟨_, rfl⟩ := removed.unique removed'
  rw [Diff.absent_before distinct] at below
  refine ⟨_, u.document, ⟨consistent', fun x => ?_, same.top ▸ Edit.top_removals consistent removed,
    Diff.present_before distinct (fun c member s before => (states c member s before).1) _, fun s member => ?_⟩,
    by rw [restored]; rfl, fun x => by rw [restored]; rfl⟩
  · have there (x : String) : c.contains x = t.document.contains x :=
      congrArg Option.isSome (Document.find?_of_same same.elements x)
    simp only [cleared.contains, below, Document.Below, there, same.subtree]
  · obtain ⟨⟨_, _⟩, entry, rfl⟩ := List.mem_filterMap.1 member
    obtain ⟨c, own, same⟩ := Action.mem_before_compound entry
    exact (states c own s (Prod.mk.inj same).2.symm).2

/-- The topmost elements when a pass has been undone. -/
theorem undone (topped : Topped known d t) (same : c.SameContent t.document) {context : Context} {v : Transaction α}
    (given : Gives (Edit.restore (Action.compound description t.diff.sets).before) ⟨c, .opened α false, context⟩ () v) :
    ∃ back strays, v.document.top = d.top.filter known.contains ++ back ++ strays ∧
      back.Perm (d.leftOut known) ∧ back.Pairwise (d.Precedes (d.leftOut known)) ∧
      ∀ x, x ∈ strays ↔ v.document.contains x = true ∧ ∃ p, d.parentOf x = some p ∧ v.document.contains p = false := by
  obtain ⟨present, u, back, top, contains⟩ := topped.takenBack same given
  have distinct : (Diff.ids t.diff.removed ++ Diff.ids t.diff.updated).Nodup := by
    rw [Diff.ids, Diff.ids, ← List.map_append]
    refine (Diff.nodup_parts topped.recorded.nodup_diff).sublist (List.Sublist.map _ ?_)
    exact (List.sublist_append_left _ _).append_right _
  have there (x : String) : v.document.contains x = u.ThereWith present x :=
    (contains x).trans (congrFun (Document.contains_restored back.consistent) x)
  have keys : Diff.ids t.diff = t.ledger.ids := by
    simp only [Diff.ids, Transaction.diff, Ledger.ids, List.map_map]
    rfl
  have order : (Diff.ids t.diff.removed).Sublist t.ledger.ids := keys ▸ List.filter_sublist.map Change.id
  refine ⟨(Diff.ids t.diff.removed).filter (d.leftOut known).contains, ((Diff.ids t.diff.updated).filter (!u.contains ·)).filter
    (!Document.Housed (u.ThereWith present) present ·), ?_, ?_, ?_, fun x => ?_⟩
  · rw [top, Document.top_restored back.consistent (back.ids ▸ distinct) fun s member alone there => back.homeless topped member alone there,
      back.ids, List.filter_append, List.filter_append, List.filter_append, back.filter_top topped, back.filter_removed topped,
      List.append_assoc]
  · refine (List.perm_ext_iff_of_nodup ((List.nodup_append.1 distinct).1.filter _)
      (topped.consistent.top_nodup.filter _)).2 fun x => ?_
    rw [List.mem_filter, List.contains_iff_mem]
    refine and_iff_right_of_imp fun leaving => topped.recorded.mem_removed.2 ?_
    obtain ⟨topmost, unknown⟩ := List.mem_filter.1 leaving
    exact ⟨((topped.consistent.mem_top x).1 topmost).1, topped.gone x topmost (by simpa using unknown)⟩
  · refine List.Pairwise.imp_of_mem (fun member member' precedes => ?_) (topped.order.sublist (List.filter_sublist.trans order))
    exact precedes (List.contains_iff_mem.1 (List.mem_filter.1 member).2) (List.contains_iff_mem.1 (List.mem_filter.1 member').2)
  · simp only [there]
    exact back.mem_strays topped

end Topped

namespace Work
variable {w w' v : Workspace α} {text : String} {parsed : Parsed} {context : Context} {action : Action α}
  {result : Option (Action α)}

/-- When a text without errors has been applied to a document that such texts have brought about, came into the history
and is undone, the topmost elements are first those that the text had declared, in the order from before it. Those that it
had left out come back behind them, in their order too, but for edges that an element in front of others had let go. Last
are the elements whose parent from before has not come back. The ids of new labels are taken not to be in use. -/
theorem OfTexts.undo_orders (texts : OfTexts w) (clean : Parsed.Clean text w.context parsed context)
    (suits : context.ids.Suits parsed.forest.preorder)
    (unused : ∀ i < Declaration.labels parsed.forest.preorder, w.document.contains (context.ids.ahead i) = false)
    (given : Gives (Work.applyText text) w parsed.errors w')
    (pushed : w'.document.history = w.document.history.push action) (undone : Gives Work.undo w' result v) :
    let known := parsed.forest.preorder.map Declaration.id
    let leaving := w.document.leftOut known
    ∃ back strays, v.document.top = w.document.top.filter known.contains ++ back ++ strays ∧
      back.Perm leaving ∧ back.Pairwise (w.document.Precedes leaving) ∧
      ((∀ r ∈ leaving, ∀ x ∈ leaving, ¬w.document.AttachedBelow r x) → back = leaving) ∧
      ∀ x, x ∈ strays ↔
        v.document.contains x = true ∧ ∃ p, w.document.parentOf x = some p ∧ v.document.contains p = false := by
  intro known leaving
  obtain ⟨again, context', outcome, ⟨read, _⟩, _, reconciled⟩ := (gives_applyText clean.errors).1 given
  cases clean.read.symm.trans read
  have outset := texts.outset clean suits unused
  obtain ⟨u, heard, topped, concluded, _⟩ := topped_reconcile (w := ⟨w.document, context⟩) outset reconciled
  have history := congrArg Document.history concluded
  have before : (u.document.told heard).history = w.document.history := topped.history
  rw [Reconcile.history_conclude, before, pushed] at history
  split at history
  · exact absurd (congrArg (·.undoable.length) history) (by simp [History.push])
  · obtain rfl : action = .compound "Update diagram" u.diff.sets := (List.cons.inj (congrArg History.undoable history)).1
    have same : Document.SameContent (popUndo w'.document w.document.history.undoable) u.document := by
      have conclude : Document.SameContent (Reconcile.conclude u.diff (u.document.told heard)) (u.document.told heard) :=
        Reconcile.conclude_same
      rw [← concluded] at conclude
      exact ⟨conclude.1, conclude.2, conclude.3, conclude.4⟩
    rcases gives_undo.1 undone with ⟨none, _⟩ | ⟨_, _, t, undoable, _, restored, rfl⟩
    · rw [pushed] at none
      cases none
    · rw [pushed] at undoable
      cases undoable
      obtain ⟨back, strays, top, all, precedes, rest⟩ := topped.undone same restored
      refine ⟨back, strays, top, all, precedes, fun unattached => ?_, rest⟩
      exact Document.eq_of_precedes (outset.consistent.top_nodup.filter _) precedes all unattached

/-- An edge that a node lets go comes back in front of a node that stood before it. -/
theorem OfTexts.undo_orders_early :
    ∃ (w w' v : Workspace Quantity) (parsed : Parsed) (context : Context) (action : Action Quantity), OfTexts w ∧
      Parsed.Clean "" w.context parsed context ∧ Gives (Work.applyText "") w parsed.errors w' ∧
      w'.document.history = w.document.history.push action ∧ Gives Work.undo w' (some action) v ∧
      w.document.top = ["a", "b", "e"] ∧ v.document.top = ["a", "e", "b"] ∧
      ∃ back, back.Perm ["a", "b", "e"] ∧ back.Pairwise (w.document.Precedes ["a", "b", "e"]) ∧
        ∃ strays, v.document.top = back ++ strays := by
  let w := Workspace.blank.taking "a: rect\nb: rect\ne: edge a --"
  let w' := w.taking ""
  have texts : OfTexts w := .taking (.empty _ _) (by decide +kernel)
  obtain ⟨parsed, context, clean, same, given⟩ := Work.exists_applied_forest "" w .nil (by decide +kernel) (by decide +kernel)
  have bare : Declaration.labels parsed.forest.preorder = 0 := same ▸ rfl
  obtain ⟨result, undone, acted⟩ := exists_gives (e := Work.undo) (t := w') (fun result : Option (Action Quantity) =>
    result.any fun action => decide (w'.document.history = w.document.history.push action)) (by decide +kernel)
  obtain ⟨action, rfl, pushed⟩ := (Option.any_eq_true _ _).1 acted
  have pushed : w'.document.history = w.document.history.push action := of_decide_eq_true pushed
  obtain ⟨back, strays, top, all, precedes, _⟩ := texts.undo_orders clean (.of_bare bare) (by omega) given pushed undone
  have leaving : w.document.leftOut (parsed.forest.preorder.map Declaration.id) = ["a", "b", "e"] := by
    rw [same]
    decide +kernel
  have none : w.document.top.filter (parsed.forest.preorder.map Declaration.id).contains = [] := by
    rw [same]
    decide +kernel
  rw [leaving] at all precedes
  rw [none] at top
  exact ⟨w, w', _, parsed, context, action, texts, clean, given, pushed, undone, by decide +kernel, by decide +kernel,
    back, all, precedes, strays, top⟩

/-- A node that the text had left out comes back behind one that stood after it. -/
theorem OfTexts.undo_reorders :
    ∃ (w w' v : Workspace Quantity) (errors : Errors) (action : Action Quantity), OfTexts w ∧
      Gives (Work.applyText "b: rect") w errors w' ∧ errors.reports = [] ∧
      w'.document.history = w.document.history.push action ∧ Gives Work.undo w' (some action) v ∧
      w.document.top = ["a", "b"] ∧ v.document.top = ["b", "a"] := by
  let w := Workspace.blank.taking "a: rect\nb: rect"
  let w' := w.taking "b: rect"
  have texts : OfTexts w := .taking (.empty _ _) (by decide +kernel)
  obtain ⟨errors, given, clean⟩ := exists_gives (e := Work.applyText "b: rect") (t := w) Errors.isEmpty (by decide +kernel)
  obtain ⟨result, undone, acted⟩ := exists_gives (e := Work.undo) (t := w') (fun result : Option (Action Quantity) =>
    result.any fun action => decide (w'.document.history = w.document.history.push action)) (by decide +kernel)
  obtain ⟨action, rfl, pushed⟩ := (Option.any_eq_true _ _).1 acted
  exact ⟨w, w', _, errors, action, texts, given, List.isEmpty_iff.1 clean, of_decide_eq_true pushed, undone,
    by decide +kernel, by decide +kernel⟩

end Work
end LiveDiagram
