import LiveDiagram.Proofs.Document.Brought
import LiveDiagram.Proofs.Geometry.Placing
import LiveDiagram.Proofs.Reconcile.Housing
import LiveDiagram.Proofs.Reconcile.Touching
import LiveDiagram.Proofs.Reconcile.Visiting

/-! The distance that new nodes keep. Once a pass has met a topmost node it places each new node next to the last one,
away from all that is there; until then new nodes go to the middle of the page, whatever lies there. -/
namespace LiveDiagram

namespace Document
variable {α : Type} {d d' : Document α} {new : String → Bounds α → Prop} {e : Element α} {box : Bounds α}

instance [DecidableEq α] : Decidable (d.Occupies e box) :=
  inferInstanceAs (Decidable (_ ∧ _ ∧ _))

theorem Occupies.mem_obstacles (there : d.Occupies e box) : box ∈ d.obstacles := by
  obtain ⟨found, boxed, unlabelled⟩ := there
  unfold Element.box? at boxed
  split at boxed
  · next content node =>
    exact Document.mem_obstacles.2 ⟨e, mem_of_find? found, content, node, unlabelled, Option.some.inj boxed⟩
  · cases boxed

theorem Occupies.of_same (there : d.Occupies e box) (same : d'.elements = d.elements) : d'.Occupies e box := by
  unfold Occupies isLabel at *
  simpa only [find?_of_same same] using there

/-- A topmost node is no label. -/
theorem exists_occupies {x : String} (found : d.find? x = some e) (node : e.isNode = true) (topmost : e.parent = none) :
    ∃ box, d.Occupies e box := by
  have named := find?_eq_some_id found
  obtain ⟨_, _, content, _, _, _, _⟩ := e
  cases content with
  | node content => exact ⟨content.bounds, named ▸ found, rfl, by simp_all [isLabel]⟩
  | edge => cases node

end Document

namespace Site
variable {α : Type} {d d' : Document α} {new : String → Bounds α → Prop} {sites more : List Site} {s : Site} {x : String}

/-- Among these sites is one at the top that declares a node and leads to a topmost one. -/
def Anchored (sites : List Site) (d : Document α) : Prop :=
  ∃ s ∈ sites, s.holder = none ∧ s.head.kind = .node ∧ ∃ e, d.find? s.id = some e ∧ e.isNode = true ∧ e.parent = none

/-- Before the site of an id there is no such site. -/
def Unanchored (sites : List Site) (d : Document α) (x : String) : Prop :=
  ∃ before s, before ++ [s] <+: sites ∧ s.id = x ∧ ¬ Anchored before d

theorem anchored_append : Anchored (sites ++ more) d ↔ Anchored sites d ∨ Anchored more d := by
  simp only [Anchored, List.mem_append, or_and_right, exists_or]

/-- Sites that are not visited now lead to the topmost nodes that they led to before. -/
theorem Anchored.former (anchored : Anchored sites d') (admits : d.Admits new d')
    (others : ∀ y box, new y box → y ∉ Site.known sites) : Anchored sites d := by
  obtain ⟨s, member, top, kind, e', found', node, topmost⟩ := anchored
  have named := Document.find?_eq_some_id found'
  obtain ⟨box, there⟩ := Document.exists_occupies found' node topmost
  rcases admits.occupied e' box there with ⟨_, own⟩ | ⟨e, ⟨found, boxed, _⟩, id, _, parent⟩
  · exact (others _ _ own (named ▸ List.mem_map_of_mem member)).elim
  · refine ⟨s, member, top, kind, e, named ▸ id ▸ found, ?_, parent.trans topmost⟩
    unfold Element.box? at boxed
    unfold Element.isNode Element.kind
    split at boxed
    · next node => simp [node, Content.kind]
    · cases boxed

theorem Unanchored.later (unanchored : Unanchored sites d x) (admits : d.Admits new d')
    (others : ∀ y box, new y box → y ∉ Site.known sites) : Unanchored (sites ++ more) d' x := by
  obtain ⟨before, s, early, named, none⟩ := unanchored
  refine ⟨before, s, early.trans (List.prefix_append ..), named, fun anchored => none (anchored.former admits ?_)⟩
  intro y box own inside
  refine others y box own (List.map_subset _ early.subset ?_)
  exact List.map_subset _ (List.subset_append_left before [s]) inside

end Site

/-- A pass in exact arithmetic keeps new nodes apart: nodes born from `born` on lie away from all older ones, unless they
lie in the middle as no site before their own led to a topmost node. -/
structure Spread (config : Config ℚ) (born : Nat) (middle : Bounds ℚ) (done : List Site) (reference : Option (Bounds ℚ))
    (d : Document ℚ) : Prop where
  center : Reconcile.newBounds config d none = middle
  spaced : ∀ e box f other, d.Occupies e box → d.Occupies f other → born ≤ e.birth → f.birth < e.birth →
    (box.grow config.minDistance).intersects other = false ∨ box = middle ∧ Site.Unanchored done d e.id
  met : reference = none → ¬ Site.Anchored done d

namespace Reconcile
variable {config : Config ℚ} {d : Document ℚ}

/-- A new node that is placed next to another one lies apart from all nodes that are there. -/
theorem newBounds_apart {reference other : Bounds ℚ} {f : Element ℚ} (there : d.Occupies f other) :
    ((newBounds config d (some reference)).grow config.minDistance).intersects other = false := by
  have free := Placement.place_isFree config.nodeSize.1 config.nodeSize.2 reference d.obstacles config.minDistance
    Placement.standardRings
  exact Placement.isFree_iff.1 free other (Placement.mem_obstacles.2 (.inl there.mem_obstacles))

variable {α : Type} [Coordinate α]

theorem newBounds_none_congr {config : Config α} {d d' : Document α} (same : d'.bounds = d.bounds) :
    newBounds config d' none = newBounds config d none := by
  unfold newBounds
  rw [same]

omit [Coordinate α] in
/-- The place for the next new node is known once a topmost node was met. -/
theorem nextReference_eq_none {d : Document α} {x : String} {reference : Option (Bounds α)}
    (unknown : nextReference d x reference = none) :
    reference = none ∧ ∀ e, d.find? x = some e → e.isNode = true → e.parent ≠ none := by
  unfold nextReference at unknown
  split at unknown
  · next e found =>
    split at unknown
    · cases unknown
    · next other =>
      refine ⟨unknown, fun p found' node topmost => ?_⟩
      cases found.symm.trans found'
      obtain ⟨_, _, content, _, _, _, _⟩ := e
      cases content with
      | node content => exact other content rfl topmost
      | edge => cases node
  · next missing =>
    refine ⟨unknown, fun p found => ?_⟩
    cases missing.symm.trans found

end Reconcile

namespace Spread
variable {config : Config ℚ} {born : Nat} {middle : Bounds ℚ} {done rest more : List Site} {s : Site}
  {reference reference' : Option (Bounds ℚ)} {d d' : Document ℚ} {new : String → Bounds ℚ → Prop}

theorem visited (spread : Spread config born middle done reference d) (fresh : s.id ∉ Site.known done)
    (consistent : d.Consistent) (around : d'.bounds = d.bounds)
    (admits : d.Admits (Reconcile.Room config d reference s) d')
    (turned : reference' = none → reference = none ∧ ¬ Site.Anchored [s] d') :
    Spread config born middle (done ++ [s]) reference' d' where
  center := (Reconcile.newBounds_none_congr around).trans spread.center
  spaced e box f other there there' young older := by
    have others (y : String) (box : Bounds ℚ) (own : Reconcile.Room config d reference s y box) :
        y ∉ Site.known done := own.1 ▸ fresh
    have old {p : Element ℚ} {room : Bounds ℚ} (there : d.Occupies p room) : p.birth < d.births :=
      consistent.births_lt p.handle (List.mem_map_of_mem (Document.mem_of_find? there.1))
    rcases admits.occupied e box there with ⟨late, own, rfl⟩ | ⟨p, former, id, birth, _⟩
    · rcases admits.occupied f other there' with ⟨_, own', _⟩ | ⟨q, former', _⟩
      · -- One visit creates no two nodes that take room.
        have same : f = e := by
          have found := there.1
          have found' := there'.1
          rw [own] at found
          rw [own'] at found'
          exact Option.some.inj (found'.symm.trans found)
        exact (Nat.lt_irrefl _ (same ▸ older)).elim
      · cases known : reference with
        | some reference => exact .inl (Reconcile.newBounds_apart former')
        | none =>
          have none : ¬ Site.Anchored done d' := fun anchored =>
            spread.met known (anchored.former admits others)
          exact .inr ⟨spread.center, done, s, List.prefix_refl _, own.symm, none⟩
    · rcases admits.occupied f other there' with ⟨late, _⟩ | ⟨q, former', _, birth', _⟩
      · have early := old former
        omega
      · rw [← birth] at young
        rw [← birth, ← birth'] at older
        refine (spread.spaced p box q other former former' young older).imp_right fun ⟨middle, unanchored⟩ => ⟨middle, ?_⟩
        exact (id ▸ unanchored).later admits others
  met unknown := by
    obtain ⟨before, own⟩ := turned unknown
    rw [Site.anchored_append]
    rintro (anchored | anchored)
    · exact spread.met before (anchored.former admits fun y box own => own.1 ▸ fresh)
    · exact own anchored

/-- Sites in the body of another one anchor nothing. -/
theorem skipped (spread : Spread config born middle done reference d) (held : ∀ s ∈ more, s.holder ≠ none) :
    Spread config born middle (done ++ more) reference d where
  center := spread.center
  spaced e box f other there there' young older := by
    refine (spread.spaced e box f other there there' young older).imp_right fun ⟨middle, unanchored⟩ => ⟨middle, ?_⟩
    have same : d.Admits (fun _ _ => False) d := .refl d
    exact unanchored.later same (by simp)
  met unknown := by
    rw [Site.anchored_append]
    rintro (anchored | ⟨s, member, top, _⟩)
    · exact spread.met unknown anchored
    · exact held s member top

/-- A pass that goes on through a forest spreads out what it creates. -/
theorem visit {sites : List Site} {f : Forest} {holder : Option Declaration} {parent : Option Handle}
    {t t' : Transaction ℚ} (distinct : (Site.known sites).Nodup) (split : sites = done ++ (f.sites holder ++ rest))
    (consistent : t.document.Consistent) (older : ∀ h, parent = some h → Reconcile.Older t h)
    (spread : Spread config born middle done reference t.document)
    (given : Gives (Reconcile.visit config parent reference f) t reference' t') :
    Spread config born middle (done ++ f.sites holder) reference' t'.document := by
  induction f generalizing t t' done rest holder parent reference reference' with
  | nil =>
    obtain ⟨rfl, rfl⟩ := gives_pure.1 given
    rwa [Forest.sites, List.append_nil]
  | cons head children others first second =>
    let s : Site := ⟨holder, head, children.roots.map Declaration.id⟩
    simp only [Forest.sites, List.cons_append, List.append_assoc] at split
    have fresh : s.id ∉ Site.known done := by
      rw [split, Site.known, List.map_append, List.nodup_append] at distinct
      exact fun inside => distinct.2.2 _ inside _ List.mem_cons_self rfl
    have onward : sites = done ++ [s] ++ children.sites (some head) ++ (others.sites holder ++ rest) := by
      rw [split]
      simp [s]
    rw [Forest.sites, List.append_cons, ← List.append_assoc]
    unfold Reconcile.visit at given
    obtain ⟨o, u, went, given⟩ := gives_bind.1 given
    have steps : Steps ⟨true, false⟩ t u := Reconcile.walks_visitOne older (by simp) consistent _ _ went
    have consistent' := consistent.steps steps
    have older' := fun h same => (older h same).steps steps
    have around : u.document.bounds = t.document.bounds := congrArg Document.Surroundings.bounds steps.surroundings_eq
    have admits := Reconcile.houses_visitOne (s := s) older consistent _ _ went
    have step {next : Option (Bounds ℚ)} (turned : next = none → reference = none ∧ ¬ Site.Anchored [s] u.document) :
        Spread config born middle (done ++ [s]) next u.document := spread.visited fresh consistent around admits turned
    cases o with
    | none =>
      -- An element of the other kind is passed over, with the body of its declaration.
      obtain ⟨same, e, found, kind⟩ := Reconcile.other_of_visitOne (s := s) went
      refine second onward consistent' older' ((step fun unknown => ⟨unknown, ?_⟩).skipped fun r member => ?_) given
      · rintro ⟨r, member, _, declared, p, found', node, _⟩
        obtain rfl := List.mem_singleton.1 member
        rw [same, found] at found'
        cases found'
        unfold Element.isNode at node
        exact kind ((of_decide_eq_true node).trans declared.symm)
      · rcases Forest.holder_of_mem_sites member with own | ⟨_, _, own⟩ <;> rw [own] <;> simp
    | some h =>
      obtain ⟨_, _, looked, given⟩ := gives_bind.1 given
      obtain ⟨rfl, rfl⟩ := Edit.gives_document.1 looked
      obtain ⟨r, v, inner, last⟩ := gives_bind.1 given
      have mine : ∀ h', some h = some h' → Reconcile.Older u h' := by
        rintro _ ⟨⟩
        exact (Reconcile.handle_visitOne older consistent went).1
      have steps' : Steps ⟨true, false⟩ u v := Reconcile.walks_visit mine (by simp) consistent' _ _ inner
      have below := first (onward.trans (List.append_assoc ..)) consistent' mine (step fun unknown => ?_) inner
      · exact second onward (consistent'.steps steps') (fun h same => (older' h same).steps steps') below last
      · obtain ⟨before, bare⟩ := Reconcile.nextReference_eq_none unknown
        refine ⟨before, ?_⟩
        rintro ⟨r, member, _, _, p, found, node, topmost⟩
        obtain rfl := List.mem_singleton.1 member
        exact bare p found node topmost

end Spread

/-- When a pass returns, its new nodes lie apart from all older ones, or in the middle. -/
theorem Work.spaced_reconcile {config : Config ℚ} {f : Forest} {w w' : Workspace ℚ} {outcome : Outcome}
    (consistent : w.document.Consistent) (distinct : (f.preorder.map Declaration.id).Nodup)
    (given : Gives (Work.reconcile config f) w outcome w') {x y : Element ℚ} {box other : Bounds ℚ}
    (new : w.document.births ≤ x.birth) (there : w'.document.Occupies x box) (older : y.birth < x.birth)
    (there' : w'.document.Occupies y other) : (box.grow config.minDistance).intersects other = false ∨
      box = Reconcile.newBounds config w.document none ∧ Site.Unanchored (f.sites none) w'.document x.id := by
  obtain ⟨u, v, reference, removed, visited, same⟩ := Work.visits_of_reconcile given
  have steps : Steps ⟨true, false⟩ ⟨w.document, .opened ℚ true, w.context⟩ u :=
    Reconcile.walks_removeOthers consistent _ _ removed
  have around : u.document.bounds = w.document.bounds := congrArg Document.Surroundings.bounds steps.surroundings_eq
  have admits : w.document.Admits (fun _ _ => False) u.document := Reconcile.houses_removeOthers consistent _ _ removed
  have start : Spread config w.document.births (Reconcile.newBounds config w.document none) [] none u.document := by
    refine ⟨Reconcile.newBounds_none_congr around, fun e box f other there _ young _ => ?_, fun _ => ?_⟩
    · rcases admits.occupied e box there with ⟨_, none⟩ | ⟨p, former, _, birth, _⟩
      · exact none.elim
      · have old : p.birth < w.document.births :=
          consistent.births_lt p.handle (List.mem_map_of_mem (Document.mem_of_find? former.1))
        rw [birth] at old
        exact (Nat.not_lt_of_le young old).elim
    · rintro ⟨_, none, _⟩
      cases none
  have distinct : (Site.known (f.sites none)).Nodup := by rwa [Site.known, f.ids_sites]
  have spread := start.visit distinct (List.append_nil (f.sites none)).symm (consistent.steps steps) (by simp) visited
  have elements : v.document.elements = w'.document.elements := same.elements.symm
  refine (spread.spaced x box y other (there.of_same elements) (there'.of_same elements) new older).imp_right ?_
  rintro ⟨middle, before, s, early, named, none⟩
  refine ⟨middle, before, s, early, named, ?_⟩
  simpa only [Site.Anchored, Document.find?_of_same same.elements] using none

/-- An empty document with exact coordinates, where each new id is a star. -/
def Workspace.exact : Workspace ℚ :=
  ⟨Document.empty Document.page, ⟨⟨fun _ => "*", 0⟩, []⟩⟩

namespace Work

/-- When a text without errors has been applied to a document that such texts have brought about, in exact arithmetic,
each new node that is no label keeps its distance from every such node that is older, unless it lies in the middle of the
page and no declaration at the top, before its own, has led to a topmost node. -/
theorem OfTexts.new_nodes_keep_distance {w w' : Workspace ℚ} {text : String} {parsed : Parsed} {context : Context}
    (texts : OfTexts w) (clean : Parsed.Clean text w.context parsed context)
    (given : Gives (Work.applyText text) w parsed.errors w') {x y : Element ℚ} {box other : Bounds ℚ}
    (new : w.document.births ≤ x.birth) (there : w'.document.Occupies x box) (older : y.birth < x.birth)
    (there' : w'.document.Occupies y other) :
    (box.grow Config.standard.minDistance).intersects other = false ∨
      box = Reconcile.newBounds .standard w.document none ∧
        Site.Unanchored (parsed.forest.sites none) w'.document x.id := by
  obtain ⟨again, context', outcome, read, _, reconciled⟩ := (gives_applyText clean.errors).1 given
  cases clean.read.symm.trans read.read
  exact spaced_reconcile (w := { w with context := context }) texts.brought.consistent (Parsed.clean_iff.1 clean).2
    reconciled new there older there'

/-- A new node keeps its distance from one that is there, though another new one lies in the middle. -/
theorem OfTexts.new_nodes_keep_distance_anchored :
    ∃ (w w' : Workspace ℚ) (parsed : Parsed) (context : Context) (x y : Element ℚ) (box other : Bounds ℚ), OfTexts w ∧
      Parsed.Clean "e: edge \x7b\n  n: rect \x7b\n    m: rect\n  \x7d\n\x7d\na: rect\nb: rect" w.context parsed context ∧
      (w.document.births ≤ x.birth ∧ x.id = "b" ∧ w'.document.Occupies x box) ∧
      (y.birth < x.birth ∧ y.id = "m" ∧ w'.document.Occupies y other) ∧
      (box.grow Config.standard.minDistance).intersects other = false := by
  let text := "e: edge \x7b\n  n: rect \x7b\n    m: rect\n  \x7d\n\x7d\na: rect\nb: rect"
  let w := Workspace.exact.taking "e: edge \x7b\n  n: rect\n\x7d\na: rect"
  let x : Element ℚ := ⟨"b", 4, .node ⟨"rect", .box 560 450 100 100, "", none⟩, .nil, .nil, none, []⟩
  let y : Element ℚ := ⟨"m", 3, .node ⟨"rect", .box 450 450 100 100, "", none⟩, .nil, .nil, some "n", []⟩
  have texts : OfTexts w := .taking (.empty _ _) (by decide +kernel)
  obtain ⟨parsed, context, clean, given⟩ := exists_applied text w (by decide +kernel)
  obtain ⟨new, there, there'⟩ : w.document.births ≤ x.birth ∧ (w.taking text).document.Occupies x (.box 560 450 100 100) ∧
      (w.taking text).document.Occupies y (.box 450 450 100 100) := by decide +kernel
  refine ⟨w, _, parsed, context, x, y, _, _, texts, clean, ⟨new, rfl, there⟩, ⟨by decide, rfl, there'⟩, ?_⟩
  rcases texts.new_nodes_keep_distance clean given new there (by decide) there' with apart | ⟨middle, _⟩
  · exact apart
  · exact absurd middle (by decide +kernel)

/-- A new node that comes before the others in the text lands on one that is there. -/
theorem OfTexts.new_node_collides :
    ∃ (w w' : Workspace ℚ) (parsed : Parsed) (context : Context) (x y : Element ℚ) (box other : Bounds ℚ), OfTexts w ∧
      Parsed.Clean "b: rect\na: rect" w.context parsed context ∧
      Gives (applyText "b: rect\na: rect") w parsed.errors w' ∧
      (w.document.births ≤ x.birth ∧ w'.document.Occupies x box) ∧
      (w.document.isLive y.handle = true ∧ y.birth < x.birth ∧ w'.document.Occupies y other) ∧
      (box.grow Config.standard.minDistance).intersects other = true ∧ box = other := by
  let w := Workspace.exact.taking "a: rect"
  let node (id : String) (birth : Nat) : Element ℚ :=
    ⟨id, birth, .node ⟨"rect", .box 450 450 100 100, "", none⟩, .nil, .nil, none, []⟩
  have texts : OfTexts w := .taking (.empty _ _) (by decide +kernel)
  obtain ⟨parsed, context, clean, given⟩ := exists_applied "b: rect\na: rect" w (by decide +kernel)
  refine ⟨w, _, parsed, context, node "b" 1, node "a" 0, .box 450 450 100 100, .box 450 450 100 100, texts, clean, given,
    ⟨?_, ?_⟩, ⟨?_, ?_, ?_⟩, ?_, rfl⟩ <;> decide +kernel

end Work
end LiveDiagram
