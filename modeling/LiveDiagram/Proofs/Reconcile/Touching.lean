import LiveDiagram.Proofs.History.Run
import LiveDiagram.Proofs.Reconcile.Frame
import LiveDiagram.Proofs.Reconcile.Labelling

/-! What a pass may touch. It goes through the document by the strides that its sites allow, so all that is still there
is within the frame of the pass. -/
namespace LiveDiagram

variable {α : Type} [Coordinate α]

namespace Reconcile
variable {sites : List Site} {born : Nat} {t : Transaction α} {config : Config α}

theorem treads_visitOne {s : Site} (known : s ∈ sites) {parent : Option Handle} {reference : Option (Bounds α)}
    (older : ∀ h, parent = some h → Older t h) (around : ∀ h, parent = some h → h.id ∈ Site.known sites) :
    Treads sites born t (visitOne config parent reference s.head s.listed) := by
  unfold visitOne
  refine .document ?_
  split
  · refine .bind (treads_create known older around) fun _ _ _ => .bind (.still ?_) fun _ _ _ => .pure
    exact fun _ _ looked => by rw [(Edit.gives_element.1 looked).2]
  · next e found =>
    have own : e.id = s.id := Document.find?_eq_some_id found
    have mine : t.document.find? e.id = some e := own ▸ found
    split
    · next shape name _ content _ _ =>
      have recasts : Recasts s.id t (reviseNode e content s.head shape name) s.head.mergedProps s.head.mergedMetadata :=
        own ▸ recasts_reviseNode
      exact .bind (recasts.treads (walks_reviseNode mine (by simp)) known) fun _ _ _ => .pure
    · next head content =>
      refine .bind (treads_reviseEdge known mine own ?_ head) fun _ _ _ => .pure
      simp [Element.isEdge, Element.kind, content, Content.kind]
    · exact .bind .note fun _ _ _ => .pure

theorem treads_visit {f : Forest} {holder : Option Declaration} (within : ∀ s ∈ f.sites holder, s ∈ sites)
    {parent : Option Handle} {reference : Option (Bounds α)} (older : ∀ h, parent = some h → Older t h)
    (around : ∀ h, parent = some h → h.id ∈ Site.known sites) :
    Treads sites born t (visit config parent reference f) := by
  induction f generalizing t holder parent reference with
  | nil => exact .pure
  | cons d children rest first second =>
    let s : Site := ⟨holder, d, children.roots.map Declaration.id⟩
    have known : s ∈ sites := within s List.mem_cons_self
    have inner : ∀ s ∈ children.sites (some d), s ∈ sites := fun s member =>
      within s (List.mem_cons_of_mem _ (List.mem_append_left _ member))
    have after : ∀ s ∈ rest.sites holder, s ∈ sites := fun s member =>
      within s (List.mem_cons_of_mem _ (List.mem_append_right _ member))
    unfold visit
    refine .andThen (treads_visitOne (s := s) known older around) fun o u consistent _ consistent' visited => ?_
    have steps : Steps ⟨true, false⟩ t u := walks_visitOne older (by simp) consistent _ _ visited
    have older' := fun h same => (older h same).steps steps
    cases o with
    | none => exact second after older' around
    | some handle =>
      obtain ⟨mine, named⟩ := handle_visitOne older consistent visited
      have below : ∀ h, some handle = some h → Older u h := by
        rintro _ ⟨⟩
        exact mine
      refine .document (.andThen (first inner below ?_) fun _ v _ _ _ went => second after ?_ around)
      · rintro _ ⟨⟩
        exact named ▸ List.mem_map_of_mem known
      · have steps' : Steps ⟨true, false⟩ u v := walks_visit below (by simp) consistent' _ _ went
        exact fun h same => (older' h same).steps steps'

/-- What is topmost and without a site leaves, one after the other. -/
theorem treads_removeOthers {ids : List String} (all : ∀ x ∈ Site.known sites, x ∈ ids) :
    Treads sites born t (removeOthers ids) := by
  unfold removeOthers
  refine .document fun consistent younger _ t' given => ?_
  have went : Strides sites born t.document t'.document ∧ Edit.Stays t t' := by
    refine given.forM (fun u => Strides sites born t.document u.document ∧ Edit.Stays t u) ⟨.refl, .refl t⟩ ?_
    rintro id member u u' ⟨strides, stays⟩ round
    obtain ⟨topmost, other⟩ := List.mem_filter.1 member
    obtain ⟨_, v, noted, removed⟩ := gives_bind.1 round
    have same : v.document = u.document := by rw [Edit.gives_note.1 noted]
    rw [← same] at strides
    have consistent' := strides.consistent consistent
    have swept := Edit.remove_swept consistent' removed
    have alone : v.document.parentOf id = none := by
      have there : u.document.contains id = true := same ▸ swept.there id (List.mem_singleton.2 rfl)
      rw [same, (stays id there).2]
      exact ((consistent.mem_top id).1 topmost).2.1
    have clears : Treads sites born v (Edit.remove id) := by
      refine .stroke .remove fun consistent _ _ removed => ?_
      refine .clear [id] _ ⟨Edit.remove_swept consistent removed, .inl fun r root => ?_⟩
      cases List.mem_singleton.1 root
      exact ⟨alone, fun known => by simp [all id known] at other⟩
    refine ⟨strides.trans (clears consistent' (Nat.le_trans younger strides.births_le) _ _ removed), ?_⟩
    have away : Edit.Stays v u' := Edit.stays_remove consistent' removed
    unfold Edit.Stays at away
    rw [same] at away
    exact stays.trans away
  exact went.1

/-- The edits of a pass before its end, as the strides that the sites of its forest allow. -/
theorem treads_pass {f : Forest} :
    Treads (f.sites none) born t (do removeOthers (f.linesById.map Prod.fst); visit config none none f) := by
  have all (x : String) (known : x ∈ Site.known (f.sites none)) : x ∈ f.linesById.map Prod.fst :=
    Forest.mem_linesById.2 (f.ids_sites none ▸ known)
  exact .bind (treads_removeOthers all) fun _ _ _ => treads_visit (fun _ => id) (by simp) (by simp)

end Reconcile

/-- A pass that returns has removed what its forest leaves out, and then visited its declarations. -/
theorem Work.visits_of_reconcile {config : Config α} {f : Forest} {w w' : Workspace α} {outcome : Outcome}
    (given : Gives (Work.reconcile config f) w outcome w') : ∃ u v reference,
      Gives (Reconcile.removeOthers (f.linesById.map Prod.fst)) ⟨w.document, .opened α true, w.context⟩ () u ∧
      Gives (Reconcile.visit config none none f) u reference v ∧ Document.SameContent w'.document v.document := by
  simp only [Work.reconcile, gives_bind, Work.gives_transact, Work.change, Work.note, gives_modify, gives_pure,
    Reconcile.pass, gives_discard] at given
  obtain ⟨diff, _, ⟨t, ⟨_, u, removed, _, v, ⟨_, visited⟩, committed⟩, rfl⟩, _, _, rfl, _, _, rfl, rfl, rfl⟩ := given
  obtain ⟨_, _, told⟩ := Edit.gives_commit committed
  have same : Document.SameContent (Reconcile.conclude diff t.document) t.document := Reconcile.conclude_same
  refine ⟨u, v, _, removed, visited, same.1.trans ?_, same.2.trans ?_, same.3.trans ?_, same.4.trans ?_⟩ <;>
    rw [told] <;> rfl

/-- A pass that returns has taken the strides that the sites of its forest allow. -/
theorem Work.strides_reconcile {config : Config α} {f : Forest} {w w' : Workspace α} {outcome : Outcome}
    (consistent : w.document.Consistent) (given : Gives (Work.reconcile config f) w outcome w') :
    ∃ c, Strides (f.sites none) w.document.births w.document c ∧ Document.SameContent w'.document c := by
  obtain ⟨u, v, reference, removed, visited, same⟩ := Work.visits_of_reconcile given
  refine ⟨v.document, ?_, same⟩
  exact Reconcile.treads_pass (t := ⟨w.document, .opened α true, w.context⟩) consistent (Nat.le_refl _) _ v
    (gives_bind.2 ⟨_, u, removed, visited⟩)

/-- An end as recorded that has come free in its place, if its node is among those that are gone. -/
def EndpointState.freed (gone : List String) (p : EndpointState α) : EndpointState α :=
  if p.link.any fun link => gone.contains link.1 then { p with link := none } else p

/-- A state with its ends at nodes that are gone free in their place. -/
def Snapshot.freed (gone : List String) (s : Snapshot α) : Snapshot α :=
  match s.content with
  | .node _ => s
  | .edge start stop => { s with content := .edge (start.freed gone) (stop.freed gone) }

/-- A state with another text, if it is of a node and one is given. -/
def Snapshot.retext (text : Option String) (s : Snapshot α) : Snapshot α :=
  match text, s.content with
  | some text, .node content => { s with content := .node { content with text := text } }
  | _, _ => s

namespace Framed
variable {sites : List Site} {d c : Document α} {x : String}

theorem stateOfEnd (framed : Framed sites d c) {p : Endpoint α} (fits : d.Fits p) :
    c.stateOfEnd (d.release (d.departed c) p) = (d.stateOfEnd p).freed (d.departed c) := by
  cases p with
  | free position => rfl
  | stranded => exact fits.elim
  | connected node anchor =>
    by_cases gone : node ∈ d.departed c
    · simp [Document.release, EndpointState.freed, Document.stateOfEnd, Endpoint.link?, gone, Document.positionOf]
    · have kept : d.keeps c node = true := by
        by_contra lost
        exact gone (Document.mem_departed.2 ⟨Document.contains_of_node? fits, Bool.eq_false_of_not_eq_true lost⟩)
      have center : c.positionOf (.connected node anchor) = d.positionOf (.connected node anchor) := by
        rw [Document.positionOf_connected, Document.positionOf_connected, framed.boxOf kept]
      simp [Document.release, EndpointState.freed, Document.stateOfEnd, Endpoint.link?, gone, center]

/-- An element without a site has its state from before, but for free ends and the text of a label. -/
theorem state? (framed : Framed sites d c) (consistent : d.Consistent) (kept : d.keeps c x = true)
    (unknown : x ∉ Site.known sites) : ∃ e text, d.find? x = some e ∧
      c.state? x = some (((d.snapshot e).freed (d.departed c)).retext text) ∧
      ∀ t, text = some t → Site.Relabels sites d e t := by
  obtain ⟨e, e', found, found', birth⟩ := Document.keeps_iff.1 kept
  have named := Document.find?_eq_some_id found
  obtain ⟨text, same, relabels⟩ := (framed.lasting x e e' found found' birth).apart (named ▸ unknown)
  have fits (relation : Relation) (p : Endpoint α) (ending : e.end? relation = some p) : d.Fits p :=
    consistent.end_fits relation x p (Document.endOf_eq_some.2 ⟨e, found, ending⟩)
  refine ⟨e, text, found, ?_, relabels⟩
  rw [Document.state?_of_find? found', same]
  obtain ⟨_, _, content, _, _, _, _⟩ := e
  cases content with
  | node content => cases text <;> rfl
  | edge start stop =>
    have first := framed.stateOfEnd (fits .start start rfl)
    have second := framed.stateOfEnd (fits .stop stop rfl)
    cases text <;> simp [Element.mapEnds, Element.retext, Element.mapNode, Document.snapshot, Snapshot.freed,
      Snapshot.retext, first, second]

end Framed

/-- What a pass that returns may touch. It removes an element only below a topmost one without a declaration, or below a
label that its edge does not list; whatever is still there has its kind, its place among its siblings and the box of its
node. An element without a declaration has all of its state, but that its ends at nodes that left are free where they
were, and that the one unlisted label of an edge may have the text that a declaration of the edge gives. -/
theorem Work.reconcile_touches {config : Config α} {f : Forest} {d : Document α} {context : Context}
    {outcome : Outcome} {w : Workspace α} (consistent : d.Consistent)
    (given : Gives (Work.reconcile config f) ⟨d, context⟩ outcome w) :
    (∀ x, d.contains x = true → d.keeps w.document x = false → Site.Removable (f.sites none) d x) ∧
      (∀ x e e', d.find? x = some e → w.document.find? x = some e' → e'.birth = e.birth →
        e'.kind = e.kind ∧ e'.parent = e.parent ∧ e'.box? = e.box?) ∧
      (w.document.top.filter (d.keeps w.document) = d.top.filter (d.keeps w.document) ∧
        (∀ x p, d.keeps w.document x = true → d.parentOf x = some p → d.keeps w.document p = true) ∧
        ∀ p, d.keeps w.document p = true →
          (w.document.childIds p).filter (d.keeps w.document) = (d.childIds p).filter (d.keeps w.document)) ∧
      ∀ x, d.keeps w.document x = true → x ∉ f.preorder.map Declaration.id → ∃ e text, d.find? x = some e ∧
        w.document.state? x = some (((d.snapshot e).freed (d.departed w.document)).retext text) ∧
        ∀ t, text = some t → Site.Relabels (f.sites none) d e t := by
  obtain ⟨c, strides, same⟩ := Work.strides_reconcile consistent given
  have known : Site.known (f.sites none) = f.preorder.map Declaration.id := f.ids_sites none
  have listed (s : Site) (member : s ∈ f.sites none) (x : String) (inside : x ∈ s.listed) :
      x ∈ Site.known (f.sites none) := known ▸ Forest.listed_subset member inside
  have framed := Framed.strides consistent listed strides
  have found (x : String) : w.document.find? x = c.find? x := Document.find?_of_same same.elements x
  have keeps : d.keeps w.document = d.keeps c := Document.keeps_congr fun x => by rw [found]
  have departed : d.departed w.document = d.departed c := by
    unfold Document.departed
    rw [keeps]
  rw [keeps, departed, same.top]
  refine ⟨framed.gone, fun x e e' former found' birth => ?_, ⟨framed.top, framed.upward, fun p kept => ?_⟩, fun x kept unknown => ?_⟩
  · have lasts := framed.lasting x e e' former (found x ▸ found') birth
    exact ⟨lasts.kind, lasts.parent, lasts.box⟩
  · unfold Document.childIds
    rw [found]
    exact framed.children p kept
  · rw [Document.state?_of_same found]
    exact framed.state? consistent kept (known ▸ unknown)

/-- A pass that leaves out a node removes it and frees the end there of an edge that it leaves out too, and gives the one
label of another edge its text. -/
theorem Work.reconcile_touches_edges :
    ∃ (config : Config Quantity) (f : Forest) (d : Document Quantity) (context : Context) (outcome : Outcome)
      (w : Workspace Quantity), Gives (Work.reconcile config f) ⟨d, context⟩ outcome w ∧
      f.preorder.map Declaration.id = ["a", "e"] ∧ d.top = ["b", "a", "e"] ∧ w.document.top = ["a", "e"] ∧
      Site.Removable (f.sites none) d "b" ∧ (d.state? "k").any (fun s => s.freed ["b"] ≠ s) = true ∧
      (∃ e text, d.find? "k" = some e ∧ w.document.state? "k" = some (((d.snapshot e).freed ["b"]).retext text)) ∧
      ∃ e t, d.find? "*" = some e ∧ Site.Relabels (f.sites none) d e t ∧
        w.document.state? "*" = some (((d.snapshot e).freed ["b"]).retext (some t)) := by
  let b : Declaration := ⟨"b", 1, .node "rect" none none, none, none, none⟩
  let a : Declaration := ⟨"a", 2, .node "rect" none none, none, none, none⟩
  let k : Declaration := ⟨"k", 3, .edge (some "b") (some "a") none, none, none, none⟩
  let e (text : String) : Declaration := ⟨"e", 4, .edge (some "a") none (some text), none, none, none⟩
  let f₁ : Forest := .cons b .nil (.cons a (.cons k .nil .nil) (.cons (e "old") .nil .nil))
  let f₂ : Forest := .cons a .nil (.cons (e "new") .nil .nil)
  let d : Document Quantity := Document.empty Document.page
  let v := ((Work.reconcile .standard f₁).run ⟨d, ⟨⟨fun _ => "*", 0⟩, []⟩⟩).2
  let w := ((Work.reconcile .standard f₂).run ⟨v.document, v.context⟩).2
  obtain ⟨_, first, _⟩ : ∃ o, Gives (Work.reconcile .standard f₁) ⟨d, _⟩ o v ∧ _ :=
    exists_gives (fun _ => true) (by decide +kernel)
  obtain ⟨o, second, _⟩ : ∃ o, Gives (Work.reconcile .standard f₂) ⟨v.document, v.context⟩ o w ∧ _ :=
    exists_gives (fun _ => true) (by decide +kernel)
  have consistent : v.document.Consistent := by
    have bare : d.Consistent := Document.consistent_empty Document.page
    obtain ⟨c, strides, same⟩ := Work.strides_reconcile bare first
    exact (strides.consistent bare).of_same same
  obtain ⟨gone, _, _, rest⟩ := Work.reconcile_touches consistent second
  have departed : v.document.departed w.document = ["b"] := by decide +kernel
  rw [departed] at rest
  refine ⟨.standard, f₂, v.document, v.context, o, w, second, by decide, by decide +kernel, by decide +kernel, ?_,
    by decide +kernel, ?_, ?_⟩
  · exact gone "b" (by decide +kernel) (by decide +kernel)
  · obtain ⟨p, text, found, after, _⟩ := rest "k" (by decide +kernel) (by decide)
    exact ⟨p, text, found, after⟩
  · obtain ⟨p, text, found, after, relabels⟩ := rest "*" (by decide +kernel) (by decide)
    cases text with
    | none =>
      have other : w.document.state? "*" ≠ (v.document.state? "*").map (Snapshot.freed ["b"]) := by decide +kernel
      rw [after, Document.state?_of_find? found] at other
      exact (other rfl).elim
    | some t => exact ⟨p, t, found, relabels t rfl, after⟩

end LiveDiagram
