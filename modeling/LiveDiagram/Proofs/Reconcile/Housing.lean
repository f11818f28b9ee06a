import LiveDiagram.Proofs.Reconcile.Labelling

/-! The room that nodes take, and how a pass gives it to new ones. Nodes that are no labels lie where they lay; labels
stay labels; and the visit of a declaration houses no other node than the one it creates. -/
namespace LiveDiagram

variable {α : Type}

namespace Document

/-- A node in the document that is no label, and the box that it takes. -/
def Occupies (d : Document α) (e : Element α) (box : Bounds α) : Prop :=
  d.find? e.id = some e ∧ e.box? = some box ∧ d.isLabel e = false

/-- Another document has room taken by the same nodes, less some that are gone, and by new ones as `new` says. -/
structure Admits (new : String → Bounds α → Prop) (d d' : Document α) : Prop where
  births : d.births ≤ d'.births
  occupied : ∀ e' box, d'.Occupies e' box → (d.births ≤ e'.birth ∧ new e'.id box) ∨
    ∃ e, d.Occupies e box ∧ e.id = e'.id ∧ e.birth = e'.birth ∧ e.parent = e'.parent

variable {d c d' : Document α} {new : String → Bounds α → Prop} {e : Element α}

theorem isLabel_eq_false_iff : d.isLabel e = false ↔
    ∀ p, e.isLabelled = true → e.parent = some p → ¬ d.IsEdge p := by
  unfold isLabel IsEdge
  cases e.isLabelled <;> cases e.parent <;> simp [Option.any_eq_false]

theorem IsEdge.enter {parent : Option String} {p : String} (edge : d.IsEdge p) (absent : d.contains e.id = false)
    (topmost : e.parent = none) (childless : e.children = [])
    (held : ∀ q, parent = some q → d.contains q = true) : (d.enter e parent).IsEdge p := by
  obtain ⟨q, there, isEdge⟩ := edge
  have other : p ≠ e.id := ne_of_contains (contains_of_find? there) absent
  exact ⟨_, (find?_enter absent topmost childless held).trans ((if_neg other).trans (congrArg _ there)), isEdge⟩

theorem IsEdge.cleared [Coordinate α] {ids : List String} {p : String} (edge : d.IsEdge p) (cleared : d.Cleared ids d')
    (there : d'.contains p = true) : d'.IsEdge p := by
  obtain ⟨q, found, isEdge⟩ := edge
  obtain ⟨q', found'⟩ := contains_iff_find?.1 there
  rw [cleared, found] at found'
  split at found'
  · cases found'
  · next stays =>
    refine ⟨_, (cleared p).trans ((if_neg stays).trans (congrArg _ found)), ?_⟩
    rwa [Element.isEdge, kind_bereft]

namespace Admits

theorem refl (d : Document α) : d.Admits new d :=
  ⟨Nat.le_refl _, fun e _ there => .inr ⟨e, there, rfl, rfl, rfl⟩⟩

theorem trans (first : d.Admits new c) (second : c.Admits new d') : d.Admits new d' where
  births := Nat.le_trans first.births second.births
  occupied e' box there := by
    rcases second.occupied e' box there with ⟨young, own⟩ | ⟨e, between, id, birth, parent⟩
    · exact .inl ⟨Nat.le_trans first.births young, own⟩
    · rw [← id, ← birth, ← parent]
      exact first.occupied e box between

/-- Elements that keep their boxes and stay labels take no room that was not taken. -/
theorem of_former (births : d.births ≤ d'.births)
    (edges : ∀ x p, d'.parentOf x = some p → d.IsEdge p → d'.IsEdge p)
    (former : ∀ x e', d'.find? x = some e' → (d.births ≤ e'.birth ∧ ∀ box, e'.box? = some box → new x box) ∨
      ∃ e, d.find? x = some e ∧ e.birth = e'.birth ∧ e.parent = e'.parent ∧ e.box? = e'.box? ∧
        (e.isLabelled = true → e'.isLabelled = true)) : d.Admits new d' where
  births := births
  occupied e' box there := by
    obtain ⟨found', boxed, unlabelled⟩ := there
    rcases former _ e' found' with ⟨young, own⟩ | ⟨e, found, birth, parent, same, labelled⟩
    · exact .inl ⟨young, own box boxed⟩
    · have named := find?_eq_some_id found
      refine .inr ⟨e, ⟨named ▸ found, same.trans boxed, isLabel_eq_false_iff.2 fun p label around edge => ?_⟩,
        named, birth, parent⟩
      have around' : e'.parent = some p := parent ▸ around
      exact isLabel_eq_false_iff.1 unlabelled p (labelled label) around'
        (edges _ p (parentOf_eq_some.2 ⟨e', found', around'⟩) edge)

theorem of_changes {id : String} {change : Element α → Element α} (keeps : Element.KeepsPlace change)
    (box : ∀ e, (change e).box? = e.box?) (labelled : ∀ e, e.isLabelled = true → (change e).isLabelled = true)
    (changes : d.Changes id change d') : d.Admits new d' := by
  refine .of_former (Nat.le_of_eq changes.births.symm) (fun _ p _ => changes.isEdge keeps) fun x e' found => .inr ?_
  rw [changes.find?] at found
  split at found
  · obtain ⟨e, former, rfl⟩ := Option.map_eq_some_iff.1 found
    exact ⟨e, former, congrArg Handle.birth (keeps.handle e).symm, (keeps.parent e).symm, (box e).symm, labelled e⟩
  · exact ⟨e', found, rfl, rfl, rfl, fun label => label⟩

/-- A new element takes room if it is a node. -/
theorem of_enter {parent : Option String} (absent : d.contains e.id = false) (topmost : e.parent = none)
    (childless : e.children = []) (held : ∀ p, parent = some p → d.contains p = true)
    (own : ∀ box, e.box? = some box → new e.id box) : d.Admits new (d.enter e parent) := by
  refine .of_former (births_enter ▸ Nat.le_succ _) (fun _ _ _ edge => edge.enter absent topmost childless held)
    fun x e' found => ?_
  rw [find?_enter absent topmost childless held] at found
  split at found
  · next same =>
    cases found
    exact .inl ⟨Nat.le_refl _, same ▸ own⟩
  · obtain ⟨p, former, rfl⟩ := Option.map_eq_some_iff.1 found
    exact .inr ⟨p, former, rfl, rfl, rfl, fun label => label⟩

theorem of_cleared [Coordinate α] {ids : List String} (consistent' : d'.Consistent) (births : d.births ≤ d'.births)
    (cleared : d.Cleared ids d') : d.Admits new d' := by
  refine .of_former births (fun x p nested edge => edge.cleared cleared (consistent'.contains_parent nested))
    fun x e' found => .inr ?_
  rw [cleared] at found
  split at found
  · cases found
  · obtain ⟨e, former, rfl⟩ := Option.map_eq_some_iff.1 found
    exact ⟨e, former, congrArg Handle.birth (handle_bereft e).symm, (parent_bereft e).symm, (box?_bereft e).symm,
      fun label => (isLabelled_bereft e).trans label⟩

/-- It is what takes room in the end that counts. -/
theorem mono {new' : String → Bounds α → Prop} (admits : d.Admits new d')
    (fewer : ∀ e' box, d'.Occupies e' box → new e'.id box → new' e'.id box) : d.Admits new' d' where
  births := admits.births
  occupied e' box there := (admits.occupied e' box there).imp_left fun ⟨young, own⟩ => ⟨young, fewer e' box there own⟩

end Admits
end Document

/-- From a consistent document the edit houses new nodes as `new` says and no others, wherever it ends without a fault. -/
def Houses {β : Type} (new : String → Bounds α → Prop) (t : Transaction α) (e : Edit α β) : Prop :=
  t.document.Consistent → ∀ b t', Gives e t b t' → t.document.Admits new t'.document

namespace Houses
variable {β γ : Type} {new : String → Bounds α → Prop} {t : Transaction α}

/-- An edit that leaves the document as it is. -/
theorem still {e : Edit α β} (same : ∀ b t', Gives e t b t' → t'.document = t.document) : Houses new t e :=
  fun _ b t' given => same b t' given ▸ .refl _

variable [Coordinate α]

theorem andThen {e : Edit α β} {f : β → Edit α γ} (walks : Walks ⟨true, false⟩ t e) (first : Houses new t e)
    (rest : ∀ b u, t.document.Consistent → u.document.Consistent → Gives e t b u → Houses new u (f b)) :
    Houses new t (e >>= f) := by
  intro consistent c t' given
  obtain ⟨b, u, early, late⟩ := gives_bind.1 given
  have consistent' := consistent.steps (walks consistent b u early)
  exact (first consistent b u early).trans (rest b u consistent consistent' early consistent' c t' late)

omit [Coordinate α] in
theorem discard {e : Edit α β} (houses : Houses new t e) : Houses new t (Functor.discard e) := by
  intro consistent _ t' given
  obtain ⟨b, given⟩ := gives_discard.1 given
  exact houses consistent b t' given

omit [Coordinate α] in
theorem revises {e : Edit α β} {id : String} (revises : Revises id t e) : Houses new t e := by
  intro _ b t' given
  obtain ⟨change, keeps, changes⟩ := revises b t' given
  exact .of_changes keeps.toKeepsPlace keeps.box (fun e label => (keeps.labelled e).trans label) changes

theorem remove {id : String} : Houses new t (Edit.remove id) := by
  intro consistent _ _ given
  obtain ⟨_, steps, cleared, _⟩ := Edit.remove_steps ⟨true, false⟩ consistent given
  exact .of_cleared (consistent.steps steps) steps.births_le cleared

theorem forM {f : γ → Edit α PUnit} {xs : List γ} (walks : ∀ x u, Walks ⟨true, false⟩ u (f x))
    (houses : ∀ x u, Houses new u (f x)) : Houses new t (xs.forM f) := by
  intro consistent _ t' given
  have went := given.forM (fun u => u.document.Consistent ∧ t.document.Admits new u.document)
    ⟨consistent, .refl _⟩ ?_
  · exact went.2
  · rintro x _ u v ⟨consistent, admits⟩ once
    exact ⟨consistent.steps (walks x u consistent _ _ once), admits.trans (houses x u consistent _ _ once)⟩

end Houses

namespace Reconcile
variable [Coordinate α] {new : String → Bounds α → Prop} {t u v : Transaction α} {config : Config α} {s : Site}

/-- An edit that brings in a new element houses it if it is a node; edges stay edges. -/
theorem admits_inserted {id : String} {content : Content α} {props metadata : Props} {parent : Option Handle}
    (consistent : t.document.Consistent)
    (fits : ∀ relation p, (Element.new id content props metadata).end? relation = some p → t.document.Fits p)
    (older : ∀ h, parent = some h → Older t h)
    (inserted : Gives (Edit.insert (.new id content props metadata) parent) t () u)
    (own : ∀ box, (Element.new id content props metadata).box? = some box → new id box) :
    t.document.Admits new u.document ∧ ∀ x, t.document.IsEdge x → u.document.IsEdge x := by
  obtain ⟨absent, live, entered, _⟩ :=
    Edit.insert_steps ⟨true, false⟩ consistent rfl rfl fits older (by simp) inserted
  have held : ∀ p, parent.map Handle.id = some p → t.document.contains p = true := by
    intro p same
    obtain ⟨h, held, rfl⟩ := Option.map_eq_some_iff.1 same
    exact Document.contains_iff_mem.2 (List.mem_map_of_mem (Document.isLive_iff.1 (live h held)))
  rw [entered]
  exact ⟨.of_enter absent rfl rfl held own, fun x edge => edge.enter absent rfl rfl held⟩

/-- A node that comes in as the label of an edge takes no room. -/
theorem admits_label {id : String} {content : NodeContent α} {props metadata : Props} {holder : Handle}
    {label : LabelPlacement α} (consistent : t.document.Consistent) (older : Older t holder)
    (edge : u.document.IsEdge holder.id)
    (inserted : Gives (Edit.insert (.new id (.node content) props metadata) (some holder)) t () u)
    (marked : Gives (Edit.markLabel holder.id id label) u () v) : t.document.Admits new v.document := by
  have older : ∀ h, some holder = some h → Older t h := by
    rintro _ ⟨⟩
    exact older
  have found := newcomer consistent (by simp [end?_new_node]) older inserted
  have changes := Edit.changes_markLabel (Document.parentOf_eq_some.2 ⟨_, found, rfl⟩) marked
  have entered : t.document.Admits (fun x _ => x = id) u.document :=
    (admits_inserted consistent (by simp [end?_new_node]) older inserted fun _ _ => rfl).1
  have relabelled : u.document.Admits (fun x _ => x = id) v.document := by
    refine .of_changes Element.keepsPlace_mapNode (fun e => ?_) (fun e _ => ?_) changes
    · rcases e with ⟨_, _, content, _, _, _, _⟩
      cases content <;> rfl
    · rcases e with ⟨_, _, content, _, _, _, _⟩
      cases content <;> simp_all [Element.isLabelled, Element.mapNode, Content.label?]
  refine (entered.trans relabelled).mono fun e' box there same => ?_
  obtain ⟨there, _, unlabelled⟩ := there
  rw [same, changes.find?, if_pos rfl, found] at there
  cases there
  exact (Document.isLabel_eq_false_iff.1 unlabelled holder.id rfl rfl
    (changes.isEdge Element.keepsPlace_mapNode edge)).elim

/-- The edge has to be there when its label comes in. -/
theorem houses_freshLabel {holder : Handle} {content : NodeContent α} {label : LabelPlacement α}
    (older : Older t holder) (edge : t.document.isLive holder = true → t.document.IsEdge holder.id) :
    Houses new t (freshLabel holder holder.id content label) := by
  intro consistent _ t' given
  simp only [freshLabel, gives_bind, gives_pure] at given
  obtain ⟨id, u, drawn, _, v, inserted, _, _, marked, _, rfl⟩ := given
  obtain ⟨steps, same⟩ := Edit.freshId_steps ⟨true, false⟩ drawn
  have older : ∀ h, some holder = some h → Older u h := by
    rintro _ ⟨⟩
    exact older.steps steps
  rw [← same] at consistent edge ⊢
  obtain ⟨_, live, _⟩ := Edit.insert_steps ⟨true, false⟩ consistent rfl rfl (by simp [end?_new_node]) older (by simp) inserted
  have entered : u.document.Admits (fun _ _ => True) v.document ∧ ∀ x, u.document.IsEdge x → v.document.IsEdge x :=
    admits_inserted consistent (by simp [end?_new_node]) older inserted fun _ _ => trivial
  exact admits_label consistent (older holder rfl) (entered.2 _ (edge (live holder rfl))) inserted marked

theorem houses_removeLabels {labels : List (Element α)} :
    Houses new t (labels.forM fun label => Edit.remove label.id) :=
  .forM (fun _ _ => .remove) fun _ _ => .remove

theorem houses_putLabel {e : Element α} {text : String} {keep : List String} (found : t.document.find? s.id = some e)
    (isEdge : e.isEdge = true) (same : ∀ e ∈ t.document.labelsOf s.id, e.id ∈ keep ↔ e.id ∈ s.listed) :
    Houses new t (Edit.putLabel config s.id text keep) := by
  intro consistent b t' put
  have named : e.handle.id = s.id := Document.find?_eq_some_id found
  rw [gives_putLabel found isEdge same] at put
  by_cases lone : ∃ label, t.document.inlineLabels s = [label]
  · obtain ⟨label, alone⟩ := lone
    rw [alone] at put
    obtain ⟨_, u, changed, done⟩ := gives_bind.1 put
    obtain ⟨_, rfl⟩ := gives_pure.1 done
    exact Houses.revises reshapes_putText.revises consistent _ _ changed
  · rw [gives_relabel consistent same fun label alone => lone ⟨label, alone⟩, ← named] at put
    obtain ⟨u, removed, fresh⟩ := put
    have steps := (Edit.removeAll_steps ⟨true, false⟩ consistent removed).1
    obtain ⟨ids, swept⟩ := Edit.removeAll_swept consistent removed
    refine (houses_removeLabels consistent _ _ removed).trans
      (houses_freshLabel ((older_of_find? consistent found).steps steps) (fun live => ?_) (consistent.steps steps) _ _ fresh)
    have edge : t.document.IsEdge e.handle.id := ⟨e, named ▸ found, isEdge⟩
    exact edge.cleared swept.cleared (Document.contains_iff_mem.2 (List.mem_map_of_mem (Document.isLive_iff.1 live)))

theorem houses_reviseEdge {e : Element α} (found : t.document.find? e.id = some e) (own : e.id = s.id)
    (isEdge : e.isEdge = true) {source target label : Option String} :
    Houses new t (reviseEdge config e s.head source target label s.listed) := by
  rw [reviseEdge_eq, own]
  refine .andThen (walks_redraw found (by simp)) (.revises revises_redraw) fun _ u _ _ given => ?_
  cases label with
  | none => exact fun consistent _ _ given => houses_removeLabels consistent _ _ ((gives_dropLabels consistent).1 given)
  | some text =>
    obtain ⟨change, keeps, changes⟩ := revises_redraw _ _ given
    obtain ⟨p, there, edge⟩ := changes.isEdge keeps.toKeepsPlace ⟨e, found, isEdge⟩
    exact .discard (houses_putLabel (own ▸ there) edge fun _ _ => Iff.rfl)

/-- The room that a new node of a declaration takes. -/
def Room (config : Config α) (d : Document α) (reference : Option (Bounds α)) (s : Site) (x : String) (box : Bounds α) :
    Prop :=
  x = s.id ∧ box = newBounds config d reference

theorem houses_create {parent : Option Handle} {reference : Option (Bounds α)} (older : ∀ h, parent = some h → Older t h) :
    Houses (Room config t.document reference s) t (create config parent reference s.head) := by
  intro consistent _ t' given
  obtain ⟨_, u, noted, given⟩ := gives_bind.1 given
  have same : u.document = t.document := by rw [Edit.gives_note.1 noted]
  have older : ∀ h, parent = some h → Older u h := by
    unfold Older
    rwa [same]
  rw [← same] at consistent ⊢
  cases head : s.head.head with
  | node shape name textStyle =>
    simp only [head, gives_bind, Edit.gives_document] at given
    obtain ⟨_, _, ⟨rfl, rfl⟩, _, v, inserted, given⟩ := given
    have houses : u.document.Admits (Room config u.document reference s) v.document := by
      refine (admits_inserted consistent (by simp [end?_new_node]) older inserted fun box own => ?_).1
      exact ⟨rfl, (Option.some.inj own).symm⟩
    cases parent with
    | none => exact (gives_pure.1 given).2 ▸ houses
    | some holder =>
      obtain ⟨_, _, looked, given⟩ := gives_bind.1 given
      obtain ⟨rfl, rfl⟩ := Edit.gives_document.1 looked
      split at given
      · next edge =>
        obtain ⟨q, found, isEdge⟩ := Option.any_eq_true _ _ |>.1 edge
        exact admits_label consistent (older holder rfl) ⟨q, found, isEdge⟩ inserted given
      · exact (gives_pure.1 given).2 ▸ houses
  | edge source target label =>
    simp only [head, gives_bind] at given
    obtain ⟨start, v, started, stop, w, stopped, _, x, inserted, given⟩ := given
    obtain ⟨same', steps, ends⟩ := newEnds_fit ⟨true, false⟩ started stopped
    have older := fun h same => (older h same).steps steps
    rw [← same'] at consistent ⊢
    have houses : w.document.Admits (Room config w.document reference s) x.document :=
      (admits_inserted consistent ends older inserted fun _ none => by cases none).1
    have found := newcomer consistent ends older inserted
    have entering : Steps ⟨true, false⟩ w x := walks_insert ends older (by simp) consistent _ _ inserted
    cases label with
    | none => exact (gives_pure.1 given).2 ▸ houses
    | some text =>
      have bare : x.document.labelsOf s.id = [] := Document.labelsOf_of_childless found rfl
      exact houses.trans (Houses.discard (houses_putLabel found rfl (by simp [bare])) (consistent.steps entering) _ _ given)

/-- The visit of a declaration houses the node that it creates, if it creates one, and no other. -/
theorem houses_visitOne {parent : Option Handle} {reference : Option (Bounds α)} (older : ∀ h, parent = some h → Older t h) :
    Houses (Room config t.document reference s) t (visitOne config parent reference s.head s.listed) := by
  intro consistent _ t' given
  simp only [visitOne, gives_bind, Edit.gives_document] at given
  obtain ⟨_, _, ⟨rfl, rfl⟩, given⟩ := given
  split at given
  · simp only [gives_bind, Edit.gives_element, gives_pure] at given
    obtain ⟨_, u, created, _, _, ⟨_, rfl⟩, _, rfl⟩ := given
    exact houses_create older consistent _ _ created
  · next e found =>
    have own : e.id = s.id := Document.find?_eq_some_id found
    split at given
    · simp only [gives_bind, gives_pure] at given
      obtain ⟨_, _, revised, _, rfl⟩ := given
      exact Houses.revises revises_reviseNode consistent _ _ revised
    · next content =>
      simp only [gives_bind, gives_pure] at given
      obtain ⟨_, _, revised, _, rfl⟩ := given
      have isEdge : e.isEdge = true := by simp [Element.isEdge, Element.kind, content, Content.kind]
      exact houses_reviseEdge (own ▸ found) own isEdge consistent _ _ revised
    · simp only [gives_bind, gives_pure, Edit.gives_note] at given
      obtain ⟨_, _, rfl, _, rfl⟩ := given
      exact .refl _

theorem houses_removeOthers {ids : List String} : Houses new t (removeOthers ids) := by
  intro consistent _ t' given
  obtain ⟨_, _, looked, given⟩ := gives_bind.1 given
  obtain ⟨rfl, rfl⟩ := Edit.gives_document.1 looked
  have walks (id : String) (u : Transaction α) : Walks ⟨true, false⟩ u (do Edit.note (.removing id); Edit.remove id) :=
    .bind .note fun _ _ _ => .remove
  refine Houses.forM walks (fun id u => ?_) consistent _ _ given
  refine .andThen .note (.still fun _ _ noted => by rw [Edit.gives_note.1 noted]) fun _ _ _ _ _ => .remove

end Reconcile
end LiveDiagram
