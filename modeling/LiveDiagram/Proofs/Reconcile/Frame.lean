import LiveDiagram.Proofs.Reconcile.Strides

/-! The frame of a pass. However its strides follow each other, an element that is still the one from before has its
place and its kind, and one without a site has all of its state but for ends at nodes that left and the text of a label. -/
namespace LiveDiagram

variable {α : Type}

namespace Element
variable {e : Element α} {text : Option String}

theorem keepsBuild_retext : KeepsBuild (Element.retext (α := α) text) := by
  cases text with
  | none => exact ⟨⟨fun _ => rfl, fun _ => rfl, fun _ => rfl, fun _ => rfl⟩, fun _ => rfl, fun _ => rfl⟩
  | some text => exact .mapNode (fun _ => rfl) fun _ => rfl

theorem retext_retext {first second : Option String} :
    (e.retext first).retext second = e.retext (second.or first) := by
  obtain ⟨_, _, content, _, _, _, _⟩ := e
  cases first <;> cases second <;> cases content <;> rfl

theorem entries_retext : ((e.retext text).props, (e.retext text).metadata) = (e.props, e.metadata) := by
  obtain ⟨_, _, content, _, _, _, _⟩ := e
  cases text <;> cases content <;> rfl

theorem mapEnds_retext {f : Endpoint α → Endpoint α} : (e.retext text).mapEnds f = (e.mapEnds f).retext text := by
  obtain ⟨_, _, content, _, _, _, _⟩ := e
  cases text <;> cases content <;> rfl

end Element

namespace Document
variable {d c c' : Document α} {x : String}

/-- Whether an id leads to the element that it led to before. -/
def keeps (d c : Document α) (x : String) : Bool :=
  (d.find? x).any fun e => (c.find? x).any fun e' => e'.birth = e.birth

/-- The ids from before that lead to no element now, or to another one. -/
def departed (d c : Document α) : List String :=
  (d.elements.map Element.id).filter (!d.keeps c ·)

theorem keeps_iff : d.keeps c x = true ↔ ∃ e e', d.find? x = some e ∧ c.find? x = some e' ∧ e'.birth = e.birth := by
  unfold keeps
  cases d.find? x with
  | none => simp
  | some e => cases c.find? x <;> simp

theorem keeps_of_absent (absent : c.contains x = false) : d.keeps c x = false := by
  rw [← Bool.not_eq_true, keeps_iff]
  rintro ⟨_, e', _, there, _⟩
  rw [contains_of_find? there] at absent
  cases absent

theorem mem_departed : x ∈ d.departed c ↔ d.contains x = true ∧ d.keeps c x = false := by
  rw [departed, List.mem_filter, ← ids_handles, ← contains_iff_mem, Bool.not_eq_true']

theorem keeps_congr (same : ∀ x, (c'.find? x).map Element.birth = (c.find? x).map Element.birth) :
    d.keeps c' = d.keeps c := by
  have plain (c : Document α) (e : Element α) (x : String) :
      ((c.find? x).any fun e' => decide (e'.birth = e.birth)) = ((c.find? x).map Element.birth).any (· = e.birth) := by
    rw [Option.any_map]
  funext x
  unfold keeps
  simp only [plain, same]

end Document

section
variable (sites : List Site) (d : Document α)

/-- The given text is that of an edge of the pass whose one unlisted label the element is. -/
def Site.Relabels (e : Element α) (text : String) : Prop :=
  ∃ s ∈ sites, s.head.label? = some text ∧ d.IsEdge s.id ∧ d.inlineLabels s = [e]

/-- What a declaration of this id makes of props and metadata. -/
def Site.Dresses (id : String) (entries entries' : Props × Props) : Prop :=
  ∃ s ∈ sites, s.id = id ∧ entries' = (s.head.mergedProps entries.1, s.head.mergedMetadata entries.2)

/-- A pass may remove an element below a topmost one without a site, or below a label that its edge does not list. -/
def Site.Removable (x : String) : Prop :=
  (∃ r ∈ d.top, r ∉ Site.known sites ∧ x ∈ d.subtree r) ∨
    ∃ s ∈ sites, s.head.kind = .edge ∧ d.IsEdge s.id ∧ ∃ l ∈ d.inlineLabels s, x ∈ d.subtree l.id

variable [Coordinate α]

/-- What has become of an element that is still there when the elements of `gone` have left. -/
structure Lasts (gone : List String) (e e' : Element α) : Prop where
  kind : e'.kind = e.kind
  parent : e'.parent = e.parent
  box : e'.box? = e.box?
  labelled : e'.isLabelled = e.isLabelled
  entries : Relation.ReflTransGen (Site.Dresses sites e.id) (e.props, e.metadata) (e'.props, e'.metadata)
  apart : e.id ∉ Site.known sites → ∃ text, e' = (e.mapEnds (d.release gone)).retext text ∧
    ∀ t, text = some t → Site.Relabels sites d e t

/-- A document against the one before the pass. -/
structure Framed (c : Document α) : Prop where
  births : d.births ≤ c.births
  lasting : ∀ x e e', d.find? x = some e → c.find? x = some e' → e'.birth = e.birth →
    Lasts sites d (d.departed c) e e'
  upward : ∀ x p, d.keeps c x = true → d.parentOf x = some p → d.keeps c p = true
  gone : ∀ x, d.contains x = true → d.keeps c x = false → Site.Removable sites d x
  /-- An unlisted label does not stay alone: if it stays, so do the other labels of its edge. -/
  beside : ∀ q x y, x ∉ Site.known sites → d.LabelIn q x → d.LabelIn q y → d.keeps c x = true → d.keeps c y = true
  children : ∀ p, d.keeps c p = true → (c.childIds p).filter (d.keeps c) = (d.childIds p).filter (d.keeps c)
  top : c.top.filter (d.keeps c) = d.top.filter (d.keeps c)

end

variable [Coordinate α] {sites : List Site} {d c c' : Document α} {x : String}

theorem Framed.refl (consistent : d.Consistent) : Framed sites d d := by
  have kept (x : String) (there : d.contains x = true) : d.keeps d x = true := by
    obtain ⟨e, found⟩ := Document.contains_iff_find?.1 there
    exact Document.keeps_iff.2 ⟨e, e, found, found, rfl⟩
  have none : d.departed d = [] := by
    refine List.eq_nil_iff_forall_not_mem.2 fun x member => ?_
    obtain ⟨there, missing⟩ := Document.mem_departed.1 member
    rw [kept x there] at missing
    cases missing
  refine ⟨Nat.le_refl _, fun x e e' found found' _ => ?_, fun x p _ nested => ?_, fun x there missing => ?_,
    fun q x y _ _ label _ => ?_, fun _ _ => rfl, rfl⟩
  · cases found.symm.trans found'
    refine ⟨rfl, rfl, rfl, rfl, .refl, fun _ => ⟨Option.none, ?_, by simp⟩⟩
    rw [none]
    exact (Element.mapEnds_self fun _ _ _ => Document.release_of_not_mem fun _ _ _ => List.not_mem_nil).symm
  · exact kept p (consistent.contains_parent nested)
  · rw [kept x there] at missing
    cases missing
  · obtain ⟨e, found, _⟩ := label
    exact kept y (Document.contains_of_find? found)

/-- A change of one element stays within the frame if it does for that element. -/
theorem Framed.change {y : String} {g : Element α → Element α} (framed : Framed sites d c) (keeps : Element.KeepsPlace g)
    (changes : c.Changes y g c') (lasting : ∀ e e', d.find? y = some e → c.find? y = some e' → e'.birth = e.birth →
      Lasts sites d (d.departed c) e (g e')) : Framed sites d c' := by
  have same : d.keeps c' = d.keeps c := by
    refine Document.keeps_congr fun x => ?_
    rw [changes.find?]
    split
    · rw [Option.map_map]
      congr 1
      exact funext fun e => congrArg Handle.birth (keeps.handle e)
    · rfl
  have departed : d.departed c' = d.departed c := by
    unfold Document.departed
    rw [same]
  have children (p : String) : c'.childIds p = c.childIds p := by
    unfold Document.childIds
    rw [changes.find?]
    split
    · cases c.find? p with
      | none => rfl
      | some e => exact keeps.children e
    · rfl
  refine ⟨changes.births ▸ framed.births, fun x e e' found found' birth => ?_, ?_, ?_, ?_, fun p => ?_, ?_⟩
  · rw [departed]
    rw [changes.find?] at found'
    split at found'
    · next own =>
      obtain ⟨p, former, rfl⟩ := Option.map_eq_some_iff.1 found'
      subst own
      have older : (g p).birth = p.birth := congrArg Handle.birth (keeps.handle p)
      exact lasting e p found former (older.symm.trans birth)
    · exact framed.lasting x e e' found found' birth
  · rw [same]
    exact framed.upward
  · rw [same]
    exact framed.gone
  · rw [same]
    exact framed.beside
  · rw [same, children]
    exact framed.children p
  · rw [same, changes.top]
    exact framed.top

omit [Coordinate α] in
/-- A new element is born after all that were there before, and is none of them. -/
theorem Document.keeps_enter {e : Element α} {parent : Option String} (consistent : d.Consistent)
    (births : d.births ≤ c.births) (absent : c.contains e.id = false) (topmost : e.parent = none)
    (childless : e.children = []) (held : ∀ p, parent = some p → c.contains p = true) :
    d.keeps (c.enter e parent) = d.keeps c := by
  have found (x : String) : (c.enter e parent).find? x = _ := Document.find?_enter absent topmost childless held
  funext x
  by_cases own : x = e.id
  · rw [own, Document.keeps_of_absent absent, ← Bool.not_eq_true, Document.keeps_iff]
    rintro ⟨p, p', before, now, birth⟩
    rw [found, if_pos rfl] at now
    cases now
    have older : p.birth < d.births :=
      consistent.births_lt p.handle (List.mem_map_of_mem (Document.mem_of_find? before))
    change c.births = p.birth at birth
    omega
  · unfold Document.keeps
    rw [found, if_neg own]
    cases c.find? x <;> rfl

/-- A new element stays within the frame. -/
theorem Framed.enter {e : Element α} {parent : Option String} (framed : Framed sites d c) (consistent : d.Consistent)
    (consistent' : c.Consistent) (absent : c.contains e.id = false) (topmost : e.parent = none)
    (childless : e.children = [])
    (held : ∀ p, parent = some p → p ∈ Site.known sites ∧ c.contains p = true) : Framed sites d (c.enter e parent) := by
  have found (x : String) : (c.enter e parent).find? x = _ :=
    Document.find?_enter absent topmost childless fun p same => (held p same).2
  have foreign : d.keeps c e.id = false := Document.keeps_of_absent absent
  have same : d.keeps (c.enter e parent) = d.keeps c :=
    Document.keeps_enter consistent framed.births absent topmost childless fun p same => (held p same).2
  have departed : d.departed (c.enter e parent) = d.departed c := by
    unfold Document.departed
    rw [same]
  -- What the frame says of children and topmost elements is about those from before, of which the new one is none.
  have drop (own : Prop) [Decidable own] : (if own then [e.id] else []).filter (d.keeps c) = [] := by
    split
    · rw [List.filter_cons, foreign]
      rfl
    · rfl
  refine ⟨?_, fun x p p' before now birth => ?_, ?_, ?_, ?_, fun p kept => ?_, ?_⟩
  · rw [Document.births_enter]
    exact Nat.le_succ_of_le framed.births
  · have other : x ≠ e.id := by
      rintro rfl
      have kept := Document.keeps_iff.2 ⟨p, p', before, now, birth⟩
      rw [same, foreign] at kept
      cases kept
    rw [found, if_neg other] at now
    obtain ⟨q, former, rfl⟩ := Option.map_eq_some_iff.1 now
    have lasts := framed.lasting x p q before former birth
    rw [departed]
    refine ⟨lasts.kind, lasts.parent, lasts.box, lasts.labelled, lasts.entries, fun unknown => ?_⟩
    rw [Document.find?_eq_some_id before] at unknown
    have elsewhere : parent ≠ some x := fun here => unknown (held x here).1
    rw [if_neg elsewhere, List.append_nil]
    exact lasts.apart (Document.find?_eq_some_id before ▸ unknown)
  · rw [same]
    exact framed.upward
  · rw [same]
    exact framed.gone
  · rw [same]
    exact framed.beside
  · rw [same] at kept ⊢
    have other : p ≠ e.id := by
      rintro rfl
      rw [foreign] at kept
      cases kept
    have grown : (c.enter e parent).childIds p = c.childIds p ++ if parent = some p then [e.id] else [] := by
      obtain ⟨_, q, _, there, _⟩ := Document.keeps_iff.1 kept
      unfold Document.childIds
      rw [found, if_neg other, there]
      rfl
    rw [grown, List.filter_append, drop, List.append_nil]
    exact framed.children p kept
  · rw [same, Document.top_enter consistent' absent topmost, List.filter_append, drop, List.append_nil]
    exact framed.top

namespace Framed
variable {roots ids : List String} (framed : Framed sites d c)

include framed

theorem parentOf (kept : d.keeps c x = true) : c.parentOf x = d.parentOf x := by
  obtain ⟨e, e', found, found', birth⟩ := Document.keeps_iff.1 kept
  unfold Document.parentOf
  rw [found, found', Option.bind_some, Option.bind_some]
  exact (framed.lasting x e e' found found' birth).parent

theorem labelIn {holder : String} (kept : d.keeps c x = true) : c.LabelIn holder x ↔ d.LabelIn holder x := by
  obtain ⟨e, e', found, found', birth⟩ := Document.keeps_iff.1 kept
  have lasts := framed.lasting x e e' found found' birth
  simp only [Document.LabelIn, found, found', Option.some.injEq, exists_eq_left', lasts.labelled, lasts.parent]

theorem isEdge (kept : d.keeps c x = true) : c.IsEdge x ↔ d.IsEdge x := by
  obtain ⟨e, e', found, found', birth⟩ := Document.keeps_iff.1 kept
  have lasts := framed.lasting x e e' found found' birth
  simp only [Document.IsEdge, found, found', Option.some.injEq, exists_eq_left', Element.isEdge, lasts.kind]

variable (consistent : d.Consistent) (consistent' : c.Consistent)

include consistent consistent'

/-- What is still there below an element was below it before, and the element is still there too. -/
theorem mem_subtree {r : String} (kept : d.keeps c x = true) (below : x ∈ c.subtree r) :
    d.keeps c r = true ∧ x ∈ d.subtree r := by
  have path := Links.mem_subtree.1 below
  clear below
  induction path with
  | refl => exact ⟨kept, Document.mem_subtree_self⟩
  | @tail p x _ nests ih =>
    have nested : d.parentOf x = some p := by
      rw [← framed.parentOf kept]
      exact (consistent'.nests_iff p x).1 nests
    obtain ⟨root, inside⟩ := ih (framed.upward x p kept nested)
    exact ⟨root, Document.mem_subtree_of_parent consistent nested inside⟩

end Framed

namespace Framed
variable {roots ids : List String}

omit [Coordinate α] in
theorem keeps_cleared [Coordinate α] (cleared : c.Cleared ids c') :
    d.keeps c' x = (d.keeps c x && !ids.contains x) := by
  unfold Document.keeps
  rw [cleared]
  by_cases leaves : x ∈ ids
  · cases d.find? x <;> simp [leaves]
  · rw [if_neg leaves, List.contains_eq_mem, decide_eq_false leaves, Bool.not_false, Bool.and_true]
    cases d.find? x with
    | none => rfl
    | some e =>
      cases c.find? x with
      | none => rfl
      | some e' =>
        have birth : (c.bereft ids e').birth = e'.birth := congrArg Handle.birth (Document.handle_bereft e')
        simp only [Option.map_some, Option.any_some, birth]

omit [Coordinate α] in
theorem boxOf [Coordinate α] (framed : Framed sites d c) (kept : d.keeps c x = true) : c.boxOf x = d.boxOf x := by
  obtain ⟨e, e', found, found', birth⟩ := Document.keeps_iff.1 kept
  unfold Document.boxOf
  rw [found, found', Option.bind_some, Option.bind_some]
  exact (framed.lasting x e e' found found' birth).box

/-- An end that is let go in two lots is let go at once. -/
theorem release_cleared (framed : Framed sites d c) (cleared : c.Cleared ids c') {p : Endpoint α} (fits : d.Fits p) :
    c.release ids (d.release (d.departed c) p) = d.release (d.departed c') p := by
  cases p with
  | free position => rfl
  | stranded node anchor position => rfl
  | connected node anchor =>
    have there : d.contains node = true := Document.contains_of_node? fits
    unfold Document.release
    cases kept : d.keeps c node with
    | false =>
      have before : node ∈ d.departed c := Document.mem_departed.2 ⟨there, kept⟩
      have after : node ∈ d.departed c' := Document.mem_departed.2 ⟨there, by rw [keeps_cleared cleared, kept]; rfl⟩
      simp only [before, after, if_true]
    | true =>
      have before : node ∉ d.departed c := fun member => by
        rw [(Document.mem_departed.1 member).2] at kept
        cases kept
      have after : node ∈ d.departed c' ↔ node ∈ ids := by
        rw [Document.mem_departed, keeps_cleared cleared, kept]
        simp [there]
      have center : c.positionOf (.connected node anchor) = d.positionOf (.connected node anchor) := by
        rw [Document.positionOf_connected, Document.positionOf_connected, framed.boxOf kept]
      simp only [before, after, if_false, center]

section
variable (framed : Framed sites d c) (clearing : Clearing sites c c' roots ids) (consistent' : c.Consistent)

include framed clearing consistent'

/-- The labels beside an unlisted one leave with it. -/
theorem beside_clearing (listed : ∀ s ∈ sites, ∀ x ∈ s.listed, x ∈ Site.known sites) {q y : String}
    (unknown : x ∉ Site.known sites) (label : d.LabelIn q x) (label' : d.LabelIn q y) (kept : d.keeps c x = true)
    (stays : x ∉ ids) : d.keeps c y = true ∧ y ∉ ids := by
  have kept' := framed.beside q x y unknown label label' kept
  refine ⟨kept', fun leaves => stays ?_⟩
  obtain ⟨e, found, labelled, parent⟩ := (framed.labelIn kept).2 label
  obtain ⟨e', found', _, parent'⟩ := (framed.labelIn kept').2 label'
  have nested : c.parentOf x = some q := Document.parentOf_eq_some.2 ⟨e, found, parent⟩
  by_cases around : q ∈ ids
  · exact clearing.mem_of_parent consistent' nested around
  · obtain ⟨s, member, rfl, labels⟩ := clearing.label_of_child consistent' leaves
      (Document.parentOf_eq_some.2 ⟨e', found', parent'⟩) around
    have named := Document.find?_eq_some_id found
    have own : e ∈ c.inlineLabels s := by
      rw [Document.mem_inlineLabels consistent', named]
      exact ⟨found, labelled, parent, fun inside => unknown (listed s member x inside)⟩
    exact (clearing.below x).2 ⟨x, (labels x).2 (named ▸ List.mem_map_of_mem own), Document.mem_subtree_self⟩

variable (consistent : d.Consistent)

include consistent

/-- What leaves was in the way of the pass before. -/
theorem removable (kept : d.keeps c x = true) (leaves : x ∈ ids) : Site.Removable sites d x := by
  obtain ⟨r, root, under⟩ := (clearing.below x).1 leaves
  obtain ⟨kept', under'⟩ := framed.mem_subtree consistent consistent' kept under
  rcases clearing.dooms with topmost | ⟨s, member, edge, isEdge, labels⟩
  · obtain ⟨alone, unknown⟩ := topmost r root
    obtain ⟨e, _, found, _⟩ := Document.keeps_iff.1 kept'
    refine .inl ⟨r, (consistent.mem_top r).2 ⟨Document.contains_of_find? found, ?_, by simp⟩, unknown, under'⟩
    rw [← framed.parentOf kept', alone]
  · obtain ⟨label, own, rfl⟩ := List.mem_map.1 ((labels r).1 root)
    obtain ⟨found, labelled, parent, unlisted⟩ := (Document.mem_inlineLabels consistent').1 own
    obtain ⟨e, former, labelled', parent'⟩ := (framed.labelIn kept').1 ⟨label, found, labelled, parent⟩
    have named := Document.find?_eq_some_id former
    have around : d.keeps c s.id = true :=
      framed.upward label.id s.id kept' (Document.parentOf_eq_some.2 ⟨e, former, parent'⟩)
    refine .inr ⟨s, member, edge, (framed.isEdge around).1 isEdge, e, ?_, named ▸ under'⟩
    rw [Document.mem_inlineLabels consistent, named]
    exact ⟨former, labelled', parent', unlisted⟩

/-- An element that stays becomes bereft of those that leave. -/
theorem lasts_bereft {e e' : Element α} (found : d.find? x = some e) (found' : c.find? x = some e')
    (birth : e'.birth = e.birth) (stays : x ∉ ids) : Lasts sites d (d.departed c') e (c.bereft ids e') := by
  have lasts := framed.lasting x e e' found found' birth
  have named := Document.find?_eq_some_id found
  refine ⟨(Document.kind_bereft e').trans lasts.kind, (Document.parent_bereft e').trans lasts.parent,
    (Document.box?_bereft e').trans lasts.box, ?_, ?_, fun unknown => ?_⟩
  · rw [← lasts.labelled]
    obtain ⟨_, _, content, _, _, _, _⟩ := e'
    cases content <;> rfl
  · have plain : ((c.bereft ids e').props, (c.bereft ids e').metadata) = (e'.props, e'.metadata) := by
      obtain ⟨_, _, content, _, _, _, _⟩ := e'
      cases content <;> rfl
    exact plain ▸ lasts.entries
  · obtain ⟨text, same, relabels⟩ := lasts.apart unknown
    refine ⟨text, ?_, relabels⟩
    have children : e'.children.filter (!ids.contains ·) = e'.children := by
      rw [List.filter_eq_self]
      intro y member
      rw [Bool.not_eq_true', List.contains_eq_mem, decide_eq_false_iff_not]
      intro leaves
      have nested : c.parentOf y = some x :=
        (consistent'.mem_children x y).1 (Document.mem_childIds.2 ⟨e', found', member⟩)
      obtain ⟨s, known, own, _⟩ := clearing.label_of_child consistent' leaves nested stays
      exact unknown (named ▸ own ▸ List.mem_map_of_mem known)
    have ends : (e.mapEnds (d.release (d.departed c))).mapEnds (c.release ids) =
        e.mapEnds (d.release (d.departed c')) := by
      rw [Element.mapEnds_mapEnds]
      refine Element.mapEnds_congr fun relation p ending => framed.release_cleared clearing.cleared ?_
      exact consistent.end_fits relation x p (Document.endOf_eq_some.2 ⟨e, found, ending⟩)
    unfold Document.bereft
    rw [children, ← ends, ← Element.mapEnds_retext, ← same]
    obtain ⟨_, _, content, _, _, _, _⟩ := e'
    cases content <;> rfl

/-- Clearing subtrees away stays within the frame. -/
theorem clear (listed : ∀ s ∈ sites, ∀ x ∈ s.listed, x ∈ Site.known sites) (births : c.births ≤ c'.births) :
    Framed sites d c' := by
  have keeps (x : String) : d.keeps c' x = true ↔ d.keeps c x = true ∧ x ∉ ids := by
    rw [keeps_cleared clearing.cleared]
    simp
  have both (xs : List String) : (xs.filter (!ids.contains ·)).filter (d.keeps c') = (xs.filter (d.keeps c)).filter
      (!ids.contains ·) := by
    rw [List.filter_filter, List.filter_filter]
    refine List.filter_congr fun x _ => ?_
    rw [keeps_cleared clearing.cleared]
    cases d.keeps c x <;> cases ids.contains x <;> rfl
  have twice (xs : List String) : xs.filter (d.keeps c') = (xs.filter (d.keeps c)).filter (!ids.contains ·) := by
    rw [List.filter_filter]
    refine List.filter_congr fun x _ => ?_
    rw [keeps_cleared clearing.cleared, Bool.and_comm]
  refine ⟨Nat.le_trans framed.births births, fun x e e' found found' birth => ?_, fun x p kept nested => ?_,
    fun x there missing => ?_, fun q x y unknown label label' kept => ?_, fun p kept => ?_, ?_⟩
  · obtain ⟨kept, stays⟩ := (keeps x).1 (Document.keeps_iff.2 ⟨e, e', found, found', birth⟩)
    rw [clearing.cleared, if_neg stays] at found'
    obtain ⟨former, lookup, rfl⟩ := Option.map_eq_some_iff.1 found'
    have older : (c.bereft ids former).birth = former.birth := congrArg Handle.birth (Document.handle_bereft former)
    exact framed.lasts_bereft clearing consistent' consistent found lookup (older.symm.trans birth) stays
  · obtain ⟨former, stays⟩ := (keeps x).1 kept
    refine (keeps p).2 ⟨framed.upward x p former nested, fun leaves => stays ?_⟩
    exact clearing.mem_of_parent consistent' ((framed.parentOf former).trans nested) leaves
  · cases former : d.keeps c x with
    | false => exact framed.gone x there former
    | true =>
      refine framed.removable clearing consistent' consistent former ?_
      by_contra stays
      rw [(keeps x).2 ⟨former, stays⟩] at missing
      cases missing
  · obtain ⟨former, stays⟩ := (keeps x).1 kept
    exact (keeps y).2 (framed.beside_clearing clearing consistent' listed unknown label label' former stays)
  · obtain ⟨former, stays⟩ := (keeps p).1 kept
    have fewer : c'.childIds p = (c.childIds p).filter (!ids.contains ·) := by
      unfold Document.childIds
      rw [clearing.cleared, if_neg stays]
      cases c.find? p <;> rfl
    rw [fewer, both, framed.children p former, twice]
  · rw [clearing.top, both, framed.top, twice]

end

/-- A label without a site that is the only unlisted one of its edge now was the only one before. -/
theorem inlineLabels_alone {s : Site} {label e : Element α} (framed : Framed sites d c) (consistent : d.Consistent)
    (consistent' : c.Consistent) (alone : c.inlineLabels s = [label]) (found : d.find? label.id = some e)
    (kept : d.keeps c label.id = true) (unknown : label.id ∉ Site.known sites) : d.inlineLabels s = [e] := by
  have named := Document.find?_eq_some_id found
  have own : label ∈ c.inlineLabels s := alone ▸ List.mem_singleton.2 rfl
  obtain ⟨found', labelled', parent', unlisted⟩ := (Document.mem_inlineLabels consistent').1 own
  have label' := (framed.labelIn kept).1 ⟨label, found', labelled', parent'⟩
  have mine : e ∈ d.inlineLabels s := by
    obtain ⟨_, same, labelled, parent⟩ := label'
    cases found.symm.trans same
    rw [Document.mem_inlineLabels consistent, named]
    exact ⟨found, labelled, parent, unlisted⟩
  have only (p : Element α) (member : p ∈ d.inlineLabels s) : p = e := by
    obtain ⟨there, labelled, parent, unlisted⟩ := (Document.mem_inlineLabels consistent).1 member
    have stays := framed.beside s.id label.id p.id unknown label' ⟨p, there, labelled, parent⟩ kept
    obtain ⟨p', now, labelled', parent'⟩ := (framed.labelIn stays).2 ⟨p, there, labelled, parent⟩
    have named' := Document.find?_eq_some_id now
    have inside : p' ∈ c.inlineLabels s := by
      rw [Document.mem_inlineLabels consistent', named']
      exact ⟨now, labelled', parent', unlisted⟩
    rw [alone, List.mem_singleton] at inside
    rw [← named', inside, found] at there
    exact (Option.some.inj there).symm
  refine List.perm_singleton.1 ((List.perm_ext_iff_of_nodup ?_ (List.nodup_singleton e)).2 fun p => ?_)
  · exact (Document.nodup_inlineLabels consistent).of_map Element.id
  · rw [List.mem_singleton]
    exact ⟨only p, fun same => same ▸ mine⟩

/-- A stride stays within the frame. -/
theorem stride (framed : Framed sites d c) (consistent : d.Consistent)
    (listed : ∀ s ∈ sites, ∀ x ∈ s.listed, x ∈ Site.known sites) (stride : Stride sites d.births c c') :
    Framed sites d c' := by
  obtain ⟨consistent', _, births, stroke⟩ := stride
  have built {g : Element α → Element α} {x : String} {e e' : Element α} (keeps : Element.KeepsBuild g)
      (found : d.find? x = some e) (found' : c.find? x = some e') (birth : e'.birth = e.birth)
      (entries : Relation.ReflTransGen (Site.Dresses sites e.id) (e'.props, e'.metadata) ((g e').props, (g e').metadata))
      (apart : e.id ∉ Site.known sites → ∃ text, g e' = (e.mapEnds (d.release (d.departed c))).retext text ∧
        ∀ t, text = some t → Site.Relabels sites d e t) : Lasts sites d (d.departed c) e (g e') := by
    have lasts := framed.lasting x e e' found found' birth
    exact ⟨(keeps.kind e').trans lasts.kind, (keeps.parent e').trans lasts.parent, (keeps.box e').trans lasts.box,
      (keeps.labelled e').trans lasts.labelled, lasts.entries.trans entries, apart⟩
  cases stroke with
  | revise s change known keeps changes entries =>
    refine framed.change keeps.toKeepsPlace changes fun e e' found found' birth => ?_
    have named := Document.find?_eq_some_id found
    refine built keeps found found' birth (.single ⟨s, known, named.symm, ?_⟩) fun unknown => (unknown ?_).elim
    · rw [(entries e').1, (entries e').2]
    · exact named ▸ List.mem_map_of_mem known
  | retext s label text known given isEdge alone changes =>
    refine framed.change Element.keepsBuild_retext.toKeepsPlace changes fun e e' found found' birth => ?_
    refine built Element.keepsBuild_retext found found' birth (by rw [Element.entries_retext]) fun unknown => ?_
    obtain ⟨former, same, _⟩ := (framed.lasting label.id e e' found found' birth).apart unknown
    refine ⟨some text, by rw [same, Element.retext_retext]; rfl, ?_⟩
    rintro _ ⟨⟩
    have kept := Document.keeps_iff.2 ⟨e, e', found, found', birth⟩
    rw [Document.find?_eq_some_id found] at unknown
    have before := framed.inlineLabels_alone consistent consistent' alone found kept unknown
    refine ⟨s, known, given, (framed.isEdge ?_).1 isEdge, before⟩
    have own : e ∈ d.inlineLabels s := before ▸ List.mem_singleton.2 rfl
    obtain ⟨_, _, parent, _⟩ := (Document.mem_inlineLabels consistent).1 own
    exact framed.upward label.id s.id kept (Document.parentOf_eq_some.2 ⟨e, found, parent⟩)
  | mark id change new keeps changes =>
    refine framed.change keeps changes fun e e' found found' birth => ?_
    have older : e.birth < d.births :=
      consistent.births_lt e.handle (List.mem_map_of_mem (Document.mem_of_find? found))
    have younger := new e' found'
    omega
  | enter e parent absent topmost childless held same =>
    rw [same]
    exact framed.enter consistent consistent' absent topmost childless held
  | clear roots ids clearing => exact framed.clear clearing consistent' consistent listed births

/-- However many strides a pass takes, it stays within the frame. -/
theorem strides (consistent : d.Consistent) (listed : ∀ s ∈ sites, ∀ x ∈ s.listed, x ∈ Site.known sites)
    (strides : Strides sites d.births d c) : Framed sites d c := by
  induction strides with
  | refl => exact .refl consistent
  | tail _ last ih => exact ih.stride consistent listed last

end Framed
end LiveDiagram
