import LiveDiagram.Proofs.Endings
import LiveDiagram.Proofs.Reconcile.Carrying

/-! The visit of one declaration: that it returns, and what it shifts. It stops only where the element around the
declaration is gone and the one of the declaration is still to be created. -/
namespace LiveDiagram

variable {α : Type} [Coordinate α]

namespace Reconcile
variable {drops : String → Prop} {own fresh : String → ElementKind → Option String → Prop} {drawn : Nat}
  {t : Transaction α} {s : Site} {config : Config α}

omit [Coordinate α] in
theorem proceeds_newEnd {name : Option String} {free unresolved : Point α} :
    Proceeds t (newEnd name free unresolved) := by
  unfold newEnd
  cases name with
  | none => exact .pure
  | some name =>
    refine .bind (.of_leads leads_nodeNamed) fun o _ _ => ?_
    cases o with
    | none => exact .bind .note fun _ _ _ => .pure
    | some node => exact .pure

theorem carries_newEnd {name : Option String} {free unresolved : Point α} :
    Carries drops own fresh drawn t (newEnd name free unresolved) :=
  .still (proceeds_newEnd) (fun _ _ _ given => (newEnd_fits _ given).2.2) fun _ _ given =>
    (newEnd_fits ⟨false, false⟩ given).1

omit [Coordinate α] in
/-- What drops nothing leaves an element where it is for whatever comes after it. -/
theorem carries_past {γ : Type} {x : String} {n : Nat} {u : Transaction α} {e : Edit α Unit} {f : Edit α γ}
    (there : u.document.contains x = true) (carries : Carries (fun _ => False) own fresh n u e)
    (rest : ∀ v, v.document.contains x = true → Carries (fun _ => False) own fresh 0 v f) :
    Carries (fun _ => False) own fresh n u (e >>= fun _ => f) := by
  refine Carries.before carries fun _ _ v _ _ shift _ => rest v ?_
  rcases shift.stays x there with kept | ⟨_, none, _⟩
  · exact (Document.contains_of_keeps kept).2
  · exact none.elim

/-- The element of a site is created, and whatever comes after it finds the element there. -/
theorem carries_create {γ : Type} {parent : Option Handle} {reference : Option (Bounds α)} {f : Edit α γ}
    (absent : t.document.contains s.id = false) (live : ∀ h, parent = some h → t.document.isLive h = true)
    (unused : s.head.label?.isSome = true →
      t.document.contains (t.context.ids.ahead 0) = false ∧ t.context.ids.ahead 0 ≠ s.id)
    (rest : ∀ u, u.document.contains s.id = true →
      Carries (fun _ => False) (s.Enters (parent.map Handle.id)) (s.Labels (t.context.ids.ahead 0)) 0 u f) :
    Carries (fun _ => False) (s.Enters (parent.map Handle.id)) (s.Labels (t.context.ids.ahead 0))
      (Declaration.labels [s.head]) t (create config parent reference s.head >>= fun _ => f) := by
  have older {u : Transaction α} (consistent : u.document.Consistent) (same : u.document = t.document) (h : Handle)
      (own : parent = some h) : Older u h :=
    consistent.births_lt h (Document.isLive_iff.1 (same ▸ live h own))
  unfold create
  rw [bind_assoc]
  refine .andThen .note fun _ u _ _ _ noted => ?_
  obtain rfl := Edit.gives_note.1 noted
  cases head : s.head.head with
  | node shape name textStyle =>
    dsimp only
    rw [bind_assoc]
    refine .document ?_
    rw [bind_assoc]
    refine .andThen (carries_insert absent live (by simp [end?_new_node]) ⟨rfl, (Declaration.kind_node head).symm, rfl⟩)
      fun _ v ready _ _ inserted => ?_
    have found := newcomer ready.consistent (by simp [end?_new_node]) (older ready.consistent rfl) inserted
    refine carries_past (Document.contains_of_find? found) ?_ rest
    cases parent with
    | none => exact .pure
    | some h =>
      refine .document ?_
      split
      · exact carries_markLabel found rfl
      · exact .pure
  | edge source target label =>
    have text : s.head.label? = label := Declaration.label?_edge head
    rw [text] at unused
    dsimp only
    rw [bind_assoc]
    -- Both ends are looked up before the edge is there, and neither lookup changes the document.
    refine .andThen carries_newEnd fun start v _ ready supply started => ?_
    rw [bind_assoc]
    refine .andThen carries_newEnd fun stop w _ ready' supply' stopped => ?_
    rw [bind_assoc]
    obtain ⟨document, _, ends⟩ := newEnds_fit ⟨false, false⟩ started stopped
    have document : w.document = t.document := document
    refine .andThen (carries_insert (document ▸ absent) (document ▸ live) ends ⟨rfl, (Declaration.kind_edge head).symm, rfl⟩)
      fun _ x ready _ supply'' inserted => ?_
    have found := newcomer ready.consistent ends (older ready.consistent document) inserted
    have supply : x.context.ids = t.context.ids := (supply''.trans supply').trans supply
    refine carries_past (Document.contains_of_find? found) ?_ rest
    cases label with
    | none => exact .pure
    | some written =>
      obtain ⟨absent', apart⟩ := unused rfl
      have apart : t.context.ids.ahead 0 ≠ s.head.id := apart
      rw [labels_one (by rw [text]; rfl)]
      have bare : x.document.labelsOf s.id = [] := Document.labelsOf_of_childless found rfl
      refine .discard (carries_putLabel found rfl (by simp [bare]) (by simp [Document.inlineLabels, bare]) ?_ ?_)
      · rw [supply, Document.contains, find?_inserted ready.consistent ends (older ready.consistent document) inserted,
          if_neg apart, Option.isSome_map, document]
        exact absent'
      · rw [supply]
        exact ⟨by rw [text]; rfl, rfl, rfl⟩

/-- Where what is to be around its site is there, or its element is, a visit returns. -/
theorem carries_visitOne {parent : Option Handle} {reference : Option (Bounds α)}
    (live : t.document.contains s.id = false → ∀ h, parent = some h → t.document.isLive h = true)
    (unused : s.head.label?.isSome = true →
      t.document.contains (t.context.ids.ahead 0) = false ∧ t.context.ids.ahead 0 ≠ s.id) :
    Carries (s.Drops t.document) (s.Enters (parent.map Handle.id)) (s.Labels (t.context.ids.ahead 0))
      (Declaration.labels [s.head]) t (visitOne config parent reference s.head s.listed) := by
  unfold visitOne
  refine .document ?_
  split
  · next missing =>
    have absent : t.document.contains s.id = false := Document.not_contains_iff.2 missing
    refine Carries.mono (carries_create absent (live absent) unused fun u there => ?_) (fun _ none => none.elim)
    obtain ⟨e, found⟩ := Document.contains_iff_find?.1 there
    refine .andThen (.still (.of_leads (.element found)) (fun _ _ _ given => ?_) fun _ _ given => ?_)
      fun _ _ _ _ _ _ => .pure
    · exact (Edit.gives_element.1 given).2 ▸ .refl
    · rw [(Edit.gives_element.1 given).2]
  · next e found =>
    have own : e.id = s.id := Document.find?_eq_some_id found
    have mine : t.document.find? e.id = some e := own ▸ found
    split
    · exact .andThen (carries_reviseNode mine) fun _ _ _ _ _ _ => .pure
    · next head content =>
      refine .before (carries_reviseEdge mine own ?_ head fun given => (unused given).1) fun _ _ _ _ _ _ _ => .pure
      simp [Element.isEdge, Element.kind, content, Content.kind]
    · exact .andThen .note fun _ _ _ _ _ _ => .pure

/-! Where a visit stops -/

/-- A new element does not come in below one that is gone. -/
theorem insert_ends {id : String} {content : Content α} {props metadata : Props} {h : Handle}
    (isOpen : t.ledger.closed = false) (absent : t.document.contains id = false) (older : Older t h)
    (dead : t.document.isLive h = false) :
    Ends (Edit.insert (.new id content props metadata) (some h)) t (fun _ _ => False)
      fun fault _ => fault = .parentGone := by
  have gone : (t.document.register (.new id content props metadata)).isLive h = false := by
    rw [← Bool.not_eq_true, Document.isLive_iff] at dead ⊢
    rw [Document.handles_register, List.mem_append, List.mem_singleton]
    rintro (live | rfl)
    · exact dead live
    · exact Nat.lt_irrefl _ older
  unfold Edit.insert
  refine .andThen (Edit.gives_document.2 ⟨rfl, rfl⟩) ?_
  dsimp only
  rw [if_neg (by rw [Bool.not_eq_true]; exact absent)]
  refine .andThen (b := ()) (Edit.gives_keep.2 ⟨isOpen, rfl⟩) (.andThen (b := ()) (Edit.gives_change.2 rfl) ?_)
  refine .andThen (Edit.gives_document.2 ⟨rfl, rfl⟩) ?_
  rw [if_neg (by rw [Bool.not_eq_true]; exact gone)]
  exact .bind (p := fun _ _ => False) (.throw rfl) fun _ _ _ none => none.elim

/-- Nothing is created below an element that is gone. -/
theorem create_ends {h : Handle} {reference : Option (Bounds α)} (isOpen : t.ledger.closed = false)
    (absent : t.document.contains s.id = false) (older : Older t h) (dead : t.document.isLive h = false) :
    Ends (create config (some h) reference s.head) t (fun _ _ => False) fun fault _ => fault = .parentGone := by
  unfold create
  refine .andThen (b := ()) (Edit.gives_note.2 rfl) ?_
  cases s.head.head with
  | node shape name textStyle =>
    refine .andThen (Edit.gives_document.2 ⟨rfl, rfl⟩) (.bind (insert_ends isOpen absent older dead) ?_)
    exact fun _ _ _ none => none.elim
  | edge source target label =>
    have ending (name : Option String) (free unresolved : Point α) {u : Transaction α} (isOpen : u.ledger.closed = false) :
        ∃ p v, Gives (newEnd name free unresolved) u p v ∧ v.ledger.closed = false ∧ v.document = u.document := by
      have proceeds : Proceeds u (newEnd name free unresolved) := proceeds_newEnd
      obtain ⟨p, v, given, isOpen', _⟩ := proceeds isOpen
      exact ⟨p, v, given, isOpen', (newEnd_fits ⟨false, false⟩ given).1⟩
    obtain ⟨start, v, started, isOpen', same⟩ := ending source config.freeStart config.unresolvedStart
      (u := { t with context := t.context.note [.creating s.head.tag] }) isOpen
    obtain ⟨stop, w, stopped, isOpen'', same'⟩ := ending target config.freeStop config.unresolvedStop isOpen'
    have same' : w.document = t.document := same'.trans same
    have older' : Older w h := by
      unfold Older
      rw [same']
      exact older
    refine .andThen started (.andThen stopped (.bind (insert_ends isOpen'' (same' ▸ absent) older' (same' ▸ dead)) ?_))
    exact fun _ _ _ none => none.elim

/-- A visit that finds neither the element of its site nor what is to be around it stops. -/
theorem visitOne_ends {h : Handle} {reference : Option (Bounds α)} (isOpen : t.ledger.closed = false)
    (absent : t.document.contains s.id = false) (older : Older t h) (dead : t.document.isLive h = false) :
    Ends (visitOne config (some h) reference s.head s.listed) t (fun _ _ => False) fun fault _ => fault = .parentGone := by
  unfold visitOne
  refine .andThen (Edit.gives_document.2 ⟨rfl, rfl⟩) ?_
  have missing : t.document.find? s.head.id = none := Document.not_contains_iff.1 absent
  rw [missing]
  exact .bind (create_ends isOpen absent older dead) fun _ _ _ none => none.elim

/-! What a visit finds -/

omit [Coordinate α] in
/-- An element does not lie below what its visit drops. -/
theorem not_within_of_drops {c : Document α} {l : String} (consistent : c.Consistent) (layered : c.Layered)
    (drops : s.Drops c l) : ¬c.Within s.id l :=
  layered.acyclic consistent l s.id drops.label.parentOf

omit [Coordinate α] in
/-- An element that is neither a node where a node is declared nor an edge where an edge is, is of another kind. -/
theorem kind_ne_of_other {e : Element α}
    (nodes : ∀ shape name style content, s.head.head = .node shape name style → e.content = .node content → False)
    (edges : ∀ source target label start stop, s.head.head = .edge source target label →
      e.content = .edge start stop → False) : e.kind ≠ s.head.kind := by
  intro same
  unfold Element.kind Content.kind Declaration.kind at same
  cases head : s.head.head with
  | node shape name style =>
    cases own : e.content with
    | node content => exact nodes shape name style content head own
    | edge => simp [head, own] at same
  | edge source target label =>
    cases own : e.content with
    | node => simp [head, own] at same
    | edge start stop => exact edges source target label start stop head own

/-- A visit that gives no handle met an element of the other kind, and left the document as it was. -/
theorem other_of_visitOne {parent : Option Handle} {reference : Option (Bounds α)} {t' : Transaction α}
    (given : Gives (visitOne config parent reference s.head s.listed) t none t') :
    t'.document = t.document ∧ ∃ e, t.document.find? s.id = some e ∧ e.kind ≠ s.head.kind := by
  simp only [visitOne, gives_bind, Edit.gives_document] at given
  obtain ⟨_, _, ⟨rfl, rfl⟩, given⟩ := given
  split at given
  · simp only [gives_bind, gives_pure] at given
    obtain ⟨_, _, _, _, _, _, none, _⟩ := given
    cases none
  · next e found =>
    split at given
    · simp only [gives_bind, gives_pure] at given
      obtain ⟨_, _, _, none, _⟩ := given
      cases none
    · simp only [gives_bind, gives_pure] at given
      obtain ⟨_, _, _, none, _⟩ := given
      cases none
    · next nodes edges =>
      simp only [gives_bind, gives_pure, Edit.gives_note] at given
      obtain ⟨_, _, rfl, _, rfl⟩ := given
      exact ⟨rfl, e, found, kind_ne_of_other nodes edges⟩

/-- A visit that gives a handle leaves the element there, and of the kind of its declaration; one that gives none met an
element of the other kind. -/
theorem visited {parent : Option Handle} {reference : Option (Bounds α)} {o : Option Handle} {t' : Transaction α}
    {around : Option String} {label : String} {k : Nat} (ready : t.Ready) (ready' : t'.Ready)
    (shift : t.document.Shift (s.Drops t.document) (Brought (s.Enters around) (s.Labels label) k) t'.document)
    (apart : s.head.label?.isSome = true → label ≠ s.id)
    (given : Gives (visitOne config parent reference s.head s.listed) t o t') :
    (∀ h, o = some h → h.id = s.id ∧ t'.document.isLive h = true ∧
      ∃ e, t'.document.find? s.id = some e ∧ e.kind = s.head.kind) ∧
    (o = none → ∃ e, t.document.find? s.id = some e ∧ e.kind ≠ s.head.kind) := by
  have stays {e : Element α} (found : t.document.find? s.id = some e) (same : e.kind = s.head.kind) :
      e.handle.id = s.id ∧ t'.document.isLive e.handle = true ∧
        ∃ e', t'.document.find? s.id = some e' ∧ e'.kind = s.head.kind := by
    have named : e.handle.id = s.id := Document.find?_eq_some_id found
    have live : t.document.isLive e.handle = true :=
      Document.isLive_iff.2 (List.mem_map_of_mem (Document.mem_of_find? found))
    rcases shift.stays s.id (Document.contains_of_find? found) with kept | ⟨l, drops, within, _⟩
    · obtain ⟨p, e', former, found', _, kind, _⟩ := shift.of_keeps ready.consistent kept
      cases found.symm.trans former
      exact ⟨named, Document.isLive_of_keeps (named.symm ▸ kept) ready.consistent live, e', found', kind.trans same⟩
    · exact (not_within_of_drops ready.consistent ready.layered drops within).elim
  cases o with
  | none => exact ⟨by simp, fun _ => (other_of_visitOne given).2⟩
  | some h =>
  refine ⟨?_, by simp⟩
  rintro _ ⟨⟩
  simp only [visitOne, gives_bind, Edit.gives_document] at given
  obtain ⟨_, _, ⟨rfl, rfl⟩, given⟩ := given
  split at given
  · next missing =>
    simp only [gives_bind, Edit.gives_element, gives_pure] at given
    obtain ⟨_, u, _, e, _, ⟨found, rfl⟩, same, rfl⟩ := given
    cases same
    have young : t.document.births ≤ e.birth := by
      by_contra old
      obtain ⟨p, former, _⟩ := shift.former s.id e found (Nat.lt_of_not_le old)
      cases missing.symm.trans former
    refine ⟨Document.find?_eq_some_id found, Document.isLive_iff.2 (List.mem_map_of_mem (Document.mem_of_find? found)),
      e, found, ?_⟩
    rcases shift.comes s.id e found young with ⟨_, kind, _⟩ | ⟨_, given, same, _⟩
    · exact kind
    · exact (apart given same.symm).elim
  · next e found =>
    split at given
    · next head content =>
      simp only [gives_bind, gives_pure] at given
      obtain ⟨_, _, _, same, rfl⟩ := given
      cases same
      exact stays found (by simp [Element.kind, content, Content.kind, Declaration.kind, head])
    · next head content =>
      simp only [gives_bind, gives_pure] at given
      obtain ⟨_, _, _, same, rfl⟩ := given
      cases same
      exact stays found (by simp [Element.kind, content, Content.kind, Declaration.kind, head])
    · simp only [gives_bind, gives_pure] at given
      obtain ⟨_, _, _, same, _⟩ := given
      cases same

/-! What is left out at the top -/

theorem carries_remove {id : String} (there : t.document.contains id = true) (dropped : drops id) :
    Carries drops own fresh drawn t (Edit.remove id) := by
  refine .of_proceeds (fun ready => .remove ready.consistent there) .remove fun ready _ _ given inherits => ?_
  refine .of_swept ready.consistent inherits (Edit.remove_swept ready.consistent given) fun r root => ?_
  exact List.mem_singleton.1 root ▸ dropped

/-- Topmost elements can be removed one after the other. -/
theorem carries_removeTops {others : List String} (topmost : ∀ x ∈ others, x ∈ t.document.top) (distinct : others.Nodup)
    (dropped : ∀ x ∈ others, drops x) : Carries drops own fresh drawn t (others.forM fun id => do
      Edit.note (.removing id)
      Edit.remove id) := by
  induction others generalizing t with
  | nil => exact .pure
  | cons id rest ih =>
    intro ready
    have there := ((ready.consistent.mem_top id).1 (topmost id List.mem_cons_self)).1
    rw [List.nodup_cons] at distinct
    have round : Carries drops own fresh 0 t (do Edit.note (.removing id); Edit.remove id) := by
      refine .andThen .note fun _ u _ _ _ noted => carries_remove ?_ (dropped id List.mem_cons_self)
      rw [Edit.gives_note.1 noted]
      exact there
    refine round.andThen (fun _ u _ _ _ given => ih (fun x member => ?_) distinct.2 fun x member =>
      dropped x (List.mem_cons_of_mem _ member)) ready
    obtain ⟨_, v, noted, removed⟩ := gives_bind.1 given
    obtain rfl := Edit.gives_note.1 noted
    have swept := Edit.remove_swept (t := { t with context := t.context.note [.removing id] }) ready.consistent removed
    -- What is topmost is below no other element, so it is still there, and topmost, for its turn.
    have top := topmost x (List.mem_cons_of_mem _ member)
    rw [swept.top]
    refine List.mem_filter.2 ⟨top, ?_⟩
    rw [Bool.not_eq_true', List.contains_eq_mem, decide_eq_false_iff_not]
    intro inside
    have other : x ≠ id := fun same => distinct.1 (same ▸ member)
    obtain ⟨p, _, nested⟩ := Document.exists_parent_mem_subtree ready.consistent inside other
    rw [((ready.consistent.mem_top x).1 top).2.1] at nested
    cases nested

theorem carries_removeOthers {ids : List String} (dropped : ∀ r ∈ t.document.top, r ∉ ids → drops r) :
    Carries drops own fresh drawn t (removeOthers ids) := by
  intro ready
  unfold removeOthers
  refine Carries.document (carries_removeTops (fun x member => (List.mem_filter.1 member).1)
    (ready.consistent.top_nodup.filter _) fun x member => ?_) ready
  obtain ⟨top, other⟩ := List.mem_filter.1 member
  exact dropped x top (by simpa using other)

end Reconcile
end LiveDiagram
