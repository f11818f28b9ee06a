import LiveDiagram.Proofs.Edit.Removing
import LiveDiagram.Proofs.Reconcile.Creating
import LiveDiagram.Proofs.Reconcile.Labelling
import LiveDiagram.Proofs.Reconcile.Shifting

/-! Edits that return and shift the document in a known way. An element that is there is revised in its place, and an
edge loses and gets labels. -/
namespace LiveDiagram

variable {α : Type} [Coordinate α]

/-- An open transaction at a sound document. -/
structure Transaction.Ready (t : Transaction α) : Prop where
  isOpen : t.ledger.closed = false
  consistent : t.document.Consistent
  layered : t.document.Layered

/-- What may come: these elements in any case, and those where ids are drawn. -/
def Brought (own fresh : String → ElementKind → Option String → Prop) (drawn : Nat) (x : String) (kind : ElementKind)
    (parent : Option String) : Prop :=
  own x kind parent ∨ 0 < drawn ∧ fresh x kind parent

/-- The edit returns, draws at most so many ids, and shifts the document as these predicates say. -/
def Carries {β : Type} (drops : String → Prop) (own fresh : String → ElementKind → Option String → Prop) (drawn : Nat)
    (t : Transaction α) (e : Edit α β) : Prop :=
  t.Ready → ∃ b t', Gives e t b t' ∧ t'.Ready ∧ ∃ k ≤ drawn, t'.context.ids = t.context.ids.skip k ∧
    t.document.Shift drops (Brought own fresh k) t'.document

namespace Carries
variable {β γ : Type} {drops : String → Prop} {own fresh : String → ElementKind → Option String → Prop} {drawn : Nat}
  {t : Transaction α} {e e' : Edit α β} {f : β → Edit α γ}

theorem of_proceeds (proceeds : t.Ready → Proceeds t e) (walks : Walks ⟨false, false⟩ t e)
    (shift : t.Ready → ∀ b t', Gives e t b t' → t.document.Inherits t'.document →
      t.document.Shift drops (Brought own fresh 0) t'.document) : Carries drops own fresh drawn t e := by
  intro ready
  obtain ⟨b, t', given, isOpen, supply⟩ := proceeds ready ready.isOpen
  have steps := walks ready.consistent b t' given
  exact ⟨b, t', given, ⟨isOpen, ready.consistent.steps steps, ready.layered.steps ready.consistent rfl steps⟩,
    0, Nat.zero_le _, supply, shift ready b t' given (steps.inherits rfl)⟩

theorem of_revises {id : String} (proceeds : Proceeds t e) (walks : Walks ⟨false, false⟩ t e) (revises : Revises id t e) :
    Carries drops own fresh drawn t e := by
  refine of_proceeds (fun _ => proceeds) walks fun ready b t' given _ => ?_
  obtain ⟨_, keeps, changes⟩ := revises b t' given
  exact .of_changes ready.consistent keeps.toKeepsPlace changes

theorem still (proceeds : Proceeds t e) (walks : Walks ⟨false, false⟩ t e)
    (same : ∀ b t', Gives e t b t' → t'.document = t.document) : Carries drops own fresh drawn t e :=
  have revises : Revises "" t e := fun b t' given => ⟨_, .same, same b t' given ▸ .refl _ ""⟩
  of_revises proceeds walks revises

theorem pure {b : β} : Carries drops own fresh drawn t (Pure.pure b) :=
  still .pure .pure fun _ _ given => by rw [(gives_pure.1 given).2]

theorem note {n : Note} : Carries drops own fresh drawn t (Edit.note n) :=
  still .note .note fun _ _ given => by rw [Edit.gives_note.1 given]

omit [Coordinate α] in
/-- Two edits one after the other, the first of which draws no ids. -/
theorem andThen (first : Carries drops own fresh 0 t e)
    (rest : ∀ b u, t.Ready → u.Ready → u.context.ids = t.context.ids → Gives e t b u →
      Carries drops own fresh drawn u (f b)) : Carries drops own fresh drawn t (e >>= f) := by
  intro ready
  obtain ⟨b, u, early, between, _, none, supply, shift⟩ := first ready
  obtain rfl := Nat.le_zero.1 none
  obtain ⟨c, t', late, ready', k, few, supply', shift'⟩ := rest b u ready between supply early between
  have early' := shift.mono (fun _ dropped => dropped) fun _ _ _ brought =>
    (.inl (brought.resolve_right (by simp)) : Brought own fresh k _ _ _)
  exact ⟨c, t', gives_bind.2 ⟨b, u, early, late⟩, ready', k, few,
    supply'.trans (congrArg (IdSupply.skip · k) supply),
    early'.trans shift' ready.consistent between.consistent between.layered⟩

omit [Coordinate α] in
/-- Two edits one after the other, the second of which draws no ids. -/
theorem before (first : Carries drops own fresh drawn t e)
    (rest : ∀ k b u, t.Ready → u.Ready → t.document.Shift drops (Brought own fresh k) u.document → Gives e t b u →
      Carries drops own fresh 0 u (f b)) : Carries drops own fresh drawn t (e >>= f) := by
  intro ready
  obtain ⟨b, u, early, between, k, few, supply, shift⟩ := first ready
  obtain ⟨c, t', late, ready', _, none, supply', shift'⟩ := rest k b u ready between shift early between
  obtain rfl := Nat.le_zero.1 none
  have late' := shift'.mono (fun _ dropped => dropped) fun _ _ _ brought =>
    (.inl (brought.resolve_right (by simp)) : Brought own fresh k _ _ _)
  exact ⟨c, t', gives_bind.2 ⟨b, u, early, late⟩, ready', k, few, supply'.trans supply,
    shift.trans late' ready.consistent between.consistent between.layered⟩

omit [Coordinate α] in
theorem discard (carries : Carries drops own fresh drawn t e) : Carries drops own fresh drawn t (Functor.discard e) := by
  intro ready
  obtain ⟨b, t', given, rest⟩ := carries ready
  exact ⟨⟨⟩, t', gives_discard.2 ⟨b, given⟩, rest⟩

theorem document {f : Document α → Edit α γ} (rest : Carries drops own fresh drawn t (f t.document)) :
    Carries drops own fresh drawn t (Edit.document >>= f) := by
  have looks : Carries drops own fresh 0 t (Edit.document : Edit α (Document α)) :=
    still (Proceeds.of_leads (.document .pure)) .document fun _ _ given => by rw [(Edit.gives_document.1 given).2]
  refine looks.andThen fun d u _ _ _ given => ?_
  obtain ⟨rfl, rfl⟩ := Edit.gives_document.1 given
  exact rest

omit [Coordinate α] in
/-- Edits that end the same way carry the same. -/
theorem congr (same : t.Ready → ∀ b t', Gives e t b t' ↔ Gives e' t b t') (carries : Carries drops own fresh drawn t e') :
    Carries drops own fresh drawn t e := by
  intro ready
  obtain ⟨b, t', given, rest⟩ := carries ready
  exact ⟨b, t', (same ready b t').2 given, rest⟩

omit [Coordinate α] in
theorem mono {drops' : String → Prop} (carries : Carries drops own fresh drawn t e) (weaker : ∀ l, drops l → drops' l) :
    Carries drops' own fresh drawn t e := by
  intro ready
  obtain ⟨b, t', given, ready', k, few, supply, shift⟩ := carries ready
  exact ⟨b, t', given, ready', k, few, supply, shift.mono weaker fun _ _ _ brought => brought⟩

end Carries

/-! Revising an element that is there -/

namespace Reconcile
variable {β γ : Type} {t : Transaction α} {s : Site} {id : String} {e : Element α} {d : Declaration}
  {config : Config α}

omit [Coordinate α] in
/-- An element that is revised is there for the next edit too. -/
theorem proceeds_revised {edit : Edit α β} {f : β → Edit α γ} (there : t.document.contains id = true)
    (first : t.document.contains id = true → Proceeds t edit) (revises : Revises id t edit)
    (rest : ∀ b u, u.document.contains id = true → Proceeds u (f b)) : Proceeds t (edit >>= f) :=
  .bind (first there) fun b u given => rest b u ((revises.contains given).trans there)

theorem proceeds_mergeProps (there : t.document.contains id = true) : Proceeds t (mergeProps id d) := by
  unfold mergeProps
  split
  · exact .update there
  · exact .pure

theorem proceeds_mergeStyles (there : t.document.contains id = true) : Proceeds t (mergeStyles id d) := by
  have stage {u : Transaction α} {γ : Type} (given : Option γ) (f : γ → Props → Props)
      (there : u.document.contains id = true) :
      Proceeds u (given.elim (Pure.pure ()) fun c => Edit.editMetadata id (f c)) := by
    cases given with
    | none => exact .pure
    | some c => exact .update there
  have revises {u : Transaction α} {γ : Type} (given : Option γ) (f : γ → Props → Props) :
      Revises id u (given.elim (Pure.pure ()) fun c => Edit.editMetadata id (f c)) := by
    cases given with
    | none => exact Reshapes.pure.revises
    | some c => exact (recasts_editMetadata (f c)).revises
  rw [mergeStyles_eq]
  exact proceeds_revised there (stage _ fun m p => p.overlay m) (revises _ _) fun _ _ there =>
    proceeds_revised there (stage _ fun _ => withText "style" d.style) (revises _ _) fun _ _ there =>
      stage _ (fun _ => withText "textStyle" d.textStyle) there

theorem proceeds_reviseNode {content : NodeContent α} {shape : String} {name : Option String}
    (there : t.document.contains e.id = true) : Proceeds t (reviseNode e content d shape name) := by
  have type {u : Transaction α} (there : u.document.contains e.id = true) :
      Proceeds u (if shape ≠ content.type then Edit.putType e.id shape else Pure.pure ()) := by
    split
    · exact .update there
    · exact .pure
  have text {u : Transaction α} (there : u.document.contains e.id = true) : Proceeds u (name.elim (Pure.pure ())
      fun name => if name ≠ content.text then Edit.putText e.id name else Pure.pure ()) := by
    cases name with
    | none => exact .pure
    | some name =>
      dsimp only [Option.elim]
      split
      · exact .update there
      · exact .pure
  rw [reviseNode_eq]
  exact proceeds_revised there (fun _ => .note) reshapes_note.revises fun _ _ there =>
    proceeds_revised there (fun _ => .record) reshapes_record.revises fun _ _ there =>
    proceeds_revised there type reshapes_type.revises fun _ _ there =>
    proceeds_revised there text reshapes_text.revises fun _ _ there =>
    proceeds_revised there proceeds_mergeProps recasts_mergeProps.revises fun _ _ there => proceeds_mergeStyles there

omit [Coordinate α] in
theorem proceeds_aim {name : Option String} {move : String → Edit α Unit} (moves : ∀ node, Proceeds t (move node)) :
    Proceeds t (aim name move) := by
  refine .bind (.of_leads leads_nodeNamed) fun o u named => ?_
  rw [← (mem_of_nodeNamed named).1]
  cases o with
  | none => exact .pure
  | some node => exact moves node

theorem proceeds_redraw {source target : Option String} (there : t.document.contains e.id = true) :
    Proceeds t (redraw e d source target) :=
  proceeds_revised there (fun _ => .note) reshapes_note.revises fun _ _ there =>
    proceeds_revised there (fun _ => .record) reshapes_record.revises fun _ _ there =>
    proceeds_revised there proceeds_mergeProps recasts_mergeProps.revises fun _ _ there =>
    proceeds_revised there proceeds_mergeStyles recasts_mergeStyles.revises fun _ _ there =>
    proceeds_revised there (fun there => proceeds_aim fun _ => .moveStart there)
      (reshapes_aim fun _ _ => reshapes_moveStart).revises fun _ _ there => proceeds_aim fun _ => .moveStop there

theorem carries_reviseNode {drops : String → Prop} {own fresh : String → ElementKind → Option String → Prop} {drawn : Nat}
    {content : NodeContent α} {shape : String} {name : Option String} (found : t.document.find? e.id = some e) :
    Carries drops own fresh drawn t (reviseNode e content d shape name) :=
  .of_revises (proceeds_reviseNode (Document.contains_of_find? found)) (walks_reviseNode found (by simp))
    revises_reviseNode

theorem carries_redraw {drops : String → Prop} {own fresh : String → ElementKind → Option String → Prop} {drawn : Nat}
    {source target : Option String} (found : t.document.find? e.id = some e) :
    Carries drops own fresh drawn t (redraw e d source target) :=
  .of_revises (proceeds_redraw (Document.contains_of_find? found)) (walks_redraw found (by simp))
    revises_redraw

end Reconcile

/-! Labels -/

/-- A visit drops a label that the site of its edge does not list. Where the site gives a text, a lone one stays. -/
structure Site.Drops (s : Site) (d : Document α) (l : String) : Prop where
  edge : s.head.kind = .edge
  isEdge : d.IsEdge s.id
  label : d.LabelIn s.id l
  unlisted : l ∉ s.listed
  several : s.head.label?.isSome = true → ∃ l', l' ≠ l ∧ d.LabelIn s.id l' ∧ l' ∉ s.listed

/-- The element that a visit of a site brings below `around`. -/
def Site.Enters (s : Site) (around : Option String) (x : String) (kind : ElementKind) (parent : Option String) : Prop :=
  x = s.id ∧ kind = s.head.kind ∧ parent = around

/-- The label that a visit of a site brings under this id. -/
def Site.Labels (s : Site) (label x : String) (_ : ElementKind) (parent : Option String) : Prop :=
  s.head.label?.isSome = true ∧ x = label ∧ parent = some s.id

namespace Reconcile
variable {drops : String → Prop} {own fresh : String → ElementKind → Option String → Prop} {drawn : Nat} {t : Transaction α}
  {s : Site} {config : Config α}

omit [Coordinate α] in
theorem labelIn_of_inlineLabels {c : Document α} {l : Element α} (consistent : c.Consistent) (own : l ∈ c.inlineLabels s) :
    c.LabelIn s.id l.id ∧ l.id ∉ s.listed := by
  obtain ⟨found, labelled, parent, unlisted⟩ := (Document.mem_inlineLabels consistent).1 own
  exact ⟨⟨l, found, labelled, parent⟩, unlisted⟩

theorem carries_removeLabels (dropped : ∀ l ∈ t.document.inlineLabels s, drops l.id) :
    Carries drops own fresh drawn t ((t.document.inlineLabels s).forM fun label => Edit.remove label.id) := by
  refine .of_proceeds (fun ready => ?_) (fun consistent _ _ given => (Edit.removeAll_steps _ consistent given).1)
    fun ready b t' given inherits => ?_
  · exact .removeAll ready.consistent (ready.layered.acyclic ready.consistent)
      (fun l own => (labelIn_of_inlineLabels ready.consistent own).1.parentOf) (Document.nodup_inlineLabels ready.consistent)
  · obtain ⟨ids, swept⟩ := Edit.removeAll_swept ready.consistent given
    refine .of_swept ready.consistent inherits swept fun r root => ?_
    obtain ⟨l, own, rfl⟩ := List.mem_map.1 root
    exact dropped l own

theorem carries_dropLabels (dropped : ∀ l ∈ t.document.inlineLabels s, drops l.id) :
    Carries drops own fresh drawn t (dropLabels s.id s.listed) :=
  (carries_removeLabels dropped).congr fun ready _ _ => gives_dropLabels ready.consistent

/-- A new element comes in where what is to be around it is there. -/
theorem carries_insert {id : String} {content : Content α} {props metadata : Props} {parent : Option Handle}
    (absent : t.document.contains id = false) (live : ∀ h, parent = some h → t.document.isLive h = true)
    (fits : ∀ relation p, (Element.new id content props metadata).end? relation = some p → t.document.Fits p)
    (brought : own id content.kind (parent.map Handle.id)) :
    Carries drops own fresh drawn t (Edit.insert (.new id content props metadata) parent) := by
  have older (consistent : t.document.Consistent) (h : Handle) (same : parent = some h) : Older t h :=
    consistent.births_lt h (Document.isLive_iff.1 (live h same))
  refine .of_proceeds (fun ready => .insert ready.consistent absent rfl live) (fun consistent =>
    walks_insert fits (older consistent) (by simp) consistent) fun ready _ _ inserted _ => ?_
  obtain ⟨_, _, entered, _⟩ :=
    Edit.insert_steps ⟨false, false⟩ ready.consistent rfl rfl fits (older ready.consistent) (by simp) inserted
  rw [entered]
  refine .of_enter ready.consistent absent rfl rfl (fun p same => ?_) (.inl brought)
  obtain ⟨h, own, rfl⟩ := Option.map_eq_some_iff.1 same
  exact Document.contains_iff_mem.2 (List.mem_map_of_mem (Document.isLive_iff.1 (live h own)))

/-- A new node is marked as a label of the edge that it came in under. -/
theorem carries_markLabel {id edge : String} {label : LabelPlacement α} {e : Element α}
    (found : t.document.find? id = some e) (nested : e.parent = some edge) :
    Carries drops own fresh drawn t (Edit.markLabel edge id label) := by
  have parent : t.document.parentOf id = some edge := Document.parentOf_eq_some.2 ⟨e, found, nested⟩
  refine .of_proceeds
    (fun ready => .markLabel (ready.consistent.contains_parent parent) (Document.contains_of_find? found))
    (fun _ _ _ marked => (Edit.markLabel_steps _ (.inr parent) marked).1) fun ready _ _ marked _ => ?_
  exact .of_changes ready.consistent Element.keepsPlace_mapNode (Edit.changes_markLabel parent marked)

/-- A fresh label comes in under an id that is not taken. -/
theorem carries_freshLabel {holder : Handle} {edge : String} {content : NodeContent α} {label : LabelPlacement α}
    (live : t.document.isLive holder = true) (named : holder.id = edge)
    (unused : t.document.contains (t.context.ids.ahead 0) = false)
    (brought : fresh (t.context.ids.ahead 0) .node (some edge)) :
    Carries drops own fresh 1 t (freshLabel holder edge content label) := by
  intro ready
  obtain ⟨u, drawn, document, supply, isOpen⟩ := Leads.freshId (α := α) t ⟨rfl, rfl, ready.isOpen⟩
  have between : u.Ready := ⟨isOpen, document ▸ ready.consistent, document ▸ ready.layered⟩
  let entry : Element α := .new (t.context.ids.ahead 0) (.node content) .nil .nil
  have endless (relation : Relation) (p : Endpoint α) (ending : entry.end? relation = some p) : u.document.Fits p := by
    simp [entry, end?_new_node] at ending
  have older : ∀ h, some holder = some h → Older u h := by
    rintro _ ⟨⟩
    unfold Older
    rw [document]
    exact ready.consistent.births_lt holder (Document.isLive_iff.1 live)
  have marks : Carries drops fresh fresh 0 u (do
      Edit.insert entry (some holder)
      Edit.markLabel edge (t.context.ids.ahead 0) label
      return t.context.ids.ahead 0) := by
    refine .andThen (carries_insert (document ▸ unused) ?_ endless (by rw [Option.map_some, named]; exact brought)) ?_
    · rintro _ ⟨⟩
      exact document ▸ live
    · intro _ v ready _ _ inserted
      have found := newcomer ready.consistent endless older inserted
      exact .andThen (carries_markLabel found (congrArg some named)) fun _ _ _ _ _ _ => .pure
  obtain ⟨b, t', given, ready', _, none, supply', shift⟩ := marks between
  obtain rfl := Nat.le_zero.1 none
  refine ⟨b, t', gives_bind.2 ⟨_, u, drawn, given⟩, ready', 1, Nat.le_refl 1, supply'.trans ?_, ?_⟩
  · rw [supply]
    rfl
  · rw [← document]
    exact shift.mono (fun _ dropped => dropped) fun _ _ _ brought =>
      .inr ⟨Nat.one_pos, brought.resolve_right (by simp)⟩

/-- The text of an edge goes to a label of it. -/
theorem carries_putLabel {text : String} {keep : List String} {e : Element α}
    (found : t.document.find? s.id = some e) (isEdge : e.isEdge = true)
    (same : ∀ e ∈ t.document.labelsOf s.id, e.id ∈ keep ↔ e.id ∈ s.listed)
    (dropped : (∀ label, t.document.inlineLabels s ≠ [label]) → ∀ l ∈ t.document.inlineLabels s, drops l.id)
    (unused : t.document.contains (t.context.ids.ahead 0) = false)
    (brought : fresh (t.context.ids.ahead 0) .node (some s.id)) :
    Carries drops own fresh 1 t (Edit.putLabel config s.id text keep) := by
  refine .congr (fun _ _ _ => gives_putLabel found isEdge same) ?_
  by_cases lone : ∃ label, t.document.inlineLabels s = [label]
  · obtain ⟨label, alone⟩ := lone
    rw [alone]
    refine .andThen (.of_revises ?_ (fun _ _ _ => Edit.putText_steps _) reshapes_putText.revises) fun _ _ _ _ _ _ => .pure
    refine .update ?_
    have own : label ∈ t.document.inlineLabels s := alone ▸ List.mem_singleton.2 rfl
    exact Document.contains_iff_find?.2 ⟨label, (Document.mem_childrenOf (List.mem_filter.1 (List.mem_filter.1 own).1).1).2⟩
  · have several (label : Element α) (alone : t.document.inlineLabels s = [label]) : False := lone ⟨label, alone⟩
    have opened : Carries drops own fresh 1 t (do
        (t.document.inlineLabels s).forM fun label => Edit.remove label.id
        freshLabel e.handle s.id ⟨config.labelShape, t.document.boundsOf e, text, none⟩ config.label) := by
      refine .andThen (carries_removeLabels (dropped several)) fun _ u ready _ supply removed => ?_
      obtain ⟨ids, swept⟩ := Edit.removeAll_swept ready.consistent removed
      have named : e.handle.id = s.id := Document.find?_eq_some_id found
      have present : t.document.contains s.id = true := Document.contains_of_find? found
      have stays : s.id ∉ ids := by
        intro leaves
        obtain ⟨r, root, inside⟩ := (swept.below s.id).1 leaves
        obtain ⟨l, own, rfl⟩ := List.mem_map.1 root
        have nested := (labelIn_of_inlineLabels ready.consistent own).1.parentOf
        exact ready.layered.acyclic ready.consistent l.id s.id nested
          ((Document.mem_subtree_iff_within ready.consistent).1 inside)
      have kept : t.document.keeps u.document e.handle.id = true := by
        rw [named, Framed.keeps_cleared swept.cleared, Document.keeps_self present]
        simpa using stays
      refine carries_freshLabel (Document.isLive_of_keeps kept ready.consistent ?_) named ?_ ?_
      · exact Document.isLive_iff.2 (List.mem_map_of_mem (Document.mem_of_find? found))
      · rw [supply, ← Bool.not_eq_true, swept.cleared.contains, unused]
        simp
      · rw [supply]
        exact brought
    refine opened.congr fun ready b t' => (gives_relabel ready.consistent same several).trans ⟨?_, fun given => ?_⟩
    · exact fun ⟨u, removed, put⟩ => gives_bind.2 ⟨_, u, removed, put⟩
    · obtain ⟨_, u, removed, put⟩ := gives_bind.1 given
      exact ⟨u, removed, put⟩

omit [Coordinate α] in
theorem labelIn_of_changes {c u : Document α} {id p x : String} {change : Element α → Element α}
    (keeps : Element.KeepsBuild change) (changes : c.Changes id change u) (label : u.LabelIn p x) : c.LabelIn p x := by
  obtain ⟨e, found, labelled, parent⟩ := label
  rw [changes.find?] at found
  split at found
  · obtain ⟨e, former, rfl⟩ := Option.map_eq_some_iff.1 found
    exact ⟨e, former, (keeps.labelled e).symm.trans labelled, (keeps.parent e).symm.trans parent⟩
  · exact ⟨e, found, labelled, parent⟩

omit [Coordinate α] in
/-- What an edge loses that has been redrawn is what its visit drops. -/
theorem drops_redrawn {c u : Document α} {id : String} {change : Element α → Element α} {l : Element α}
    (consistent : u.Consistent) (keeps : Element.KeepsBuild change) (changes : c.Changes id change u)
    (edge : s.head.kind = .edge) (isEdge : c.IsEdge s.id)
    (others : s.head.label?.isSome = true → ∀ label, u.inlineLabels s ≠ [label]) (own : l ∈ u.inlineLabels s) :
    s.Drops c l.id := by
  have before {l : Element α} (own : l ∈ u.inlineLabels s) : c.LabelIn s.id l.id ∧ l.id ∉ s.listed :=
    (labelIn_of_inlineLabels consistent own).imp_left (labelIn_of_changes keeps changes)
  refine ⟨edge, isEdge, (before own).1, (before own).2, fun given => ?_⟩
  have distinct := Document.nodup_inlineLabels (s := s) consistent
  obtain ⟨l', own', other⟩ : ∃ l' ∈ u.inlineLabels s, l'.id ≠ l.id := by
    rcases labels : u.inlineLabels s with _ | ⟨first, _ | ⟨second, rest⟩⟩
    · rw [labels] at own
      cases own
    · exact (others given first labels).elim
    · rw [labels] at distinct
      have apart : first.id ≠ second.id := fun same => by simp [same] at distinct
      by_cases same : first.id = l.id
      · exact ⟨second, by simp, fun other => apart (same.trans other.symm)⟩
      · exact ⟨first, by simp, same⟩
  exact ⟨l'.id, other, before own'⟩

omit [Coordinate α] in
theorem labels_one (given : s.head.label?.isSome = true) : Declaration.labels [s.head] = 1 :=
  (Site.labels_singleton (s := s)).trans (if_pos given)

theorem carries_reviseEdge {e : Element α} (found : t.document.find? e.id = some e) (own : e.id = s.id)
    (isEdge : e.isEdge = true) {source target label : Option String} (head : s.head.head = .edge source target label)
    {around : Option String}
    (unused : s.head.label?.isSome = true → t.document.contains (t.context.ids.ahead 0) = false) :
    Carries (s.Drops t.document) (s.Enters around) (s.Labels (t.context.ids.ahead 0)) (Declaration.labels [s.head]) t
      (reviseEdge config e s.head source target label s.listed) := by
  have edge : s.head.kind = .edge := Declaration.kind_edge head
  have text : s.head.label? = label := Declaration.label?_edge head
  have known : t.document.IsEdge s.id := ⟨e, own ▸ found, isEdge⟩
  rw [reviseEdge_eq]
  refine .andThen (carries_redraw found) fun _ u _ between supply redrawn => ?_
  obtain ⟨change, keeps, changes⟩ := revises_redraw _ _ redrawn
  rw [own]
  cases label with
  | none => exact carries_dropLabels fun l => drops_redrawn between.consistent keeps changes edge known (by simp [text])
  | some label =>
    rw [labels_one (by rw [text]; rfl)]
    rw [text] at unused
    obtain ⟨p, there, still⟩ := changes.isEdge keeps.toKeepsPlace known
    refine .discard (carries_putLabel there still (fun _ _ => Iff.rfl) (fun several l => ?_) ?_ ?_)
    · exact drops_redrawn between.consistent keeps changes edge known fun _ => several
    · rw [supply, revises_redraw.contains redrawn]
      exact unused rfl
    · rw [supply]
      exact ⟨by rw [text]; rfl, rfl, rfl⟩

end Reconcile
end LiveDiagram
