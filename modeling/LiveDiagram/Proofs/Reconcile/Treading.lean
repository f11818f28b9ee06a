import LiveDiagram.Proofs.Reconcile.Strides
import LiveDiagram.Proofs.Reconcile.Visit

/-! The edits of a pass as strides. Every edit of a pass, wherever it ends without a fault, goes through the document by
the strides that its declarations allow. -/
namespace LiveDiagram

variable {α : Type} [Coordinate α]

/-- From a consistent document the edit goes by strides, wherever it ends without a fault. -/
def Treads {β : Type} (sites : List Site) (born : Nat) (t : Transaction α) (e : Edit α β) : Prop :=
  t.document.Consistent → born ≤ t.document.births → ∀ b t', Gives e t b t' →
    Strides sites born t.document t'.document

namespace Treads
variable {β γ : Type} {sites : List Site} {born : Nat} {t : Transaction α}

/-- An edit that leaves the document as it is. -/
theorem still {e : Edit α β} (same : ∀ b t', Gives e t b t' → t'.document = t.document) : Treads sites born t e :=
  fun _ _ b t' given => same b t' given ▸ .refl

theorem pure {b : β} : Treads sites born t (Pure.pure b) :=
  still fun _ _ given => by rw [(gives_pure.1 given).2]

theorem note {n : Note} : Treads sites born t (Edit.note n) :=
  still fun _ _ given => by rw [Edit.gives_note.1 given]

theorem andThen {e : Edit α β} {f : β → Edit α γ} (first : Treads sites born t e)
    (rest : ∀ b u, t.document.Consistent → born ≤ t.document.births → u.document.Consistent → Gives e t b u →
      Treads sites born u (f b)) : Treads sites born t (e >>= f) := by
  intro consistent younger c t' given
  obtain ⟨b, u, early, late⟩ := gives_bind.1 given
  have strides := first consistent younger b u early
  have consistent' := strides.consistent consistent
  exact strides.trans
    (rest b u consistent younger consistent' early consistent' (Nat.le_trans younger strides.births_le) c t' late)

theorem bind {e : Edit α β} {f : β → Edit α γ} (first : Treads sites born t e)
    (rest : ∀ b u, Gives e t b u → Treads sites born u (f b)) : Treads sites born t (e >>= f) :=
  first.andThen fun b u _ _ _ => rest b u

theorem discard {e : Edit α β} (treads : Treads sites born t e) : Treads sites born t (Functor.discard e) := by
  intro consistent born _ t' given
  obtain ⟨b, given⟩ := gives_discard.1 given
  exact treads consistent born b t' given

/-- An edit that looks at the document and goes on. -/
theorem document {f : Document α → Edit α γ} (rest : Treads sites born t (f t.document)) :
    Treads sites born t (Edit.document >>= f) := by
  refine .bind (.still fun _ _ given => by rw [(Edit.gives_document.1 given).2]) fun d u given => ?_
  obtain ⟨rfl, rfl⟩ := Edit.gives_document.1 given
  exact rest

/-- An edit that does its work at one stroke. -/
theorem stroke {e : Edit α β} (walks : Walks ⟨true, false⟩ t e)
    (stroke : t.document.Consistent → ∀ b t', Gives e t b t' → Stroke sites born t.document t'.document) :
    Treads sites born t e := by
  intro consistent _ b t' given
  have steps := walks consistent b t' given
  exact .single ⟨consistent, consistent.steps steps, Steps.births_le steps, stroke consistent b t' given⟩

end Treads

namespace Edit
variable {t t' : Transaction α} {id : String} {change : Element α → Element α} {b : Unit}

theorem changes_update (keeps : Element.KeepsPlace change) (given : Gives (update id change) t b t') :
    t.document.Changes id change t'.document := by
  obtain ⟨_, _, _, rfl⟩ := gives_update.1 given
  exact Document.changes_modify keeps

theorem changes_moveStart {p : Endpoint α} (given : Gives (moveStart id p) t b t') :
    t.document.Changes id (Element.setStart p) t'.document := by
  obtain ⟨_, u, updated, connected⟩ := gives_bind.1 given
  rw [gives_change.1 connected]
  exact (changes_update Element.keepsPlace_setStart updated).connect

theorem changes_moveStop {p : Endpoint α} (given : Gives (moveStop id p) t b t') :
    t.document.Changes id (Element.setStop p) t'.document := by
  obtain ⟨_, u, updated, connected⟩ := gives_bind.1 given
  rw [gives_change.1 connected]
  exact (changes_update Element.keepsPlace_setStop updated).connect

/-- Marking a node as a label of the edge around it changes the node only. -/
theorem changes_markLabel {edge : String} {label : LabelPlacement α} (nested : t.document.parentOf id = some edge)
    (given : Gives (markLabel edge id label) t b t') :
    t.document.Changes id (Element.mapNode fun content => { content with label := some label }) t'.document := by
  have keeps : Element.KeepsPlace (Element.mapNode fun content : NodeContent α => { content with label := some label }) :=
    Element.keepsPlace_mapNode
  simp only [markLabel, gives_bind, gives_element] at given
  obtain ⟨_, u, changed, e, _, ⟨found, rfl⟩, given⟩ := given
  have changes : t.document.Changes id _ u.document := changes_update keeps changed
  have parent : e.parent = some edge := by
    rw [changes.find?, if_pos rfl] at found
    obtain ⟨p, former, rfl⟩ := Option.map_eq_some_iff.1 found
    rw [Document.parentOf, former, Option.bind_some] at nested
    exact (keeps.parent p).trans nested
  rw [if_neg (not_not_intro parent)] at given
  obtain ⟨_, rfl⟩ := gives_pure.1 given
  exact changes

end Edit

/-- The edit revises one element in its place, wherever it ends without a fault. -/
def Revises {β : Type} (id : String) (t : Transaction α) (e : Edit α β) : Prop :=
  ∀ b t', Gives e t b t' → ∃ change, Element.KeepsBuild change ∧ t.document.Changes id change t'.document

omit [Coordinate α] in
theorem Revises.contains {β : Type} {id x : String} {t t' : Transaction α} {e : Edit α β} {b : β}
    (revises : Revises id t e) (given : Gives e t b t') : t'.document.contains x = t.document.contains x := by
  obtain ⟨change, _, changes⟩ := revises b t' given
  unfold Document.contains
  rw [changes.find?]
  split
  · exact Option.isSome_map
  · rfl

/-- The edit revises one element in its place, and does this to its props and its metadata. -/
def Recasts {β : Type} (id : String) (t : Transaction α) (e : Edit α β) (props metadata : Props → Props) : Prop :=
  ∀ b t', Gives e t b t' → ∃ change, Element.KeepsBuild change ∧ t.document.Changes id change t'.document ∧
    ∀ p, (change p).props = props p.props ∧ (change p).metadata = metadata p.metadata

/-- Revising the element of a site as its declaration says takes one stride. -/
theorem Recasts.treads {β : Type} {sites : List Site} {born : Nat} {t : Transaction α} {s : Site} {e : Edit α β}
    (recasts : Recasts s.id t e s.head.mergedProps s.head.mergedMetadata) (walks : Walks ⟨true, false⟩ t e)
    (known : s ∈ sites) : Treads sites born t e := by
  refine .stroke walks fun _ b t' given => ?_
  obtain ⟨change, keeps, changes, entries⟩ := recasts b t' given
  exact .revise s change known keeps changes entries

/-- The edit revises one element in its place, but for its props and its metadata. -/
def Reshapes {β : Type} (id : String) (t : Transaction α) (e : Edit α β) : Prop :=
  Recasts id t e (fun p => p) fun p => p

namespace Recasts
variable {β γ : Type} {id : String} {t : Transaction α} {f g f' g' : Props → Props}

omit [Coordinate α] in
theorem revises {e : Edit α β} (recasts : Recasts id t e f g) : Revises id t e := fun b t' given =>
  (recasts b t' given).imp fun _ all => ⟨all.1, all.2.1⟩

omit [Coordinate α] in
theorem once {e : Edit α β} {change : Element α → Element α} (keeps : Element.KeepsBuild change)
    (entries : ∀ p, (change p).props = f p.props ∧ (change p).metadata = g p.metadata)
    (changes : ∀ b t', Gives e t b t' → t.document.Changes id change t'.document) : Recasts id t e f g :=
  fun b t' given => ⟨change, keeps, changes b t' given, entries⟩

omit [Coordinate α] in
theorem bind {e : Edit α β} {h : β → Edit α γ} (first : Recasts id t e f g)
    (rest : ∀ b u, Gives e t b u → Recasts id u (h b) f' g') :
    Recasts id t (e >>= h) (fun p => f' (f p)) fun p => g' (g p) := by
  intro c t' given
  obtain ⟨b, u, early, late⟩ := gives_bind.1 given
  obtain ⟨change, keeps, changes, entries⟩ := first b u early
  obtain ⟨change', keeps', changes', entries'⟩ := rest b u early c t' late
  refine ⟨_, keeps'.comp keeps, changes.trans changes', fun p => ?_⟩
  rw [Function.comp_apply, (entries' _).1, (entries' _).2, (entries p).1, (entries p).2]
  exact ⟨rfl, rfl⟩

omit [Coordinate α] in
/-- What reshapes the element afterwards leaves its props and its metadata. -/
theorem reshaped {e : Edit α β} {h : β → Edit α γ} (first : Recasts id t e f g)
    (rest : ∀ b u, Gives e t b u → Reshapes id u (h b)) : Recasts id t (e >>= h) f g :=
  first.bind rest

end Recasts

namespace Reshapes
variable {β γ : Type} {id : String} {t : Transaction α} {f g : Props → Props}

omit [Coordinate α] in
/-- An edit that leaves the document as it is. -/
theorem still {e : Edit α β} (same : ∀ b t', Gives e t b t' → t'.document = t.document) : Reshapes id t e :=
  Recasts.once .same (fun _ => ⟨rfl, rfl⟩) fun b t' given => same b t' given ▸ .refl _ id

omit [Coordinate α] in
theorem pure {b : β} : Reshapes id t (Pure.pure b) :=
  still fun _ _ given => by rw [(gives_pure.1 given).2]

omit [Coordinate α] in
theorem bind {e : Edit α β} {h : β → Edit α γ} (first : Reshapes id t e)
    (rest : ∀ b u, Gives e t b u → Recasts id u (h b) f g) : Recasts id t (e >>= h) f g :=
  Recasts.bind first rest

/-- A change of the content alone. -/
theorem content {change : Element α → Element α} (keeps : Element.KeepsBuild change)
    (entries : ∀ p, (change p).props = p.props ∧ (change p).metadata = p.metadata) :
    Reshapes id t (Edit.update id change) :=
  Recasts.once keeps entries fun _ _ => Edit.changes_update keeps.toKeepsPlace

end Reshapes

namespace Reconcile
variable {t : Transaction α} {id : String} {d : Declaration}

theorem recasts_editMetadata (f : Props → Props) : Recasts id t (Edit.editMetadata id f) (fun p => p) f := by
  have keeps : Element.KeepsBuild fun e : Element α => { e with metadata := f e.metadata } := .metadata
  exact .once keeps (fun _ => ⟨rfl, rfl⟩) fun _ _ => Edit.changes_update keeps.toKeepsPlace

theorem recasts_editProps (f : Props → Props) : Recasts id t (Edit.editProps id f) f fun p => p := by
  have keeps : Element.KeepsBuild fun e : Element α => { e with props := f e.props } := .props
  exact .once keeps (fun _ => ⟨rfl, rfl⟩) fun _ _ => Edit.changes_update keeps.toKeepsPlace

theorem recasts_mergeProps : Recasts id t (mergeProps id d) d.mergedProps fun p => p := by
  unfold mergeProps Declaration.mergedProps
  cases filled d.props with
  | none => exact Reshapes.pure
  | some props => exact recasts_editProps fun p => p.merge true props

theorem recasts_mergeStyles : Recasts id t (mergeStyles id d) (fun p => p) d.mergedMetadata := by
  have stage {u : Transaction α} {γ : Type} (given : Option γ) (f : γ → Props → Props) :
      Recasts id u (given.elim (Pure.pure ()) fun c => Edit.editMetadata id (f c)) (fun p => p)
        fun p => given.elim p fun c => f c p := by
    cases given with
    | none => exact Reshapes.pure
    | some c => exact recasts_editMetadata (f c)
  have style (key : String) (text : Option String) (p : Props) :
      ((spoken text).elim p fun _ => withText key text p) = withText key text p := by
    unfold withText
    cases spoken text <;> rfl
  rw [mergeStyles_eq]
  have all := (stage (u := t) (filled d.metadata) fun m p => p.overlay m).bind fun _ v _ =>
    (stage (u := v) (spoken d.style) fun _ => withText "style" d.style).bind fun _ w _ =>
      stage (u := w) (spoken d.textStyle) fun _ => withText "textStyle" d.textStyle
  simp only [style] at all
  exact all

theorem reshapes_putType {shape : String} : Reshapes id t (Edit.putType id shape) := by
  refine .content (.mapNode (fun _ => rfl) fun _ => rfl) fun p => ?_
  obtain ⟨_, _, content, _, _, _, _⟩ := p
  cases content <;> exact ⟨rfl, rfl⟩

theorem reshapes_putText {text : String} : Reshapes id t (Edit.putText id text) := by
  refine .content (.mapNode (fun _ => rfl) fun _ => rfl) fun p => ?_
  obtain ⟨_, _, content, _, _, _, _⟩ := p
  cases content <;> exact ⟨rfl, rfl⟩

omit [Coordinate α] in
theorem reshapes_note {n : Note} : Reshapes id t (Edit.note n) :=
  .still fun _ _ given => by rw [Edit.gives_note.1 given]

theorem reshapes_record {e : Element α} : Reshapes id t (Edit.record e) :=
  .still fun _ _ given => by rw [(Edit.gives_record.1 given).2]

theorem reshapes_type {content : NodeContent α} {shape : String} :
    Reshapes id t (if shape ≠ content.type then Edit.putType id shape else Pure.pure ()) := by
  split
  · exact reshapes_putType
  · exact .pure

theorem reshapes_text {content : NodeContent α} {name : Option String} : Reshapes id t (name.elim (Pure.pure ())
    fun name => if name ≠ content.text then Edit.putText id name else Pure.pure ()) := by
  cases name with
  | none => exact .pure
  | some name =>
    dsimp only [Option.elim]
    split
    · exact reshapes_putText
    · exact .pure

theorem recasts_reviseNode {e : Element α} {content : NodeContent α} {shape : String} {name : Option String} :
    Recasts e.id t (reviseNode e content d shape name) d.mergedProps d.mergedMetadata := by
  rw [reviseNode_eq]
  exact reshapes_note.bind fun _ _ _ => reshapes_record.bind fun _ _ _ => reshapes_type.bind fun _ _ _ =>
    reshapes_text.bind fun _ _ _ => recasts_mergeProps.bind fun _ _ _ => recasts_mergeStyles

theorem revises_reviseNode {e : Element α} {content : NodeContent α} {shape : String} {name : Option String} :
    Revises e.id t (reviseNode e content d shape name) :=
  recasts_reviseNode.revises

omit [Coordinate α] in
theorem reshapes_aim {name : Option String} {move : String → Edit α Unit}
    (moves : ∀ (u : Transaction α) node, Reshapes id u (move node)) : Reshapes id t (aim name move) := by
  have named : Reshapes id t (nodeNamed name) := .still fun _ _ given => by rw [(mem_of_nodeNamed given).1]
  refine named.bind fun o u _ => ?_
  cases o with
  | none => exact Reshapes.pure
  | some node => exact moves u node

theorem reshapes_moveStart {p : Endpoint α} : Reshapes id t (Edit.moveStart id p) := by
  refine Recasts.once .setStart (fun q => ?_) fun _ _ => Edit.changes_moveStart
  obtain ⟨_, _, content, _, _, _, _⟩ := q
  cases content <;> exact ⟨rfl, rfl⟩

theorem reshapes_moveStop {p : Endpoint α} : Reshapes id t (Edit.moveStop id p) := by
  refine Recasts.once .setStop (fun q => ?_) fun _ _ => Edit.changes_moveStop
  obtain ⟨_, _, content, _, _, _, _⟩ := q
  cases content <;> exact ⟨rfl, rfl⟩

theorem recasts_redraw {e : Element α} {source target : Option String} :
    Recasts e.id t (redraw e d source target) d.mergedProps d.mergedMetadata :=
  reshapes_note.bind fun _ _ _ => reshapes_record.bind fun _ _ _ =>
    recasts_mergeProps.bind fun _ _ _ => recasts_mergeStyles.reshaped fun _ _ _ =>
    (reshapes_aim fun _ _ => reshapes_moveStart).bind fun _ _ _ => reshapes_aim fun _ _ => reshapes_moveStop

theorem revises_redraw {e : Element α} {source target : Option String} :
    Revises e.id t (redraw e d source target) :=
  recasts_redraw.revises

end Reconcile
end LiveDiagram
