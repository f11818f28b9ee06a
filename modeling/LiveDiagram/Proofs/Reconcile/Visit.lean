import LiveDiagram.Reconcile
import LiveDiagram.Proofs.Edit.Labels

/-! A pass over a forest as steps. It updates elements in place, brings new ones in under elements that are there,
and takes whole subtrees out; it never moves an element. -/
namespace LiveDiagram

variable {α : Type} [Coordinate α]

/-- From a consistent document the edit goes by steps, wherever it ends without a fault. -/
def Walks {β : Type} (terms : Terms) (t : Transaction α) (e : Edit α β) : Prop :=
  t.document.Consistent → ∀ b t', Gives e t b t' → Steps terms t t'

namespace Walks
variable {β γ : Type} {terms : Terms} {t : Transaction α}

theorem pure {b : β} : Walks terms t (Pure.pure b) := by
  intro _ _ _ given
  exact (gives_pure.1 given).2 ▸ .refl

theorem andThen {e : Edit α β} {f : β → Edit α γ} (first : Walks terms t e)
    (rest : ∀ b u, t.document.Consistent → Gives e t b u → Steps terms t u → Walks terms u (f b)) :
    Walks terms t (e >>= f) := by
  intro consistent c t' given
  obtain ⟨b, u, early, late⟩ := gives_bind.1 given
  have steps := first consistent b u early
  exact steps.trans (rest b u consistent early steps (consistent.steps steps) c t' late)

theorem bind {e : Edit α β} {f : β → Edit α γ} (first : Walks terms t e)
    (rest : ∀ b u, Gives e t b u → Walks terms u (f b)) : Walks terms t (e >>= f) :=
  first.andThen fun b u _ given _ => rest b u given

theorem discard {e : Edit α β} (walks : Walks terms t e) : Walks terms t (Functor.discard e) := by
  intro consistent _ t' given
  obtain ⟨b, given⟩ := gives_discard.1 given
  exact walks consistent b t' given

theorem note {n : Note} : Walks terms t (Edit.note n) := by
  intro _ _ _ given
  rw [Edit.gives_note.1 given]
  exact .single (.say t _)

theorem document : Walks terms t Edit.document := by
  intro _ _ _ given
  exact (Edit.gives_document.1 given).2 ▸ .refl

theorem record {e : Element α} (found : t.document.find? e.id = some e) : Walks terms t (Edit.record e) := by
  intro _ _ _ given
  obtain ⟨_, rfl⟩ := Edit.gives_record.1 given
  rw [← Document.state?_of_find? found]
  exact .single (.record t e.id)

theorem remove {id : String} : Walks terms t (Edit.remove id) :=
  fun consistent _ _ given => (Edit.remove_steps terms consistent given).2.1

theorem putLabel {config : Config α} {edge text : String} {keep : List String} :
    Walks terms t (Edit.putLabel config edge text keep) :=
  fun consistent _ _ => Edit.putLabel_steps terms consistent

end Walks

/-- The dictionaries of a declaration have no key twice. -/
def Declaration.Tidy (d : Declaration) : Prop :=
  (∀ props, d.props = some props → props.Tidy) ∧ ∀ metadata, d.metadata = some metadata → metadata.Tidy

/-- All dictionaries of a forest have no key twice. -/
def Forest.Tidy (f : Forest) : Prop :=
  ∀ d ∈ f.preorder, d.Tidy

namespace Reconcile
variable {terms : Terms} {t : Transaction α} {d : Declaration}

omit [Coordinate α] in
theorem tidy_withText {key : String} {text : Option String} {metadata : Props} (tidy : metadata.Tidy) :
    (withText key text metadata).Tidy := by
  unfold withText
  cases spoken text with
  | none => exact tidy
  | some t => exact tidy.set trivial

theorem walks_mergeProps {id : String} (tidy : terms.tidy = true → d.Tidy) : Walks terms t (mergeProps id d) := by
  unfold mergeProps
  split
  · next props held =>
    refine fun _ _ _ given => Edit.editProps_steps terms given fun strict p own => own.merge ?_
    exact (tidy strict).1 props (Option.eq_some_of_filter_eq_some held)
  · exact .pure

/-- Metadata and styles are brought to an element in three stages, each of which may have nothing to bring. -/
theorem mergeStyles_eq {id : String} : (mergeStyles id d : Edit α Unit) = (do
    (filled d.metadata).elim (pure ()) fun m => Edit.editMetadata id (Props.overlay · m)
    (spoken d.style).elim (pure ()) fun _ => Edit.editMetadata id (withText "style" d.style)
    (spoken d.textStyle).elim (pure ()) fun _ => Edit.editMetadata id (withText "textStyle" d.textStyle)) := by
  unfold mergeStyles
  cases filled d.metadata <;> cases spoken d.style <;> cases spoken d.textStyle <;> rfl

theorem walks_mergeStyles {id : String} (tidy : terms.tidy = true → d.Tidy) : Walks terms t (mergeStyles id d) := by
  have stage {u : Transaction α} {γ : Type} (given : Option γ) (f : γ → Props → Props)
      (keeps : ∀ c, given = some c → terms.tidy = true → ∀ p : Props, p.Tidy → (f c p).Tidy) :
      Walks terms u (given.elim (Pure.pure ()) fun c => Edit.editMetadata id (f c)) := by
    cases given with
    | none => exact .pure
    | some c => exact fun _ _ _ given => Edit.editMetadata_steps terms given (keeps c rfl)
  rw [mergeStyles_eq]
  exact .bind
    (stage _ (fun m p => p.overlay m) fun m given strict p own =>
      own.overlay ((tidy strict).2 m (Option.eq_some_of_filter_eq_some given)))
    fun _ _ _ => .bind (stage _ (fun _ => withText "style" d.style) fun _ _ _ _ own => tidy_withText own)
      fun _ _ _ => stage _ (fun _ => withText "textStyle" d.textStyle) fun _ _ _ _ own => tidy_withText own

/-- A node is revised in stages: its shape, its text, its props, its metadata and styles. -/
theorem reviseNode_eq {e : Element α} {content : NodeContent α} {shape : String} {name : Option String} :
    reviseNode e content d shape name = (do
      Edit.note (.updating e.tag)
      Edit.record e
      (if shape ≠ content.type then Edit.putType e.id shape else pure ())
      name.elim (pure ()) (fun name => if name ≠ content.text then Edit.putText e.id name else pure ())
      mergeProps e.id d
      mergeStyles e.id d) := by
  refine bind_congr fun _ => bind_congr fun _ => ?_
  cases name with
  | none => by_cases type : shape = content.type <;> simp [type]
  | some name => by_cases type : shape = content.type <;> by_cases text : name = content.text <;> simp [type, text]

theorem walks_reviseNode {e : Element α} {content : NodeContent α} {d : Declaration} {shape : String}
    {name : Option String} (found : t.document.find? e.id = some e) (tidy : terms.tidy = true → d.Tidy) :
    Walks terms t (reviseNode e content d shape name) := by
  have type {u : Transaction α} : Walks terms u
      (if shape ≠ content.type then Edit.putType e.id shape else Pure.pure ()) := by
    split
    · exact fun _ _ _ => Edit.putType_steps terms
    · exact .pure
  have text {u : Transaction α} : Walks terms u (name.elim (Pure.pure ()) fun name =>
      if name ≠ content.text then Edit.putText e.id name else Pure.pure ()) := by
    cases name with
    | none => exact .pure
    | some name =>
      dsimp only [Option.elim]
      split
      · exact fun _ _ _ => Edit.putText_steps terms
      · exact .pure
  rw [reviseNode_eq]
  refine .bind .note fun _ u noted => .bind (.record ?_) fun _ _ _ => .bind type fun _ _ _ => .bind text fun _ _ _ =>
    .bind (walks_mergeProps tidy) fun _ _ _ => walks_mergeStyles tidy
  rw [Edit.gives_note.1 noted]
  exact found

theorem walks_dropLabels {edge : String} {listed : List String} : Walks terms t (dropLabels edge listed) := by
  intro consistent b t' given
  simp only [dropLabels, gives_bind, Edit.gives_document] at given
  obtain ⟨_, _, ⟨rfl, rfl⟩, given⟩ := given
  split at given
  · simp only [gives_bind, List.partition_eq_filter_filter] at given
    obtain ⟨_, u, removed, chosen⟩ := given
    obtain ⟨early, stays⟩ := Edit.removeAll_steps terms consistent removed
    exact early.trans (Edit.keepLabels_steps terms consistent stays chosen)
  · exact (gives_pure.1 given).2 ▸ .refl

omit [Coordinate α] in
theorem mem_of_nodeNamed {name : Option String} {o : Option String} {t' : Transaction α}
    (given : Gives (nodeNamed name) t o t') :
    t = t' ∧ ∀ node, o = some node → (t.document.node? node).isSome = true := by
  simp only [nodeNamed, gives_bind, Edit.gives_document, gives_pure] at given
  obtain ⟨_, _, ⟨rfl, rfl⟩, rfl, rfl⟩ := given
  refine ⟨rfl, fun node same => ?_⟩
  obtain ⟨e, found, rfl⟩ := Option.map_eq_some_iff.1 same
  obtain ⟨n, _, lookup⟩ := Option.bind_eq_some_iff.1 found
  have named : e.id = n := Document.find?_eq_some_id (Option.eq_some_of_filter_eq_some lookup)
  rw [named, lookup]
  rfl

theorem walks_nodeNamed {name : Option String} : Walks terms t (nodeNamed name) := by
  intro _ _ _ given
  exact (mem_of_nodeNamed given).1 ▸ .refl

/-- An end goes to the node of a name, if there is one. -/
def aim (name : Option String) (move : String → Edit α Unit) : Edit α Unit :=
  nodeNamed name >>= fun node? => node?.elim (pure ()) move

/-- What the update of an edge does before it comes to the labels. -/
def redraw (e : Element α) (d : Declaration) (source target : Option String) : Edit α Unit := do
  Edit.note (.updating e.tag)
  Edit.record e
  mergeProps e.id d
  mergeStyles e.id d
  aim source fun node => Edit.moveStart e.id (.atCenter node)
  aim target fun node => Edit.moveStop e.id (.atCenter node)

theorem reviseEdge_eq {config : Config α} {e : Element α} {source target label : Option String}
    {listed : List String} : reviseEdge config e d source target label listed = (do
      redraw e d source target
      label.elim (dropLabels e.id listed) fun text => discard (Edit.putLabel config e.id text listed)) := by
  unfold redraw aim
  simp only [bind_assoc]
  refine bind_congr fun _ => bind_congr fun _ => bind_congr fun _ => bind_congr fun _ => bind_congr fun start => ?_
  cases start with
  | none =>
    rw [Option.elim, pure_bind]
    refine bind_congr fun stop => ?_
    cases stop <;> cases label <;> simp
  | some node =>
    refine bind_congr fun _ => bind_congr fun stop => ?_
    cases stop <;> cases label <;> simp

theorem walks_aim {name : Option String} {move : String → Edit α Unit}
    (moves : ∀ node, (t.document.node? node).isSome = true → Walks terms t (move node)) :
    Walks terms t (aim name move) := by
  refine .bind walks_nodeNamed fun o _ named => ?_
  obtain ⟨rfl, there⟩ := mem_of_nodeNamed named
  cases o with
  | none => exact .pure
  | some node => exact moves node (there node rfl)

theorem walks_redraw {e : Element α} {d : Declaration} {source target : Option String}
    (found : t.document.find? e.id = some e) (tidy : terms.tidy = true → d.Tidy) :
    Walks terms t (redraw e d source target) := by
  refine .bind .note fun _ u noted => .bind (.record ?_) fun _ _ _ => .bind (walks_mergeProps tidy) fun _ _ _ =>
    .bind (walks_mergeStyles tidy) fun _ _ _ =>
    .bind (walks_aim fun _ fits consistent _ _ => Edit.moveStart_steps terms consistent fits) fun _ _ _ =>
    walks_aim fun _ fits consistent _ _ => Edit.moveStop_steps terms consistent fits
  rw [Edit.gives_note.1 noted]
  exact found

theorem walks_reviseEdge {config : Config α} {e : Element α} {d : Declaration} {source target label : Option String}
    {listed : List String} (found : t.document.find? e.id = some e) (tidy : terms.tidy = true → d.Tidy) :
    Walks terms t (reviseEdge config e d source target label listed) := by
  rw [reviseEdge_eq]
  refine .bind (walks_redraw found tidy) fun _ _ _ => ?_
  cases label with
  | none => exact walks_dropLabels
  | some text => exact .discard .putLabel

/-- An end of a new edge is free or at a node that is there. -/
theorem newEnd_fits (terms : Terms) {name : Option String} {free unresolved : Point α} {p : Endpoint α} {t' : Transaction α}
    (given : Gives (newEnd name free unresolved) t p t') :
    t'.document = t.document ∧ t'.document.Fits p ∧ Steps terms t t' := by
  unfold newEnd at given
  split at given
  · obtain ⟨rfl, rfl⟩ := gives_pure.1 given
    exact ⟨rfl, trivial, .refl⟩
  · obtain ⟨o, u, named, given⟩ := gives_bind.1 given
    obtain ⟨rfl, there⟩ := mem_of_nodeNamed named
    split at given
    · next node =>
      obtain ⟨rfl, rfl⟩ := gives_pure.1 given
      exact ⟨rfl, there node rfl, .refl⟩
    · simp only [gives_bind, Edit.gives_note, gives_pure] at given
      obtain ⟨_, _, rfl, rfl, rfl⟩ := given
      exact ⟨rfl, trivial, .single (.say _ _)⟩

/-- A handle of an element that was registered. -/
def Older (t : Transaction α) (h : Handle) : Prop :=
  h.birth < t.document.births

omit [Coordinate α] in
theorem older_of_find? {id : String} {e : Element α} (consistent : t.document.Consistent)
    (found : t.document.find? id = some e) : Older t e.handle :=
  consistent.births_lt e.handle (List.mem_map_of_mem (Document.mem_of_find? found))

theorem Older.steps {h : Handle} {t' : Transaction α} (older : Older t h) (steps : Steps terms t t') : Older t' h :=
  Nat.lt_of_lt_of_le older (Steps.births_le steps)

theorem walks_insert {id : String} {content : Content α} {props metadata : Props} {parent : Option Handle}
    (fits : ∀ relation p, (Element.new id content props metadata).end? relation = some p → t.document.Fits p)
    (older : ∀ h, parent = some h → Older t h) (tidy : terms.tidy = true → props.Tidy ∧ metadata.Tidy) :
    Walks terms t (Edit.insert (.new id content props metadata) parent) :=
  fun consistent _ _ given => (Edit.insert_steps terms consistent rfl rfl fits older tidy given).2.2.2

omit [Coordinate α] in
theorem end?_new_node {id : String} {content : NodeContent α} {props metadata : Props} {relation : Relation} :
    (Element.new id (.node content) props metadata).end? relation = none := by
  cases relation <;> rfl

omit [Coordinate α] in
theorem end?_new_edge {id : String} {start stop p : Endpoint α} {props metadata : Props} {relation : Relation}
    (ending : (Element.new id (.edge start stop) props metadata).end? relation = some p) : p = start ∨ p = stop := by
  cases relation <;> cases ending
  · exact .inl rfl
  · exact .inr rfl

/-- A new edge comes in with ends that fit. -/
theorem newEnds_fit (terms : Terms) {source target : Option String} {free unresolved free' unresolved' : Point α}
    {start stop : Endpoint α} {u v : Transaction α} (started : Gives (newEnd source free unresolved) t start u)
    (stopped : Gives (newEnd target free' unresolved') u stop v) :
    v.document = t.document ∧ Steps terms t v ∧ ∀ {id : String} {props metadata : Props} relation p,
      (Element.new id (.edge start stop) props metadata).end? relation = some p → v.document.Fits p := by
  obtain ⟨same, fits, steps⟩ := newEnd_fits terms started
  obtain ⟨same', fits', steps'⟩ := newEnd_fits terms stopped
  refine ⟨same'.trans same, steps.trans steps', fun relation p ending => ?_⟩
  rcases end?_new_edge ending with rfl | rfl
  · exact same' ▸ fits
  · exact fits'

/-- A new node under an edge is in its place there already when it is marked as a label. -/
theorem walks_create {config : Config α} {parent : Option Handle} {reference : Option (Bounds α)} {d : Declaration}
    (older : ∀ h, parent = some h → Older t h) (tidy : terms.tidy = true → d.Tidy) :
    Walks terms t (create config parent reference d) := by
  have entries (strict : terms.tidy = true) :
      (d.props.getD .nil).Tidy ∧ (styled d (d.metadata.getD .nil)).Tidy := by
    obtain ⟨props, metadata⟩ := tidy strict
    refine ⟨?_, tidy_withText (tidy_withText ?_)⟩
    · cases given : d.props with
      | none => trivial
      | some p => exact props p given
    · cases given : d.metadata with
      | none => trivial
      | some p => exact metadata p given
  unfold create
  refine .andThen .note ?_
  intro _ u _ _ noted
  have older := fun h same => (older h same).steps noted
  split
  · refine .bind .document ?_
    rintro _ v looked
    obtain ⟨_, rfl⟩ := Edit.gives_document.1 looked
    refine .andThen (walks_insert (by simp [end?_new_node]) older entries) ?_
    intro _ v consistent inserted _
    obtain ⟨_, _, entered, _⟩ :=
      Edit.insert_steps terms consistent rfl rfl (by simp [end?_new_node]) older (by exact entries) inserted
    cases parent with
    | none => exact .pure
    | some parent =>
      refine .bind .document ?_
      intro _ w looked
      obtain ⟨_, rfl⟩ := Edit.gives_document.1 looked
      split
      · refine fun _ _ _ marked => (Edit.markLabel_steps terms (.inr ?_) marked).1
        rw [entered, Document.parentOf_enter]
        exact if_pos rfl
      · exact .pure
  · refine .bind (fun _ _ _ given => (newEnd_fits terms given).2.2) ?_
    intro start v started
    refine .bind (fun _ _ _ given => (newEnd_fits terms given).2.2) ?_
    intro stop w stopped
    obtain ⟨_, steps, ends⟩ := newEnds_fit terms started stopped
    refine .bind (walks_insert ends (fun h same => (older h same).steps steps) entries) ?_
    intro _ _ _
    split
    · exact .discard .putLabel
    · exact .pure

theorem walks_visitOne {config : Config α} {parent : Option Handle} {reference : Option (Bounds α)} {d : Declaration}
    {listed : List String} (older : ∀ h, parent = some h → Older t h) (tidy : terms.tidy = true → d.Tidy) :
    Walks terms t (visitOne config parent reference d listed) := by
  unfold visitOne
  refine .bind .document ?_
  intro _ u looked
  obtain ⟨rfl, rfl⟩ := Edit.gives_document.1 looked
  split
  · refine .bind (walks_create older tidy) fun _ _ _ => .bind ?_ fun _ _ _ => .pure
    intro _ _ _ given
    exact (Edit.gives_element.1 given).2 ▸ .refl
  · next e found =>
    have own : t.document.find? e.id = some e := Document.find?_eq_some_id found ▸ found
    split
    · exact .bind (walks_reviseNode own tidy) fun _ _ _ => .pure
    · exact .bind (walks_reviseEdge own tidy) fun _ _ _ => .pure
    · exact .bind .note fun _ _ _ => .pure

/-- The handle that a visit gives is that of the element of the declaration. -/
theorem handle_visitOne {config : Config α} {parent : Option Handle} {reference : Option (Bounds α)} {d : Declaration}
    {listed : List String} {h : Handle} {t' : Transaction α} (older : ∀ h, parent = some h → Older t h)
    (consistent : t.document.Consistent)
    (given : Gives (visitOne config parent reference d listed) t (some h) t') : Older t' h ∧ h.id = d.id := by
  have steps : Steps ⟨true, false⟩ t t' := walks_visitOne older (by simp) consistent _ _ given
  simp only [visitOne, gives_bind, Edit.gives_document] at given
  obtain ⟨_, _, ⟨rfl, rfl⟩, given⟩ := given
  split at given
  · simp only [gives_bind, Edit.gives_element, gives_pure] at given
    obtain ⟨_, u, _, e, _, ⟨found, rfl⟩, same, rfl⟩ := given
    cases same
    exact ⟨older_of_find? (consistent.steps steps) found, Document.find?_eq_some_id found⟩
  · next e found =>
    have mine : Older t' e.handle ∧ e.handle.id = d.id :=
      ⟨(older_of_find? consistent found).steps steps, Document.find?_eq_some_id found⟩
    split at given
    · simp only [gives_bind, gives_pure] at given
      obtain ⟨_, _, _, same, rfl⟩ := given
      cases same
      exact mine
    · simp only [gives_bind, gives_pure] at given
      obtain ⟨_, _, _, same, rfl⟩ := given
      cases same
      exact mine
    · simp only [gives_bind, gives_pure] at given
      obtain ⟨_, _, _, same, _⟩ := given
      cases same

theorem walks_visit {config : Config α} {parent : Option Handle} {reference : Option (Bounds α)} {f : Forest}
    (older : ∀ h, parent = some h → Older t h) (tidy : terms.tidy = true → f.Tidy) :
    Walks terms t (visit config parent reference f) := by
  induction f generalizing t parent reference with
  | nil => exact .pure
  | cons d children rest first second =>
    have own (strict : terms.tidy = true) : d.Tidy := tidy strict d List.mem_cons_self
    have below (strict : terms.tidy = true) : children.Tidy := fun other member =>
      tidy strict other (List.mem_cons_of_mem d (List.mem_append_left _ member))
    have after (strict : terms.tidy = true) : rest.Tidy := fun other member =>
      tidy strict other (List.mem_cons_of_mem d (List.mem_append_right _ member))
    unfold visit
    refine .andThen (walks_visitOne older own) ?_
    intro o u consistent visited steps
    have older' := fun h same => (older h same).steps steps
    cases o with
    | none => exact second older' after
    | some handle =>
      have mine : Older u handle := (handle_visitOne older consistent visited).1
      refine .bind .document ?_
      intro _ v looked
      obtain ⟨rfl, rfl⟩ := Edit.gives_document.1 looked
      refine .andThen (first (by rintro _ ⟨⟩; exact mine) below) ?_
      exact fun _ _ _ _ steps => second (fun h same => (older' h same).steps steps) after

theorem walks_removeOthers {ids : List String} : Walks terms t (removeOthers ids) := by
  unfold removeOthers
  refine .bind .document ?_
  intro d u looked
  obtain ⟨rfl, rfl⟩ := Edit.gives_document.1 looked
  intro consistent _ t' given
  refine given.forM (fun u => Steps terms t u) .refl ?_
  intro id _ u u' steps removed
  have walks : Walks terms u (do Edit.note (.removing id); Edit.remove id) := .bind .note fun _ _ _ => .remove
  exact steps.trans (walks (consistent.steps steps) _ _ removed)

end Reconcile
end LiveDiagram
