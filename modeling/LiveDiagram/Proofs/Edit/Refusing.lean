import LiveDiagram.Proofs.Edit.Classifying
import LiveDiagram.Proofs.Endings
import LiveDiagram.Proofs.Reconcile.Relabelling

/-! Edits that stop. A closed transaction refuses an edit before it changes anything, and from an open one an edit stops
only at a check that it begins with. So an edit that stops leaves the document and the ledger as they were. -/
namespace LiveDiagram

variable {α : Type}

/-- The document and the ledger are as they were. Notes may have been taken and ids drawn. -/
structure Transaction.Untouched (t t' : Transaction α) : Prop where
  document : t'.document = t.document
  ledger : t'.ledger = t.ledger

namespace Transaction.Untouched
variable {t u t' : Transaction α}

theorem refl (t : Transaction α) : t.Untouched t := ⟨rfl, rfl⟩

theorem trans (first : t.Untouched u) (second : u.Untouched t') : t.Untouched t' :=
  ⟨second.document.trans first.document, second.ledger.trans first.ledger⟩

end Transaction.Untouched

/-- A closed transaction stops the edit, untouched. -/
def Refused {β : Type} (t : Transaction α) (e : Edit α β) : Prop :=
  t.ledger.closed = true → Ends e t (fun _ _ => False) fun _ u => t.Untouched u

/-- Whether it returns or stops, the edit leaves a closed transaction untouched. -/
def Spared {β : Type} (t : Transaction α) (e : Edit α β) : Prop :=
  t.ledger.closed = true → Ends e t (fun _ u => t.Untouched u) fun _ u => t.Untouched u

namespace Refused
variable {β γ : Type} {t : Transaction α} {e : Edit α β} {f : β → Edit α γ}

/-- What would come next does not matter. -/
theorem bind (refused : Refused t e) : Refused t (e >>= f) := fun closed =>
  (refused closed).bind fun _ _ _ none => none.elim

theorem throw {fault : Fault} : Refused t (throw fault : Edit α β) := fun _ =>
  .throw (.refl t)

theorem andThen {b : β} {u : Transaction α} (given : Gives e t b u) (same : t.Untouched u) (rest : Refused u (f b)) :
    Refused t (e >>= f) := fun closed =>
  .andThen given ((rest (same.ledger ▸ closed)).mono (fun _ _ _ => id) fun _ _ => same.trans)

theorem document {f : Document α → Edit α γ} (rest : Refused t (f t.document)) : Refused t (Edit.document >>= f) :=
  .andThen (Edit.gives_document.2 ⟨rfl, rfl⟩) (.refl t) rest

theorem element {id : String} {f : Element α → Edit α γ}
    (rest : ∀ p, t.document.find? id = some p → Refused t (f p)) : Refused t (Edit.element id >>= f) := by
  cases found : t.document.find? id with
  | some p => exact .andThen (Edit.gives_element.2 ⟨found, rfl⟩) (.refl t) (rest p found)
  | none =>
    refine .bind (.document ?_)
    rw [found]
    exact .throw

theorem requireOpen : Refused t (Edit.requireOpen : Edit α Unit) := by
  intro closed
  refine .andThen (gives_get.2 ⟨rfl, rfl⟩) ?_
  rw [if_pos closed]
  exact .throw (.refl t)

theorem keep {id : String} {state : Option (Snapshot α)} : Refused t (Edit.keep id state) :=
  .bind .requireOpen

/-- A check before the rest. -/
theorem guard {c : Prop} [Decidable c] {fault : Fault} {e : Edit α γ} (rest : Refused t e) :
    Refused t (if c then do { MonadExcept.throw fault; e } else e) := by
  split
  · exact .bind .throw
  · exact rest

theorem forM {f : β → Edit α PUnit} {xs : List β} (nonempty : xs ≠ []) (each : ∀ x, Refused t (f x)) :
    Refused t (xs.forM f) := by
  cases xs with
  | nil => exact (nonempty rfl).elim
  | cons x rest => exact .bind (each x)

theorem freshId {f : String → Edit α γ} (rest : ∀ id u, t.Untouched u → Refused u (f id)) :
    Refused t (Edit.freshId >>= f) :=
  .andThen (show Gives Edit.freshId t _ { t with context := { t.context with ids := t.context.ids.draw.2 } } from rfl)
    ⟨rfl, rfl⟩ (rest _ _ ⟨rfl, rfl⟩)

variable [Coordinate α] {id : String}

theorem record {p : Element α} : Refused t (Edit.record p) :=
  .document .keep

theorem touch {p : Element α} : Refused t (Edit.touch p) :=
  .bind .record

theorem update {change : Element α → Element α} : Refused t (Edit.update id change) :=
  .element fun _ _ => .bind .touch

theorem nest {parent : String} : Refused t (Edit.nest parent id) :=
  .element fun _ _ => .bind .touch

theorem insert {p : Element α} {parent : Option Handle} : Refused t (Edit.insert p parent) :=
  .document (.guard (.bind .keep))

/-- An element that is removed is the first to be recorded. -/
theorem remove : Refused t (Edit.remove id) := by
  refine .element fun p found => .document (.bind (.forM (List.ne_nil_of_mem (a := p) ?_) fun _ => .record))
  exact List.mem_filterMap.2 ⟨id, Document.mem_subtree_self, found⟩

theorem markLabel {edge : String} {label : LabelPlacement α} : Refused t (Edit.markLabel edge id label) :=
  .bind .update

theorem putLabel {config : Config α} {edge text : String} {keep : List String} :
    Refused t (Edit.putLabel config edge text keep) := by
  refine .element fun p found => .guard (.document ?_)
  dsimp only
  split
  · exact .bind .update
  · split
    · next some => exact .bind (.forM (by simpa using some) fun _ => .remove)
    · exact .freshId fun _ _ _ => .bind .insert

end Refused

/-- It makes no difference whether a change is announced before it is made or after: the state is kept before both. -/
theorem Edit.update_eq [Coordinate α] {id : String} {f : Element α → Element α} : Edit.update id f = (do
    let e ← Edit.element id
    Edit.record e
    Edit.change (·.modify id f)
    Edit.announceUpdate e) := by
  refine congrArg (Edit.element id >>= ·) (funext fun e => ?_)
  simp only [Edit.touch, bind_assoc]
  refine ExceptT.ext (funext fun t => ?_)
  cases closed : t.ledger.closed with
  | true =>
    obtain ⟨_, _, _, none⟩ | ⟨_, _, stopped, _⟩ := Refused.record (t := t) (p := e) closed
    · exact none.elim
    · rw [run_bind, run_bind, stopped]
  | false =>
    let u : Transaction α := { t with ledger := t.ledger.keep e.id (some (t.document.snapshot e)) }
    let v : Transaction α := { u with document := u.document.modify id f }
    have recorded : Gives (Edit.record e) t () u := Edit.gives_record.2 ⟨closed, rfl⟩
    have isOpen : u.ledger.closed = false := Ledger.closed_keep.trans closed
    have before : Gives (do Edit.announceUpdate e; Edit.change (·.modify id f)) u () v :=
      gives_bind.2 ⟨(), u, Edit.gives_requireCovered.2 ⟨isOpen, Edit.covers_keep, rfl⟩, Edit.gives_change.2 rfl⟩
    have after : Gives (do Edit.change (·.modify id f); Edit.announceUpdate e) u () v :=
      gives_bind.2 ⟨(), v, Edit.gives_change.2 rfl, Edit.gives_requireCovered.2 ⟨isOpen, Edit.covers_keep, rfl⟩⟩
    rw [run_bind, run_bind, recorded]
    exact before.trans after.symm

variable {β : Type} {t : Transaction α}

theorem Spared.of_refused {e : Edit α β} (refused : Refused t e) : Spared t e := fun closed =>
  (refused closed).mono (fun _ _ _ none => none.elim) fun _ _ => id

/-- Choosing labels may have nothing to do. -/
theorem Spared.chooseLabels [Coordinate α] {standard : LabelPlacement α} {edge : String} {ids : List String} :
    Spared t (Edit.chooseLabels standard edge ids) := by
  intro closed
  have spared {u : Transaction α} (same : t.Untouched u) {e : Edit α PUnit} (refused : Refused u e) :
      Ends e u (fun _ v => t.Untouched v) fun _ v => t.Untouched v :=
    (Spared.of_refused refused (same.ledger ▸ closed)).mono (fun _ _ _ => same.trans) fun _ _ => same.trans
  refine .andThen (Edit.gives_document.2 ⟨rfl, rfl⟩) (.bind (.forM t.Untouched (.refl t) ?_) fun _ u _ same => ?_)
  · exact fun e _ u same => spared same .update
  · refine .forM t.Untouched same fun x _ v same => .andThen (Edit.gives_document.2 ⟨rfl, rfl⟩) ?_
    split
    · split
      · exact spared same .markLabel
      · exact .of_gives (gives_pure.2 ⟨rfl, rfl⟩) same
    · exact .of_gives (gives_pure.2 ⟨rfl, rfl⟩) same

/-- An edit that stops has left the transaction untouched, and what returns from a closed one has changed no document. -/
def Atomic (t : Transaction α) (e : Edit α β) : Prop :=
  Ends e t (fun _ u => t.ledger.closed = true → u.document = t.document) fun _ u => t.Untouched u

namespace Atomic
variable {e : Edit α β}

theorem of_returns (returns : t.ledger.closed = false → ∃ b t', Gives e t b t') (spared : Spared t e) : Atomic t e := by
  cases closed : t.ledger.closed with
  | true => exact (spared closed).mono (fun _ _ _ same _ => same.document) fun _ _ => id
  | false =>
    obtain ⟨b, u, given⟩ := returns closed
    exact .of_gives given (by simp [closed])

theorem of_proceeds (proceeds : Proceeds t e) (spared : Spared t e) : Atomic t e := by
  refine of_returns (fun isOpen => ?_) spared
  obtain ⟨b, t', given, _⟩ := proceeds isOpen
  exact ⟨b, t', given⟩

/-- Most edits go on in an open transaction and stop in a closed one. -/
theorem of_refused (proceeds : Proceeds t e) (refused : Refused t e) : Atomic t e :=
  of_proceeds proceeds (.of_refused refused)

/-- A check before the rest. -/
theorem guard {c : Prop} [Decidable c] {fault : Fault} (rest : ¬c → Atomic t e) :
    Atomic t (if c then do { MonadExcept.throw fault; e } else e) := by
  split
  · exact .bind (p := fun _ _ => False) (.throw (.refl t)) fun _ _ _ none => none.elim
  · next other => exact rest other

theorem document {f : Document α → Edit α β} (rest : Atomic t (f t.document)) : Atomic t (Edit.document >>= f) :=
  .andThen (Edit.gives_document.2 ⟨rfl, rfl⟩) rest

theorem element {id : String} {f : Element α → Edit α β} {p : Element α} (found : t.document.find? id = some p)
    (rest : Atomic t (f p)) : Atomic t (Edit.element id >>= f) :=
  .andThen (Edit.gives_element.2 ⟨found, rfl⟩) rest

variable [Coordinate α] {id edge : String}

theorem insert {p : Element α} {parent : Option Handle} (consistent : t.document.Consistent) (topmost : p.parent = none)
    (live : ∀ holder, parent = some holder → t.document.isLive holder = true) : Atomic t (Edit.insert p parent) := by
  cases taken : t.document.contains p.id with
  | false => exact .of_refused (.insert consistent taken topmost live) .insert
  | true => exact .document (.guard fun absent => (absent taken).elim)

theorem removeFrom {parent : String} (consistent : t.document.Consistent) (there : t.document.contains parent = true)
    (present : t.document.contains id = true) : Atomic t (Edit.removeFrom parent id) := by
  obtain ⟨p, found⟩ := Document.contains_iff_find?.1 there
  obtain ⟨q, found'⟩ := Document.contains_iff_find?.1 present
  exact .element found (.element found' (.guard fun _ => .of_refused (.remove consistent present) .remove))

/-- An edge takes a text, and a node does not. -/
theorem putLabel {config : Config α} {text : String} {keep : List String} (consistent : t.document.Consistent)
    (acyclic : t.document.Acyclic) (there : t.document.contains edge = true)
    (unused : t.document.contains (t.context.ids.name t.context.ids.used) = false) :
    Atomic t (Edit.putLabel config edge text keep) := by
  obtain ⟨e, found⟩ := Document.contains_iff_find?.1 there
  cases isEdge : e.isEdge with
  | true =>
    refine .of_returns (fun isOpen => ?_) (.of_refused .putLabel)
    by_cases lone : ∃ l, t.document.unlisted edge keep = [l]
    · obtain ⟨l, lone⟩ := lone
      obtain ⟨t', given, _⟩ : ∃ t', Gives (Edit.putLabel config edge text keep) t l.id t' ∧ _ :=
        Reconcile.putLabel_lone consistent isOpen found isEdge lone
      exact ⟨l.id, t', given⟩
    · obtain ⟨t', _, _, n, given, _⟩ : ∃ t' u ids, ∃ n : Element α, Gives (Edit.putLabel config edge text keep) t n.id t' ∧ _ :=
        Reconcile.putLabel_fresh consistent acyclic isOpen found isEdge unused fun l alone => lone ⟨l, alone⟩
      exact ⟨n.id, t', given⟩
  | false =>
    have isNode : e.isNode = true := by rw [e.isNode_eq_not_isEdge, isEdge, Bool.not_false]
    exact .element found (.guard fun other => (other isNode).elim)

end Atomic

variable [Coordinate α]

theorem Command.atomic {c : Command α} (consistent : t.document.Consistent) (suits : c.Suits t.document) :
    Atomic t c.edit := by
  cases c with
  | add id content props metadata parent => exact .insert consistent rfl suits.2
  | addChild parent child => exact .of_refused (.nest suits.1) .nest
  | removeChild parent child => exact .removeFrom consistent suits.1 suits.2
  | remove id => exact .of_refused (.remove consistent suits) .remove
  | setText id text => exact .of_refused (.update suits) .update
  | setType id type => exact .of_refused (.update suits) .update
  | updateProps id change => exact .of_refused (.update suits) .update
  | updateMetadata id change => exact .of_refused (.update suits) .update
  | setStart edge p => exact .of_refused (.moveStart suits.1) (.bind .update)
  | setStop edge p => exact .of_refused (.moveStop suits.1) (.bind .update)
  | addLabel edge node label => exact .of_refused (.markLabel suits.1 suits.2) .markLabel
  | setLabels edge nodes => exact .of_proceeds (.chooseLabels suits.1) .chooseLabels

/-- A command, or the call to put a text on an edge, which may bring in a new label. -/
inductive Call (α : Type)
  | command (c : Command α)
  | label (config : Config α) (edge text : String) (keep : List String)

namespace Call

def edit : Call α → Edit α Unit
  | command c => c.edit
  | label config edge text keep => discard (Edit.putLabel config edge text keep)

omit [Coordinate α] in
/-- The elements that a call is given are in the document, and the next new id is not. -/
def Suits (t : Transaction α) : Call α → Prop
  | command c => c.Suits t.document
  | label _ edge _ _ => t.document.contains edge = true ∧
      t.document.contains (t.context.ids.name t.context.ids.used) = false

theorem atomic {c : Call α} (consistent : t.document.Consistent) (acyclic : t.document.Acyclic) (suits : c.Suits t) :
    Atomic t c.edit := by
  cases c with
  | command c => exact c.atomic consistent suits
  | label config edge text keep => exact .discard (Atomic.putLabel consistent acyclic suits.1 suits.2)

/-- A call that stops leaves the document and the ledger as they were, and in a closed transaction no call changes the
document. -/
theorem stops_untouched {c : Call α} (consistent : t.document.Consistent) (acyclic : t.document.Acyclic)
    (suits : c.Suits t) :
    (∀ fault t', Stops c.edit t fault t' → t'.document = t.document ∧ t'.ledger = t.ledger) ∧
      (t.ledger.closed = true → (c.edit.run t : Except Fault Unit × Transaction α).2.document = t.document) := by
  have atomic := c.atomic consistent acyclic suits
  refine ⟨fun fault t' stopped => ?_, fun closed => ?_⟩
  · obtain ⟨document, ledger⟩ : t.Untouched t' := atomic.of_stops stopped
    exact ⟨document, ledger⟩
  · exact Ends.left (·.document = t.document) (atomic.mono (fun _ _ _ same => same closed) fun _ _ same => same.document)

/-- A node is not removed from one that does not hold it, and an edge gets no text in a closed transaction. -/
theorem stops_untouched_stranger :
    ∃ (t t' u : Transaction Quantity) (fault : Fault), t.ledger.closed = false ∧
      Stops (command (.removeChild "a" "b")).edit t fault t' ∧ t'.document = t.document ∧ t'.ledger = t.ledger ∧
      u.ledger.closed = true ∧
      ((label .standard "e" "new" []).edit.run u : Except Fault Unit × Transaction Quantity).2.document = u.document := by
  let w := Workspace.blank.taking "a: rect\nb: rect\ne: edge a =="
  have texts : Work.OfTexts w := .taking (.empty _ _) (by decide +kernel)
  have consistent := texts.brought.consistent
  have acyclic := texts.brought.layered.acyclic consistent
  let t : Transaction Quantity := ⟨w.document, .opened Quantity true, w.context⟩
  let u : Transaction Quantity := ⟨w.document, ⟨true, true, []⟩, w.context⟩
  have given : (command (.removeChild "a" "b") : Call Quantity).Suits t :=
    show w.document.contains "a" = true ∧ w.document.contains "b" = true by decide +kernel
  have given' : (label .standard "e" "new" [] : Call Quantity).Suits u :=
    show w.document.contains "e" = true ∧ w.document.contains (w.context.ids.name w.context.ids.used) = false by
      decide +kernel
  have stopped : Stops (command (.removeChild "a" "b")).edit t (.notAChild ⟨.node, "b"⟩ ⟨.node, "a"⟩) _ :=
    exists_stops (by decide +kernel)
  obtain ⟨document, ledger⟩ := (stops_untouched consistent acyclic given).1 _ _ stopped
  exact ⟨t, _, u, _, rfl, stopped, document, ledger, rfl, (stops_untouched consistent acyclic given').2 rfl⟩

end Call
end LiveDiagram
