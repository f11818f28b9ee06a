import LiveDiagram.Proofs.History.Run
import LiveDiagram.Proofs.Source.Spoken

/-! Documents that texts bring about. Whatever passes over forests that texts can declare have made of a document, its
elements hold only what texts can say. -/
namespace LiveDiagram

variable {α : Type}

/-- An end that holds on to the middle of a node, if it holds on to one. -/
def Endpoint.Centered (p : Endpoint α) : Prop :=
  ∀ link ∈ p.link?, link.2 = centerAnchor

/-- Content that texts can bring about: shapes are words other than the one for edges. -/
def Content.Spoken : Content α → Prop
  | .node content => Token.IsWord content.type ∧ content.type ≠ "edge"
  | .edge start stop => start.Centered ∧ stop.Centered

/-- An element that texts can bring about. -/
structure Element.Spoken (e : Element α) : Prop where
  content : e.content.Spoken
  props : e.props.Heard ∧ e.props.Tidy
  metadata : e.metadata.Worded ∧ e.metadata.Tidy

def Document.Spoken (d : Document α) : Prop :=
  ∀ e ∈ d.elements, e.Spoken

def Element.KeepsSpoken (change : Element α → Element α) : Prop :=
  ∀ e : Element α, e.Spoken → (change e).Spoken

namespace Element.KeepsSpoken

theorem mapNode {change : NodeContent α → NodeContent α} (shape : ∀ content, (Content.node content).Spoken →
    (Content.node (change content)).Spoken) : KeepsSpoken (Element.mapNode change) := by
  rintro ⟨_, _, content, _, _, _, _⟩ spoken
  cases content with
  | node content => exact ⟨shape content spoken.content, spoken.props, spoken.metadata⟩
  | edge => exact spoken

theorem mapEnds {change : Endpoint α → Endpoint α} (centered : ∀ p, p.Centered → (change p).Centered) :
    KeepsSpoken (Element.mapEnds change) := by
  rintro ⟨_, _, content, _, _, _, _⟩ spoken
  cases content with
  | node => exact spoken
  | edge start stop =>
    exact ⟨⟨centered start spoken.content.1, centered stop spoken.content.2⟩, spoken.props, spoken.metadata⟩

theorem setStart {p : Endpoint α} (centered : p.Centered) : KeepsSpoken (Element.setStart p) := by
  rintro ⟨_, _, content, _, _, _, _⟩ spoken
  cases content with
  | node => exact spoken
  | edge start stop => exact ⟨⟨centered, spoken.content.2⟩, spoken.props, spoken.metadata⟩

theorem setStop {p : Endpoint α} (centered : p.Centered) : KeepsSpoken (Element.setStop p) := by
  rintro ⟨_, _, content, _, _, _, _⟩ spoken
  cases content with
  | node => exact spoken
  | edge start stop => exact ⟨⟨spoken.content.1, centered⟩, spoken.props, spoken.metadata⟩

end Element.KeepsSpoken

theorem Endpoint.centered_free {position : Point α} : (Endpoint.free position).Centered := by
  simp [Centered, link?]

theorem Endpoint.centered_atCenter {node : String} : (atCenter node : Endpoint α).Centered := by
  simp [Centered, link?, atCenter]

namespace Document.Spoken
variable {d : Document α} {id : String}

theorem modify {change : Element α → Element α} (spoken : d.Spoken) (keeps : Element.KeepsSpoken change) :
    (d.modify id change).Spoken := by
  intro e member
  obtain ⟨former, own, rfl⟩ := List.mem_map.1 member
  split
  · exact keeps former (spoken former own)
  · exact spoken former own

theorem register {e : Element α} (spoken : d.Spoken) (own : e.Spoken) : (d.register e).Spoken := by
  intro x member
  rcases List.mem_append.1 member with old | new
  · exact spoken x old
  · cases List.mem_singleton.1 new
    exact ⟨own.content, own.props, own.metadata⟩

theorem detach (spoken : d.Spoken) : (d.detach id).Spoken := by
  unfold Document.detach
  split
  · next parent _ =>
    have left : (d.modify parent fun p => { p with children := p.children.filter (· ≠ id) }).Spoken :=
      spoken.modify fun _ own => ⟨own.content, own.props, own.metadata⟩
    have lone : ((d.modify parent fun p => { p with children := p.children.filter (· ≠ id) }).modify id fun e =>
        { e with parent := none }).Spoken := left.modify fun _ own => ⟨own.content, own.props, own.metadata⟩
    exact lone
  · exact spoken

theorem attach {parent : Option String} (spoken : d.Spoken) : (d.attach id parent).Spoken := by
  cases parent with
  | none => exact spoken.detach
  | some parent =>
    have joined : ((d.detach id).modify parent fun p => { p with children := p.children ++ [id] }).Spoken :=
      spoken.detach.modify fun _ own => ⟨own.content, own.props, own.metadata⟩
    have held : (((d.detach id).modify parent fun p => { p with children := p.children ++ [id] }).modify id fun e =>
        { e with parent := some parent }).Spoken := joined.modify fun _ own => ⟨own.content, own.props, own.metadata⟩
    exact held

theorem connect (spoken : d.Spoken) : (d.connect id).Spoken := by
  unfold Document.connect
  split <;> exact spoken

theorem unregister [Coordinate α] {ids : List String} (spoken : d.Spoken) : (d.unregister ids).Spoken := by
  intro e member
  obtain ⟨former, kept, rfl⟩ := List.mem_map.1 member
  refine Element.KeepsSpoken.mapEnds (fun p centered => ?_) former (spoken former (List.mem_filter.1 kept).1)
  cases p with
  | free => exact centered
  | stranded => exact centered
  | connected node anchor =>
    unfold strand
    dsimp only
    split <;> exact centered

end Document.Spoken

/-! Edits -/

/-- The edit keeps to what texts can say, wherever it ends without a fault. -/
def Speaks {β : Type} (e : Edit α β) : Prop :=
  ∀ t b t', t.document.Spoken → Gives e t b t' → t'.document.Spoken

namespace Speaks
variable {β γ : Type}

/-- An edit that leaves the document as it is. -/
theorem still {e : Edit α β} (same : ∀ t b t', Gives e t b t' → t'.document = t.document) : Speaks e := by
  intro t b t' spoken given
  rw [same t b t' given]
  exact spoken

theorem pure {b : β} : Speaks (Pure.pure b : Edit α β) :=
  still fun _ _ _ given => by rw [(gives_pure.1 given).2]

/-- What comes next may rely on what the first edit gives. -/
theorem bind {e : Edit α β} {f : β → Edit α γ} (first : Speaks e)
    (rest : ∀ t b u, Gives e t b u → Speaks (f b)) : Speaks (e >>= f) := by
  intro t c t' spoken given
  obtain ⟨b, u, early, late⟩ := gives_bind.1 given
  exact rest t b u early u c t' (first t b u spoken early) late

theorem seq {e : Edit α β} {f : β → Edit α γ} (first : Speaks e) (rest : ∀ b, Speaks (f b)) : Speaks (e >>= f) :=
  first.bind fun _ b _ _ => rest b

theorem discard {e : Edit α β} (speaks : Speaks e) : Speaks (Functor.discard e) := by
  intro t _ t' spoken given
  obtain ⟨b, given⟩ := gives_discard.1 given
  exact speaks t b t' spoken given

theorem forM {f : β → Edit α Unit} {xs : List β} (each : ∀ x ∈ xs, Speaks (f x)) : Speaks (xs.forM f) := by
  intro t _ t' spoken given
  exact given.forM (fun u => u.document.Spoken) spoken fun x member u u' held round => each x member u () u' held round

theorem change {f : Document α → Document α} (keeps : ∀ d : Document α, d.Spoken → (f d).Spoken) :
    Speaks (Edit.change f) := by
  intro t _ t' spoken given
  rw [Edit.gives_change.1 given]
  exact keeps _ spoken

theorem document : Speaks (Edit.document : Edit α (Document α)) :=
  still fun _ _ _ given => by rw [(Edit.gives_document.1 given).2]

theorem element {id : String} : Speaks (Edit.element id : Edit α (Element α)) :=
  still fun _ _ _ given => by rw [(Edit.gives_element.1 given).2]

theorem note {n : Note} : Speaks (Edit.note n : Edit α Unit) :=
  still fun _ _ _ given => by rw [Edit.gives_note.1 given]

variable [Coordinate α] {id : String}

theorem record {e : Element α} : Speaks (Edit.record e) :=
  still fun _ _ _ given => by rw [(Edit.gives_record.1 given).2]

theorem touch {e : Element α} : Speaks (Edit.touch e) :=
  still fun _ _ _ given => by rw [(Edit.gives_touch.1 given).2]

omit [Coordinate α] in
theorem announceRemoval {e : Element α} : Speaks (Edit.announceRemoval e) :=
  still fun _ _ _ given => by rw [← (Edit.gives_requireCovered.1 given).2.2]

theorem update {change : Element α → Element α} (keeps : Element.KeepsSpoken change) : Speaks (Edit.update id change) := by
  intro t _ t' spoken given
  obtain ⟨_, _, _, rfl⟩ := Edit.gives_update.1 given
  exact spoken.modify keeps

theorem changeLabel {label : Option (LabelPlacement α)} : Speaks (Edit.changeLabel id label) :=
  update (.mapNode fun _ spoken => spoken)

theorem putText {text : String} : Speaks (Edit.putText id text : Edit α Unit) :=
  update (.mapNode fun _ spoken => spoken)

theorem moveStart {p : Endpoint α} (centered : p.Centered) : Speaks (Edit.moveStart id p) :=
  .seq (update (.setStart centered)) fun _ => change fun _ => .connect

theorem moveStop {p : Endpoint α} (centered : p.Centered) : Speaks (Edit.moveStop id p) :=
  .seq (update (.setStop centered)) fun _ => change fun _ => .connect

theorem nest {parent : String} : Speaks (Edit.nest parent id : Edit α Unit) := by
  refine .seq element fun _ => .seq touch fun _ => .seq document fun _ => ?_
  split
  · exact .seq touch fun _ => change fun _ => .attach
  · exact change fun _ => .attach

theorem insert {e : Element α} {parent : Option Handle} (own : e.Spoken) : Speaks (Edit.insert e parent) := by
  intro t b t' spoken given
  simp only [Edit.insert, Edit.recordAbsence, gives_bind, Edit.gives_document] at given
  obtain ⟨_, _, ⟨rfl, rfl⟩, given⟩ := given
  split at given
  · exact (gives_throw.1 given).elim
  simp only [gives_bind, Edit.gives_keep, Edit.gives_change] at given
  obtain ⟨_, u, ⟨_, rfl⟩, _, v, rfl, given⟩ := given
  have entered : (t.document.register e).Spoken := spoken.register own
  cases parent with
  | none =>
    simp only [gives_bind, Edit.gives_change] at given
    obtain ⟨_, w, rfl, rfl⟩ := given
    exact Document.Spoken.connect (d := { t.document.register e with top := _ }) entered
  | some holder =>
    simp only [gives_bind, Edit.gives_document] at given
    obtain ⟨_, _, ⟨rfl, rfl⟩, given⟩ := given
    split at given
    · simp only [gives_bind, Edit.gives_change] at given
      obtain ⟨_, w, nested, rfl⟩ := given
      exact (nest _ _ _ entered nested).connect
    · simp at given

theorem freeEnds {node edge : String} : Speaks (Edit.freeEnds node edge : Edit α Unit) := by
  intro t b t' spoken given
  simp only [Edit.freeEnds, gives_bind, Edit.gives_document] at given
  obtain ⟨_, _, ⟨rfl, rfl⟩, given⟩ := given
  split at given
  · obtain ⟨u, started, stopped⟩ := gives_when.1 given
    have early : u.document.Spoken := by
      split at started
      · exact moveStart Endpoint.centered_free _ _ _ spoken started
      · exact (gives_pure.1 started).2 ▸ spoken
    split at stopped
    · exact moveStop Endpoint.centered_free _ _ _ early stopped
    · exact (gives_pure.1 stopped).2 ▸ early
  · exact (gives_pure.1 given).2 ▸ spoken

theorem remove : Speaks (Edit.remove id : Edit α Unit) := by
  intro t b t' spoken given
  simp only [Edit.remove, gives_bind, Edit.gives_element, Edit.gives_document] at given
  obtain ⟨root, _, ⟨_, rfl⟩, _, _, ⟨rfl, rfl⟩, _, u, recorded, _, v, freed, _, _, ⟨rfl, rfl⟩, given⟩ := given
  have start : u.document.Spoken := forM (fun _ _ => record) _ _ _ spoken recorded
  have loose : v.document.Spoken :=
    forM (fun _ _ => .seq document fun _ => forM fun _ _ => freeEnds) _ _ _ start freed
  have leaving : Speaks (do
      Edit.change (·.detach id)
      ((t.document.subtree id).filterMap t.document.find?).forM Edit.announceRemoval
      Edit.change (·.unregister (t.document.subtree id))
      Edit.note (.removed root.tag ((t.document.subtree id).length - 1)) : Edit α Unit) :=
    .seq (change fun _ => .detach) fun _ => .seq (forM fun _ _ => announceRemoval) fun _ =>
      .seq (change fun _ => .unregister) fun _ => note
  split at given
  · next parent _ =>
    have touched : Speaks (Edit.element parent >>= Edit.touch : Edit α Unit) := .seq element fun _ => touch
    obtain ⟨p, w, found, given⟩ := gives_bind.1 given
    obtain ⟨_, x, touched, given⟩ := gives_bind.1 given
    exact leaving _ _ _ (touch _ _ _ (element _ _ _ loose found) touched) given
  · exact leaving _ _ _ loose given

theorem markLabel {edge : String} {label : LabelPlacement α} : Speaks (Edit.markLabel edge id label) := by
  refine .seq changeLabel fun _ => .seq element fun _ => ?_
  split
  · exact nest
  · exact .pure

theorem chooseLabels {standard : LabelPlacement α} {edge : String} {ids : List String} :
    Speaks (Edit.chooseLabels standard edge ids) := by
  refine .seq document fun _ => .seq (forM fun _ _ => changeLabel) fun _ => forM fun _ _ => .seq document fun _ => ?_
  split
  · split
    · exact markLabel
    · exact .pure
  · exact .pure

theorem putLabel {config : Config α} {edge text : String} {keep : List String}
    (shape : Token.IsWord config.labelShape ∧ config.labelShape ≠ "edge") : Speaks (Edit.putLabel config edge text keep) := by
  have own (id : String) (bounds : Bounds α) :
      (Element.new id (.node ⟨config.labelShape, bounds, text, none⟩) .nil .nil).Spoken :=
    ⟨shape, ⟨trivial, trivial⟩, trivial, trivial⟩
  have fresh (bounds : Bounds α) (e : Element α) : Speaks (do
      let id ← Edit.freshId
      Edit.insert (.new id (.node ⟨config.labelShape, bounds, text, none⟩) .nil .nil) (some e.handle)
      Edit.markLabel edge id config.label
      return id : Edit α String) := by
    have drawn : Speaks (Edit.freshId : Edit α String) :=
      still fun _ _ _ given => (Edit.freshId_steps ⟨false, false⟩ given).2
    exact .seq drawn fun id => .seq (insert (own id bounds)) fun _ => .seq markLabel fun _ => .pure
  intro t b t' spoken given
  simp only [Edit.putLabel, gives_bind, Edit.gives_element] at given
  obtain ⟨e, _, ⟨_, rfl⟩, given⟩ := given
  split at given
  · simp at given
  simp only [gives_bind, Edit.gives_document] at given
  obtain ⟨_, _, ⟨rfl, rfl⟩, given⟩ := given
  split at given
  · obtain ⟨_, u, renamed, given⟩ := gives_bind.1 given
    obtain ⟨rfl, rfl⟩ := gives_pure.1 given
    exact putText _ _ _ spoken renamed
  · split at given
    · rw [gives_bind] at given
      obtain ⟨_, u, removed, given⟩ := given
      rw [gives_bind] at given
      obtain ⟨_, _, looked, given⟩ := given
      obtain ⟨rfl, rfl⟩ := Edit.gives_document.1 looked
      rw [gives_bind] at given
      obtain ⟨_, v, chosen, given⟩ := given
      have early : u.document.Spoken := forM (fun _ _ => remove) _ _ _ spoken removed
      exact fresh (t.document.boundsOf e) e _ _ _ (chooseLabels _ _ _ early chosen) given
    · exact fresh (t.document.boundsOf e) e _ _ _ spoken given

end Speaks

/-! Passes -/

namespace Reconcile
open Speaks
variable [Coordinate α] {config : Config α} {d : Declaration} {id : String}

theorem ended_of_isWord {word : String} (own : Token.IsWord word) : Text.Ended word.toList := by
  have visible : ∀ n < 133, 33 ≤ n → Text.within Text.blankBoundaries n = false := by decide
  intro c last
  have known := own.2 c (List.mem_of_getLast? last)
  have between {low high : UInt32} (own : low ≤ c.val ∧ c.val ≤ high) (first : 33 ≤ low.toNat) (last : high.toNat < 133) :
      33 ≤ c.toNat ∧ c.toNat < 133 :=
    ⟨Nat.le_trans first (UInt32.le_iff_toNat_le.1 own.1), Nat.lt_of_le_of_lt (UInt32.le_iff_toNat_le.1 own.2) last⟩
  have range : 33 ≤ c.toNat ∧ c.toNat < 133 := by
    rw [Token.isIdChar, Char.isAlphanum, Bool.or_eq_true, Bool.or_eq_true, Bool.or_eq_true, decide_eq_true_eq,
      decide_eq_true_eq] at known
    rcases known with ((letter | digit) | rfl) | rfl
    · rcases Bool.or_eq_true_iff.1 letter with upper | lower
      · exact between (of_decide_eq_true upper) (by decide) (by decide)
      · exact between (Bool.and_eq_true_iff.1 lower |>.imp of_decide_eq_true of_decide_eq_true) (by decide) (by decide)
    · rw [Char.isDigit, Bool.and_eq_true, decide_eq_true_eq, decide_eq_true_eq] at digit
      exact between digit (by decide) (by decide)
    · decide
    · decide
  exact visible _ range.2 range.1

theorem textStyle_isWord (own : d.Spoken) : ∀ s ∈ d.textStyle, Token.IsWord s := by
  have head := own.head
  intro s given
  unfold Declaration.textStyle at given
  split at given
  · next same =>
    rw [same] at head
    exact head.2 s given
  · cases given

/-- Styles are told in words. -/
theorem worded_withText {key : String} {text : Option String} {metadata : Props} (nonempty : key ≠ "")
    (ended : Text.Ended key.toList) (words : ∀ s ∈ text, Token.IsWord s) (worded : metadata.Worded) :
    (withText key text metadata).Worded := by
  unfold withText
  cases given : spoken text with
  | none => exact worded
  | some s =>
    exact worded.set nonempty ended (ended_of_isWord (words s (Option.eq_some_of_filter_eq_some given)))

theorem worded_style (key : String) (known : key ∈ ["style", "textStyle"]) : key ≠ "" ∧ Text.Ended key.toList := by
  revert key
  unfold Text.Ended
  decide

theorem speaks_mergeProps (own : d.Spoken) : Speaks (mergeProps id d : Edit α Unit) := by
  unfold mergeProps
  split
  · next props held =>
    obtain ⟨heard, tidy⟩ := own.props props (Option.eq_some_of_filter_eq_some held)
    exact update fun e spoken => ⟨spoken.content, ⟨spoken.props.1.merge heard, spoken.props.2.merge tidy⟩, spoken.metadata⟩
  · exact .pure

theorem speaks_mergeStyles (own : d.Spoken) : Speaks (mergeStyles id d : Edit α Unit) := by
  have stage {γ : Type} (given : Option γ) (f : γ → Props → Props)
      (keeps : ∀ c ∈ given, ∀ p : Props, p.Worded ∧ p.Tidy → (f c p).Worded ∧ (f c p).Tidy) :
      Speaks (given.elim (Pure.pure ()) fun c => Edit.editMetadata id (f c) : Edit α Unit) := by
    cases given with
    | none => exact .pure
    | some c => exact update fun e spoken => ⟨spoken.content, spoken.props, keeps c rfl _ spoken.metadata⟩
  have style := worded_style "style" (by decide)
  have textStyle := worded_style "textStyle" (by decide)
  rw [mergeStyles_eq]
  refine .seq (stage _ (fun m p => p.overlay m) fun m given p held => ?_) fun _ =>
    .seq (stage _ (fun _ => withText "style" d.style) fun _ _ p held => ?_) fun _ =>
      stage _ (fun _ => withText "textStyle" d.textStyle) fun _ _ p held => ?_
  · obtain ⟨worded, tidy⟩ := own.metadata m (Option.eq_some_of_filter_eq_some given)
    exact ⟨held.1.overlay worded, held.2.overlay tidy⟩
  · exact ⟨worded_withText style.1 style.2 own.style held.1, tidy_withText held.2⟩
  · exact ⟨worded_withText textStyle.1 textStyle.2 (textStyle_isWord own) held.1, tidy_withText held.2⟩

theorem speaks_reviseNode {e : Element α} {content : NodeContent α} {shape : String} {name : Option String}
    (own : d.Spoken) (word : Token.IsWord shape ∧ shape ≠ "edge") : Speaks (reviseNode e content d shape name) := by
  have type : Speaks (if shape ≠ content.type then Edit.putType e.id shape else Pure.pure () : Edit α Unit) := by
    split
    · exact update (.mapNode fun _ _ => word)
    · exact .pure
  have text : Speaks (name.elim (Pure.pure ()) fun name =>
      if name ≠ content.text then Edit.putText e.id name else Pure.pure () : Edit α Unit) := by
    cases name with
    | none => exact .pure
    | some name =>
      dsimp only [Option.elim]
      split
      · exact putText
      · exact .pure
  rw [reviseNode_eq]
  exact .seq note fun _ => .seq record fun _ => .seq type fun _ => .seq text fun _ => .seq (speaks_mergeProps own) fun _ =>
    speaks_mergeStyles own

theorem speaks_dropLabels {edge : String} {listed : List String} : Speaks (dropLabels edge listed : Edit α Unit) := by
  refine .seq document fun _ => ?_
  dsimp only
  split
  · exact .seq (forM fun _ _ => remove) fun _ => chooseLabels
  · exact .pure

omit [Coordinate α] in
theorem speaks_aim {name : Option String} {move : String → Edit α Unit} (moves : ∀ node, Speaks (move node)) :
    Speaks (aim name move) := by
  refine .seq (still fun _ _ _ given => by rw [(mem_of_nodeNamed given).1]) fun o => ?_
  cases o with
  | none => exact .pure
  | some node => exact moves node

variable (shape : Token.IsWord config.labelShape ∧ config.labelShape ≠ "edge")
include shape

theorem speaks_reviseEdge {e : Element α} {source target label : Option String} {listed : List String} (own : d.Spoken) :
    Speaks (reviseEdge config e d source target label listed) := by
  rw [reviseEdge_eq]
  refine .seq ?_ fun _ => ?_
  · exact .seq note fun _ => .seq record fun _ => .seq (speaks_mergeProps own) fun _ => .seq (speaks_mergeStyles own)
      fun _ => .seq (speaks_aim fun _ => moveStart Endpoint.centered_atCenter) fun _ =>
        speaks_aim fun _ => moveStop Endpoint.centered_atCenter
  · cases label with
    | none => exact speaks_dropLabels
    | some text => exact .discard (putLabel shape)

omit shape in
/-- A new end is free or at the middle of a node. -/
theorem speaks_newEnd (name : Option String) (free unresolved : Point α) :
    Speaks (newEnd name free unresolved) ∧ ∀ t p t', Gives (newEnd name free unresolved) t p t' → p.Centered := by
  refine ⟨still fun _ _ _ given => (newEnd_fits ⟨false, false⟩ given).1, fun t p t' given => ?_⟩
  unfold newEnd at given
  split at given
  · obtain ⟨rfl, _⟩ := gives_pure.1 given
    exact Endpoint.centered_free
  · obtain ⟨o, u, _, given⟩ := gives_bind.1 given
    split at given
    · obtain ⟨rfl, _⟩ := gives_pure.1 given
      exact Endpoint.centered_atCenter
    · simp only [gives_bind, gives_pure] at given
      obtain ⟨_, _, _, rfl, _⟩ := given
      exact Endpoint.centered_free

theorem speaks_create {parent : Option Handle} {reference : Option (Bounds α)} (own : d.Spoken) :
    Speaks (create config parent reference d) := by
  have style := worded_style "style" (by decide)
  have textStyle := worded_style "textStyle" (by decide)
  have entries {content : Content α} (said : content.Spoken) :
      (Element.new d.id content (d.props.getD .nil) (styled d (d.metadata.getD .nil))).Spoken := by
    have metadata : (d.metadata.getD .nil).Worded ∧ (d.metadata.getD .nil).Tidy := by
      cases given : d.metadata with
      | none => exact ⟨trivial, trivial⟩
      | some p => exact own.metadata p given
    refine ⟨said, ?_, worded_withText textStyle.1 textStyle.2 (textStyle_isWord own)
      (worded_withText style.1 style.2 own.style metadata.1), tidy_withText (tidy_withText metadata.2)⟩
    cases given : d.props with
    | none => exact ⟨trivial, trivial⟩
    | some p => exact own.props p given
  have head := own.head
  unfold create
  refine .seq note fun _ => ?_
  split
  · next shape name style same =>
    rw [same] at head
    refine .seq document fun _ => .seq (insert (entries head.1)) fun _ => ?_
    cases parent with
    | none => exact .pure
    | some parent =>
      refine .seq document fun _ => ?_
      split
      · exact markLabel
      · exact .pure
  · next source target label same =>
    obtain ⟨speaks, centered⟩ := speaks_newEnd source config.freeStart config.unresolvedStart
    obtain ⟨speaks', centered'⟩ := speaks_newEnd target config.freeStop config.unresolvedStop
    refine .bind speaks fun _ start _ started => .bind speaks' fun _ stop _ stopped =>
      .seq (insert (entries ⟨centered _ _ _ started, centered' _ _ _ stopped⟩)) fun _ => ?_
    cases label with
    | none => exact .pure
    | some text => exact .discard (putLabel shape)

theorem speaks_visitOne {parent : Option Handle} {reference : Option (Bounds α)} {listed : List String} (own : d.Spoken) :
    Speaks (visitOne config parent reference d listed) := by
  refine .seq document fun _ => ?_
  split
  · exact .seq (speaks_create shape own) fun _ => .seq element fun _ => .pure
  · next e _ =>
    have head := own.head
    split
    · next given _ =>
      rw [given] at head
      exact .seq (speaks_reviseNode own head.1) fun _ => .pure
    · exact .seq (speaks_reviseEdge shape own) fun _ => .pure
    · exact .seq note fun _ => .pure

theorem speaks_visit {f : Forest} {parent : Option Handle} {reference : Option (Bounds α)} (own : f.Spoken) :
    Speaks (visit config parent reference f) := by
  induction f generalizing parent reference with
  | nil => exact .pure
  | cons d children rest first second =>
    have inner : children.Spoken := fun x member => own x (List.mem_cons_of_mem d (List.mem_append_left _ member))
    have after : rest.Spoken := fun x member => own x (List.mem_cons_of_mem d (List.mem_append_right _ member))
    unfold visit
    refine .seq (speaks_visitOne shape (own d List.mem_cons_self)) fun o => ?_
    cases o with
    | none => exact second after
    | some handle => exact .seq document fun _ => .seq (first inner) fun _ => second after

omit shape in
theorem speaks_removeOthers {ids : List String} : Speaks (removeOthers ids : Edit α Unit) :=
  .seq document fun _ => forM fun _ _ => .seq note fun _ => remove

end Reconcile

/-- A pass over a forest that a text can declare keeps to what texts can say. -/
theorem Work.spoken_reconcile [Coordinate α] {config : Config α} {f : Forest} {w w' : Workspace α} {outcome : Outcome}
    (shape : Token.IsWord config.labelShape ∧ config.labelShape ≠ "edge") (said : f.Spoken) (spoken : w.document.Spoken)
    (given : Gives (Work.reconcile config f) w outcome w') : w'.document.Spoken := by
  simp only [Work.reconcile, gives_bind, Work.gives_transact, Work.change, Work.note, gives_modify, gives_pure,
    Reconcile.pass, gives_discard] at given
  obtain ⟨diff, _, ⟨t, ⟨_, u, removed, _, v, ⟨_, visited⟩, committed⟩, rfl⟩, _, _, rfl, _, _, rfl, rfl, rfl⟩ := given
  obtain ⟨_, _, told⟩ := Edit.gives_commit committed
  have same : Document.SameContent (Reconcile.conclude diff t.document) t.document := Reconcile.conclude_same
  have early : u.document.Spoken := Reconcile.speaks_removeOthers _ _ _ spoken removed
  have late : v.document.Spoken := Reconcile.speaks_visit shape said _ _ _ early visited
  intro e member
  rw [same.elements, told] at member
  exact late e member

end LiveDiagram
