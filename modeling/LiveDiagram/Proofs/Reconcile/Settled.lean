import LiveDiagram.Proofs.Reconcile.Building
import LiveDiagram.Proofs.Reconcile.Rejoin
import LiveDiagram.Proofs.Props.Settling

/-! A visit of a declaration whose element says already what the declaration says. It returns, and changes nothing but
the ends of an edge that are named and whose names lead to nodes by now. -/
namespace LiveDiagram

namespace Reconcile
variable {h : Declaration} {key : String} {text : Option String} {p : Props}

/-- What the styles of a declaration put under a key. -/
def styleAt (h : Declaration) (key : String) : Option Value :=
  if key = "textStyle" then (spoken h.textStyle).map fun t => .scalar (.text t)
  else if key = "style" then (spoken h.style).map fun t => .scalar (.text t)
  else none

theorem get?_withText {other : String} : (withText key text p).get? other =
    (if other = key then (spoken text).map fun t => .scalar (.text t) else none).or (p.get? other) := by
  unfold withText
  cases spoken text with
  | none => simp
  | some t =>
    rw [Option.elim_some, Props.get?_set]
    by_cases own : other = key
    · simp [own]
    · simp [own, Ne.symm own]

theorem get?_styled : (styled h p).get? key = (styleAt h key).or (p.get? key) := by
  unfold styled styleAt
  rw [get?_withText, get?_withText]
  by_cases first : key = "textStyle"
  · subst first
    simp
  · simp [first]

theorem keys_withText (known : (spoken text).isSome = true → key ∈ p.keys) : (withText key text p).keys = p.keys := by
  unfold withText
  cases given : spoken text with
  | none => rfl
  | some t => exact Props.keys_set (known (given ▸ rfl))

theorem keys_styled (known : ∀ key, (styleAt h key).isSome = true → key ∈ p.keys) : (styled h p).keys = p.keys := by
  have first : (spoken h.style).isSome = true → "style" ∈ p.keys := fun given => known _ (by simpa [styleAt] using given)
  have second : (spoken h.textStyle).isSome = true → "textStyle" ∈ p.keys :=
    fun given => known _ (by simpa [styleAt] using given)
  unfold styled
  rw [keys_withText, keys_withText first]
  rwa [keys_withText first]

theorem tidy_styled (tidy : p.Tidy) : (styled h p).Tidy :=
  tidy_withText (tidy_withText tidy)

/-- Bringing metadata and styles to an element that has them changes nothing. -/
theorem styled_again (tidy : h.Tidy) :
    styled h ((filled h.metadata).elim (styled h (h.metadata.getD .nil)) ((styled h (h.metadata.getD .nil)).overlay ·)) =
      styled h (h.metadata.getD .nil) := by
  have own : (h.metadata.getD .nil).Tidy := by
    cases given : h.metadata with
    | none => trivial
    | some m => exact tidy.2 m given
  have keyed {key : String} (put : (styleAt h key).isSome = true) : key ∈ (styled h (h.metadata.getD .nil)).keys := by
    rw [Props.mem_keys, get?_styled, Option.isSome_or, put]
    rfl
  -- The metadata comes first and takes some styles back, which are put in place again after it.
  obtain ⟨q, same, tidy', keys, held⟩ : ∃ q, (filled h.metadata).elim (styled h (h.metadata.getD .nil))
      ((styled h (h.metadata.getD .nil)).overlay ·) = q ∧ q.Tidy ∧ q.keys = (styled h (h.metadata.getD .nil)).keys ∧
        ∀ key, styleAt h key = none → q.get? key = (styled h (h.metadata.getD .nil)).get? key := by
    cases given : filled h.metadata with
    | none => exact ⟨_, rfl, tidy_styled own, rfl, fun _ _ => rfl⟩
    | some m =>
      obtain metadata : h.metadata = some m := Option.eq_some_of_filter_eq_some given
      rw [metadata, Option.getD_some] at own ⊢
      refine ⟨_, rfl, (tidy_styled own).overlay own, Props.keys_overlay fun key member => ?_, fun key unstyled => ?_⟩
      · rw [Props.mem_keys] at member ⊢
        rw [get?_styled, Option.isSome_or, member, Bool.or_true]
      · rw [Option.elim_some, Props.get?_overlay own, get?_styled, unstyled, Option.none_or]
        cases m.get? key <;> rfl
  rw [same]
  refine Props.ext_keys (tidy_styled tidy') (tidy_styled own) ?_ fun key => ?_
  · rw [keys_styled fun key put => keys ▸ keyed put, keys]
  · rw [get?_styled]
    cases unstyled : styleAt h key with
    | none => rw [held key unstyled, Option.none_or]
    | some v => rw [get?_styled, unstyled, Option.some_or, Option.some_or]

end Reconcile

variable {α : Type} [Coordinate α]

/-- The element with other metadata. -/
def Element.restyle (change : Props → Props) (e : Element α) : Element α :=
  { e with metadata := change e.metadata }

/-- The element of a site is there and says already what the declaration says, the ends of edges apart. -/
structure Settled (d : Document α) (s : Site) (e : Element α) : Prop where
  found : d.find? s.id = some e
  kind : e.kind = s.head.kind
  props : ∀ p, filled s.head.props = some p → e.props.merge true p = e.props
  metadata : Reconcile.styled s.head ((filled s.head.metadata).elim e.metadata (e.metadata.overlay ·)) = e.metadata
  node : ∀ shape name style content, s.head.head = .node shape name style → e.content = .node content →
    shape = content.type ∧ ∀ text, name = some text → text = content.text
  labels : s.head.kind = .edge → (d.inlineLabels s).map Element.text? = (s.head.label?.map some).toList

/-- Where edges end has no part in being settled. -/
theorem Settled.turn {d d' : Document α} {s : Site} {e : Element α} (turned : d.Turned d') (settled : Settled d s e) :
    ∃ e', Settled d' s e' ∧ e'.face = e.face := by
  obtain ⟨e', found, same⟩ := turned.element settled.found
  have props : e'.props = e.props := (congrArg Element.props same :)
  have metadata : e'.metadata = e.metadata := (congrArg Element.metadata same :)
  have content : e'.content.face = e.content.face := (congrArg Element.content same :)
  have kind : e'.kind = e.kind := by rw [← Element.kind_face, same, Element.kind_face]
  have plain (d : Document α) : (d.inlineLabels s).map Element.text? =
      (((d.labelsOf s.id).map Element.face).filter (!s.listed.contains ·.id)).map Element.text? := by
    unfold Document.inlineLabels
    rw [List.filter_map, List.map_map]
    exact List.map_congr_left fun e _ => Element.text?_face.symm
  refine ⟨e', ⟨found, kind.trans settled.kind, ?_, ?_, ?_, ?_⟩, same⟩
  · rw [props]
    exact settled.props
  · rw [metadata]
    exact settled.metadata
  · intro shape name style own head given
    refine settled.node shape name style own head ?_
    rw [given] at content
    cases former : e.content with
    | node old => rw [former] at content; exact content.symm
    | edge start stop => rw [former] at content; cases content
  · rw [plain, turned.labelsOf, ← plain]
    exact settled.labels

namespace Reconcile
variable {d : Document α} {ids : IdSupply} {s : Site} {e : Element α} {config : Config α}

/-- An update that leaves its element as it is. -/
theorem leads_still (consistent : d.Consistent) {id : String} {change : Element α → Element α}
    (found : d.find? id = some e) (same : change e = e) : Leads d ids (Edit.update id change) () d ids := by
  have still : d.modify id change = d := by
    refine Document.modify_eq_self fun p member named => ?_
    have lookup := Document.find?_of_mem consistent.ids_nodup member
    rw [named, found, Option.some.injEq] at lookup
    rw [← lookup, same]
  have updated : Leads d ids (Edit.update id change) () (d.modify id change) ids := .update found
  rwa [still] at updated

theorem leads_mergeProps (consistent : d.Consistent) (settled : Settled d s e) :
    Leads d ids (mergeProps s.id s.head) () d ids := by
  unfold mergeProps
  split
  · next p given =>
    exact leads_still consistent settled.found (congrArg (fun q => { e with props := q }) (settled.props p given))
  · exact .pure

/-- Metadata that changes only where something is given. -/
theorem leads_editMetadata (ids : IdSupply) {id : String} {γ : Type} (given : Option γ) (f : γ → Props → Props)
    (found : d.find? id = some e) :
    Leads d ids (given.elim (Pure.pure ()) fun c => Edit.editMetadata id (f c)) () (d.modify id (Element.restyle fun p => given.elim p (f · p))) ids := by
  cases given with
  | none =>
    have still : d.modify id (fun e => e) = d := Document.modify_eq_self fun _ _ _ => rfl
    change Leads d ids _ () (d.modify id fun e => e) ids
    rw [still]
    exact .pure
  | some c => exact .update found

theorem leads_mergeStyles (consistent : d.Consistent) (settled : Settled d s e) :
    Leads d ids (mergeStyles s.id s.head) () d ids := by
  have styling {key : String} {text : Option String} {p : Props} :
      (spoken text).elim p (fun _ => withText key text p) = withText key text p := by
    unfold withText
    cases spoken text <;> rfl
  have named {f : Props → Props} (e : Element α) : (e.restyle f).id = e.id := rfl
  have put {d : Document α} {e : Element α} (f : Props → Props) (found : d.find? s.id = some e) :
      (d.modify s.id (Element.restyle f)).find? s.id = some (e.restyle f) := by
    rw [Document.find?_modify named, if_pos rfl, found]
    rfl
  have first := leads_editMetadata ids (filled s.head.metadata) (fun m p => p.overlay m) settled.found
  have second := leads_editMetadata ids (spoken s.head.style) (fun _ => withText "style" s.head.style)
    (put (fun p => (filled s.head.metadata).elim p (p.overlay ·)) settled.found)
  have third := leads_editMetadata ids (spoken s.head.textStyle)
    (fun _ => withText "textStyle" s.head.textStyle) (put (fun p => (spoken s.head.style).elim p fun _ =>
      withText "style" s.head.style p) (put (fun p => (filled s.head.metadata).elim p (p.overlay ·)) settled.found))
  have still : ((d.modify s.id (.restyle fun p => (filled s.head.metadata).elim p (p.overlay ·))).modify s.id
      (.restyle fun p => (spoken s.head.style).elim p fun _ => withText "style" s.head.style p)).modify s.id
      (.restyle fun p => (spoken s.head.textStyle).elim p fun _ => withText "textStyle" s.head.textStyle p) = d := by
    rw [Document.modify_modify named, Document.modify_modify named]
    refine Document.modify_eq_self fun p member named => ?_
    have lookup := Document.find?_of_mem consistent.ids_nodup member
    rw [named, settled.found, Option.some.injEq] at lookup
    rw [← lookup]
    simp only [styling]
    exact congrArg (fun m => { e with metadata := m }) settled.metadata
  rw [still] at third
  rw [mergeStyles_eq]
  exact .bind first (.bind second third)

/-- Revising a settled node changes nothing. -/
theorem leads_reviseNode (consistent : d.Consistent) (settled : Settled d s e) {shape : String}
    {name style : Option String} {content : NodeContent α} (head : s.head.head = .node shape name style)
    (own : e.content = .node content) : Leads d ids (reviseNode e content s.head shape name) () d ids := by
  obtain ⟨typed, named⟩ := settled.node shape name style content head own
  have same : e.id = s.id := Document.find?_eq_some_id settled.found
  have text : Leads d ids (name.elim (Pure.pure ()) fun name =>
      if name ≠ content.text then Edit.putText e.id name else Pure.pure ()) () d ids := by
    cases name with
    | none => exact .pure
    | some text =>
      dsimp only [Option.elim]
      rw [if_neg (not_not_intro (named text rfl))]
      exact .pure
  rw [reviseNode_eq, if_neg (not_not_intro typed)]
  refine .bind .note (.bind .record (.bind .pure (.bind text ?_)))
  rw [same]
  exact .bind (leads_mergeProps consistent settled) (leads_mergeStyles consistent settled)

omit [Coordinate α] in
/-- An end goes to the node of a name, where there is one. -/
theorem leads_aim {id : String} {turn : Endpoint α → Element α → Element α} {name : Option String}
    {move : String → Edit α Unit}
    (moves : ∀ node, Leads d ids (move node) () ((d.modify id (turn (.atCenter node))).connect id) ids) :
    Leads d ids (aim name move) () (d.steer id turn name) ids := by
  refine .bind leads_nodeNamed ?_
  change Leads d ids ((name.filter d.knows).elim (Pure.pure ()) move) () (d.steer id turn name) ids
  unfold Document.steer
  cases name.filter d.knows with
  | none => exact .pure
  | some node => exact moves node

/-- Choosing all the labels of an edge changes nothing. -/
theorem leads_chooseLabels {standard : LabelPlacement α} {edge : String} (consistent : d.Consistent) :
    Leads d ids (Edit.chooseLabels standard edge ((d.labelsOf edge).map Element.id)) () d ids := by
  rintro t ⟨rfl, supply, isOpen⟩
  refine ⟨t, Edit.gives_chooseLabels_still (fun e => List.mem_map_of_mem) (fun id member e found => ?_), rfl, supply,
    isOpen⟩
  obtain ⟨label, own, rfl⟩ := List.mem_map.1 member
  obtain ⟨found', labelled, parent⟩ := (Document.mem_labelsOf consistent).1 own
  cases found.symm.trans found'
  exact ⟨labelled, parent⟩

/-- The labels of a settled edge stay. -/
theorem leads_relabel (config : Config α) (ids : IdSupply) (consistent : d.Consistent) (settled : Settled d s e) (edge : s.head.kind = .edge) :
    Leads d ids (s.head.label?.elim (dropLabels s.id s.listed)
      fun text => Functor.discard (Edit.putLabel config s.id text s.listed)) () d ids := by
  have labels := settled.labels edge
  cases carried : s.head.label? with
  | some text =>
    rw [carried] at labels
    obtain ⟨label, alone, written⟩ := List.map_eq_singleton_iff.1 labels
    have member : label ∈ d.inlineLabels s := alone ▸ List.mem_singleton.2 rfl
    have found := (Document.mem_childrenOf (List.mem_filter.1 (List.mem_filter.1 member).1).1).2
    have same : label.mapNode (fun content => { content with text := text }) = label := by
      obtain ⟨id, birth, content, props, metadata, parent, children⟩ := label
      cases content with
      | node content =>
        cases written
        rfl
      | edge => rfl
    have notNode : e.isNode = false := by
      rw [Element.isNode, settled.kind, edge]
      rfl
    unfold Document.inlineLabels at alone
    unfold Edit.putLabel
    refine .discard (b := label.id) (.bind (.element settled.found) ?_)
    rw [notNode]
    refine .document ?_
    rw [alone]
    exact .bind (leads_still consistent found same) .pure
  | none =>
    rw [carried] at labels
    have none : d.inlineLabels s = [] := List.map_eq_nil_iff.1 labels
    unfold dropLabels
    refine .document ?_
    dsimp only
    split
    · rw [List.partition_eq_filter_filter]
      have all : (d.labelsOf s.id).filter (s.listed.contains ·.id) = d.labelsOf s.id := by
        rw [List.filter_eq_self]
        intro label member
        by_contra unlisted
        have inline : label ∈ d.inlineLabels s := List.mem_filter.2 ⟨member, by simpa using unlisted⟩
        rw [none] at inline
        cases inline
      have dropped : (d.labelsOf s.id).filter (not ∘ fun label : Element α => s.listed.contains label.id) = [] := none
      dsimp only
      rw [all, dropped]
      exact .bind .pure (leads_chooseLabels consistent)
    · exact .pure

/-- Revising a settled edge changes nothing but the ends that are named. -/
theorem leads_reviseEdge (consistent : d.Consistent) (settled : Settled d s e) {source target label : Option String}
    (head : s.head.head = .edge source target label) :
    Leads d ids (reviseEdge config e s.head source target label s.listed) () (d.rejoin s.head) ids := by
  have same : e.id = s.id := Document.find?_eq_some_id settled.found
  have edge : s.head.kind = .edge := Declaration.kind_edge head
  have carried : s.head.label? = label := Declaration.label?_edge head
  have turned : d.rejoin s.head = (d.steer s.id Element.setStart source).steer s.id Element.setStop target := by
    unfold Document.rejoin
    rw [head]
    rfl
  obtain ⟨_, there⟩ : ∃ p, (d.steer s.id Element.setStart source).find? s.id = some p := by
    rw [Document.find?_steer Document.turns_setStart, settled.found, if_pos rfl]
    exact ⟨_, rfl⟩
  obtain ⟨_, settled', _⟩ := settled.turn (Document.turned_rejoin : d.Turned (d.rejoin s.head))
  have relabelled := leads_relabel config ids (Document.consistent_rejoin consistent) settled' edge
  rw [carried, turned] at relabelled
  rw [reviseEdge_eq, same, turned]
  refine .bind (b := ()) ?_ relabelled
  unfold redraw
  rw [same]
  exact .bind .note (.bind .record (.bind (leads_mergeProps consistent settled)
    (.bind (leads_mergeStyles consistent settled) (.bind (leads_aim fun _ => .moveStart settled.found)
      (leads_aim fun _ => .moveStop there)))))

/-- A visit of a settled site finds its element and changes nothing but the ends that are named. -/
theorem leads_revisit {parent : Option Handle} {reference : Option (Bounds α)} (consistent : d.Consistent)
    (settled : Settled d s e) :
    Leads d ids (visitOne config parent reference s.head s.listed) (some e.handle) (d.rejoin s.head) ids := by
  have found : d.find? s.head.id = some e := settled.found
  have kind := settled.kind
  unfold Element.kind Content.kind Declaration.kind at kind
  unfold visitOne
  refine .document ?_
  rw [found]
  dsimp only
  cases head : s.head.head with
  | node shape name style =>
    have still : d.rejoin s.head = d := by
      unfold Document.rejoin
      rw [head]
    cases own : e.content with
    | node content =>
      rw [still]
      exact .bind (leads_reviseNode consistent settled head own) .pure
    | edge start stop =>
      rw [head, own] at kind
      cases kind
  | edge source target label =>
    cases own : e.content with
    | node content =>
      rw [head, own] at kind
      cases kind
    | edge start stop => exact .bind (leads_reviseEdge consistent settled head) .pure

/-- A visit of a forest whose sites are all settled joins the ends that are named, one declaration after the other. -/
theorem visit_again (config : Config α) (ids : IdSupply) {f : Forest} (consistent : d.Consistent) (settled : ∀ s ∈ f.sites none, ∃ e, Settled d s e) :
    ∃ reference, Leads d ids (visit config none none f) reference (d.rejoinAll f.preorder) ids := by
  let inv (done : List Site) (d' : Document α) (ids' : IdSupply) : Prop :=
    d' = d.rejoinAll (done.map Site.head) ∧ ids' = ids
  have round (done : List Site) (s : Site) (rest : List Site) (split : f.sites none = done ++ s :: rest) :
      Rounds config inv done s := by
    rintro parent reference _ _ ⟨rfl, rfl⟩ under
    obtain ⟨e, first⟩ := settled s (split ▸ List.mem_append_right done List.mem_cons_self)
    obtain ⟨e', own, _⟩ := first.turn (Document.turned_rejoinAll : d.Turned (d.rejoinAll (done.map Site.head)))
    refine ⟨e'.handle, _, _, leads_revisit (Document.consistent_rejoinAll consistent) own,
      Document.find?_eq_some_id own.found, ?_, ?_, ?_, rfl⟩
    · rw [Document.isLive_iff, Document.handles_rejoin]
      exact List.mem_map_of_mem (Document.mem_of_find? own.found)
    · rw [Document.handles_rejoin]
      exact List.Subset.refl _
    · simp only [Document.rejoinAll, List.map_append, List.map_cons, List.map_nil, List.foldl_append, List.foldl_cons,
        List.foldl_nil]
  have split : f.sites none = [] ++ (f.sites none ++ []) := (List.append_nil _).symm
  have under : Under d [] none none := ⟨rfl, by simp, by simp⟩
  obtain ⟨reference, _, _, visited, _, rfl, rfl⟩ := leads_visit inv round f none split ⟨rfl, rfl⟩ under
  rw [List.nil_append, f.heads_sites] at visited
  exact ⟨reference, visited⟩

end Reconcile

/-- What a forest with distinct ids built is settled. -/
theorem Built.settled {config : Config α} {ids ids' : IdSupply} {f : Forest} {d : Document α} {s : Site}
    (built : Built config ids (f.sites none) d ids') (suits : ids.Suits f.preorder)
    (distinct : (f.preorder.map Declaration.id).Nodup) (tidy : f.Tidy) (member : s ∈ f.sites none) :
    ∃ e, Settled d s e := by
  obtain ⟨before, after, split⟩ := List.append_of_mem member
  obtain ⟨birth, bounds, found⟩ := built.placed before s after split
  have own : s.head.Tidy := tidy s.head (Forest.mem_preorder_of_mem_sites member)
  refine ⟨_, found, Site.kind_element, fun p given => ?_, Reconcile.styled_again own, ?_, fun edge => ?_⟩
  · have props : s.head.props = some p := Option.eq_some_of_filter_eq_some given
    change (s.head.props.getD .nil).merge true p = s.head.props.getD .nil
    rw [props]
    exact Props.merge_self (own.1 p props)
  · intro shape name style content head same
    unfold Site.element Site.content at same
    rw [head] at same
    cases same
    exact ⟨rfl, by rintro text rfl; rfl⟩
  · have listed : Site.below (some s.id) (f.sites none) = s.listed := Forest.below_sites_id distinct (by simp) member
    have apart (x : String) (fresh : x ∈ s.labelIds ids before) : x ∉ s.listed := by
      rw [← listed]
      intro inside
      obtain ⟨s', child, rfl⟩ := List.mem_map.1 inside
      unfold Site.labelIds at fresh
      split at fresh
      · next labelled =>
        rw [← f.heads_sites none, split] at suits
        exact Built.labelId_ne suits labelled (split ▸ (List.mem_filter.1 child).1) Built.id_mem_mentions
          (List.mem_singleton.1 fresh)
      · cases fresh
    have named {xs : List String} {p : Element α} (inside : p ∈ xs.filterMap d.find?) : p.id ∈ xs := by
      obtain ⟨x, within, lookup⟩ := List.mem_filterMap.1 inside
      exact Document.find?_eq_some_id lookup ▸ within
    have plain : d.inlineLabels s = ((s.labelIds ids before).filterMap d.find?).filter Element.isLabelled := by
      have inline : (((s.labelIds ids before).filterMap d.find?).filter Element.isLabelled).filter
          (!s.listed.contains ·.id) = _ := List.filter_eq_self.2 fun p inside => by
        simpa using apart _ (named (List.mem_filter.1 inside).1)
      have others : ((s.listed.filterMap d.find?).filter Element.isLabelled).filter (!s.listed.contains ·.id) = [] :=
        List.filter_eq_nil_iff.2 fun p inside => by simpa using named (List.mem_filter.1 inside).1
      unfold Document.inlineLabels Document.labelsOf Document.childrenOf
      rw [found, listed, Option.elim_some]
      change List.filter _ (List.filter _ (List.filterMap _ (_ ++ s.listed))) = _
      rw [List.filterMap_append, List.filter_append, List.filter_append, inline, others, List.append_nil]
    rw [plain]
    unfold Site.labelIds
    cases carried : s.head.label? with
    | none => rfl
    | some text =>
      obtain ⟨birth', bounds', lookup⟩ := built.labelled before s after text split carried
      rw [Option.isSome_some, if_pos rfl, List.filterMap_cons, lookup]
      rfl

end LiveDiagram
