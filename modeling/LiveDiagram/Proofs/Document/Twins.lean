import LiveDiagram.Proofs.Document.Layout
import LiveDiagram.Proofs.Document.Verbatim

/-! Outlines with the same text. What the text of an outline declares is built into an outline that has the same text,
where it declares what it was written for. -/
namespace LiveDiagram

variable {α : Type} {config : Config α}

/-! Metadata behind styles -/

namespace Reconcile
variable [Coordinate α] {h : Declaration} {p : Props}

theorem without_styled : (styled h p).without Writer.styleKeys = p.without Writer.styleKeys := by
  have one {key : String} {text : Option String} {q : Props} (out : Writer.styleKeys.contains key = true) :
      (withText key text q).without Writer.styleKeys = q.without Writer.styleKeys := by
    unfold withText
    cases spoken text with
    | none => rfl
    | some t => exact Props.without_set out
  unfold styled
  rw [one (by decide), one (by decide)]

theorem get?_styled_without {key : String} (out : Writer.styleKeys.contains key = true) :
    (styled h (p.without Writer.styleKeys)).get? key = styleAt h key := by
  rw [get?_styled, Props.get?_without, if_pos out, Option.or_none]

end Reconcile

/-! Elements built from what is declared -/

/-- The text of a node is what its name says. -/
theorem NodeContent.getD_name? (c : NodeContent α) : c.name?.getD "" = c.text := by
  unfold name?
  split
  · next empty => exact (String.isEmpty_iff.1 empty).symm
  · rfl

namespace Element

theorem kind_declaration (config : Config α) (e : Element α) (children : Outline α) (line : Nat) :
    (e.declaration config children line).kind = e.kind := by
  unfold declaration Declaration.kind kind
  cases e.content <;> rfl

theorem textStyle_declaration (config : Config α) (e : Element α) (children : Outline α) (line : Nat) :
    (e.declaration config children line).textStyle = e.textStyle? config := by
  unfold declaration Declaration.textStyle
  cases same : e.content with
  | node c => rfl
  | edge start stop => simp [textStyle?, isNode, kind, same, Content.kind]

theorem label?_declaration (config : Config α) (e : Element α) (children : Outline α) (line : Nat) :
    (e.declaration config children line).label? = (e.inlined? children).map Writer.nodeText := by
  unfold declaration Declaration.label? inlined?
  cases e.content <;> rfl

/-- A style that is written is written again. -/
theorem shown?_again {key : String} {e e' : Element α}
    (again : e'.metadata.get? key = (spoken (e.shown? config key)).map fun t => .scalar (.text t)) :
    e'.shown? config key = e.shown? config key := by
  conv_lhs => unfold shown?
  rw [again]
  cases shown : e.shown? config key with
  | none => rfl
  | some t =>
    have kept : (config.defaultStyles.contains t || t.isEmpty) = false := by
      unfold shown? at shown
      split at shown
      · split at shown
        · cases shown
        · next unset =>
          cases shown
          exact Bool.eq_false_iff.2 unset
      · cases shown
    have nonempty : t.isEmpty = false := (Bool.or_eq_false_iff.1 kept).2
    have there : spoken (some t) = some t := by
      rw [spoken, Option.filter_some, nonempty]
      rfl
    rw [there]
    exact if_neg (Bool.eq_false_iff.1 kept)

end Element

section
variable [Coordinate α] {e : Element α} {children : Outline α} {echo : Option Props} {line : Nat} {s : Site}
  {before : List Site} {listed : List String} {birth : Nat} {bounds : Bounds α}

/-- What is built from the declaration of an element says the same, where the nodes at its ends come before it. -/
theorem Site.alike_element (said : s.head = { e.declaration config children line with props := e.echoed echo })
    (linked : ∀ x ∈ e.linked, x ∈ nodeIds before) : e.Alike config echo (s.element config before listed birth bounds) := by
  have metadata : (s.element config before listed birth bounds).metadata =
      Reconcile.styled (e.declaration config children line) (e.metadata.without Writer.styleKeys) := by
    unfold element
    rw [said]
    exact congrArg (Reconcile.styled _) (Props.getD_filled? _)
  have kind : (s.element config before listed birth bounds).isNode = e.isNode := by
    unfold Element.isNode
    rw [kind_element, said, ← e.kind_declaration config children line]
    rfl
  refine ⟨congrArg Declaration.id said, ?_, ?_, ?_, ?_, ?_⟩
  · unfold element content
    rw [said]
    unfold Element.declaration
    cases same : e.content with
    | node c => exact ⟨rfl, c.getD_name?⟩
    | edge start stop =>
      have kept (p : Endpoint α) (own : ∀ x ∈ p.node?, x ∈ nodeIds before) : p.node?.filter (· ∈ nodeIds before) = p.node? := by
        cases named : p.node? with
        | none => rfl
        | some x => exact if_pos (decide_eq_true (own x named))
      unfold Element.linked at linked
      rw [same] at linked
      exact ⟨(Endpoint.node?_resolve ..).trans (kept start fun x named => linked x (List.mem_append_left _ (Option.mem_toList.2 named))),
        (Endpoint.node?_resolve ..).trans (kept stop fun x named => linked x (List.mem_append_right _ (Option.mem_toList.2 named)))⟩
  · unfold element
    rw [said]
    rfl
  · refine Element.shown?_again ?_
    rw [metadata, Reconcile.get?_styled_without (by decide)]
    rfl
  · unfold Element.textStyle?
    rw [kind]
    split
    · next isNode =>
      refine Element.shown?_again ?_
      rw [metadata, Reconcile.get?_styled_without (by decide)]
      change (spoken (e.declaration config children line).textStyle).map _ = _
      rw [e.textStyle_declaration, Element.textStyle?, if_pos isNode]
    · rfl
  · unfold Element.bodyMetadata
    rw [metadata, Reconcile.without_styled, Props.without_without]

end

/-! Labels on lines -/

theorem Writer.loneLabel?_eq_some_iff {o : Outline α} {label : Element α} :
    Writer.loneLabel? o = some label ↔ o.roots.filter Element.isLabelled = [label] := by
  unfold loneLabel?
  split
  · next l same => rw [same, Option.some.injEq, List.cons.injEq, and_iff_left rfl]
  · next other =>
    constructor
    · rintro ⟨⟩
    · exact fun same => (other label same).elim

theorem Writer.loneLabel?_eq_none_iff {o : Outline α} :
    Writer.loneLabel? o = none ↔ (o.roots.filter Element.isLabelled).length ≠ 1 := by
  rw [← not_iff_not, not_not, List.length_eq_one_iff, Option.eq_none_iff_forall_ne_some]
  simp only [ne_eq, not_forall, not_not, loneLabel?_eq_some_iff]

/-- In the children of edges, exactly the nodes are labels. -/
def Document.LabelsNodes (d : Document α) : Prop :=
  ∀ id e children, d.find? id = some e → e.isEdge = true → d.Unfolds e.children children →
    children.roots.filter Element.isLabelled = children.roots.filter Element.isNode

theorem Built.labelsNodes [Coordinate α] {ids ids' : IdSupply} {done : List Site} {d : Document α}
    (built : Built config ids done d ids') : d.LabelsNodes := by
  intro id e children found edge unfolds
  refine List.filter_congr fun c member => ?_
  rw [unfolds.roots] at member
  obtain ⟨x, listed, lookup⟩ := List.mem_filterMap.1 member
  obtain ⟨_, lookup', nested⟩ := Document.child_found built.consistent found listed
  cases lookup.symm.trans lookup'
  cases node : c.isNode with
  | true => exact (built.isLabelled_iff lookup node).2 ⟨id, e, nested, found, edge⟩
  | false =>
    unfold Element.isNode Element.kind Content.kind at node
    unfold Element.isLabelled
    cases same : c.content with
    | node content => simp [same] at node
    | edge start stop => rfl

namespace Outline

/-- What restates an outline has its topmost elements as its roots, but for the one that is left out. -/
theorem Restates.roots {leftOut : Option String} {o : Outline α} {f : Forest} (restates : o.Restates config leftOut f) :
    f.roots.map (fun h => (h.id, h.kind)) = (o.roots.filter (leftOut ≠ some ·.id)).map fun e => (e.id, e.kind) := by
  induction restates with
  | nil => rfl
  | skip out _ ih => rw [Outline.roots, List.filter_cons, if_neg (by simp [out]), ih]
  | cons kept _ _ _ _ ih =>
    rw [Outline.roots, List.filter_cons, if_pos (by simpa using kept), Forest.roots, List.map_cons, List.map_cons, ih,
      Document.kind_restated]
    rfl

end Outline

/-- A topmost element as far as labels are concerned: its id and its kind. -/
def Outline.outset (o : Outline α) : List (String × ElementKind) :=
  o.roots.map fun e => (e.id, e.kind)

theorem Outline.length_nodes (o : Outline α) :
    (o.roots.filter Element.isNode).length = o.outset.countP (·.2 = .node) := by
  rw [outset, List.countP_map, List.countP_eq_length_filter]
  rfl

/-- The topmost elements that declarations lead to. -/
theorem Built.outset_eq [Coordinate α] {ids ids' : IdSupply} {done : List Site} {d : Document α}
    (built : Built config ids done d ids') {declared : List Declaration} {o : Outline α}
    (met : declared ⊆ done.map Site.head) (unfolds : d.Unfolds (declared.map Declaration.id) o) :
    o.outset = declared.map fun h => (h.id, h.kind) := by
  induction declared generalizing o with
  | nil =>
    cases unfolds
    rfl
  | cons h rest ih =>
    obtain ⟨first, others⟩ := List.cons_subset.1 met
    obtain ⟨e, found, kind⟩ := built.kind_found first
    cases unfolds with
    | cons found' _ later =>
      cases found'.symm.trans found
      rw [Outline.outset, Outline.roots, List.map_cons, List.map_cons, ← ih others later, kind,
        Document.find?_eq_some_id found]
      rfl

namespace Element
variable {e e' : Element α} {echo : Option Props}

/-- Whether no label can stand on the line of an element. A label would be read as the end of an edge without one. -/
def isMute (e : Element α) : Bool :=
  match e.content with
  | .node _ => true
  | .edge _ stop => e.isJoined && !stop.isConnected

theorem inlined?_eq (e : Element α) (children : Outline α) :
    e.inlined? children = if e.isMute then none else Writer.loneLabel? children := by
  unfold inlined? isMute
  cases e.content <;> rfl

theorem Alike.isMute_eq (alike : e.Alike config echo e') (steady : e.Steady echo) : e'.isMute = e.isMute := by
  unfold isMute
  rw [alike.isJoined_eq steady]
  rcases alike.content.cases with ⟨c, c', same, same', _⟩ | ⟨start, stop, start', stop', same, same', _, stops⟩
  · rw [same, same']
  · rw [same, same']
    simp only [isConnected_eq, stops]

theorem isEdge_of_not_isMute (heard : e.isMute = false) : e.isEdge = true := by
  unfold isMute at heard
  unfold isEdge kind
  cases same : e.content with
  | node => simp [same] at heard
  | edge => rfl

theorem Alike.isEdge_eq (alike : e.Alike config echo e') : e'.isEdge = e.isEdge := by
  unfold isEdge kind
  rw [alike.content.kind]

end Element

section
variable [Coordinate α] {ids ids' : IdSupply} {done before : List Site} {d d' : Document α} {e : Element α}
  {echo : Option Props} {children kids children' : Outline α} {below : Forest} {s : Site} {listed : List String} {birth : Nat} {bounds : Bounds α}

/-- The label that stands on the line of an edge comes back as one that the pass draws an id for, and stands there again. -/
theorem Built.inlined?_again (built' : Built config ids done d' ids') (labels : d.LabelsNodes)
    (found : d.find? e.id = some e) (unfolds : d.Unfolds e.children children)
    (restates : children.Restates config (e.inlinedId? children) below) (met : below.roots ⊆ done.map Site.head)
    (unfolds' : d'.Unfolds (below.roots.map Declaration.id) kids)
    {e' : Element α} (alike : e.Alike config echo e') (steady : e.Steady echo) (found' : d'.find? e'.id = some e')
    (nested : d'.Unfolds e'.children children')
    (label : e.inlined? children = none ∧ children' = kids ∨ ∃ l birth bounds,
      e.inlined? children = some l ∧ children' = .cons (s.label config ids before (Writer.nodeText l) birth bounds) .nil kids) :
    (e'.inlined? children').map Writer.nodeText = (e.inlined? children).map Writer.nodeText ∧
      e'.inlinedId? children' = (e.inlined? children).map fun _ => Site.labelId ids before := by
  rw [Element.inlinedId?, e'.inlined?_eq, alike.isMute_eq steady]
  cases mute : e.isMute with
  | true =>
    rw [e.inlined?_eq, mute]
    exact ⟨rfl, rfl⟩
  | false =>
    have edge := Element.isEdge_of_not_isMute mute
    have own := labels _ e children found edge unfolds
    have own' := built'.labelsNodes _ e' children' found' (alike.isEdge_eq.trans edge) nested
    have outset : kids.outset = (children.roots.filter (e.inlinedId? children ≠ some ·.id)).map fun c => (c.id, c.kind) := by
      rw [← restates.roots]
      exact built'.outset_eq met unfolds'
    have lone : e.inlined? children = Writer.loneLabel? children := by
      rw [e.inlined?_eq, mute]
      rfl
    rw [lone] at label ⊢
    rw [if_neg Bool.false_ne_true]
    rcases label with ⟨bare, rfl⟩ | ⟨l, birth, bounds, drawn, rfl⟩
    · have all : e.inlinedId? children = none := by rw [Element.inlinedId?, lone, bare, Option.map_none]
      rw [all, List.filter_eq_self.2 (by simp)] at outset
      have bare' : Writer.loneLabel? children' = none := by
        rw [Writer.loneLabel?_eq_none_iff, own', Outline.length_nodes, outset, ← Outline.outset, ← Outline.length_nodes, ← own]
        exact Writer.loneLabel?_eq_none_iff.1 bare
      rw [bare, bare']
      exact ⟨rfl, rfl⟩
    · have gone : e.inlinedId? children = some l.id := by rw [Element.inlinedId?, lone, drawn, Option.map_some]
      have bare : kids.roots.filter Element.isNode = [] := by
        rw [← List.length_eq_zero_iff, Outline.length_nodes, outset, List.countP_eq_zero]
        intro x member
        obtain ⟨c, inside, rfl⟩ := List.mem_map.1 member
        obtain ⟨inside, other⟩ := List.mem_filter.1 inside
        rw [Writer.loneLabel?_eq_some_iff, own] at drawn
        rw [gone] at other
        rintro node
        have only : c ∈ children.roots.filter Element.isNode := List.mem_filter.2 ⟨inside, node⟩
        rw [drawn, List.mem_singleton] at only
        simp [only] at other
      have isNode : (s.label config ids before (Writer.nodeText l) birth bounds).isNode = true := rfl
      have drawn' : Writer.loneLabel? (.cons (s.label config ids before (Writer.nodeText l) birth bounds) .nil kids) =
          some (s.label config ids before (Writer.nodeText l) birth bounds) := by
        rw [Writer.loneLabel?_eq_some_iff, own', Outline.roots, List.filter_cons, if_pos isNode, bare]
      rw [drawn, drawn']
      exact ⟨rfl, rfl⟩

end

/-! Outlines with the same lines -/

namespace Outline

/-- Outlines of elements that say the same, but for topmost elements that are left out of either. -/
inductive Twins (config : Config α) : Option String → Option String → Outline α → Outline α → Prop
  | nil {out out' : Option String} : Twins config out out' .nil .nil
  | skip {out out' : Option String} {e : Element α} {children rest o' : Outline α} (left : out = some e.id)
      (later : Twins config out out' rest o') : Twins config out out' (.cons e children rest) o'
  | skip' {out out' : Option String} {e' : Element α} {children' rest' o : Outline α} (left : out' = some e'.id)
      (later : Twins config out out' o rest') : Twins config out out' o (.cons e' children' rest')
  | cons {out out' : Option String} {e e' : Element α} {children children' rest rest' : Outline α}
      {echo : Option Props} (kept : out ≠ some e.id) (kept' : out' ≠ some e'.id)
      (doubles : e.Doubles config echo children e' children')
      (inner : Twins config (e.inlinedId? children) (e'.inlinedId? children') children children')
      (later : Twins config out out' rest rest') : Twins config out out' (.cons e children rest) (.cons e' children' rest')

variable {out out' : Option String} {o o' : Outline α} {indent : String} {texts : List String}

theorem Twins.lines (twins : Twins config out out' o o') (written : Writer.lines config indent out o = .ok texts) :
    Writer.lines config indent out' o' = .ok texts := by
  induction twins generalizing indent texts with
  | nil => exact written
  | skip left _ ih =>
    rw [Writer.lines, if_pos left] at written
    exact ih written
  | skip' left _ ih =>
    rw [Writer.lines, if_pos left]
    exact ih written
  | cons kept kept' doubles _ _ ih ih' =>
    rw [Writer.lines, if_neg kept] at written
    obtain ⟨plan, below, after, planned, beneath, behind, rfl⟩ := exists_of_lines written
    rw [Writer.lines, if_neg kept', doubles.plan planned]
    simp only [bind, Except.bind, ih beneath, ih' behind]
    rfl

theorem Twins.write (twins : Twins config none none o o') (written : Writer.write config o = .ok texts) :
    Writer.write config o' = .ok texts := by
  induction o generalizing o' texts with
  | nil =>
    cases twins with
    | nil => exact written
    | skip' left => cases left
  | cons e children rest _ later =>
    cases twins with
    | skip left => cases left
    | skip' left => cases left
    | cons kept kept' doubles inner others =>
      rw [Writer.write] at written
      obtain ⟨plan, below, after, planned, beneath, behind, rfl⟩ := exists_of_lines written
      rw [Writer.write, doubles.plan planned]
      simp only [bind, Except.bind, inner.lines beneath, later others behind]
      rfl

end Outline

section
variable [Coordinate α] {ids ids' : IdSupply} {d d' : Document α} {g : Forest} {before after : List Site}

/-- The element that is built from what the text of an element declares doubles it. Below it is what is declared below,
behind the label that is drawn for its line. -/
theorem Built.doubles_cons (built : Built config ids (g.sites none) d' ids') (suits : ids.Suits g.preorder)
    (distinct : (g.preorder.map Declaration.id).Nodup) (spoken : d'.Spoken) (labels : d.LabelsNodes) {e : Element α}
    {echo : Option Props} {children o' : Outline α} {below : Forest} {line : Nat} {rest : List String} (own : e.Spoken)
    (steady : e.Steady echo) (found : d.find? e.id = some e) (nested : d.Unfolds e.children children)
    (restates : children.Restates config (e.inlinedId? children) below) (met : below.roots ⊆ g.preorder) {s : Site}
    (said : s.head = { e.declaration config children line with props := e.echoed echo })
    (listed : s.listed = below.roots.map Declaration.id) (split : g.sites none = before ++ s :: after)
    (linked : ∀ x ∈ e.linked, x ∈ Site.nodeIds before) (unfolds : d'.Unfolds (s.id :: rest) o') :
    ∃ e' children' kids more, o' = .cons e' children' more ∧ e'.id = s.id ∧ e.Doubles config echo children e' children' ∧
      d'.Unfolds (below.roots.map Declaration.id) kids ∧ d'.Unfolds rest more ∧
      (e'.inlinedId? children' = none ∧ children' = kids ∨ ∃ label, e'.inlinedId? children' = some label.id ∧
        children' = .cons label .nil kids ∧ label.id ∉ below.roots.map Declaration.id) := by
  obtain ⟨birth, bounds, tree, kids, more, rfl, beneath, behind, label⟩ := built.unfolds_cons distinct split unfolds
  have alike : e.Alike config echo (s.element config before (s.labelIds ids before ++ s.listed) birth bounds) :=
    Site.alike_element said linked
  have drawn : s.head.label? = (e.inlined? children).map Writer.nodeText := by
    rw [said]
    exact e.label?_declaration config children line
  have carried : e.inlined? children = none ∧ tree = kids ∨ ∃ l birth bounds, e.inlined? children = some l ∧
      tree = .cons (s.label config ids before (Writer.nodeText l) birth bounds) .nil kids := by
    rw [drawn] at label
    rcases label with ⟨bare, same⟩ | ⟨text, birth, bounds, labelled, same⟩
    · exact .inl ⟨Option.map_eq_none_iff.1 bare, same⟩
    · obtain ⟨l, there, rfl⟩ := Option.map_eq_some_iff.1 labelled
      exact .inr ⟨l, birth, bounds, there, same⟩
  rw [listed] at beneath
  cases unfolds with
  | cons found' nested' _ =>
    have texts := (spoken _ (List.mem_of_find?_eq_some found')).metadata.1.texts
    obtain ⟨text, named⟩ := built.inlined?_again labels found nested restates (g.heads_sites none ▸ met) beneath alike steady
      found' nested' carried
    refine ⟨_, _, kids, more, rfl, rfl, ⟨alike, steady, ⟨own.metadata.1.texts, texts⟩, text⟩, beneath, behind, ?_⟩
    rw [named]
    rcases carried with ⟨bare, rfl⟩ | ⟨l, birth, bounds, there, rfl⟩
    · exact .inl ⟨by rw [bare]; rfl, rfl⟩
    · refine .inr ⟨_, by rw [there]; rfl, rfl, fun member => ?_⟩
      have labelled : s.head.label?.isSome = true := by rw [drawn, there]; rfl
      exact Built.labelId_not_mem suits split labelled (List.map_subset _ met member)

/-- An outline and the one that is built from what its text declares are twins, where the text declares what it was
written for and nodes at the ends of edges come first. -/
theorem Built.twins (built : Built config ids (g.sites none) d' ids') (suits : ids.Suits g.preorder)
    (distinct : (g.preorder.map Declaration.id).Nodup) (spoken : d'.Spoken) (labels : d.LabelsNodes)
    (linked : ∀ early p late, g.preorder = early ++ p :: late → ∀ x ∈ p.ends, x ∈ Declaration.nodeIds early)
    {part : Forest} {holder : Option Declaration} {o o' : Outline α} {out out' : Option String} {listed : List String}
    (split : g.sites none = before ++ (part.sites holder ++ after)) (unfolds : d.Unfolds listed o)
    (restates : o.Restates config out part) (clear : ∀ e ∈ o.shown out, e.Spoken ∧ e.Stable config)
    (unfolds' : d'.Unfolds (part.roots.map Declaration.id) o') (apart : ∀ x ∈ part.roots.map Declaration.id, out' ≠ some x) :
    Outline.Twins config out out' o o' := by
  -- Along what the text restates; the sites before a part are those that its ends and its label are looked up in.
  induction restates generalizing before after holder o' out' listed with
  | nil =>
    cases unfolds'
    exact .nil
  | skip left _ ih =>
    rw [Outline.shown, if_pos left] at clear
    cases unfolds with
    | cons _ _ later => exact .skip left (ih split later clear unfolds' apart)
  | @cons out e children rest below more echo line kept echoes inner later ih ih' =>
    rw [Outline.shown_cons kept] at clear
    obtain ⟨own, stable⟩ := clear e List.mem_cons_self
    have said : e.restated config children echo line = { e.declaration config children line with props := e.echoed echo } :=
      stable.restated_eq own echo line
    obtain ⟨split, inside, onward⟩ := Forest.split_cons split
    have heads := congrArg (List.map Site.head) split
    rw [g.heads_sites, List.map_append, List.map_cons, List.map_append, Forest.heads_sites] at heads
    have ends (x : String) (named : x ∈ e.linked) : x ∈ Site.nodeIds before := by
      rw [Site.nodeIds_eq]
      exact linked _ _ _ heads x (Element.ends_restated e children echo line ▸ named)
    have met : below.roots ⊆ g.preorder := by
      intro h member
      rw [heads]
      exact List.mem_append_right _ (List.mem_cons_of_mem _ (List.mem_append_left _ (below.roots_subset member)))
    cases unfolds with
    | cons found nested after =>
      obtain rfl := Document.find?_eq_some_id found
      obtain ⟨e', children', kids, others, rfl, named, doubles, beneath, behind, label⟩ := built.doubles_cons suits distinct
        spoken labels own (stable.steady echo echoes) found nested inner met said rfl split ends unfolds'
      have within (out : Option String) (apart : ∀ x ∈ below.roots.map Declaration.id, out ≠ some x) :
          Outline.Twins config (e.inlinedId? children) out children kids :=
        ih inside nested (fun x member => clear x (List.mem_cons_of_mem e (List.mem_append_left _ member))) beneath apart
      refine .cons kept (named ▸ apart _ List.mem_cons_self) doubles ?_ (ih' onward after
        (fun x member => clear x (List.mem_cons_of_mem e (List.mem_append_right _ member))) behind
        fun x member => apart x (List.mem_cons_of_mem _ member))
      rcases label with ⟨bare, rfl⟩ | ⟨l, there, rfl, unnamed⟩
      · rw [bare]
        exact within _ (by simp)
      · -- The label on the line came in front of the children, under an id that no declaration has.
        rw [there]
        exact .skip' rfl (within _ fun x member same => unnamed (Option.some.inj same ▸ member))

end

end LiveDiagram
