import LiveDiagram.Proofs.Document.Twins
import LiveDiagram.Proofs.Props.Holding
import LiveDiagram.Proofs.Reconcile.Converging

/-! A session shows a document, and takes up what it shows. Applying the shown text changes nothing, where it is read as
what it was written for and every edge has the props of the connector on its line. -/
namespace LiveDiagram

variable {α : Type} {config : Config α}

/-! What elements hold already -/

namespace Props
variable {p q : Props} {excluded : List String} {key : String} {value : Value}

/-- Entries that are there already change nothing. -/
theorem overlay_of_held (tidy : q.Tidy) (held : ∀ key value, q.get? key = some value → p.get? key = some value) :
    p.overlay q = p := by
  induction q using byFirst with
  | nil => rfl
  | cons k v rest _ ih =>
    have own : p.get? k = some v := held k v (by rw [get?_cons, if_pos rfl])
    rw [overlay_cons, set_eq_self own]
    exact ih (tidy_cons.1 tidy).2.2 fun key value inside => held key value (get?_cons_of_tidy tidy inside)

/-- What is left of entries is among them. -/
theorem overlay_without (tidy : p.Tidy) : p.overlay (p.without excluded) = p := by
  refine overlay_of_held tidy.without fun key value found => ?_
  rw [get?_without] at found
  split at found
  · cases found
  · exact found

end Props

namespace Element
variable {e : Element α} {key : String}

theorem get?_of_shown? {text : String} (shown : e.shown? config key = some text) :
    e.metadata.get? key = some (.scalar (.text text)) := by
  unfold shown? at shown
  split at shown
  · next s found =>
    split at shown
    · cases shown
    · cases shown
      exact found
  · cases shown

/-- An element that has the props of the connector on its line. -/
def Drawn (e : Element α) : Prop :=
  ∀ c ∈ e.symbol?, e.props.Holds c.props

instance : Decidable e.Drawn :=
  inferInstanceAs (Decidable (∀ c ∈ e.symbol?, _))

theorem holds_bodyProps (tidy : e.props.Tidy) : e.props.Holds e.bodyProps := by
  unfold bodyProps
  split
  · exact Connector.holds_residue tidy
  · exact tidy.holds

theorem loneLabel?_of_inlined {children : Outline α} {l : Element α} (there : e.inlined? children = some l) :
    Writer.loneLabel? children = some l := by
  rw [inlined?_eq] at there
  split at there
  · cases there
  · exact there

/-- The label on the line of an edge is a node with that text. -/
theorem text?_of_inlined {children : Outline α} {l : Element α} (there : e.inlined? children = some l) :
    l.text? = some (Writer.nodeText l) := by
  have labels := Writer.loneLabel?_eq_some_iff.1 (loneLabel?_of_inlined there)
  have labelled : l.isLabelled = true := (List.mem_filter.1 (labels ▸ List.mem_singleton.2 rfl)).2
  unfold isLabelled at labelled
  unfold text? Writer.nodeText
  cases same : l.content with
  | node content => rfl
  | edge start stop =>
    rw [same] at labelled
    cases labelled

/-- What the text of an element says of its props, the props hold. -/
theorem Drawn.holds {children : Outline α} {line : Nat} {p : Props} (drawn : e.Drawn) (tidy : e.props.Tidy)
    (said : (e.declaration config children line).props = some p) : e.props.Holds p := by
  have own := holds_bodyProps tidy
  unfold declaration at said
  cases symbol : e.symbol? with
  | some c =>
    simp only [symbol, Option.some.injEq] at said
    exact said ▸ (drawn c symbol).merge own
  | none =>
    simp only [symbol, Props.filled?] at said
    split at said
    · cases said
    · cases said
      exact own

/-- Bringing the metadata and the styles that an element declares to it changes nothing. -/
theorem styled_declaration (config : Config α) (children : Outline α) (line : Nat) (tidy : e.metadata.Tidy) :
    Reconcile.styled (e.declaration config children line)
      ((filled (e.declaration config children line).metadata).elim e.metadata (e.metadata.overlay ·)) = e.metadata := by
  have laid : (filled (e.declaration config children line).metadata).elim e.metadata (e.metadata.overlay ·) = e.metadata := by
    cases given : filled (e.declaration config children line).metadata with
    | none => rfl
    | some m =>
      have said : e.bodyMetadata.filled? = some m := Option.eq_some_of_filter_eq_some given
      unfold Props.filled? at said
      split at said
      · cases said
      · cases said
        exact Props.overlay_without tidy
  have put (key : String) (text : Option String) (held : ∀ t, text = some t → e.metadata.get? key = some (.scalar (.text t))) :
      Reconcile.withText key text e.metadata = e.metadata := by
    unfold Reconcile.withText
    cases given : spoken text with
    | none => rfl
    | some t => exact Props.set_eq_self (held t (Option.eq_some_of_filter_eq_some given))
  unfold Reconcile.styled
  rw [laid, e.textStyle_declaration, put "style" (e.declaration config children line).style]
  · refine put _ _ fun t shown => ?_
    unfold textStyle? at shown
    split at shown
    · exact get?_of_shown? shown
    · cases shown
  · exact fun t shown => get?_of_shown? shown

end Element

namespace Outline
variable {o : Outline α} {f : Forest} {out : Option String} {d : Document α}

/-- Every site of what restates an outline restates an element of it, with what is nested in that. -/
theorem Restates.exists_of_site (restates : o.Restates config out f) {listed : List String} (unfolds : d.Unfolds listed o)
    {holder : Option Declaration} {s : Site} (member : s ∈ f.sites holder) :
    ∃ e children echo line below, e ∈ o.shown out ∧ e.bodyProps.echo? = .ok echo ∧
      s.head = e.restated config children echo line ∧ s.listed = below.roots.map Declaration.id ∧
      d.Unfolds e.children children ∧ children.Restates config (e.inlinedId? children) below := by
  induction restates generalizing listed holder with
  | nil => cases member
  | skip left _ ih =>
    rw [shown, if_pos left]
    cases unfolds with
    | cons _ _ later => exact ih later member
  | @cons _ e children rest below more echo line kept echoes inner later ih ih' =>
    rw [shown_cons kept]
    cases unfolds with
    | cons _ nested after =>
      rcases List.mem_cons.1 member with rfl | member
      · exact ⟨e, children, echo, line, below, List.mem_cons_self, echoes, rfl, rfl, nested, inner⟩
      · rcases List.mem_append.1 member with inside | behind
        · obtain ⟨x, children, echo, line, below, there, said⟩ := ih nested inside
          exact ⟨x, children, echo, line, below, List.mem_cons_of_mem e (List.mem_append_left _ there), said⟩
        · obtain ⟨x, children, echo, line, below, there, said⟩ := ih' after behind
          exact ⟨x, children, echo, line, below, List.mem_cons_of_mem e (List.mem_append_right _ there), said⟩

end Outline

section
variable {d : Document α} {e : Element α} {children : Outline α} {below : Forest} {s : Site} {line : Nat}

/-- An edge has no label but the one on its line and those that its body lists. -/
theorem inlineLabels_eq (found : d.find? e.id = some e) (nested : d.Unfolds e.children children)
    (restates : children.Restates config (e.inlinedId? children) below) (own : s.id = e.id)
    (listed : s.listed = below.roots.map Declaration.id) :
    d.inlineLabels s = (e.inlined? children).toList := by
  have labels : d.labelsOf e.id = children.roots.filter Element.isLabelled := by
    rw [nested.roots, Document.labelsOf, Document.childrenOf, found]
    rfl
  have ids : s.listed = (children.roots.filter (e.inlinedId? children ≠ some ·.id)).map Element.id := by
    have roots := congrArg (List.map Prod.fst) restates.roots
    rw [List.map_map, List.map_map] at roots
    exact listed.trans roots
  unfold Document.inlineLabels
  rw [own, labels, ids]
  cases there : e.inlined? children with
  | none =>
    rw [Option.toList_none, List.filter_eq_nil_iff]
    intro l member
    have inside : l ∈ children.roots := (List.mem_filter.1 member).1
    have all : e.inlinedId? children = none := by rw [Element.inlinedId?, there, Option.map_none]
    simp only [all, ne_eq, reduceCtorEq, not_false_eq_true, decide_true, List.filter_true, List.contains_eq_mem,
      Bool.not_eq_true', decide_eq_false_iff_not, not_not]
    exact List.mem_map_of_mem inside
  | some l =>
    rw [Writer.loneLabel?_eq_some_iff.1 (Element.loneLabel?_of_inlined there), Option.toList_some, List.filter_eq_self]
    intro l' alone
    cases List.mem_singleton.1 alone
    have gone : e.inlinedId? children = some l.id := by rw [Element.inlinedId?, there, Option.map_some]
    rw [gone, Bool.not_eq_true', List.contains_eq_mem, decide_eq_false_iff_not]
    intro member
    obtain ⟨c, kept, same⟩ := List.mem_map.1 member
    simp [same] at kept

/-- An element that is shown is settled: it says already what its text declares. -/
theorem settled_of_shown (spoken : e.Spoken) (found : d.find? e.id = some e) (nested : d.Unfolds e.children children)
    (restates : children.Restates config (e.inlinedId? children) below)
    (said : s.head = e.declaration config children line) (listed : s.listed = below.roots.map Declaration.id)
    (drawn : e.Drawn) : Settled d s e := by
  have own : s.id = e.id := congrArg Declaration.id said
  refine ⟨own ▸ found, ?_, fun p given => ?_, ?_, ?_, fun _ => ?_⟩
  · rw [said, e.kind_declaration]
  · have there : s.head.props = some p := Option.eq_some_of_filter_eq_some given
    rw [said] at there
    exact Props.merge_of_holds (drawn.holds spoken.props.2 there)
  · rw [said]
    exact e.styled_declaration config children line spoken.metadata.2
  · intro shape name style content head same
    rw [said] at head
    unfold Element.declaration at head
    rw [same] at head
    cases head
    refine ⟨rfl, fun text named => ?_⟩
    unfold NodeContent.name? at named
    split at named
    · cases named
    · exact (Option.some.inj named).symm
  · rw [inlineLabels_eq found nested restates own listed, said, e.label?_declaration]
    cases there : e.inlined? children with
    | none => rfl
    | some l => exact congrArg (fun text => [text]) (Element.text?_of_inlined there)

/-- Ends that are in a document stay where they are when they go to their nodes. -/
theorem Endpoint.rejoin_still {p : Endpoint α} (fits : d.Fits p) (centered : p.Centered) (known : String → Bool) :
    (p.node?.filter known).elim p atCenter = p := by
  cases p with
  | free position => rfl
  | stranded => exact fits.elim
  | connected node anchor =>
    have center : anchor = centerAnchor := centered (node, anchor) rfl
    rw [center]
    change (Option.filter known (some node)).elim _ _ = _
    rw [Option.filter_some]
    split <;> rfl

/-- What the text of an edge says of its ends turns none of them. -/
theorem rejoin_declaration (consistent : d.Consistent) (spoken : e.Spoken) (found : d.find? e.id = some e)
    (config : Config α) (children : Outline α) (line : Nat) : (e.declaration config children line).rejoin d.knows e = e := by
  have fits (relation : Relation) (p : Endpoint α) (ending : e.end? relation = some p) : d.Fits p :=
    consistent.end_fits relation e.id p (by rw [Document.endOf, found]; exact ending)
  have centered := spoken.content
  obtain ⟨id, birth, content, props, metadata, parent, listed⟩ := e
  cases content with
  | node content => exact Declaration.rejoin_node
  | edge start stop =>
    rw [Declaration.rejoin_edge rfl, Endpoint.rejoin_still (fits .start start rfl) centered.1,
      Endpoint.rejoin_still (fits .stop stop rfl) centered.2]

end

variable [Coordinate α]

/-- A pass over what the text of a document declares leaves every element as it is. -/
theorem Document.Brought.reconcile_shown {d : Document α} (brought : d.Brought) (config : Config α) {text : String}
    (written : d.text = .ok text) (own : ∀ e ∈ d.shown, e.Verbatim .standard ∧ e.Drawn) {context context' : Context}
    {parsed : Parsed} (clean : Parsed.Clean text context parsed context') :
    ∃ outcome w, Gives (Work.reconcile config parsed.forest) ⟨d, context'⟩ outcome w ∧ outcome.added = [] ∧
      outcome.removed = [] ∧ ∀ x, w.document.state? x = d.state? x := by
  have restates := (brought.restates (fun e member => (own e member).1.lined) written clean).2
  have distinct := (Parsed.clean_iff.1 clean).2
  have restated (s : Site) (member : s ∈ parsed.forest.sites none) : ∃ e children line, d.find? e.id = some e ∧ e.Spoken ∧
      s.head = e.declaration .standard children line ∧ Settled d s e := by
    obtain ⟨e, children, echo, line, below, there, echoes, said, listed, nested, inner⟩ :=
      restates.exists_of_site brought.unfolds member
    obtain ⟨verbatim, drawn⟩ := own e there
    have found := brought.unfolds.find?_of_mem_shown there
    have spoken := brought.spoken e (List.mem_of_find?_eq_some found)
    rw [verbatim.restated_eq spoken echoes] at said
    exact ⟨e, children, line, found, spoken, said, settled_of_shown spoken found nested inner said listed drawn⟩
  have kept (x : String) (member : x ∈ d.top) : x ∈ parsed.forest.preorder.map Declaration.id := by
    obtain ⟨e, found⟩ := Document.contains_iff_find?.1 ((brought.consistent.mem_top x).1 member).1
    have root : e ∈ (d.outline d.top).roots := brought.unfolds.roots ▸ List.mem_filterMap.2 ⟨x, member, found⟩
    have named : (e.id, e.kind) ∈ parsed.forest.roots.map fun h => (h.id, h.kind) :=
      restates.roots ▸ List.mem_map.2 ⟨e, List.mem_filter.2 ⟨root, by simp⟩, rfl⟩
    obtain ⟨h, listed, same⟩ := List.mem_map.1 named
    have own : h.id = x := (congrArg Prod.fst same).trans (Document.find?_eq_some_id found)
    exact own ▸ List.mem_map_of_mem (parsed.forest.roots_subset listed)
  obtain ⟨outcome, w, given, same, added, removed⟩ := Work.reconcile_again config context' brought.consistent kept
    fun s member => by
      obtain ⟨e, _, _, _, _, _, settled⟩ := restated s member
      exact ⟨e, settled⟩
  have found (x : String) : w.document.find? x = d.find? x := by
    rw [Document.find?_of_same same.elements]
    by_cases inside : x ∈ parsed.forest.preorder.map Declaration.id
    · rw [← parsed.forest.ids_sites none] at inside
      obtain ⟨s, member, rfl⟩ := List.mem_map.1 inside
      obtain ⟨e, children, line, found, spoken, said, settled⟩ := restated s member
      have turned := Document.find?_rejoinAll_of_mem (d := d) distinct (Forest.mem_preorder_of_mem_sites member)
      have here : d.find? s.head.id = some e := settled.found
      rw [here, Option.map_some, said, rejoin_declaration brought.consistent spoken found, ← said] at turned
      exact turned.trans here.symm
    · exact Document.find?_rejoinAll_of_not_mem inside
  refine ⟨outcome, w, given, added, removed, fun x => Document.state?_congr (found x) fun _ _ _ _ => ?_⟩
  unfold Document.boxOf
  rw [found]

/-! Sessions -/

namespace Session
variable {s view : Session α} {d : Document α} {w : Workspace α} {name : String} {highlighting : Bool}

/-- What a session with the format of diagrams shows is the text of the document. -/
theorem text_of_refresh (format : s.format = .diagram name highlighting) (refreshed : s.refresh d = .ok view) :
    view.format = s.format ∧ view.config = s.config ∧ d.text = .ok view.text := by
  unfold refresh at refreshed
  rw [format] at refreshed
  unfold Document.text
  cases lines : d.linesOf .standard d.top with
  | error fault =>
    simp only [TextFormat.diagram, lines, bind, Except.bind] at refreshed
    cases refreshed
  | ok lines =>
    simp only [TextFormat.diagram, lines, bind, Except.bind, pure, Except.pure, Except.ok.injEq] at refreshed
    subst refreshed
    exact ⟨format.symm, rfl, rfl⟩

omit [Coordinate α] in
theorem refresh_eq {lines : List String} (written : s.format.write d d.top = .ok lines) :
    s.refresh d = .ok { s with lines := lines, errors := .none } := by
  unfold refresh
  rw [written]
  rfl

/-- Checking a text takes up what it is read as. -/
theorem gives_check (format : s.format = .diagram name highlighting) {text : String} {context : Context} {parsed : Parsed}
    (clean : Parsed.Clean text w.context parsed context) :
    Gives (s.check text) w ({ s with lines := split text, errors := parsed.errors }, .ok parsed) { w with context := context } := by
  have read : (s.format.read text).run w.context = (.ok parsed, context) := by
    rw [format]
    exact clean.read
  unfold Gives
  change check s text w = _
  unfold check
  simp only [read]

theorem gives_apply {parsed : Parsed} {outcome : Outcome} {w' : Workspace α} (clean : parsed.errors.reports = [])
    (given : Gives (Work.reconcile s.config parsed.forest) w outcome w') : Gives (s.apply parsed) w (some outcome) w' := by
  have empty : parsed.errors.isEmpty = true := List.isEmpty_iff.2 clean
  unfold apply
  rw [if_pos empty]
  exact gives_bind.2 ⟨outcome, w', given, gives_pure.2 ⟨rfl, rfl⟩⟩

end Session

/-- Applying what a session shows changes nothing. A document that texts brought about is shown, and the shown text is
checked and applied as it is. Where every element is read as what it was written for, and every edge has the props of the
connector on its line, nothing is added or removed and every state stays. Where no state has a coordinate that is not a
number, the outcome is empty and the history has no step more. -/
theorem Work.OfTexts.apply_shown {w : Workspace α} (reached : Work.OfTexts w) {s view : Session α} {name : String}
    {highlighting : Bool} (format : s.format = .diagram name highlighting) (refreshed : s.refresh w.document = .ok view)
    (own : ∀ e ∈ w.document.shown, e.Verbatim .standard ∧ e.Drawn) {parsed : Parsed} {context : Context}
    (clean : Parsed.Clean view.text w.context parsed context) :
    ∃ taken u outcome w', Gives (view.check view.text) w (taken, .ok parsed) u ∧
      Gives (taken.apply parsed) u (some outcome) w' ∧ outcome.added = [] ∧ outcome.removed = [] ∧
      (∀ x, w'.document.state? x = w.document.state? x) ∧
      ((∀ x, w.document.SteadyAt x) → outcome = ⟨[], [], []⟩ ∧ w'.document.history = w.document.history) := by
  have brought := reached.brought
  obtain ⟨kept, _, written⟩ := Session.text_of_refresh format refreshed
  obtain ⟨outcome, w', given, added, removed, still⟩ := brought.reconcile_shown view.config written own clean
  refine ⟨_, _, outcome, w', Session.gives_check (kept.trans format) clean, Session.gives_apply clean.errors given, added,
    removed, still, fun steady => ?_⟩
  refine Work.history_of_unchanged brought.consistent given added removed ?_
  exact List.eq_nil_iff_forall_not_mem.2 fun x member =>
    Work.not_steadyAt_of_mem_updated brought.consistent given member (still x) (steady x)

/-- A document of two texts, with props and a labelled edge. -/
theorem Work.OfTexts.apply_shown_labelled :
    ∃ (w u w' : Workspace Quantity) (s view taken : Session Quantity) (parsed : Parsed) (context : Context),
      Work.OfTexts w ∧ s.format = .diagram TextFormat.standardName true ∧ s.refresh w.document = .ok view ∧
        (∀ e ∈ w.document.shown, e.Verbatim .standard ∧ e.Drawn) ∧ Parsed.Clean view.text w.context parsed context ∧
        w.document.elements.map Element.id = ["a", "b", "e", "*"] ∧ (∀ x, w.document.SteadyAt x) ∧
        Gives (view.check view.text) w (taken, .ok parsed) u ∧ Gives (taken.apply parsed) u (some ⟨[], [], []⟩) w' ∧
        (∀ x, w'.document.state? x = w.document.state? x) ∧ w'.document.history = w.document.history := by
  let context : Context := ⟨⟨fun _ => "*", 0⟩, []⟩
  let s : Session Quantity := ⟨.diagram TextFormat.standardName true, .standard, [], .none, none, none⟩
  let lines := ["a: rect \x7b", "  props: \"color=red\"", "\x7d", "", "b: rect", "", "e: edge a ==#|> b \"L\"", ""]
  let start : Workspace Quantity := ⟨Document.empty Document.page, context⟩
  let first := ((Work.applyText "a: rect\nb: rect").run start).2
  let w := ((Work.applyText "a: rect \x7b props: \"color=red\" \x7d\nb: rect\ne: edge a ==#|> b \"L\"").run first).2
  obtain ⟨_, _, clean, given⟩ := Work.exists_applied "a: rect\nb: rect" start (by decide +kernel)
  obtain ⟨_, _, clean', given'⟩ := Work.exists_applied
    "a: rect \x7b props: \"color=red\" \x7d\nb: rect\ne: edge a ==#|> b \"L\"" first (by decide +kernel)
  have reached : Work.OfTexts w := .apply (.apply (.empty _ _) given clean.errors) given' clean'.errors
  have refreshed : s.refresh w.document = .ok { s with lines := lines, errors := .none } :=
    Session.refresh_eq (by decide +kernel)
  have own : ∀ e ∈ w.document.shown, e.Verbatim .standard ∧ e.Drawn := by decide +kernel
  obtain ⟨parsed, reread, _⟩ := Parsed.exists_clean ("\n".intercalate lines) w.context (fun _ => true) (by decide +kernel)
  have steady (x : String) : w.document.SteadyAt x := Document.steadyAt_of_all (by decide +kernel) x
  obtain ⟨taken, u, outcome, w', checked, applied, _, _, still, rest⟩ := reached.apply_shown rfl refreshed own reread
  obtain ⟨rfl, history⟩ := rest steady
  exact ⟨w, u, w', s, _, taken, parsed, _, reached, rfl, refreshed, own, reread, by decide +kernel, steady, checked, applied,
    still, history⟩

/-- Applying what a session shows updates an edge that lacks the props of the plain line, and an element whose props have
a blank in front of a path or a number of which the text is none. -/
theorem Work.apply_shown_changes :
    ["a: rect\ne: edge a ->", "e: rect \x7b props: \"\\\\ a=1\" \x7d",
        "e: rect \x7b props: \"x=0.00001\" \x7d"].Forall fun text =>
      ∃ (context c c' : Context) (first parsed : Parsed) (w u w' : Workspace Quantity) (s view taken : Session Quantity)
        (outcome : Outcome), Parsed.Clean text context first c ∧
        Gives (Work.applyText text) ⟨Document.empty Document.page, context⟩ first.errors w ∧
        s.format = .diagram TextFormat.standardName true ∧ s.refresh w.document = .ok view ∧
        Parsed.Clean view.text w.context parsed c' ∧ Gives (view.check view.text) w (taken, .ok parsed) u ∧
        Gives (taken.apply parsed) u (some outcome) w' ∧ "e" ∈ outcome.updated ∧
        w'.document.history.undoable.length = w.document.history.undoable.length + 1 := by
  let context : Context := ⟨⟨fun _ => "*", 0⟩, []⟩
  let s : Session Quantity := ⟨.diagram TextFormat.standardName true, .standard, [], .none, none, none⟩
  let start : Workspace Quantity := ⟨Document.empty Document.page, context⟩
  let reached (text : String) : Workspace Quantity := ((Work.applyText text).run start).2
  let again (text : String) (lines : List String) := (Work.applyText ("\n".intercalate lines)).run (reached text)
  refine List.forall_iff_forall_mem.2 fun text member => ?_
  have ends : ∃ lines, (((Work.applyText text).run start).1.toOption.any Errors.isEmpty = true ∧
      s.format.write (reached text).document (reached text).document.top = .ok lines) ∧
      (again text lines).1.toOption.any Errors.isEmpty = true ∧
      (((reached text).document.state? "e").any fun former =>
        ((again text lines).2.document.state? "e").any fun latter => !latter.same former && latter != former) = true ∧
      (again text lines).2.document.history.undoable.length = (reached text).document.history.undoable.length + 1 := by
    simp only [List.mem_cons, List.not_mem_nil, or_false] at member
    rcases member with rfl | rfl | rfl
    · exact ⟨["a: rect", "", "e: edge a --", ""], by decide +kernel, by decide +kernel⟩
    · exact ⟨["e: rect \x7b", "  props: \" a=1\"", "\x7d", ""], by decide +kernel, by decide +kernel⟩
    · exact ⟨["e: rect \x7b", "  props: \"x=1e-05\"", "\x7d", ""], by decide +kernel, by decide +kernel⟩
  obtain ⟨lines, ⟨applies, written⟩, rereads, differ, longer⟩ := ends
  obtain ⟨first, c, clean, given⟩ := Work.exists_applied text start applies
  obtain ⟨errors, given', empty⟩ := exists_gives Errors.isEmpty rereads
  obtain ⟨parsed, c', outcome, reread, _, reconciled⟩ := (Work.gives_applyText (List.isEmpty_iff.1 empty)).1 given'
  have refreshed := s.refresh_eq written
  have consistent := (Work.OfTexts.apply (.empty _ _) given clean.errors).brought.consistent
  obtain ⟨former, former?, differ⟩ := Option.any_eq_true _ _ |>.1 differ
  obtain ⟨latter, latter?, differ⟩ := Option.any_eq_true _ _ |>.1 differ
  obtain ⟨differ, other⟩ := Bool.and_eq_true_iff.1 differ
  have updated : "e" ∈ outcome.updated := by
    refine ((Work.outcome_reconcile consistent reconciled).2.2.2.2 "e"
      ⟨former, latter, former?, latter?, by simpa using differ⟩).resolve_right fun same => ?_
    rw [former?, latter?] at same
    simp [Option.some.inj same] at other
  exact ⟨context, c, c', first, parsed, _, _, _, s, _, _, outcome, clean, given, rfl, refreshed, reread,
    Session.gives_check rfl reread, Session.gives_apply reread.errors reconciled, updated, longer⟩

end LiveDiagram
