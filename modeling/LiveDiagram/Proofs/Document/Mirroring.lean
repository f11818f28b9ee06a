import LiveDiagram.Proofs.Document.Brought
import LiveDiagram.Proofs.Props.Echo

/-! What the text of a document defines. Where it can be read, it defines the elements of the document and nothing else,
but for labels that stand on the line of their edge and all that is nested in those. It can be read where no shape and
no name of an end is taken for a connector, and where styles and numbers are such as can be read. -/
namespace LiveDiagram

variable {α : Type} {config : Config α}

namespace Document

/-- The label that stands on the line of an edge: its only one, unless it would be read as the end of the edge. -/
def lineLabel? (d : Document α) (e : Element α) : Option (Element α) :=
  match e.content with
  | .node _ => none
  | .edge _ stop =>
    if e.isJoined && !stop.isConnected then none
    else match d.labelsOf e.id with
      | [label] => some label
      | _ => none

/-- A forest that declares some elements of a document with all that is nested in them, in their order, but for labels
on the lines of edges and for what is left out. -/
inductive Mirrors (d : Document α) : Option String → List String → Forest → Prop
  | nil {leftOut : Option String} : Mirrors d leftOut [] .nil
  | skip {leftOut : Option String} {id : String} {ids : List String} {f : Forest} (out : leftOut = some id)
      (later : Mirrors d leftOut ids f) : Mirrors d leftOut (id :: ids) f
  | cons {leftOut : Option String} {ids : List String} {e : Element α} {declared : Declaration} {below more : Forest}
      (kept : leftOut ≠ some e.id) (found : d.find? e.id = some e) (named : declared.id = e.id)
      (kind : declared.kind = e.kind) (inner : Mirrors d ((d.lineLabel? e).map Element.id) e.children below)
      (later : Mirrors d leftOut ids more) : Mirrors d leftOut (e.id :: ids) (.cons declared below more)

variable {d : Document α} {ids : List String} {o : Outline α} {f : Forest} {leftOut : Option String}

theorem Unfolds.inlinedId?_eq {e : Element α} {children : Outline α} (found : d.find? e.id = some e)
    (inner : d.Unfolds e.children children) : e.inlinedId? children = (d.lineLabel? e).map Element.id := by
  have labels : children.roots.filter Element.isLabelled = d.labelsOf e.id := by
    rw [inner.roots, labelsOf, childrenOf, found]
    rfl
  unfold Element.inlinedId? Element.inlined? lineLabel? Writer.loneLabel?
  exact labels ▸ rfl

theorem kind_restated (e : Element α) (children : Outline α) (echo : Option Props) (line : Nat) :
    (e.restated config children echo line).kind = e.kind := by
  unfold Element.restated Declaration.kind Element.kind
  cases e.content <;> rfl

/-- What restates an unfolded outline mirrors the elements that it unfolds. -/
theorem Unfolds.mirrors (unfolds : d.Unfolds ids o) (restates : o.Restates config leftOut f) :
    d.Mirrors leftOut ids f := by
  induction unfolds generalizing leftOut f with
  | nil =>
    cases restates
    exact .nil
  | cons found below after inner later =>
    obtain rfl := find?_eq_some_id found
    cases restates with
    | skip out rest => exact .skip out (later rest)
    | cons kept _ nested rest =>
      rw [Unfolds.inlinedId?_eq found below] at nested
      exact .cons kept found rfl (kind_restated _ _ _ _) (inner nested) (later rest)

end Document

namespace Outline
variable {o : Outline α} {f : Forest} {leftOut : Option String} {e : Element α}

theorem shown_sublist : (o.shown leftOut).Sublist o.preorder := by
  induction o generalizing leftOut with
  | nil => exact .slnil
  | cons e children rest inner later =>
    rw [shown, preorder]
    split
    · exact (later.trans (List.sublist_append_right _ _)).cons e
    · exact (inner.append later).cons_cons e

theorem Restates.ids (restates : o.Restates config leftOut f) :
    f.preorder.map Declaration.id = (o.shown leftOut).map Element.id := by
  induction restates with
  | nil => rfl
  | skip out _ ih => rw [shown, if_pos out, ih]
  | cons kept _ _ _ ih ih' =>
    rw [shown_cons kept, Forest.preorder, List.map_cons, List.map_cons, List.map_append, List.map_append, ih, ih']
    rfl

/-- All that has a line is written. -/
theorem exists_plan_of_lines {indent : String} {texts : List String}
    (written : Writer.lines config indent leftOut o = .ok texts) (member : e ∈ o.shown leftOut) :
    ∃ children plan, Writer.plan config e children = .ok plan := by
  induction o generalizing indent leftOut texts with
  | nil => cases member
  | cons first children rest inner later =>
    rw [Writer.lines] at written
    by_cases out : leftOut = some first.id
    · rw [if_pos out] at written
      rw [shown, if_pos out] at member
      exact later written member
    · rw [if_neg out] at written
      rw [shown_cons out] at member
      obtain ⟨plan, below, after, planned, beneath, behind, rfl⟩ := exists_of_lines written
      rcases List.mem_cons.1 member with rfl | member
      · exact ⟨children, plan, planned⟩
      · exact (List.mem_append.1 member).elim (inner beneath) (later behind)

theorem exists_plan_of_write {texts : List String} (written : Writer.write config o = .ok texts) (member : e ∈ o.shown none) :
    ∃ children plan, Writer.plan config e children = .ok plan := by
  induction o generalizing texts with
  | nil => cases member
  | cons first children rest _ later =>
    have kept : none ≠ some first.id := by simp
    rw [Writer.write] at written
    rw [shown_cons kept] at member
    obtain ⟨plan, below, after, planned, beneath, behind, rfl⟩ := exists_of_lines written
    rcases List.mem_cons.1 member with rfl | member
    · exact ⟨children, plan, planned⟩
    · exact (List.mem_append.1 member).elim (exists_plan_of_lines beneath) (later behind)

end Outline

namespace Element
open Token (Spells)

/-- An element whose text is read as what it is. Its shape or the names of its ends are not taken for connectors, the
line for its styles falls into words of which none is the text style of an edge, and no text in its props is a number
with too many digits behind blanks. -/
structure Clear (config : Config α) (e : Element α) : Prop where
  shape : ∀ content, e.content = .node content → Connector.read? content.type.toList = none
  ends : ∀ start stop, e.content = .edge start stop → Named start ∧ Named stop
  styles : ∀ text ∈ e.styleLine? config, ∃ words, Spells text.toList words
  unstyled : e.isEdge = true → (e.stylesEcho config).2 = none
  props : e.bodyProps.Brief

theorem Clear.audible {e : Element α} {children : Outline α} {plan : Writer.Plan} (clear : e.Clear config)
    (spoken : e.Spoken) (planned : Writer.plan config e children = .ok plan) : ∃ echo, e.Audible config echo := by
  have metadata := spoken.metadata.1.texts
  obtain ⟨drawn, texts, entered, _⟩ := exists_of_plan planned
  obtain ⟨line, written, _⟩ := entries_eq metadata entered
  obtain ⟨echo, echoes⟩ := Props.exists_echo (heard_bodyProps spoken.props).1 clear.props written
  refine ⟨echo, ?_, echoes, metadata, clear.styles, clear.unstyled⟩
  unfold Titled
  cases same : e.content with
  | node content =>
    have own := spoken.content
    rw [same] at own
    exact ⟨Token.plain_iff.2 ⟨own.1, clear.shape content same⟩, own.2⟩
  | edge start stop => exact ⟨drawn start stop same, clear.ends start stop same⟩

end Element

variable [Coordinate α]

/-- The text of a document that texts brought about defines what is there, and nothing else. Where it is read without
errors and its styles are written on one line each, its forest mirrors the document; and it is read without errors
where all that it writes is clear. -/
theorem Work.OfTexts.text_mirrors {w : Workspace α} (reached : Work.OfTexts w) {formatted : String}
    (written : w.document.text = .ok formatted) :
    ((∀ e ∈ w.document.shown, e.Lined .standard) → ∀ context parsed context',
      Parsed.Clean formatted context parsed context' → w.document.Mirrors none w.document.top parsed.forest) ∧
    ((∀ e ∈ w.document.shown, e.Clear .standard) → ∀ context, ∃ parsed context',
      Parsed.Clean formatted context parsed context' ∧ w.document.Mirrors none w.document.top parsed.forest) := by
  have brought := reached.brought
  refine ⟨fun lined context parsed context' clean => ?_, fun clear context => ?_⟩
  · exact brought.unfolds.mirrors (brought.restates lined written clean).2
  · obtain ⟨lines, given, rfl⟩ := Document.text_eq written
    have audible (e : Element α) (member : e ∈ w.document.shown) : ∃ echo, e.Audible .standard echo := by
      obtain ⟨children, plan, planned⟩ := Outline.exists_plan_of_write given member
      have spoken := brought.spoken e (List.mem_of_find?_eq_some (brought.unfolds.find?_of_mem_shown member))
      exact (clear e member).audible spoken planned
    obtain ⟨texts, given', conveys⟩ := Outline.exists_write_restated audible Document.blank_indent
    cases given.symm.trans given'
    obtain ⟨f, restates, conveyed⟩ := conveys 0
    obtain ⟨context', read⟩ := Parsed.ofText_conveyed (conveyed (Reader.start context))
    have distinct : (f.preorder.map Declaration.id).Nodup := by
      rw [restates.ids]
      refine (Outline.shown_sublist.map Element.id).nodup ?_
      exact brought.unfolds.nodup brought.consistent brought.layered brought.consistent.top_nodup none
        fun r member => ((brought.consistent.mem_top r).1 member).2.1
    exact ⟨_, context', Parsed.clean_iff.2 ⟨⟨read, rfl⟩, distinct⟩, brought.unfolds.mirrors restates⟩

/-- The label of an edge is in the document, and stands on the line of the edge. -/
theorem Work.OfTexts.text_mirrors_labelled :
    ∃ (w : Workspace Quantity) (formatted : String) (context context' : Context) (parsed : Parsed),
      Work.OfTexts w ∧ w.document.text = .ok formatted ∧ (∀ e ∈ w.document.shown, e.Clear .standard) ∧
        Parsed.Clean formatted context parsed context' ∧ w.document.elements.map Element.id = ["a", "b", "e", "*"] ∧
        w.document.Mirrors none ["a", "b", "e"] parsed.forest := by
  let text := "a: rect\nb: rect\ne: edge a -- b \"L\""
  let formatted := "a: rect\n\nb: rect\n\ne: edge a -- b \"L\"\n"
  let context : Context := ⟨⟨fun _ => "*", 0⟩, []⟩
  let start : Workspace Quantity := ⟨Document.empty Document.page, context⟩
  let w := ((Work.applyText text).run start).2
  obtain ⟨_, _, clean, given⟩ := Work.exists_applied text start (by decide +kernel)
  have reached : Work.OfTexts w := .apply (.empty _ _) given clean.errors
  have written : w.document.text = .ok formatted := by decide +kernel
  have bare : ∀ e ∈ w.document.shown, e.styleLine? .standard = none ∧ e.bodyProps = .nil := by decide +kernel
  have titled : w.document.shown.all (fun e => match e.content with
    | .node content => (Connector.read? content.type.toList).isNone
    | .edge start stop => [start, stop].all fun p => p.node?.all fun id => (Connector.read? id.toList).isNone) = true := by
    decide +kernel
  have clear : ∀ e ∈ w.document.shown, e.Clear .standard := by
    intro e member
    obtain ⟨styles, props⟩ := bare e member
    have titled := List.all_eq_true.1 titled e member
    refine ⟨fun content same => ?_, fun start stop same => ?_, fun text line => ?_, fun _ => ?_, ?_⟩
    · rw [same] at titled
      exact Option.isNone_iff_eq_none.1 titled
    · rw [same] at titled
      have named (p : Endpoint Quantity) (listed : p ∈ [start, stop]) : Element.Named p := by
        intro id there _
        have unread := List.all_eq_true.1 titled p listed
        rw [there] at unread
        exact Option.isNone_iff_eq_none.1 unread
      exact ⟨named start (by simp), named stop (by simp)⟩
    · rw [styles] at line
      cases line
    · rw [Element.stylesEcho, styles]
      rfl
    · rw [props]
      trivial
  obtain ⟨parsed, context', reread, mirrors⟩ := (reached.text_mirrors written).2 clear context
  have top : w.document.top = ["a", "b", "e"] := by decide +kernel
  exact ⟨w, formatted, context, context', parsed, reached, written, clear, reread, by decide +kernel, top ▸ mirrors⟩

/-- A text whose reading ends with errors is not clean. -/
theorem Parsed.not_clean {text : String} {context : Context}
    (errors : (Parsed.ofText Parsed.standardRules text context).1.toOption.all (!·.errors.isEmpty) = true) :
    ¬∃ parsed context', Parsed.Clean text context parsed context' := by
  rintro ⟨parsed, context', read, none⟩
  rw [read] at errors
  simp [Except.toOption, Errors.isEmpty, none] at errors

/-- Shapes and names of ends that are taken for connectors, and styles that are taken for the start of a quoted text,
leave errors in a text. A style that holds line breaks can define what is not there. -/
theorem Work.applyText_misread :
    (∀ text ∈ ["a: --@", "\"x--x\": rect\ne: edge \"x--x\" --", "a: rect \x7b\n  metadata: \"style=\\\"x\"\n\x7d"],
      ∃ (context c : Context) (parsed : Parsed) (w : Workspace Quantity) (formatted : String),
        Parsed.Clean text context parsed c ∧
        Gives (Work.applyText text) ⟨Document.empty Document.page, context⟩ parsed.errors w ∧
        w.document.text = .ok formatted ∧ ¬∃ again c', Parsed.Clean formatted context again c') ∧
    ∃ text ∈ ["a: rect \x7b\n  metadata: \"style=x\\nb: rect\\nstylesheet: q\"\n\x7d"],
      ∃ (context c c' : Context) (parsed again : Parsed) (w : Workspace Quantity) (formatted : String),
        Parsed.Clean text context parsed c ∧
        Gives (Work.applyText text) ⟨Document.empty Document.page, context⟩ parsed.errors w ∧
        w.document.text = .ok formatted ∧ Parsed.Clean formatted context again c' ∧
        w.document.contains "b" = false ∧ "b" ∈ again.forest.preorder.map Declaration.id := by
  let context : Context := ⟨⟨fun _ => "*", 0⟩, []⟩
  let start : Workspace Quantity := ⟨Document.empty Document.page, context⟩
  have misread (text formatted : String) (ends : ((Work.applyText text).run start).1.toOption.any Errors.isEmpty = true)
      (written : ((Work.applyText text).run start).2.document.text = .ok formatted)
      (errors : (Parsed.ofText Parsed.standardRules formatted context).1.toOption.all (!·.errors.isEmpty) = true) :
      ∃ (context c : Context) (parsed : Parsed) (w : Workspace Quantity) (formatted : String),
        Parsed.Clean text context parsed c ∧
        Gives (Work.applyText text) ⟨Document.empty Document.page, context⟩ parsed.errors w ∧
        w.document.text = .ok formatted ∧ ¬∃ again c', Parsed.Clean formatted context again c' := by
    obtain ⟨parsed, c, clean, given⟩ := Work.exists_applied text start ends
    exact ⟨context, c, parsed, _, formatted, clean, given, written, Parsed.not_clean errors⟩
  constructor
  · intro text member
    simp only [List.mem_cons, List.not_mem_nil, or_false] at member
    rcases member with rfl | rfl | rfl
    · exact misread _ "a: --\n" (by decide +kernel) (by decide +kernel) (by decide +kernel)
    · exact misread _ "x--x: rect\n\ne: edge x--x --\n" (by decide +kernel) (by decide +kernel) (by decide +kernel)
    · exact misread _ "a: rect \x7b\n  stylesheet: \"x /\n\x7d\n" (by decide +kernel) (by decide +kernel) (by decide +kernel)
  · obtain ⟨parsed, c, clean, given⟩ := Work.exists_applied
      "a: rect \x7b\n  metadata: \"style=x\\nb: rect\\nstylesheet: q\"\n\x7d" start (by decide +kernel)
    let formatted := "a: rect \x7b\n  stylesheet: x\nb: rect\nstylesheet: q /\n\x7d\n"
    obtain ⟨again, reread, there⟩ := Parsed.exists_clean formatted context
      (fun f => decide ("b" ∈ f.preorder.map Declaration.id)) (by decide +kernel)
    exact ⟨_, List.mem_singleton_self _, context, c, _, parsed, again, _, formatted, clean, given, by decide +kernel,
      reread, by decide +kernel, of_decide_eq_true there⟩

end LiveDiagram
