import LiveDiagram.Proofs.Document.Misread
import LiveDiagram.Proofs.Document.Unfolding
import LiveDiagram.Proofs.Reconcile.Converging
import LiveDiagram.Proofs.Reconcile.Speaking
import LiveDiagram.Proofs.Source.Distinct

/-! Documents that texts bring about, and what their own text is read as. A clean text is brought into an empty document
as its forest says; and a text that is written for a document and read without errors restates its elements. -/
namespace LiveDiagram

variable {α : Type} [Coordinate α]

/-! Applying a text -/

namespace Work
variable {w w' : Workspace α} {text : String} {parsed : Parsed} {errors : Errors} {context : Context}

omit [Coordinate α] in
theorem gives_pass {β : Type} {work : Pass β} {b : β} :
    Gives (Work.pass work) w b w' ↔ ∃ context, work w.context = (.ok b, context) ∧ w' = { w with context := context } := by
  have unfolded : ((Work.pass work).run w : Except Fault β × Workspace α) =
      (work w.context : Except Fault β × Context).map id fun context => { w with context := context } := rfl
  unfold Gives
  rw [unfolded]
  rcases (work w.context : Except Fault β × Context) with ⟨result, context⟩
  constructor
  · intro same
    cases same
    exact ⟨context, rfl, rfl⟩
  · rintro ⟨_, same, rfl⟩
    cases same
    rfl

/-- A text without errors is brought into the document as one pass over its forest. -/
theorem gives_applyText (clean : errors.reports = []) : Gives (Work.applyText text) w errors w' ↔
    ∃ parsed context outcome, Parsed.Clean text w.context parsed context ∧ errors = parsed.errors ∧
      Gives (Work.reconcile .standard parsed.forest) { w with context := context } outcome w' := by
  simp only [Work.applyText, gives_bind, gives_pass]
  constructor
  · rintro ⟨parsed, _, ⟨context, read, rfl⟩, given⟩
    rw [gives_when] at given
    obtain ⟨u, applied, ended⟩ := given
    obtain ⟨rfl, rfl⟩ := gives_pure.1 ended
    have empty : parsed.errors.isEmpty = true := List.isEmpty_iff.2 clean
    rw [if_pos empty] at applied
    obtain ⟨outcome, given⟩ := gives_discard.1 applied
    exact ⟨parsed, context, outcome, ⟨read, clean⟩, rfl, given⟩
  · rintro ⟨parsed, context, outcome, ⟨read, _⟩, rfl, given⟩
    have empty : parsed.errors.isEmpty = true := List.isEmpty_iff.2 clean
    refine ⟨parsed, _, ⟨context, read, rfl⟩, gives_when.2 ⟨w', ?_, gives_pure.2 ⟨rfl, rfl⟩⟩⟩
    rw [if_pos empty]
    exact gives_discard.2 ⟨outcome, given⟩

/-- A text that is brought into a document without errors is clean. -/
theorem exists_applied (text : String) (w : Workspace α)
    (ends : ((Work.applyText text).run w).1.toOption.any Errors.isEmpty = true) :
    ∃ parsed context, Parsed.Clean text w.context parsed context ∧
      Gives (Work.applyText text) w parsed.errors ((Work.applyText text).run w).2 := by
  obtain ⟨errors, given, clean⟩ := exists_gives (e := Work.applyText text) Errors.isEmpty ends
  obtain ⟨parsed, context, _, read, rfl, _⟩ := (gives_applyText (List.isEmpty_iff.1 clean)).1 given
  exact ⟨parsed, context, read, given⟩

/-- A text that is brought into a document without errors is clean, with the forest that reading it gives. -/
theorem exists_applied_forest (text : String) (w : Workspace α) (f : Forest)
    (ends : ((Work.applyText text).run w).1.toOption.any Errors.isEmpty = true)
    (reads : (Parsed.ofText Parsed.standardRules text w.context).1.toOption.any
      (fun parsed => parsed.errors.isEmpty && decide (parsed.forest = f)) = true) :
    ∃ parsed context, Parsed.Clean text w.context parsed context ∧ parsed.forest = f ∧
      Gives (Work.applyText text) w parsed.errors ((Work.applyText text).run w).2 := by
  obtain ⟨parsed, context, clean, given⟩ := exists_applied text w ends
  obtain ⟨again, reread, same⟩ := Parsed.exists_clean text w.context (fun g => decide (g = f)) reads
  cases clean.read.symm.trans reread.read
  exact ⟨parsed, _, clean, of_decide_eq_true same, given⟩

end Work

/-- Documents that come of applying texts without errors, one after the other, to an empty one. -/
inductive Work.OfTexts : Workspace α → Prop
  | empty (bounds : Bounds α) (context : Context) : OfTexts ⟨Document.empty bounds, context⟩
  | apply {w w' : Workspace α} {text : String} {errors : Errors} : OfTexts w →
      Gives (Work.applyText text) w errors w' → errors.reports = [] → OfTexts w'

/-- The workspace after a text has been applied, however that ends. -/
def Workspace.taking (w : Workspace α) (text : String) : Workspace α :=
  ((Work.applyText text).run w).2

theorem Work.OfTexts.taking {w : Workspace α} {text : String} (texts : OfTexts w)
    (ends : ((Work.applyText text).run w).1.toOption.any Errors.isEmpty = true) : OfTexts (w.taking text) := by
  obtain ⟨_, _, clean, given⟩ := Work.exists_applied text w ends
  exact .apply texts given clean.errors

/-- An empty document where each new id is a star. -/
def Workspace.blank : Workspace Quantity :=
  ⟨Document.empty Document.page, ⟨⟨fun _ => "*", 0⟩, []⟩⟩

/-- What is known of a document that texts brought about. -/
structure Document.Brought (d : Document α) : Prop where
  consistent : d.Consistent
  layered : d.Layered
  spoken : d.Spoken

omit [Coordinate α] in
theorem Document.brought_empty (bounds : Bounds α) : (Document.empty bounds).Brought where
  consistent := consistent_empty bounds
  layered := layered_of_bare rfl
  spoken := by simp [Spoken, empty]

/-- Labels have a shape that can be written. -/
theorem Config.labelShape_standard : Token.IsWord (Config.standard : Config α).labelShape ∧
    (Config.standard : Config α).labelShape ≠ "edge" := by
  change Token.IsWord "text" ∧ "text" ≠ "edge"
  exact ⟨⟨by decide, by decide⟩, by decide⟩

/-- A pass over a forest that a text can declare leaves what a text can bring about. -/
theorem Document.Brought.reconcile {f : Forest} {w w' : Workspace α} {outcome : Outcome} (brought : w.document.Brought)
    (said : f.Spoken) (given : Gives (Work.reconcile .standard f) w outcome w') : w'.document.Brought := by
  have spoken := Work.spoken_reconcile Config.labelShape_standard said brought.spoken given
  obtain ⟨u, heard, steps, concluded, _⟩ := Work.gives_reconcile brought.consistent given ⟨false, false⟩ (by simp)
  have same : Document.SameContent w'.document u.document := by
    have conclude : Document.SameContent (Reconcile.conclude u.diff (u.document.told heard)) (u.document.told heard) :=
      Reconcile.conclude_same
    rw [concluded]
    exact ⟨conclude.1, conclude.2, conclude.3, conclude.4⟩
  have layered : u.document.Layered := brought.layered.steps brought.consistent rfl steps
  refine ⟨(brought.consistent.steps steps).of_same same, fun id e holder p => ?_, spoken⟩
  rw [Document.find?_of_same same.elements, Document.find?_of_same same.elements]
  exact layered id e holder p

theorem Work.OfTexts.brought {w : Workspace α} (reached : Work.OfTexts w) : w.document.Brought := by
  induction reached with
  | empty bounds context => exact Document.brought_empty bounds
  | apply _ given clean ih =>
    obtain ⟨parsed, context, outcome, ⟨read, _⟩, _, reconciled⟩ := (Work.gives_applyText clean).1 given
    exact ih.reconcile (w := ⟨_, context⟩) (Parsed.spoken_ofText read) reconciled

/-- A text without errors is brought into an empty document as its forest says. -/
theorem Work.applyText_builds {text : String} {context context' : Context} {parsed : Parsed} (bounds : Bounds α)
    (clean : Parsed.Clean text context parsed context') (suits : context'.ids.Suits parsed.forest.preorder) :
    ∃ w ids, Gives (Work.applyText text) ⟨Document.empty bounds, context⟩ parsed.errors w ∧
      Built .standard context'.ids (parsed.forest.sites none) w.document ids ∧ w.document.Brought := by
  have consistent := Document.consistent_empty bounds
  obtain ⟨reference, d, ids, visited, built⟩ := Reconcile.visit_builds (Config.standard : Config α) consistent rfl
    (Parsed.clean_iff.1 clean).2 suits
  obtain ⟨outcome, w, given, same, _⟩ := Work.reconcile_returns (by simp [Document.empty]) visited
  refine ⟨w, ids, (Work.gives_applyText clean.errors).2 ⟨parsed, context', outcome, clean, rfl, given⟩,
    built.of_same same, ?_⟩
  exact (Document.brought_empty bounds).reconcile (w := ⟨_, context'⟩) (Parsed.spoken_ofText clean.read) given

/-! The text of a document -/

namespace Element
variable {config : Config α} {e : Element α}

/-- An element whose styles are written without a line break. -/
def Lined (config : Config α) (e : Element α) : Prop :=
  (∀ s ∈ e.style? config, '\n' ∉ s.toList) ∧ ∀ s ∈ e.textStyle? config, '\n' ∉ s.toList

instance [DecidableEq α] : Decidable (e.Lined config) :=
  inferInstanceAs (Decidable (_ ∧ _))

omit [Coordinate α] in
theorem Spoken.sayable (spoken : e.Spoken) (lined : e.Lined config) : e.Sayable config where
  shape content same := by
    have own := spoken.content
    rw [same] at own
    exact own
  metadata := spoken.metadata.1.texts
  unbroken text line := by
    unfold styleLine? at line
    split at line
    · cases line
    · cases line
      have style : '\n' ∉ ((e.style? config).elim "" (· ++ " ")).toList := by
        cases given : e.style? config with
        | none => simp
        | some s => simpa [String.toList_append] using lined.1 s given
      have textStyle : '\n' ∉ ((e.textStyle? config).elim "" (" " ++ ·)).toList := by
        cases given : e.textStyle? config with
        | none => simp
        | some s => simpa [String.toList_append] using lined.2 s given
      simp [stylesheetText, String.toList_append, style, textStyle]

end Element

namespace Document
variable {d : Document α}

/-- The elements that have a line of their own in the text of the document. -/
def shown (d : Document α) : List (Element α) :=
  (d.outline d.top).shown none

omit [Coordinate α] in
theorem Brought.unfolds (brought : d.Brought) : d.Unfolds d.top (d.outline d.top) :=
  unfolds_outline brought.consistent brought.layered fun id member => ((brought.consistent.mem_top id).1 member).1

omit [Coordinate α] in
/-- What has a line is there. -/
theorem Unfolds.find?_of_mem_shown {ids : List String} {o : Outline α} {leftOut : Option String} {e : Element α}
    (unfolds : d.Unfolds ids o) (member : e ∈ o.shown leftOut) : d.find? e.id = some e := by
  induction unfolds generalizing leftOut with
  | nil => cases member
  | cons found inner later ih ih' =>
    rw [Outline.shown] at member
    split at member
    · exact ih' member
    · rcases List.mem_cons.1 member with rfl | member
      · exact find?_eq_some_id found ▸ found
      · exact (List.mem_append.1 member).elim ih ih'

theorem text_eq {text : String} (written : d.text = .ok text) :
    ∃ lines, Writer.write .standard (d.outline d.top) = .ok lines ∧ text = "\n".intercalate lines := by
  obtain ⟨lines, wrote, same⟩ := bind_eq_ok.1 written
  exact ⟨lines, wrote, (Except.ok.inj same).symm⟩

/-- Bodies are indented by blanks. -/
theorem blank_indent : ∀ c ∈ (Config.standard : Config α).indent.toList, Token.isBlank c = true := by
  change ∀ c ∈ "  ".toList, _
  decide

/-- A text that is written for a document with styles on one line each, and read without errors, restates the
document. -/
theorem Brought.restates {text : String} {context context' : Context} {parsed : Parsed} (brought : d.Brought)
    (lined : ∀ e ∈ d.shown, e.Lined .standard) (written : d.text = .ok text)
    (clean : Parsed.Clean text context parsed context') :
    (∀ e ∈ d.shown, ∃ echo, e.Audible .standard echo) ∧
      (d.outline d.top).Restates .standard none parsed.forest := by
  obtain ⟨lines, given, rfl⟩ := text_eq written
  obtain ⟨⟨read, errors⟩, _⟩ := Parsed.clean_iff.1 clean
  refine Outline.restates_of_clean given (fun e member => ?_) blank_indent read errors
  have found := brought.unfolds.find?_of_mem_shown member
  exact (brought.spoken e (List.mem_of_find?_eq_some found)).sayable (lined e member)

end Document
end LiveDiagram
