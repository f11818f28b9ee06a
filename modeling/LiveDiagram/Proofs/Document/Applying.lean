import LiveDiagram.Proofs.Document.Brought
import LiveDiagram.Proofs.Reconcile.Surviving

/-! Applying texts without errors. Whether a pass returns and which of its declarations have an element then is known from
the document before it and from the forest alone. -/
namespace LiveDiagram

variable {α : Type} [Coordinate α]

/-- What a pass over declarations that has returned leaves: their elements, as its visits led to them. -/
def Document.Toured (sites : List Site) (ids : IdSupply) (d c : Document α) : Prop :=
  ∃ drawn t, Tracked sites ids d sites drawn t ∧ c.SameContent t.document ∧
    (Site.Kindred sites d → Site.Met sites d t.document sites)

namespace Reconcile
variable {f : Forest} {t : Transaction α} {config : Config α}

/-- What is left out at the top leaves before the first visit. -/
theorem removeOthers_tracks (ready : t.Ready) :
    ∃ t', Gives (removeOthers (f.linesById.map Prod.fst)) t () t' ∧
      Tracked (f.sites none) t.context.ids t.document [] 0 t' := by
  have known (x : String) : x ∈ f.linesById.map Prod.fst ↔ x ∈ Site.known (f.sites none) := by
    rw [Forest.mem_linesById, Site.known, f.ids_sites]
  have carries : Carries (fun r => r ∈ t.document.top ∧ r ∉ Site.known (f.sites none)) (fun _ _ _ => False)
      (fun _ _ _ => False) 0 t (removeOthers (f.linesById.map Prod.fst)) :=
    carries_removeOthers fun r top other => ⟨top, fun inside => other ((known r).2 inside)⟩
  obtain ⟨_, t', given, ready', _, none, supply, shift⟩ := carries ready
  obtain rfl := Nat.le_zero.1 none
  refine ⟨t', given, ready', ?_, Nat.zero_le _, supply, fun x e found => .inl ?_, fun x there gone => .inl ?_⟩
  · exact treads_removeOthers (fun x inside => (known x).2 inside) ready.consistent (Nat.le_refl _) _ t' given
  · by_cases young : t.document.births ≤ e.birth
    · rcases shift.comes x e found young with none | ⟨_, none⟩
      · exact none.elim
      · exact none.elim
    · obtain ⟨p, former, birth, _⟩ := shift.former x e found (Nat.lt_of_not_le young)
      exact Document.keeps_iff.2 ⟨p, e, former, found, birth.symm⟩
  · rcases shift.stays x there with kept | ⟨r, ⟨top, unknown⟩, within, missing⟩
    · rw [gone] at kept
      cases kept
    · exact ⟨r, top, unknown, (Document.mem_subtree_iff_within ready.consistent).2 within, missing⟩

/-- A pass over a forest returns, or stops where it has to create an element in the body of one that is uprooted. -/
theorem pass_ends (ready : t.Ready) (outset : Outset (f.sites none) t.context.ids t.document) :
    Ends (pass config f) t (fun _ t' => t.document.Toured (f.sites none) t.context.ids t'.document)
      fun fault _ => fault = .parentGone ∧ Site.Orphans (f.sites none) t.document := by
  obtain ⟨u, removed, tracked⟩ := removeOthers_tracks ready
  have next : f.sites none = [] ++ (f.sites none ++ []) := (List.append_nil _).symm
  unfold pass
  refine .andThen removed (.bind (Ends.discard (visit_ends outset tracked next .top)) fun _ v _ visited => ?_)
  obtain ⟨⟨drawn, tracked'⟩, _, met⟩ := visited
  obtain ⟨diff, t', committed, _⟩ := Edit.commit_returns tracked'.isOpen
  obtain ⟨_, _, told⟩ := Edit.gives_commit committed
  exact .of_gives committed ⟨drawn, v, tracked', told ▸ ⟨rfl, rfl, rfl, rfl⟩, met⟩

end Reconcile

namespace Work
variable {f : Forest} {w w' : Workspace α} {config : Config α}

theorem reconcile_ends (outset : Outset (f.sites none) w.context.ids w.document) :
    Ends (Work.reconcile config f) w (fun _ w' => w.document.Toured (f.sites none) w.context.ids w'.document)
      fun fault _ => fault = .parentGone ∧ Site.Orphans (f.sites none) w.document := by
  have ready : (⟨w.document, .opened α true, w.context⟩ : Transaction α).Ready :=
    ⟨rfl, outset.consistent, outset.layered⟩
  have passes : Ends (Reconcile.pass config f) ⟨w.document, .opened α true, w.context⟩ _ _ :=
    Reconcile.pass_ends ready outset
  have passes := (Work.ends_transact passes).mono (fun _ _ _ holds => holds) fun _ _ ⟨_, stopped, _⟩ => stopped
  refine passes.bind fun diff v _ passed => ?_
  obtain ⟨t, ⟨drawn, u, tracked, same, met⟩, rfl⟩ := passed
  refine .andThen (b := ()) (gives_change.2 rfl) (.andThen (b := ()) (gives_modify.2 rfl) (.of_gives (gives_pure.2 ⟨rfl, rfl⟩) ?_))
  have concluded : Document.SameContent (Reconcile.conclude diff t.document) t.document := Reconcile.conclude_same
  exact ⟨drawn, u, tracked, ⟨concluded.1.trans same.1, concluded.2.trans same.2, concluded.3.trans same.3,
    concluded.4.trans same.4⟩, met⟩

variable {text : String} {parsed : Parsed} {context : Context}

theorem applyText_ends (clean : Parsed.Clean text w.context parsed context)
    (outset : Outset (parsed.forest.sites none) context.ids w.document) :
    Ends (Work.applyText text) w
      (fun errors w' => errors = parsed.errors ∧
        w.document.Toured (parsed.forest.sites none) context.ids w'.document)
      fun fault _ => fault = .parentGone ∧ Site.Orphans (parsed.forest.sites none) w.document := by
  have empty : parsed.errors.isEmpty = true := List.isEmpty_iff.2 clean.errors
  unfold Work.applyText
  refine .andThen (gives_pass.2 ⟨context, clean.read, rfl⟩) ?_
  rw [if_pos empty]
  have reconciles : Ends (Work.reconcile .standard parsed.forest) { w with context := context } _ _ :=
    reconcile_ends outset
  refine (Ends.discard reconciles).bind fun _ w' _ toured => ?_
  exact .of_gives (gives_pure.2 ⟨rfl, rfl⟩) ⟨rfl, toured⟩

theorem OfTexts.outset (texts : OfTexts w) (clean : Parsed.Clean text w.context parsed context)
    (suits : context.ids.Suits parsed.forest.preorder)
    (unused : ∀ i < Declaration.labels parsed.forest.preorder, w.document.contains (context.ids.ahead i) = false) :
    Outset (parsed.forest.sites none) context.ids w.document :=
  .of_forest texts.brought.consistent texts.brought.layered (Parsed.clean_iff.1 clean).2 suits unused

/-- Applying a text without errors to a document that such texts have brought about returns, or stops for one reason
alone: an element is to come into the body of one that an edge in this body has uprooted before. The ids of new labels are
taken not to be in use. -/
theorem OfTexts.apply_ends (texts : OfTexts w) (clean : Parsed.Clean text w.context parsed context)
    (suits : context.ids.Suits parsed.forest.preorder)
    (unused : ∀ i < Declaration.labels parsed.forest.preorder, w.document.contains (context.ids.ahead i) = false) :
    (∃ w', Gives (Work.applyText text) w parsed.errors w') ∨
      (∃ w', Stops (Work.applyText text) w .parentGone w') ∧ Site.Orphans (parsed.forest.sites none) w.document := by
  rcases applyText_ends clean (texts.outset clean suits unused) with ⟨_, w', given, rfl, _⟩ | ⟨_, w', stopped, rfl, orphans⟩
  · exact .inl ⟨w', given⟩
  · exact .inr ⟨⟨w', stopped⟩, orphans⟩

/-- A pass stops that finds an element uprooted which is on another level of the text than before. -/
theorem OfTexts.apply_ends_orphaned : ∃ (w : Workspace Quantity) (text : String) (parsed : Parsed) (context : Context),
    OfTexts w ∧ Parsed.Clean text w.context parsed context ∧
      parsed.forest.preorder.map Declaration.id = ["m", "e", "x"] ∧ Site.Orphans (parsed.forest.sites none) w.document := by
  let w := Workspace.blank.taking "e: edge \x7b\n  n: rect \x7b\n    m: rect\n  \x7d\n\x7d"
  let text := "m: rect \x7b\n  e: edge\n  x: rect\n\x7d"
  let ids := ["m", "e", "x"]
  have texts : OfTexts w := .taking (.empty _ _) (by decide +kernel)
  obtain ⟨parsed, clean, seen⟩ := Parsed.exists_clean text w.context (fun f =>
    decide (f.preorder.map Declaration.id = ids) && decide (Declaration.labels f.preorder = 0)) (by decide +kernel)
  rw [Bool.and_eq_true, decide_eq_true_eq, decide_eq_true_eq] at seen
  have stopped : Stops (Work.applyText text) w .parentGone _ := exists_stops (by decide +kernel)
  rcases texts.apply_ends clean (.of_bare seen.2) (by omega) with ⟨_, returned⟩ | ⟨_, orphans⟩
  · cases returned.symm.trans stopped
  · exact ⟨w, text, parsed, _, texts, clean, seen.1, orphans⟩

/-- A text without errors can stop on a document that such a text has brought about: the label of an edge becomes the
node around it. -/
theorem OfTexts.apply_stops : ∃ (w w' : Workspace Quantity) (text : String) (parsed : Parsed) (context : Context),
    OfTexts w ∧ Parsed.Clean text w.context parsed context ∧ Declaration.labels parsed.forest.preorder = 0 ∧
      Stops (Work.applyText text) w .parentGone w' := by
  let w := Workspace.blank.taking "e: edge \x7b\n  n: rect\n\x7d"
  have texts : OfTexts w := .taking (.empty _ _) (by decide +kernel)
  obtain ⟨parsed, clean, seen⟩ := Parsed.exists_clean "n: rect \x7b\n  e: edge\n  x: rect\n\x7d" w.context
    (fun f => decide (Declaration.labels f.preorder = 0)) (by decide +kernel)
  exact ⟨w, _, _, parsed, _, texts, clean, of_decide_eq_true seen, exists_stops (by decide +kernel)⟩

/-- When a text without errors has been applied to a document that such texts have brought about, where no element is of
another kind than the declaration of its id, each declaration has an element of its kind, unless the visit of a later
declaration uproots it. The ids of new labels are taken not to be in use. -/
theorem OfTexts.apply_registers (texts : OfTexts w) (clean : Parsed.Clean text w.context parsed context)
    (suits : context.ids.Suits parsed.forest.preorder)
    (unused : ∀ i < Declaration.labels parsed.forest.preorder, w.document.contains (context.ids.ahead i) = false)
    (kindred : Site.Kindred (parsed.forest.sites none) w.document)
    (given : Gives (Work.applyText text) w parsed.errors w') {before after : List Site} {s : Site}
    (split : parsed.forest.sites none = before ++ s :: after) :
    (∃ e, w'.document.find? s.id = some e ∧ e.kind = s.head.kind) ∨
      ∃ r ∈ after, Site.Uproots (parsed.forest.sites none) w.document r s.id := by
  obtain ⟨_, drawn, t, _, same, met⟩ := (applyText_ends clean (texts.outset clean suits unused)).of_ends given
  rw [Document.find?_of_same same.elements]
  exact (met kindred).split split

/-- A node that was below the label of an edge and stands before this edge in the text is uprooted, and the edge is
there. -/
theorem OfTexts.apply_registers_uprooted :
    ∃ (w w' : Workspace Quantity) (parsed : Parsed) (context : Context) (s r : Site), OfTexts w ∧
      Parsed.Clean "m: rect\ne: edge" w.context parsed context ∧ parsed.forest.sites none = [s, r] ∧
      Site.Kindred (parsed.forest.sites none) w.document ∧ Gives (Work.applyText "m: rect\ne: edge") w parsed.errors w' ∧
      Site.Uproots (parsed.forest.sites none) w.document r s.id ∧
      ∃ e, w'.document.find? r.id = some e ∧ e.kind = r.head.kind := by
  let w := Workspace.blank.taking "e: edge \x7b\n  n: rect \x7b\n    m: rect\n  \x7d\n\x7d"
  let m : Declaration := ⟨"m", 0, .node "rect" none none, none, none, none⟩
  let e : Declaration := ⟨"e", 1, .edge none none none, none, none, none⟩
  have texts : OfTexts w := .taking (.empty _ _) (by decide +kernel)
  obtain ⟨parsed, context, clean, same, given⟩ := Work.exists_applied_forest "m: rect\ne: edge" w
    (.cons m .nil (.cons e .nil .nil)) (by decide +kernel) (by decide +kernel)
  have split : parsed.forest.sites none = [⟨none, m, []⟩, ⟨none, e, []⟩] := same ▸ rfl
  have bare : Declaration.labels parsed.forest.preorder = 0 := same ▸ rfl
  have kindred : Site.Kindred (parsed.forest.sites none) w.document := by
    rw [split]
    decide +kernel
  have gone : (w.taking "m: rect\ne: edge").document.find? "m" = none := by decide +kernel
  have first : parsed.forest.sites none = [] ++ ⟨none, m, []⟩ :: [⟨none, e, []⟩] := split
  have second : parsed.forest.sites none = [⟨none, m, []⟩] ++ ⟨none, e, []⟩ :: [] := split
  rcases texts.apply_registers clean (.of_bare bare) (by omega) kindred given first with ⟨_, found, _⟩ | ⟨r, member, uproots⟩
  · cases gone.symm.trans found
  rcases texts.apply_registers clean (.of_bare bare) (by omega) kindred given second with there | ⟨r, member, _⟩
  · obtain rfl := List.mem_singleton.1 member
    exact ⟨w, _, parsed, context, _, _, texts, clean, split, kindred, given, uproots, there⟩
  · cases member

/-- The label of an edge that moves to the top of the text, in front of the edge, is gone when the text is applied. -/
theorem OfTexts.apply_loses : ∃ (w w' : Workspace Quantity) (parsed : Parsed) (context : Context), OfTexts w ∧
    Parsed.Clean "n: rect\ne: edge" w.context parsed context ∧ Declaration.labels parsed.forest.preorder = 0 ∧
    Site.Kindred (parsed.forest.sites none) w.document ∧
    Gives (Work.applyText "n: rect\ne: edge") w parsed.errors w' ∧
    "n" ∈ parsed.forest.preorder.map Declaration.id ∧ w'.document.contains "n" = false := by
  let w := Workspace.blank.taking "e: edge \x7b\n  n: rect\n\x7d"
  have texts : OfTexts w := .taking (.empty _ _) (by decide +kernel)
  obtain ⟨parsed, context, clean, same, given⟩ := Work.exists_applied_forest "n: rect\ne: edge" w
    (.cons ⟨"n", 0, .node "rect" none none, none, none, none⟩ .nil
      (.cons ⟨"e", 1, .edge none none none, none, none, none⟩ .nil .nil)) (by decide +kernel) (by decide +kernel)
  refine ⟨w, _, parsed, context, texts, clean, same ▸ rfl, ?_, given, ?_, by decide +kernel⟩
  · rw [same]
    decide +kernel
  · rw [same]
    decide

end Work
end LiveDiagram
