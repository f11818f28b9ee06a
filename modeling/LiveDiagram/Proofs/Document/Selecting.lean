import LiveDiagram.Proofs.Document.Brought
import LiveDiagram.Proofs.Reconcile.Report
import LiveDiagram.Proofs.Reconcile.Shifting

/-! What a pass leaves of a selection. A pass goes by the ids that it removed, so it keeps in the selection an element that
is gone when another one has come in under its id. -/
namespace LiveDiagram

variable {α : Type} [Coordinate α]

namespace Document
variable {d c : Document α} {h : Handle}

omit [Coordinate α] in
theorem contains_of_isLive (live : d.isLive h = true) : d.contains h.id = true :=
  contains_iff_mem.2 (List.mem_map_of_mem (isLive_iff.1 live))

omit [Coordinate α] in
/-- A live element is still live when its id leads to the element that it led to before. -/
theorem isLive_iff_keeps (consistent : d.Consistent) (consistent' : c.Consistent) (live : d.isLive h = true) :
    c.isLive h = true ↔ d.keeps c h.id = true := by
  refine ⟨fun live' => ?_, fun kept => isLive_of_keeps kept consistent live⟩
  obtain ⟨e, member, rfl⟩ := List.mem_map.1 (isLive_iff.1 live)
  obtain ⟨e', member', same⟩ := List.mem_map.1 (isLive_iff.1 live')
  have found' := find?_of_mem consistent'.ids_nodup member'
  rw [show e'.id = e.id from congrArg Handle.id same] at found'
  exact keeps_iff.2 ⟨e, e', find?_of_mem consistent.ids_nodup member, found', congrArg Handle.birth same⟩

end Document

namespace Work
variable {config : Config α} {f : Forest} {w w' : Workspace α} {outcome : Outcome}

/-- A pass takes the elements out of the selection whose ids lead nowhere any more. -/
theorem selection_reconcile (consistent : w.document.Consistent) (given : Gives (Work.reconcile config f) w outcome w')
    (live : ∀ h ∈ w.document.selection, w.document.isLive h = true) :
    w'.document.selection = w.document.selection.filter (w'.document.contains ·.id) := by
  obtain ⟨u, heard, steps, concluded, _⟩ := Work.gives_reconcile consistent given ⟨false, false⟩ (by simp)
  have recorded : Recorded w.document u := (Recorded.opened w.document w.context).steps consistent rfl steps
  have before : u.document.selection = w.document.selection :=
    congrArg Document.Surroundings.selection steps.surroundings_eq
  have same : Document.SameContent (Reconcile.conclude u.diff (u.document.told heard)) (u.document.told heard) :=
    Reconcile.conclude_same
  have there (x : String) : w'.document.contains x = u.document.contains x := by
    unfold Document.contains
    rw [concluded, Document.find?_of_same same.elements]
    rfl
  have after : w'.document.selection =
      u.document.selection.filter (!(Diff.ids u.diff.removed).contains ·.id) := by
    rw [concluded]
    unfold Reconcile.conclude Document.recordDiff
    dsimp only
    split <;> rfl
  rw [after, before]
  refine List.filter_congr fun h member => ?_
  rw [there, Bool.eq_iff_iff, Bool.not_eq_true', ← Bool.not_eq_true, List.contains_iff_mem, recorded.mem_removed]
  simp [Document.contains_of_isLive (live h member)]

/-- When a text without errors has been applied to a document that such texts have brought about, the selection holds, of
the live elements that were chosen before, those with an id that still leads to an element, in the same order. These are
the ones that are still live just if no chosen id leads to another element than before. -/
theorem OfTexts.apply_selects {text : String} {errors : Errors} (texts : OfTexts w) {chosen : List Handle}
    (live : ∀ h ∈ chosen, w.document.isLive h = true)
    (given : Gives (Work.applyText text) { w with document := { w.document with selection := chosen } } errors w')
    (clean : errors.reports = []) :
    w'.document.selection = chosen.filter (w'.document.contains ·.id) ∧
      (w'.document.selection = chosen.filter w'.document.isLive ↔
        ∀ h ∈ chosen, w'.document.contains h.id = true → w.document.keeps w'.document h.id = true) := by
  have brought : Document.Brought { w.document with selection := chosen } :=
    ⟨texts.brought.consistent.of_same ⟨rfl, rfl, rfl, rfl⟩, texts.brought.layered, texts.brought.spoken⟩
  obtain ⟨parsed, context, outcome, ⟨read, _⟩, _, reconciled⟩ := (gives_applyText clean).1 given
  have brought' : w'.document.Brought :=
    brought.reconcile (w := ⟨_, context⟩) (Parsed.spoken_ofText read) reconciled
  have selected : w'.document.selection = chosen.filter (w'.document.contains ·.id) :=
    selection_reconcile brought.consistent reconciled live
  have lasts {h : Handle} (member : h ∈ chosen) :=
    Document.isLive_iff_keeps texts.brought.consistent brought'.consistent (live h member)
  refine ⟨selected, fun exactly h member there => ?_, fun once => selected.trans (List.filter_congr fun h member => ?_)⟩
  · have kept : h ∈ w'.document.selection := selected ▸ List.mem_filter.2 ⟨member, there⟩
    exact (lasts member).1 (List.mem_filter.1 (exactly ▸ kept)).2
  · exact Bool.eq_iff_iff.2 ⟨fun there => (lasts member).2 (once h member there), Document.contains_of_isLive⟩

/-- A node that leaves with a text is taken out of the selection, and one that it updates stays in. -/
theorem OfTexts.apply_selects_kept :
    ∃ (w w' : Workspace Quantity) (errors : Errors) (a b : Handle), OfTexts w ∧ errors.reports = [] ∧
      Gives (Work.applyText "a: oval") { w with document := { w.document with selection := [b, a] } } errors w' ∧
      w'.document.selection = [b, a].filter w'.document.isLive ∧ w'.document.selection = [a] := by
  let w := Workspace.blank.taking "a: rect\nb: rect"
  let a : Handle := ⟨"a", 0⟩
  let b : Handle := ⟨"b", 1⟩
  have texts : OfTexts w := .taking (.empty _ _) (by decide +kernel)
  obtain ⟨errors, given, clean⟩ := exists_gives (e := Work.applyText "a: oval")
    (t := { w with document := { w.document with selection := [b, a] } }) Errors.isEmpty (by decide +kernel)
  have clean : errors.reports = [] := List.isEmpty_iff.1 clean
  have live : ∀ h ∈ [b, a], w.document.isLive h = true := by decide +kernel
  obtain ⟨_, exactly⟩ := texts.apply_selects live given clean
  exact ⟨w, _, errors, a, b, texts, clean, given, exactly.2 (by decide +kernel), by decide +kernel⟩

/-- A node that a text removes with the one around it stays in the selection when the text has another node under its
id. -/
theorem OfTexts.apply_keeps_stale :
    ∃ (w w' : Workspace Quantity) (errors : Errors) (n : Handle), OfTexts w ∧ w.document.isLive n = true ∧
      Gives (Work.applyText "x: rect \x7b\n  n: rect\n\x7d")
        { w with document := { w.document with selection := [n] } } errors w' ∧ errors.reports = [] ∧
      w'.document.selection = [n] ∧ [n].filter w'.document.isLive = [] := by
  let w := Workspace.blank.taking "a: rect \x7b\n  n: rect\n\x7d"
  let n : Handle := ⟨"n", 1⟩
  have texts : OfTexts w := .taking (.empty _ _) (by decide +kernel)
  obtain ⟨errors, given, clean⟩ := exists_gives (e := Work.applyText "x: rect \x7b\n  n: rect\n\x7d")
    (t := { w with document := { w.document with selection := [n] } }) Errors.isEmpty (by decide +kernel)
  exact ⟨w, _, errors, n, texts, by decide +kernel, given, List.isEmpty_iff.1 clean, by decide +kernel, by decide +kernel⟩

end Work
end LiveDiagram
