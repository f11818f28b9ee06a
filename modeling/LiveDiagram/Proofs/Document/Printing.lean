import LiveDiagram.Proofs.Document.Verbatim
import Mathlib.Data.List.Forall2

/-! What the text of a document depends on. Documents with the same topmost elements have the same text when each id leads
to elements that say the same, have the same entries, and hold the same. -/
namespace LiveDiagram

variable {α : Type} {config : Config α}

/-- Elements that are written the same, but for what they hold. -/
structure Element.Reprints (e e' : Element α) : Prop where
  id : e'.id = e.id
  content : e.content.Alike e'.content
  props : e'.props = e.props
  metadata : e'.metadata = e.metadata
  labelled : e'.isLabelled = e.isLabelled

/-- Outlines of elements that are written the same. -/
inductive Outline.Reprints : Outline α → Outline α → Prop
  | nil : Reprints .nil .nil
  | cons {e e' : Element α} {children children' rest rest' : Outline α} : e.Reprints e' → Reprints children children' →
      Reprints rest rest' → Reprints (.cons e children rest) (.cons e' children' rest')

namespace Element.Reprints
variable {e e' : Element α} {children children' : Outline α}

theorem kind (same : e.Reprints e') : e'.kind = e.kind :=
  same.content.kind

theorem nodeText (same : e.Reprints e') : Writer.nodeText e' = Writer.nodeText e := by
  unfold Writer.nodeText
  rcases same.content.cases with ⟨c, c', own, own', _, text⟩ | ⟨_, _, _, _, own, own', _⟩
  · rw [own, own']
    exact text
  · rw [own, own']

theorem entries (same : e.Reprints e') (props : Props) : Writer.entries config e' props = Writer.entries config e props := by
  unfold Writer.entries Writer.styleEntry Element.isNode
  rw [same.metadata, same.kind]

end Element.Reprints

namespace Outline.Reprints
variable {o o' : Outline α} {e e' : Element α} {children children' : Outline α}

theorem roots (same : o.Reprints o') : List.Forall₂ Element.Reprints o.roots o'.roots := by
  induction same with
  | nil => exact .nil
  | cons own _ _ _ ih => exact .cons own ih

theorem loneLabel? (same : o.Reprints o') :
    Option.Rel Element.Reprints (Writer.loneLabel? o) (Writer.loneLabel? o') := by
  have labels : List.Forall₂ Element.Reprints (o.roots.filter Element.isLabelled) (o'.roots.filter Element.isLabelled) :=
    List.rel_filter (fun e e' own => by simp only [own.labelled]) same.roots
  unfold Writer.loneLabel?
  generalize o.roots.filter Element.isLabelled = xs, o'.roots.filter Element.isLabelled = ys at labels
  cases labels with
  | nil => exact .none
  | cons own rest =>
    cases rest with
    | nil => exact .some own
    | cons => exact .none

/-- The same line and the same entries come of elements that are written the same. -/
theorem plan (own : e.Reprints e') (below : children.Reprints children') :
    Writer.plan config e' children' = Writer.plan config e children := by
  unfold Writer.plan
  rcases own.content.cases with
    ⟨c, c', here, here', type, text⟩ | ⟨start, stop, start', stop', here, here', starts, stops⟩
  · rw [here, here']
    simp only [Writer.planNode, type, text, own.id, own.props, own.entries]
  · rw [here, here']
    have connected {p p' : Endpoint α} (same : p'.node? = p.node?) : p'.isConnected = p.isConnected := by
      rw [Element.isConnected_eq, Element.isConnected_eq, same]
    have label := below.loneLabel?
    simp only [Writer.planEdge, own.id, own.props, own.entries, starts, stops, connected starts, connected stops]
    generalize Writer.loneLabel? children = l, Writer.loneLabel? children' = l' at label
    cases label with
    | none => rfl
    | some same =>
      refine bind_congr fun connector => bind_congr fun entries => ?_
      generalize (start.isConnected || stop.isConnected || connector.any fun c => decide (c ≠ Connector.plain)) = joined
      cases joined <;> cases stop.isConnected <;> simp [same.id, same.nodeText]

theorem lines (same : o.Reprints o') (indent : String) (leftOut : Option String) :
    Writer.lines config indent leftOut o' = Writer.lines config indent leftOut o := by
  induction same generalizing indent leftOut with
  | nil => rfl
  | cons own below _ inner later =>
    unfold Writer.lines
    rw [own.id, plan own below, later]
    simp only [inner]

theorem write (same : o.Reprints o') : Writer.write config o' = Writer.write config o := by
  induction same with
  | nil => rfl
  | cons own below _ _ later =>
    unfold Writer.write
    rw [plan own below, later]
    simp only [below.lines]

end Outline.Reprints

namespace Document
variable {d d' : Document α}

/-- Elements that are written the same and hold the same have outlines that are written the same. -/
theorem reprints_outlineTo (same : ∀ x, Option.Rel (fun e e' => e.Reprints e' ∧ e'.children = e.children) (d.find? x) (d'.find? x))
    (depth : Nat) (ids : List String) : (d.outlineTo depth ids).Reprints (d'.outlineTo depth ids) := by
  induction depth generalizing ids with
  | zero => exact .nil
  | succ depth deeper =>
    unfold outlineTo
    induction ids with
    | nil => exact .nil
    | cons x rest later =>
      have here := same x
      generalize found : d.find? x = e, found' : d'.find? x = e' at here
      cases here with
      | none => rwa [List.filterMap_cons_none found, List.filterMap_cons_none found']
      | some own =>
        rw [List.filterMap_cons_some found, List.filterMap_cons_some found', List.foldr_cons, List.foldr_cons, own.2]
        exact .cons own.1 (deeper _) later

theorem text_eq_of_reprints [Coordinate α] (top : d'.top = d.top) (count : d'.elements.length = d.elements.length)
    (same : ∀ x, Option.Rel (fun e e' => e.Reprints e' ∧ e'.children = e.children) (d.find? x) (d'.find? x)) :
    d'.text = d.text := by
  unfold text linesOf outline
  rw [top, count, (reprints_outlineTo same _ _).write]

end Document
end LiveDiagram
