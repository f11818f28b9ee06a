import LiveDiagram.Document.Basic
import LiveDiagram.Geometry.Placement
import Mathlib.Algebra.Order.Field.Rat
import Mathlib.Tactic.Linarith

/-! Geometry without rounding: the rationals as coordinates, on which boxes are compared exactly. A place that is
looked for is always found, since a free candidate was tested against every box in the way and the place of last
resort lies behind all of them. -/
namespace LiveDiagram

instance : Coordinate ℚ where
  ofNat n := n
  half a := a / 2
  less a b := decide (a < b)

namespace Coordinate

theorem less_iff {a b : ℚ} : less a b = true ↔ a < b :=
  decide_eq_true_iff

@[simp] theorem greatest_eq_max (a b : ℚ) : greatest a b = max a b := by
  simp only [greatest, less_iff, max_def]
  split <;> split <;> linarith

end Coordinate

namespace Bounds

theorem intersects_iff {a b : Bounds ℚ} : a.intersects b = true ↔
    (a.x < b.x + b.w ∧ b.x < a.x + a.w) ∧ a.y < b.y + b.h ∧ b.y < a.y + a.h := by
  simp only [intersects, Bool.and_eq_true, Coordinate.less_iff, and_assoc]

@[simp] theorem same_iff {a b : Bounds ℚ} : a.same b = true ↔ a = b := by
  obtain ⟨x, y, w, h, r⟩ := a
  obtain ⟨x', y', w', h', r'⟩ := b
  simp [same, and_assoc]

/-- A box that begins at the right edge of another one, give or take the distance, keeps that distance. -/
theorem intersects_grow_of_right {b other : Bounds ℚ} {distance : ℚ}
    (right : other.x + other.w + distance ≤ b.x) : (b.grow distance).intersects other = false := by
  rw [Bool.eq_false_iff, ne_eq, intersects_iff]
  rintro ⟨⟨left, -⟩, -⟩
  have edge : b.x - distance < other.x + other.w := left
  linarith

end Bounds

namespace Placement

theorem isFree_iff {α : Type} [Coordinate α] {taken : List (Bounds α)} {distance : α} {b : Bounds α} :
    isFree taken distance b = true ↔ ∀ other ∈ taken, (b.grow distance).intersects other = false := by
  simp [isFree]

theorem size_of_mem_beside {α : Type} [Coordinate α] {w h distance : α} {reference b : Bounds α}
    (given : b ∈ beside w h reference distance) : b.w = w ∧ b.h = h := by
  simp only [beside, List.mem_cons, List.not_mem_nil, or_false] at given
  obtain rfl | rfl | rfl | rfl := given <;> exact ⟨rfl, rfl⟩

theorem mem_obstacles {taken : List (Bounds ℚ)} {reference b : Bounds ℚ} :
    b ∈ obstacles taken reference ↔ b ∈ taken ∨ b = reference := by
  simp only [obstacles, List.any_eq_true, Bounds.same_iff]
  split
  case isTrue listed =>
    obtain ⟨_, listed, rfl⟩ := listed
    exact ⟨.inl, fun given => given.elim id fun same => same ▸ listed⟩
  case isFalse => simp

/-- The right edge that lies furthest to the right is the greatest of all right edges. -/
theorem rightmost_eq_max (first : Bounds ℚ) (others : List (Bounds ℚ)) :
    ((first :: others).map fun b => b.x + b.w).max? = some (rightmost first others) := by
  simp only [List.map_cons, List.max?_cons', List.foldl_map, rightmost, Coordinate.greatest_eq_max]

theorem le_rightmost {first b : Bounds ℚ} {others : List (Bounds ℚ)} (given : b ∈ first :: others) :
    b.x + b.w ≤ rightmost first others :=
  (List.max?_eq_some_iff.1 (rightmost_eq_max first others)).2 _ (List.mem_map_of_mem given)

theorem fallback_isFree {w h distance : ℚ} {reference : Bounds ℚ} {taken : List (Bounds ℚ)} :
    isFree taken distance (fallback w h reference taken distance) = true := by
  refine isFree_iff.2 fun other given => Bounds.intersects_grow_of_right ?_
  cases taken with
  | nil => cases given
  | cons first others =>
    have behind := le_rightmost given
    show other.x + other.w + distance ≤ rightmost first others + distance
    linarith

theorem fallback_size {α : Type} [Coordinate α] {w h distance : α} {reference : Bounds α} {taken : List (Bounds α)} :
    (fallback w h reference taken distance).w = w ∧ (fallback w h reference taken distance).h = h := by
  cases taken <;> exact ⟨rfl, rfl⟩

/-- A place is a free candidate of some ring or the place of last resort. -/
theorem place_cases {α : Type} [Coordinate α] (w h : α) (reference : Bounds α) (taken : List (Bounds α))
    (distance : α) (rings : Nat) :
    (∃ far, place w h reference taken distance rings ∈ beside w h reference far ∧
      isFree (obstacles taken reference) distance (place w h reference taken distance rings) = true) ∨
    place w h reference taken distance rings =
      fallback w h reference (obstacles taken reference) distance := by
  cases search : (List.range rings).findSome? fun ring =>
    (beside w h reference (distance + Coordinate.ofNat ring * (Coordinate.greatest w h + distance))).find?
      (isFree (obstacles taken reference) distance) with
  | none => exact .inr (by simp [place, search])
  | some b =>
    have placed : place w h reference taken distance rings = b := by simp [place, search]
    obtain ⟨ring, -, found⟩ := List.exists_of_findSome?_eq_some search
    rw [placed]
    exact .inl ⟨_, List.mem_of_find?_eq_some found, List.find?_some found⟩

theorem place_size {α : Type} [Coordinate α] (w h : α) (reference : Bounds α) (taken : List (Bounds α))
    (distance : α) (rings : Nat) :
    (place w h reference taken distance rings).w = w ∧ (place w h reference taken distance rings).h = h := by
  obtain ⟨far, candidate, -⟩ | last := place_cases w h reference taken distance rings
  · exact size_of_mem_beside candidate
  · rw [last]
    exact fallback_size

theorem place_isFree (w h : ℚ) (reference : Bounds ℚ) (taken : List (Bounds ℚ)) (distance : ℚ) (rings : Nat) :
    isFree (obstacles taken reference) distance (place w h reference taken distance rings) = true := by
  obtain ⟨_, -, free⟩ | last := place_cases w h reference taken distance rings
  · exact free
  · rw [last]
    exact fallback_isFree

end Placement

namespace Document

theorem mem_obstacles {α : Type} {d : Document α} {box : Bounds α} : box ∈ d.obstacles ↔
    ∃ e ∈ d.elements, ∃ content, e.content = .node content ∧ d.isLabel e = false ∧ content.bounds = box := by
  simp only [obstacles, List.mem_filterMap]
  refine exists_congr fun e => and_congr_right fun _ => ?_
  cases e.content with
  | node content => cases d.isLabel e <;> simp
  | edge start stop => simp

/-- However the nodes lie, a place has the size that is asked for, and with the distance around it meets neither the
reference nor a node that is no label. -/
theorem place_keeps_distance (d : Document ℚ) (w h : ℚ) (reference : Bounds ℚ) (distance : ℚ) (rings : Nat) :
    let b := Placement.place w h reference d.obstacles distance rings
    (b.w = w ∧ b.h = h) ∧ (b.grow distance).intersects reference = false ∧
      ∀ e ∈ d.elements, ∀ content, e.content = .node content → d.isLabel e = false →
        (b.grow distance).intersects content.bounds = false := by
  have free := Placement.isFree_iff.1 (Placement.place_isFree w h reference d.obstacles distance rings)
  refine ⟨Placement.place_size .., free reference (Placement.mem_obstacles.2 (.inr rfl)), ?_⟩
  intro e member content node unlabelled
  exact free content.bounds
    (Placement.mem_obstacles.2 (.inl (mem_obstacles.2 ⟨e, member, content, node, unlabelled, rfl⟩)))

/-- Without rings to search, a place behind a node that lies right of the reference. -/
theorem place_keeps_distance_behind :
    let far : NodeContent ℚ := ⟨"rect", .box 900 0 50 50, "", none⟩
    let d : Document ℚ := { empty page with elements := [.new "far" (.node far) .nil .nil] }
    let b := Placement.place 100 100 (.box 450 450 100 100) d.obstacles 10 0
    b = .box 960 450 100 100 ∧ (b.grow 10).intersects far.bounds = false := by
  intro far d b
  refine ⟨by decide +kernel, ?_⟩
  exact (place_keeps_distance d 100 100 (.box 450 450 100 100) 10 0).2.2 _ (List.mem_singleton_self _) far rfl rfl

end Document
end LiveDiagram
