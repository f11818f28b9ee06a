import LiveDiagram.Proofs.Connector.Residue
import LiveDiagram.Proofs.Props.Heard

/-! Props laid behind those of a connector. Where they say nothing of line and arrowheads, the connector can be told
from the whole, and leaves them as they were. -/
namespace LiveDiagram

/-- Props that say nothing of line and arrowheads. -/
def Props.Unlined (p : Props) : Prop :=
  p.get? "stroke" = none ∧ p.get? "arrow" = none

instance {p : Props} : Decidable p.Unlined :=
  inferInstanceAs (Decidable (_ ∧ _))

namespace Connector
open Props (Unlined)

variable {p : Props}

/-- The props of a connector with others behind them. -/
theorem merge_eq (c : Connector) (tidy : p.Tidy) (unlined : p.Unlined) : c.props.merge true p =
    .node "stroke" (stroke c.line) (if tips c.start c.stop = .nil then p else .node "arrow" (tips c.start c.stop) p) := by
  have apart : c.props.Apart p := by
    intro key known
    rw [props_eq]
    have other : key ≠ "stroke" ∧ key ≠ "arrow" := by
      constructor
      · rintro rfl
        rw [unlined.1] at known
        cases known
      · rintro rfl
        rw [unlined.2] at known
        cases known
    split <;> simp [Props.get?, other.1.symm, other.2.symm]
  rw [Props.merge_of_apart tidy apart]
  refine Props.toList_inj ?_
  rw [Props.toList_overlay tidy apart, props_eq]
  split <;> rfl

theorem dropping_of_none {key : String} {drop : Props → Props} (absent : p.get? key = none) : dropping p key drop = p := by
  unfold dropping
  rw [absent]

theorem dropping_of_nil {key : String} {drop : Props → Props} {d : Props} (found : p.get? key = some (.dict d))
    (dropped : drop d = .nil) : dropping p key drop = p.erase key := by
  unfold dropping
  rw [found]
  dsimp only
  rw [dropped]
  rfl

theorem residue_merge (c : Connector) (tidy : p.Tidy) (unlined : p.Unlined) : residue (c.props.merge true p) = p := by
  obtain ⟨line, start, stop⟩ := c
  rw [merge_eq _ tidy unlined]
  have strokes : ((stroke line).erase "width").erase "pattern" = .nil := by
    cases line <;> rfl
  have arrows : dropping (dropping (tips start stop) "start" (·.erase "type")) "end" (·.erase "type") = .nil := by
    cases start <;> cases stop <;> rfl
  -- the arrowheads go first, and then nothing but the stroke is in front of the others
  have arrow : dropping (.node "stroke" (stroke line) (if tips start stop = .nil then p else .node "arrow" (tips start stop) p))
      "arrow" (fun arrow => dropping (dropping arrow "start" (·.erase "type")) "end" (·.erase "type")) =
        .node "stroke" (stroke line) p := by
    split
    · exact dropping_of_none unlined.2
    · exact dropping_of_nil rfl arrows
  unfold residue
  dsimp only
  rw [arrow]
  exact dropping_of_nil rfl strokes

theorem ofName?_name (head : Arrowhead) : Arrowhead.ofName? head.name = some head := by
  cases head <;> decide

theorem head?_name (head : Option Arrowhead) : EdgeStyle.head? (.ofText? (head.map Arrowhead.name)) = .ok (some head) := by
  cases head with
  | none => rfl
  | some head =>
    change EdgeStyle.head? (.scalar (.text head.name)) = _
    unfold EdgeStyle.head?
    rw [namesHead_name, if_pos rfl]
    simp only [ofName?_name, Option.map_some]

theorem connector?_style (c : Connector) : c.style.connector? = .ok (some c) := by
  obtain ⟨line, start, stop⟩ := c
  have lined : (style ⟨line, start, stop⟩).line? = some line := by
    cases line <;> rfl
  unfold EdgeStyle.connector?
  rw [lined]
  unfold style
  simp only [head?_name, bind, Except.bind]
  rfl

theorem ofProps?_merge (c : Connector) (tidy : p.Tidy) (unlined : p.Unlined) :
    ofProps? (c.props.merge true p) = .ok (some c) := by
  obtain ⟨line, start, stop⟩ := c
  rw [merge_eq _ tidy unlined]
  have arrow : EdgeStyle.entries (.node "stroke" (stroke line)
      (if tips start stop = .nil then p else .node "arrow" (tips start stop) p)) "arrow" = .ok (tips start stop) := by
    by_cases empty : tips start stop = .nil
    · rw [if_pos empty, empty]
      unfold EdgeStyle.entries
      rw [show (Props.node "stroke" (stroke line) p).get? "arrow" = none from unlined.2]
    · rw [if_neg empty]
      rfl
  have whole : EdgeStyle.ofProps (.node "stroke" (stroke line)
      (if tips start stop = .nil then p else .node "arrow" (tips start stop) p)) = .ok (style ⟨line, start, stop⟩) := by
    unfold EdgeStyle.ofProps
    rw [arrow]
    cases line <;> cases start <;> cases stop <;> rfl
  unfold ofProps?
  rw [whole]
  exact connector?_style _

/-- Without props for line and arrowheads, an edge has the plain line. -/
theorem ofProps?_unlined (unlined : p.Unlined) : ofProps? p = .ok (some .plain) := by
  unfold ofProps? EdgeStyle.ofProps EdgeStyle.entries
  rw [unlined.1, unlined.2]
  rfl

end Connector
end LiveDiagram
