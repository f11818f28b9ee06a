import LiveDiagram.Connector.Style
import LiveDiagram.Proofs.Props.ReadBack

/-! What a connector leaves of edge props is still a dictionary that a line can say. -/
namespace LiveDiagram

namespace Props
variable {p d rest : Props} {key k : String} {v : Value} {front : List Char}

/-- A line says what stands under each key, and the later entries. -/
theorem codable_cons : (cons k v rest).Codable front ↔ (cons k v nil).Codable front ∧ rest.Codable front := by
  cases v <;> simp [cons, Codable, and_assoc]

namespace Codable

theorem erase (codable : p.Codable front) : (p.erase key).Codable front := by
  induction p using byFirst with
  | nil => trivial
  | cons k v rest _ ih =>
    obtain ⟨first, later⟩ := codable_cons.1 codable
    rw [erase_cons]
    split
    · exact later
    · exact codable_cons.2 ⟨first, ih later⟩

theorem get? (codable : p.Codable front) (found : p.get? key = some (.dict d)) :
    Codec.Segment key ∧ d.Codable (front ++ key.toList ++ ['.']) := by
  induction p using byFirst with
  | nil => cases found
  | cons k v rest _ ih =>
    obtain ⟨first, later⟩ := codable_cons.1 codable
    rw [get?_cons] at found
    split at found
    · next own =>
      cases found
      exact own ▸ ⟨first.1, first.2.2.1⟩
    · exact ih later found

theorem set (codable : p.Codable front) (segment : Codec.Segment key) (nonempty : d ≠ nil)
    (inner : d.Codable (front ++ key.toList ++ ['.'])) : (p.set key (.dict d)).Codable front := by
  have own : (cons key (.dict d) nil).Codable front := ⟨segment, nonempty, inner, trivial⟩
  induction p using byFirst with
  | nil => exact own
  | cons k v rest _ ih =>
    obtain ⟨first, later⟩ := codable_cons.1 codable
    rw [set_cons]
    split
    · next same => exact same ▸ codable_cons.2 ⟨own, later⟩
    · exact codable_cons.2 ⟨first, ih later⟩

end Codable
end Props

namespace Connector
open Props (Tidy Codable)

variable {p : Props} {key : String} {front : List Char} {drop : Props → Props}

theorem dropping_cases (p : Props) (key : String) (drop : Props → Props) :
    dropping p key drop = p ∨ dropping p key drop = p.erase key ∨
      ∃ d, p.get? key = some (.dict d) ∧ drop d ≠ .nil ∧ dropping p key drop = p.set key (.dict (drop d)) := by
  unfold dropping
  split
  · next d found =>
    dsimp only
    split
    · exact .inr (.inl rfl)
    · next filled =>
      refine .inr (.inr ⟨d, found, fun empty => filled ?_, rfl⟩)
      rw [empty]
      rfl
  · exact .inl rfl

theorem tidy_dropping (tidy : p.Tidy) (drops : ∀ d : Props, d.Tidy → (drop d).Tidy) : (dropping p key drop).Tidy := by
  rcases dropping_cases p key drop with same | same | ⟨d, found, _, same⟩
  · rw [same]
    exact tidy
  · rw [same]
    exact tidy.erase
  · rw [same]
    exact tidy.set (drops d (tidy.get? found))

theorem tidy_residue (tidy : p.Tidy) : (residue p).Tidy := by
  have plain (key : String) (d : Props) (tidy : d.Tidy) : (d.erase key).Tidy := tidy.erase
  unfold residue
  refine tidy_dropping (tidy_dropping tidy fun d tidy => ?_) fun d tidy => (plain _ _ tidy).erase
  exact tidy_dropping (tidy_dropping tidy (plain "type")) (plain "type")

end Connector
end LiveDiagram
