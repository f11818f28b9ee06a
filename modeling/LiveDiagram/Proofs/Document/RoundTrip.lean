import LiveDiagram.Proofs.Document.Entries
import LiveDiagram.Proofs.Source.Joining

/-! Reading back what is written. The lines of an outline lead the reader to exactly what the outline declares, whatever
body they stand in, so that the text of legible elements has no errors and means what they declare. -/
namespace LiveDiagram

variable {α : Type} {config : Config α}

open Reader (Conveys)
open Token (Spells)

/-! Elements -/

namespace Element
variable {e : Element α} {children : Outline α} {first : Nat} {texts below : List String} {f : Forest}

theorem Titled.drawn (titled : e.Titled) {start stop : Endpoint α} (same : e.content = .edge start stop) :
    ∃ c, Connector.ofProps? e.props = .ok c := by
  rw [Titled, same] at titled
  exact titled.1

/-- Only the entries of an element can keep it from being written, once its connector is known. -/
theorem plan_eq_map (drawn : ∀ start stop, e.content = .edge start stop → ∃ c, Connector.ofProps? e.props = .ok c) :
    Writer.plan config e children =
      (Writer.entries config e e.bodyProps).map (⟨e.headText children, ·, e.inlinedId? children⟩) := by
  unfold Writer.plan
  cases same : e.content with
  | node content =>
    have props : e.bodyProps = e.props := by
      rw [bodyProps, isJoined, same]
      rfl
    simp only [Writer.planNode, props, headText, inlinedId?, inlined?, same, quotedText, NodeContent.name?]
    cases Writer.entries config e e.props <;> cases content.text.isEmpty <;> rfl
  | edge start stop =>
    obtain ⟨c, found⟩ := drawn start stop same
    have known : e.connector? = c := by
      rw [connector?, found]
      rfl
    have joined : (start.isConnected || stop.isConnected || c.any (· ≠ Connector.plain)) = e.isJoined := by
      rw [isJoined, same, known]
    have props : (if e.isJoined && c.isSome then Connector.residue e.props else e.props) = e.bodyProps := by
      rw [bodyProps, known]
    have inlined : (if e.isJoined && !stop.isConnected then none else Writer.loneLabel? children) =
        e.inlined? children := by
      rw [inlined?, same]
    simp only [Writer.planEdge, found, bind, Except.bind, joined, props, inlined, headText, same, endsText,
      symbol?, known, quotedText, inlinedId?]
    cases Writer.entries config e e.bodyProps <;> cases e.isJoined <;> cases e.inlined? children <;>
      simp [nameText, String.append_assoc, pure, Except.pure, Except.map]

/-- What is written for an element. -/
theorem plan_eq (drawn : ∀ start stop, e.content = .edge start stop → ∃ c, Connector.ofProps? e.props = .ok c)
    (written : Writer.entries config e e.bodyProps = .ok texts) :
    Writer.plan config e children = .ok ⟨e.headText children, texts, e.inlinedId? children⟩ := by
  rw [plan_eq_map drawn, written]
  rfl

variable {indent : String} {r : Reader}

/-- A block is one line where nothing is inside, and otherwise has a line before and one behind what is inside. -/
theorem block_cases (config : Config α) (indent head : String) (texts below : List String) (leftOut : Option String) :
    (texts = [] ∧ below = [] ∧ Writer.block config indent ⟨head, texts, leftOut⟩ below = [indent ++ head]) ∨
      (0 < texts.length + below.length ∧ Writer.block config indent ⟨head, texts, leftOut⟩ below =
        (indent ++ head ++ " \x7b") :: (texts.map ((indent ++ config.indent) ++ ·) ++ below) ++ [indent ++ "\x7d"]) := by
  unfold Writer.block
  by_cases empty : texts.map ((indent ++ config.indent) ++ ·) ++ below = []
  · obtain ⟨none, rfl⟩ := List.append_eq_nil_iff.1 empty
    exact .inl ⟨List.map_eq_nil_iff.1 none, rfl, if_pos (List.isEmpty_iff.2 empty)⟩
  · have length := List.length_pos_iff.2 empty
    rw [List.length_append, List.length_map] at length
    exact .inr ⟨length, if_neg fun none => empty (List.isEmpty_iff.1 none)⟩

end Element

/-! Outlines -/

namespace Outline
variable {o : Outline α} {leftOut : Option String} {indent : String}

theorem blank_append {more : String} (blank : ∀ c ∈ indent.toList, Token.isBlank c = true)
    (blank' : ∀ c ∈ more.toList, Token.isBlank c = true) : ∀ c ∈ (indent ++ more).toList, Token.isBlank c = true := by
  intro c member
  rw [String.toList_append] at member
  exact (List.mem_append.1 member).elim (blank c) (blank' c)

/-- A node and an edge to it with a label, which stands on the line of the edge. -/
def labelled : Outline Quantity :=
  let bounds : Bounds Quantity := ⟨.int 0, .int 0, .int 1, .int 1, .int 0⟩
  let node : Element Quantity :=
    .new "a b" (.node ⟨"rect", bounds, "say \"x\"\n", none⟩)
      (.node "size" (.leaf "width" (.int (-3)) (.leaf "tag" (.text "a;b=c") .nil)) .nil)
      (.leaf "style" (.text "bold") (.leaf "note" (.text "") .nil))
  let edge : Element Quantity :=
    .new "e" (.edge (.free .origin) (.connected "a b" "c")) (.leaf "open" (.bool true) .nil) .nil
  let label : Element Quantity :=
    .new "" (.node ⟨"text", bounds, "\\", some ⟨"perpendicular", .origin, .int 0⟩⟩) .nil .nil
  .cons node .nil (.cons edge (.cons label .nil .nil) .nil)

end Outline
end LiveDiagram
