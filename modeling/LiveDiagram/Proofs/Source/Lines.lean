import LiveDiagram.Proofs.Source.Reading

/-! Texts made of lines. Lines without newlines in them are what a joined text is cut into, so that a text is read line
by line. -/
namespace LiveDiagram

namespace Token

variable {texts : List (List Char)} {text : List Char}

theorem lines_unbroken (unbroken : '\n' ∉ text) : lines text = [text] := by
  induction text with
  | nil => rfl
  | cons c text ih =>
    rw [List.mem_cons, not_or] at unbroken
    rw [lines, if_neg (Ne.symm unbroken.1), ih unbroken.2]

theorem lines_append (unbroken : '\n' ∉ text) (rest : List Char) :
    lines (text ++ '\n' :: rest) = text :: lines rest := by
  induction text with
  | nil => exact if_pos rfl
  | cons c text ih =>
    rw [List.mem_cons, not_or] at unbroken
    rw [List.cons_append, lines, if_neg (Ne.symm unbroken.1), ih unbroken.2]

theorem lines_intercalate (nonempty : texts ≠ []) (unbroken : ∀ text ∈ texts, '\n' ∉ text) :
    lines (['\n'].intercalate texts) = texts := by
  induction texts with
  | nil => exact (nonempty rfl).elim
  | cons text texts ih =>
    have own := unbroken text List.mem_cons_self
    cases texts with
    | nil =>
      rw [List.intercalate_singleton]
      exact lines_unbroken own
    | cons next texts =>
      have later := ih (List.cons_ne_nil _ _) fun x member => unbroken x (List.mem_cons_of_mem text member)
      rw [List.intercalate_cons_cons, List.append_assoc, List.cons_append, List.nil_append, lines_append own, later]

/-- A text of lines is cut into them. -/
theorem lines_joined {texts : List String} (nonempty : texts ≠ []) (unbroken : ∀ text ∈ texts, '\n' ∉ text.toList) :
    lines ("\n".intercalate texts).toList = texts.map String.toList := by
  rw [String.toList_intercalate]
  refine lines_intercalate (by simpa using nonempty) fun text member => ?_
  obtain ⟨own, listed, rfl⟩ := List.mem_map.1 member
  exact unbroken own listed

theorem ofLines_append (first : Nat) (texts more : List (List Char)) :
    ofLines first (texts ++ more) = ofLines first texts ++ ofLines (first + texts.length) more := by
  induction texts generalizing first with
  | nil => rfl
  | cons text texts ih =>
    rw [List.cons_append, ofLines, ofLines, ih, List.append_assoc, List.length_cons, Nat.add_right_comm,
      Nat.add_assoc]

/-- No line has an error if all quotes are closed. -/
theorem lineErrors_closed (first : Nat) (e : Errors) (closed : ∀ text ∈ texts, Closed text) : lineErrors first e texts = e := by
  induction texts generalizing first with
  | nil => rfl
  | cons text texts ih =>
    obtain ⟨own, others⟩ := List.forall_mem_cons.1 closed
    rw [lineErrors, own, if_neg Bool.false_ne_true]
    exact ih _ others

/-- No line has an error if each of them spells words. -/
theorem lineErrors_spelled (first : Nat) (e : Errors) (spelled : ∀ text ∈ texts, ∃ words, Spells text words) :
    lineErrors first e texts = e :=
  lineErrors_closed first e fun text member => let ⟨_, spells⟩ := spelled text member; spells.isClosed

end Token

namespace Reader

open Token (Spells)

variable {r next last : Reader} {first : Nat} {text : String} {texts more : List String}

/-- Lines, the first with the given number, that all spell words and lead from one reader to another. -/
structure Conveys (first : Nat) (texts : List String) (r next : Reader) : Prop where
  spelled : ∀ text ∈ texts, ∃ words, Spells text.toList words
  reads : Reads (Token.ofLines first (texts.map String.toList)) r next

namespace Conveys

theorem nil : Conveys first [] r r where
  spelled := by simp
  reads := .nil

theorem append (early : Conveys first texts r next) (late : Conveys (first + texts.length) more next last) :
    Conveys first (texts ++ more) r last where
  spelled text member := (List.mem_append.1 member).elim (early.spelled text) (late.spelled text)
  reads := by
    rw [List.map_append, Token.ofLines_append, List.length_map]
    exact early.reads.append late.reads

theorem line {words : List Token.Word} (spells : Spells text.toList words)
    (reads : Reads (Token.ofLine first text.toList) r next) : Conveys first [text] r next where
  spelled other member := ⟨words, List.mem_singleton.1 member ▸ spells⟩
  reads := by
    have whole : Token.ofLines first ([text].map String.toList) = Token.ofLine first text.toList ++ [] := rfl
    rw [whole]
    exact reads.append .nil

/-- An indented line. -/
theorem indented {indent : String} {words : List Token.Word} (blank : ∀ c ∈ indent.toList, Token.isBlank c = true)
    (spells : Spells text.toList words)
    (reads : ∀ tokens, List.Forall₂ (Token.Shows first) words tokens →
      ∀ length, Reads (tokens ++ [lineEnd first length]) r next) :
    Conveys first [indent ++ text] r next := by
  have spells' : Spells (indent ++ text).toList words := by
    rw [String.toList_append]
    exact Spells.blanks blank spells
  exact .line spells' (reads _ (spells'.shows first 0) _)

/-- A line and the lines after it. -/
theorem cons (early : Conveys first [text] r next) (late : Conveys (first + 1) texts next last) :
    Conveys first (text :: texts) r last :=
  early.append late

theorem blank : Conveys first [""] r r :=
  line Spells.nil (by simpa [Token.ofLine, Token.pieces] using Reads.newline first 0)

end Conveys

/-- Where a text ends with no body open, the reading ends. -/
theorem run_eof (line column : Nat) (closed : r.opened = []) :
    (r.before [⟨.eof, "", line, column⟩]).run = .ok (r.before [⟨.eof, "", line, column⟩]) := by
  have none : (r.before [⟨.eof, "", line, column⟩]).opened = [] := closed
  rw [run]
  simp only [rest_before, if_true]
  rw [none, closeAll]

/-- The reader before the first line. -/
def start (context : Context) : Reader :=
  ⟨⟨[], .none⟩, context, [], .nil⟩

end Reader

namespace Parsed
open Reader

variable {texts : List String} {f : Forest} {context : Context}

theorem ofText_lines (nonempty : texts ≠ []) (conveys : Conveys 0 texts (start context) ((start context).join f)) :
    ∃ context', ofText [] ("\n".intercalate texts) context = (.ok ⟨f, .none⟩, context') := by
  have spelled : ∀ text ∈ texts.map String.toList, ∃ words, Token.Spells text words := by
    intro text member
    obtain ⟨own, listed, rfl⟩ := List.mem_map.1 member
    exact conveys.spelled own listed
  have cut : Token.lines ("\n".intercalate texts).toList = texts.map String.toList :=
    Token.lines_joined nonempty fun text member => let ⟨_, spells⟩ := conveys.spelled text member; spells.unbroken
  obtain ⟨context', read⟩ := conveys.reads context
    [⟨.eof, "", (texts.map String.toList).length - 1, ((texts.map String.toList).getLast?.getD []).length⟩]
  rw [run_eof _ _ rfl] at read
  refine ⟨context', ?_⟩
  unfold ofText Token.ofText Token.errorsOf
  rw [cut, Token.lineErrors_spelled 0 .none spelled]
  simp only
  rw [show (Reader.mk ⟨_, .none⟩ context [] .nil).run = _ from read]
  rfl

/-- A text of lines means what they make the reader finish. -/
theorem ofText_conveyed (conveys : Conveys 0 texts (start context) ((start context).join f)) :
    ∃ context', ofText [] ("\n".intercalate texts) context = (.ok ⟨f, .none⟩, context') := by
  by_cases empty : texts = []
  · subst empty
    have whole : Conveys 0 [""] (start context) ((start context).join f) := conveys.append .blank
    have read : ∃ context', ofText [] ("\n".intercalate [""]) context = (.ok ⟨f, .none⟩, context') :=
      ofText_lines (List.cons_ne_nil "" []) whole
    exact read
  · exact ofText_lines empty conveys

end Parsed
end LiveDiagram
