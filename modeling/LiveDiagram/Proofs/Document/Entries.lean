import LiveDiagram.Proofs.Connector.Residue
import LiveDiagram.Proofs.Document.Header

/-! Entries of bodies read back: the lines before the children tell the styles, the props and the metadata. -/
namespace LiveDiagram

open Token (Plain Spells Word parted_space parted_nil)

/-! Lines of entries -/

section Spelling
variable {rest : List Char} {words : List Word}

theorem spells_keyword {keyword : String} (known : keyword ∈ Token.keywords) (spells : Spells rest words) :
    Spells (keyword.toList ++ ':' :: ' ' :: rest) ((.keyword, keyword) :: (.colon, ":") :: words) := by
  have own : ∀ keyword ∈ Token.keywords, keyword.toList ≠ [] ∧ ∀ c ∈ keyword.toList, Token.isIdChar c = true := by
    decide
  have kind : Spells.kindOf keyword.toList = .keyword := by
    rw [Spells.kindOf, String.ofList_toList, if_pos known]
  have spelled := Spells.before_colon (own keyword known).1 (own keyword known).2 parted_space spells.space
  rw [kind, String.ofList_toList] at spelled
  exact spelled

theorem spells_props (text : String) :
    Spells ("props: " ++ Quoted.quote text).toList [(.keyword, "props"), (.colon, ":"), (.string, text)] := by
  have known : "props" ∈ Token.keywords := by decide
  simpa [String.toList_append] using spells_keyword known (Spells.nil.quote text)

theorem spells_metadata (text : String) :
    Spells ("metadata: " ++ Quoted.quote text).toList [(.keyword, "metadata"), (.colon, ":"), (.string, text)] := by
  have known : "metadata" ∈ Token.keywords := by decide
  simpa [String.toList_append] using spells_keyword known (Spells.nil.quote text)

theorem spells_style {style : String} (styled : Element.Styled style) (parted : Token.Parted rest) (spells : Spells rest words) :
    Spells (style.toList ++ rest) ((.id, style) :: words) := by
  have spelled := Spells.plain styled.1 parted spells
  rw [Spells.kindOf, String.ofList_toList, if_neg styled.2] at spelled
  exact spelled

def stylesheetText (style textStyle : Option String) : String :=
  "stylesheet: " ++ style.elim "" (· ++ " ") ++ "/" ++ textStyle.elim "" (" " ++ ·)

theorem spells_stylesheet {style textStyle : Option String} (styled : ∀ s ∈ style, Element.Styled s)
    (styled' : ∀ s ∈ textStyle, Element.Styled s) :
    Spells (stylesheetText style textStyle).toList
      ((.keyword, "stylesheet") :: (.colon, ":") :: (Reader.styled style ++ (.slash, "/") :: Reader.styled textStyle)) := by
  have late : Spells ('/' :: (textStyle.elim "" (" " ++ ·)).toList) ((.slash, "/") :: Reader.styled textStyle) := by
    cases textStyle with
    | none => exact Spells.nil.slash parted_nil
    | some s =>
      have spelled := (spells_style (styled' s rfl) parted_nil .nil).space.slash parted_space
      simpa [String.toList_append, Reader.styled] using spelled
  have early : Spells ((style.elim "" (· ++ " ")).toList ++ '/' :: (textStyle.elim "" (" " ++ ·)).toList)
      (Reader.styled style ++ (.slash, "/") :: Reader.styled textStyle) := by
    cases style with
    | none => exact late
    | some s =>
      have spelled := spells_style (styled s rfl) parted_space late.space
      simpa [String.toList_append, Reader.styled] using spelled
  have known : "stylesheet" ∈ Token.keywords := by decide
  simpa [stylesheetText, String.toList_append, List.append_assoc] using spells_keyword known early

/-- The words of a line for styles, whatever the styles are. -/
theorem exists_words_stylesheet {style textStyle : Option String}
    (spells : Spells (stylesheetText style textStyle).toList words) :
    ∃ words', words = (.keyword, "stylesheet") :: (.colon, ":") :: words' := by
  obtain ⟨rest, split⟩ : ∃ rest, (stylesheetText style textStyle).toList = "stylesheet".toList ++ ':' :: ' ' :: rest :=
    ⟨(style.elim "" (· ++ " ") ++ "/" ++ textStyle.elim "" (" " ++ ·)).toList, by
      simp [stylesheetText, String.toList_append, List.append_assoc]⟩
  rw [split] at spells
  have known : "stylesheet" ∈ Token.keywords := by decide
  have closed : Token.Closed rest := by
    refine Token.Closed.of_blanks (by decide : ∀ c ∈ [' '], Token.isBlank c = true) ?_
    exact Token.Closed.of_colon (by decide) (by decide) parted_space spells.isClosed
  have unbroken : '\n' ∉ rest := fun broken => spells.unbroken (by simp [broken])
  have spelled := spells_keyword known (Token.spells_wordsOf unbroken closed)
  exact ⟨_, spells.eq_wordsOf.trans spelled.eq_wordsOf.symm⟩

end Spelling

/-! Styles -/

variable {α : Type} {config : Config α} {e : Element α}

namespace Props

/-- A dictionary that holds texts and nothing else. -/
def Texts (p : Props) : Prop :=
  ∀ key value, p.get? key = some value → ∃ s, value = .scalar (.text s)

theorem Flat.texts {p : Props} (flat : p.Flat) : p.Texts := by
  intro key value found
  induction p with
  | nil => cases found
  | leaf k v rest ih =>
    rw [Props.get?] at found
    split at found
    · obtain ⟨s, rfl, _⟩ := flat.2.1
      exact ⟨s, (Option.some.inj found).symm⟩
    · exact ih flat.2.2 found
  | node => exact flat.elim

end Props

namespace Element

theorem styleText_eq (texts : e.metadata.Texts) (key : String) :
    Writer.styleText config ((e.metadata.get? key).getD .null) = .ok (e.shown? config key) := by
  unfold shown?
  cases found : e.metadata.get? key with
  | none => rfl
  | some value =>
    obtain ⟨s, rfl⟩ := texts key value found
    rfl

/-- The line for the styles of an element, if there is one. -/
def styleLine? (config : Config α) (e : Element α) : Option String :=
  if (e.style? config).isNone && (e.textStyle? config).isNone then none
  else some (stylesheetText (e.style? config) (e.textStyle? config))

theorem styleEntry_eq (texts : e.metadata.Texts) : Writer.styleEntry config e = .ok (e.styleLine? config) := by
  unfold Writer.styleEntry styleLine? textStyle?
  rw [styleText_eq texts, styleText_eq texts]
  unfold style?
  cases e.isNode <;> cases e.shown? config "style" <;> cases e.shown? config "textStyle" <;> rfl

/-- What the entries of an element say before its children, the first of them on the given line. -/
def said (config : Config α) (line : Nat) (e : Element α) : Body where
  props := e.bodyProps.filled?
  metadata := e.bodyMetadata.filled?
  style := e.style? config
  textStyle := (e.textStyle? config).map (·, line)
  children := .nil

/-! Entries -/

open Reader (Conveys Reads)

/-- Lines that change what a body says, the first of them with the given number. -/
def Tells (first : Nat) (texts : List String) (body next : Body) : Prop :=
  ∀ (step : String) (r : Reader) (opening : OpenElement) (outer : List OpenElement),
    (∀ c ∈ step.toList, Token.isBlank c = true) →
      Conveys first (texts.map (step ++ ·)) (r.inside opening outer body) (r.inside opening outer next)

namespace Tells
variable {first : Nat} {texts more : List String} {body next last : Body}

theorem nil : Tells first [] body body := fun _ _ _ _ _ => .nil

theorem append (early : Tells first texts body next) (late : Tells (first + texts.length) more next last) :
    Tells first (texts ++ more) body last := by
  intro step r opening outer blank
  rw [List.map_append]
  refine (early step r opening outer blank).append ?_
  rw [List.length_map]
  exact late step r opening outer blank

theorem line {text : String} {words : List Word} (spells : Spells text.toList words)
    (reads : ∀ (r : Reader) (opening : OpenElement) (outer : List OpenElement) (tokens : List Token),
      List.Forall₂ (Token.Shows first) words tokens →
        ∀ length, Reads (tokens ++ [Reader.lineEnd first length]) (r.inside opening outer body)
          (r.inside opening outer next)) : Tells first [text] body next :=
  fun _ r opening outer blank => .indented blank spells (reads r opening outer)

end Tells

end Element

end LiveDiagram
