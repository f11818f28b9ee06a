import LiveDiagram.Proofs.Source.Advancing
import LiveDiagram.Proofs.Source.Lines

/-! Tokens that spoil a text: once they are read there is an error, or the reading stops, whatever follows. -/
namespace LiveDiagram

namespace Reader
open Cursor (Advances)
open Token (Shows Word Spells)

variable {r next last : Reader} {t : Token} {tokens more : List Token} {words : List Word} {line : Nat}

/-- Whatever follows these tokens and whatever the surroundings are, a reading that ends has found an error. -/
def Spoils (tokens : List Token) (r : Reader) : Prop :=
  ∀ context more last, ((r.within context).before (tokens ++ more)).run = .ok last → last.cursor.errors.reports ≠ []

theorem exists_step (unread : r.cursor.rest = t :: more) (proper : t.kind ≠ .eof) (read : r.run = .ok last) :
    ∃ next, r.step t more = .ok next ∧ next.run = .ok last := by
  rw [run] at read
  split at read
  · next empty =>
    rw [unread] at empty
    cases empty
  · next same =>
    cases unread.symm.trans same
    rw [if_neg proper] at read
    split at read
    · cases read
    · next next stepped => exact ⟨next, stepped, read⟩

namespace Spoils

theorem append (spoils : Spoils tokens r) (more : List Token) : Spoils (tokens ++ more) r := by
  intro context others last read
  rw [List.append_assoc] at read
  exact spoils context _ last read

theorem after (reads : Reads tokens r next) (spoils : Spoils more next) : Spoils (tokens ++ more) r := by
  intro context others last read
  obtain ⟨context', same⟩ := reads context (more ++ others)
  rw [List.append_assoc, same] at read
  exact spoils context' others last read

/-- A step that finds an error, or stops. -/
theorem step (proper : t.kind ≠ .eof)
    (stepped : ∀ context others next, ((r.within context).before (t :: tokens ++ others)).step t (tokens ++ others) =
      .ok next → next.cursor.errors.reports ≠ []) : Spoils (t :: tokens) r := by
  intro context others last read none
  obtain ⟨next, taken, onward⟩ := exists_step rfl proper read
  refine stepped context others next taken ?_
  have kept := (advances_run onward).errors
  rw [none] at kept
  exact List.subset_nil.1 kept

end Spoils

theorem reports_add (e : Errors) (line : Int) (message : String) : (e.add line message).reports ≠ [] :=
  List.ne_nil_of_mem (Errors.mem_add e line message)

/-- A header whose shape is taken for a connector. -/
theorem spoils_node {kind : TokenKind} {id shape : String} (named : isName kind = true)
    (shows : List.Forall₂ (Shows line) ((kind, id) :: (.colon, ":") :: (.connector, shape) :: words) tokens) :
    Spoils tokens r := by
  rcases shows with _ | ⟨⟨a, rfl⟩, _ | ⟨⟨b, rfl⟩, _ | ⟨⟨c, rfl⟩, shows⟩⟩⟩
  have start : kind ≠ .newline ∧ kind ≠ .eof := by
    constructor
    · rintro rfl
      cases named
    · rintro rfl
      cases named
  refine .step start.2 fun context others next stepped => ?_
  simp only [Reader.step, start.1, if_false, named, if_true, Reader.named, Cursor.expect, before, decide_true, header,
    List.cons_append, take?_cons, Except.ok.injEq] at stepped
  subst stepped
  exact reports_add _ _ _

/-- A header with two connectors, one after the other. -/
theorem spoils_edge {kind : TokenKind} {id c c' : String} {source : Option String} (named : isName kind = true)
    (shows : List.Forall₂ (Shows line) ((kind, id) :: (.colon, ":") :: (.keyword, "edge") ::
      (names source ++ (.connector, c) :: (.connector, c') :: words)) tokens) : Spoils tokens r := by
  rcases shows with _ | ⟨⟨a, rfl⟩, _ | ⟨⟨b, rfl⟩, _ | ⟨⟨d, rfl⟩, shows⟩⟩⟩
  obtain ⟨first, left, rfl, sources, shows⟩ := exists_append shows
  rcases shows with _ | ⟨⟨f, rfl⟩, _ | ⟨⟨g, rfl⟩, later⟩⟩
  rename_i left
  have start : kind ≠ .newline ∧ kind ≠ .eof := by
    constructor
    · rintro rfl
      cases named
    · rintro rfl
      cases named
  refine .step start.2 fun context others next stepped => ?_
  have started := take?_source ⟨.connector, c, line, f⟩ (⟨.connector, c', line, g⟩ :: (left ++ others))
    r.cursor.errors rfl sources
  have header : (edgeHeader id line ⟨first ++ ⟨.connector, c, line, f⟩ :: ⟨.connector, c', line, g⟩ :: (left ++ others),
      r.cursor.errors⟩).2.errors.reports ≠ [] := by
    have linked : isConnector .connector = true := rfl
    have other : isName .connector = false := rfl
    simp only [edgeHeader, started, take?_cons, linked, other, Option.isSome_some, if_true, Bool.false_eq_true, if_false,
      reduceCtorEq, decide_false, Cursor.endLine, Cursor.kind, Bool.or_self]
    exact reports_add _ _ _
  simp only [Reader.step, start.1, if_false, named, if_true, Reader.named, Cursor.expect, before, decide_true,
    List.cons_append, List.append_assoc, take?_cons, Reader.header, Bool.and_self, Except.ok.injEq] at stepped
  subst stepped
  intro none
  refine header (List.subset_nil.1 ?_)
  rw [← none]
  exact (advances_place _ _ _).errors

/-- A line of props that cannot be read. -/
theorem spoils_props (r : Reader) (e : OpenElement) (outer : List OpenElement) (body : Body) {text : String} {fault : Fault}
    (read : Props.read text = .error fault)
    (shows : List.Forall₂ (Shows line) [(.keyword, "props"), (.colon, ":"), (.string, text)] tokens) :
    Spoils tokens (r.inside e outer body) := by
  rcases shows with _ | ⟨⟨a, rfl⟩, _ | ⟨⟨b, rfl⟩, _ | ⟨⟨c, rfl⟩, none⟩⟩⟩
  cases none
  refine .step (by simp) fun context others next stepped => ?_
  rw [step_entry (List.cons_ne_nil _ _) rfl, entry, if_pos rfl] at stepped
  simp [propsEntry, entryText, Cursor.expect, take?_cons, List.cons_append, read] at stepped

/-- The brace that closes the body of an edge with a text style. -/
theorem spoils_close (r : Reader) (e : OpenElement) (outer : List OpenElement) (body : Body)
    {source target label : Option String} (edge : e.head = .edge source target label) (styled : body.textStyle ≠ none)
    (shows : List.Forall₂ (Shows line) [(.rightBrace, "\x7d")] tokens) : Spoils tokens (r.inside e outer body) := by
  rcases shows with _ | ⟨⟨a, rfl⟩, none⟩
  cases none
  refine .step (by simp) fun context others next stepped => ?_
  obtain ⟨⟨style, line⟩, given⟩ := Option.ne_none_iff_exists'.1 styled
  have closed : next = Reader.close { ((r.inside e outer body).within context).before others with } := by
    cases stepped
    rfl
  rw [closed, close]
  simp only [inside, within, before, cursor_add, OpenElement.finalErrors, edge, given]
  exact reports_add _ _ _

/-- Lines that spell words, the first with the given number, and spoil the text. -/
structure Ruins (first : Nat) (texts : List String) (r : Reader) : Prop where
  spelled : ∀ text ∈ texts, ∃ words, Spells text.toList words
  spoils : Spoils (Token.ofLines first (texts.map String.toList)) r

namespace Ruins
variable {first : Nat} {text indent : String} {texts others : List String}

theorem append (early : Ruins first texts r) (spelled : ∀ text ∈ others, ∃ words, Spells text.toList words) :
    Ruins first (texts ++ others) r where
  spelled text member := (List.mem_append.1 member).elim (early.spelled text) (spelled text)
  spoils := by
    rw [List.map_append, Token.ofLines_append]
    exact early.spoils.append _

theorem after (early : Conveys first texts r next) (late : Ruins (first + texts.length) others next) :
    Ruins first (texts ++ others) r where
  spelled text member := (List.mem_append.1 member).elim (early.spelled text) (late.spelled text)
  spoils := by
    rw [List.map_append, Token.ofLines_append, List.length_map]
    exact .after early.reads late.spoils

/-- An indented line. -/
theorem indented (blank : ∀ c ∈ indent.toList, Token.isBlank c = true) (spells : Spells text.toList words)
    (spoils : ∀ tokens, List.Forall₂ (Shows first) words tokens → Spoils tokens r) : Ruins first [indent ++ text] r where
  spelled other member := by
    cases List.mem_singleton.1 member
    rw [String.toList_append]
    exact ⟨words, Spells.blanks blank spells⟩
  spoils := by
    have spells' : Spells (indent ++ text).toList words := by
      rw [String.toList_append]
      exact Spells.blanks blank spells
    exact ((spoils _ (spells'.shows first 0)).append _).append _

end Ruins
end Reader

/-- Where no line has an error, all quotes are closed. -/
theorem Token.closed_of_lineErrors {first : Nat} {e : Errors} {texts : List (List Char)}
    (clean : (lineErrors first e texts).reports = []) : ∀ text ∈ texts, Closed text := by
  have kept (texts : List (List Char)) (first : Nat) (e : Errors) : e.reports ⊆ (lineErrors first e texts).reports := by
    induction texts generalizing first e with
    | nil => exact List.Subset.refl _
    | cons text texts ih =>
      refine List.Subset.trans ?_ (ih (first + 1) _)
      split
      · exact Errors.subset_add e _ _
      · exact List.Subset.refl _
  induction texts generalizing first e with
  | nil => simp
  | cons text texts ih =>
    rw [lineErrors] at clean
    refine List.forall_mem_cons.2 ⟨?_, ih clean⟩
    refine Bool.eq_false_iff.2 fun unclosed => ?_
    rw [if_pos unclosed] at clean
    have report := kept texts (first + 1) _ (Errors.mem_add e first "Unterminated string literal")
    rw [clean] at report
    cases report

/-- The rules add to the errors that the reading found, and to nothing else. -/
theorem Parsed.ofText_rules {rules : List Forest.Rule} {text : String} {context : Context} :
    ofText rules text context = match ofText [] text context with
      | (.ok parsed, context') => (.ok ⟨parsed.forest,
          rules.foldl (fun errors rule => errors.merge (rule parsed.forest)) parsed.errors⟩, context')
      | (.error fault, context') => (.error fault, context') := by
  unfold ofText
  cases (Reader.mk ⟨Token.ofText text, Token.errorsOf text⟩ context [] .nil).run with
  | error halt => rfl
  | ok r => rfl

namespace Parsed
open Reader

variable {texts : List String} {context context' : Context} {parsed : Parsed}

/-- The lines of a text that is read without errors spell words. -/
theorem spelled_of_clean (unbroken : ∀ text ∈ texts, '\n' ∉ text.toList)
    (read : ofText [] ("\n".intercalate texts) context = (.ok parsed, context')) (clean : parsed.errors.reports = []) :
    ∀ text ∈ texts, ∃ words, Token.Spells text.toList words := by
  intro text member
  unfold ofText Token.ofText Token.errorsOf at read
  rw [Token.lines_joined (List.ne_nil_of_mem member) unbroken] at read
  simp only at read
  split at read
  · cases read
  · next r run =>
    cases read
    have kept := (advances_run run).errors
    rw [show r.cursor.errors.reports = [] from clean] at kept
    have closed := Token.closed_of_lineErrors (List.subset_nil.1 kept) text.toList (List.mem_map_of_mem member)
    exact ⟨_, Token.spells_wordsOf (unbroken text member) closed⟩

/-- A text that its lines spoil has errors, if its reading ends. -/
theorem errors_of_ruins (ruins : Ruins 0 texts (start context)) (nonempty : texts ≠ [])
    (read : ofText [] ("\n".intercalate texts) context = (.ok parsed, context')) : parsed.errors.reports ≠ [] := by
  have spelled : ∀ text ∈ texts.map String.toList, ∃ words, Token.Spells text words := by
    intro text member
    obtain ⟨own, listed, rfl⟩ := List.mem_map.1 member
    exact ruins.spelled own listed
  have cut : Token.lines ("\n".intercalate texts).toList = texts.map String.toList :=
    Token.lines_joined nonempty fun text member => let ⟨_, spells⟩ := ruins.spelled text member; spells.unbroken
  unfold ofText Token.ofText Token.errorsOf at read
  rw [cut, Token.lineErrors_spelled 0 .none spelled] at read
  simp only at read
  split at read
  · cases read
  · next r run =>
    cases read
    exact ruins.spoils context _ r run

end Parsed
end LiveDiagram
