import LiveDiagram.Proofs.Outcome
import LiveDiagram.Proofs.Source.Deriving
import LiveDiagram.Proofs.Source.Ending

/-! The texts that are read without errors are those of the grammar. A step that finds no error reads one piece of a script,
and the pieces are put together from the end of the text. -/
namespace LiveDiagram

open Token (Midline Tail)

namespace Grammar
open Reader (isName isConnector nodeHeader edgeHeader entryText)

variable {e t : Token} {tokens rest more : List Token} {errors : Errors}

/-! Parts stay in their line -/

theorem One.midline {accepted : TokenKind → Bool} {value : String} (part : One accepted tokens value rest)
    (inline : accepted .newline = false) (midline : Midline e tokens) : Midline e rest := by
  cases part with
  | token known =>
    refine midline.next fun newline => ?_
    rw [newline, inline] at known
    cases known

theorem Optional.midline {β : Type} {part : Part β} {value : Option β} (optional : Optional part tokens value rest)
    (inline : ∀ value, part tokens value rest → Midline e rest) (midline : Midline e tokens) : Midline e rest := by
  cases optional with
  | given own => exact inline _ own
  | absent => exact midline

theorem One.midline? {accepted : TokenKind → Bool} {value : Option String} (part : Optional (One accepted) tokens value rest)
    (inline : accepted .newline = false) (midline : Midline e tokens) : Midline e rest :=
  part.midline (fun _ own => own.midline inline midline) midline

theorem Source.midline? {source : Option String} (part : Optional Source tokens source rest) (midline : Midline e tokens) :
    Midline e rest := by
  refine part.midline (fun _ own => ?_) midline
  cases own with
  | id kind => exact midline.next (by simp [kind])
  | string kind _ => exact midline.next (by simp [kind])

theorem Link.midline? {link : Option (String × Option String)} (part : Optional Link tokens link rest)
    (midline : Midline e tokens) : Midline e rest := by
  refine part.midline (fun _ own => ?_) midline
  cases own with
  | link linked target =>
    refine One.midline? target rfl (midline.next fun newline => ?_)
    rw [newline] at linked
    cases linked

theorem Slashed.midline? {style : Option (Option String)} (part : Optional Slashed tokens style rest)
    (midline : Midline e tokens) : Midline e rest := by
  refine part.midline (fun _ own => ?_) midline
  cases own with
  | slashed kind style => exact One.midline? style rfl (midline.next (by simp [kind]))

theorem Title.midline {title : Head × Option String} (own : Title tokens title rest) (midline : Midline e tokens) :
    Midline e rest := by
  cases own with
  | node shape names =>
    exact One.midline? names rfl (midline.next (by rcases shape with kind | ⟨kind, _⟩ <;> simp [kind]))
  | edge kind _ sources links labels =>
    have behind := midline.next (by simp [kind])
    exact One.midline? labels rfl (Link.midline? links (Source.midline? sources behind))

/-- The rest of a line up to its end. -/
theorem exists_inline (midline : Midline e tokens) : ∃ skipped n behind, tokens = skipped ++ n :: behind ∧ Inline skipped ∧
    n.kind = .newline ∧ Tail e behind := by
  induction tokens with
  | nil =>
    obtain ⟨_, _, none⟩ := midline.exists_cons
    cases none
  | cons t rest ih =>
    by_cases newline : t.kind = .newline
    · exact ⟨[], t, rest, rfl, by simp [Inline], newline, midline.tail⟩
    · obtain ⟨skipped, n, behind, rfl, inline, ended, tail⟩ := ih (midline.next newline)
      exact ⟨t :: skipped, n, behind, rfl, List.forall_mem_cons.2 ⟨⟨newline, midline.proper⟩, inline⟩, ended, tail⟩

/-! What is found where there is no error -/

theorem reports_fail (c : Cursor) (message : String) : (c.fail message).errors.reports ≠ [] :=
  Reader.reports_add _ _ _

/-- A header that is ended without an error. -/
theorem closing_of_endLine {message : String} (midline : Midline e tokens)
    (clean : ((Cursor.mk tokens errors).endLine message).errors.reports = []) : ∃ n rest, tokens = n :: rest ∧ Closing n := by
  obtain ⟨n, rest, rfl⟩ := midline.exists_cons
  refine ⟨n, rest, rfl, ?_⟩
  unfold Cursor.endLine at clean
  split at clean
  · next ended =>
    rw [Bool.or_eq_true, Bool.or_eq_true] at ended
    rcases ended with (newline | brace) | eof
    · exact .inl (of_decide_eq_true newline)
    · exact .inr (of_decide_eq_true brace)
    · exact (midline.proper (of_decide_eq_true eof)).elim
  · exact (reports_fail _ _ clean).elim

theorem exists_title {r : Reader} {id : String} {line : Nat} (midline : Midline e tokens)
    (clean : (r.header id line ⟨tokens, errors⟩).cursor.errors.reports = []) :
    ∃ head connector n rest, Title tokens (head, connector) (n :: rest) ∧ Closing n ∧ Midline e (n :: rest) := by
  rcases header_cases r id line tokens errors with ⟨head, connector, behind, message, title, placed⟩ | failed
  · rw [placed] at clean
    have kept := (Reader.advances_place r ⟨id, line, head, connector.bind (Connector.read? ·.toList), .empty⟩
      ((Cursor.mk behind errors).endLine message)).errors
    rw [clean] at kept
    have inside := title.midline midline
    obtain ⟨n, rest, rfl, closing⟩ := closing_of_endLine inside (List.subset_nil.1 kept)
    exact ⟨head, connector, n, rest, title, closing, inside⟩
  · rw [failed] at clean
    exact (reports_fail _ _ clean).elim

theorem expect_cons {kind : TokenKind} {message : String} :
    (Cursor.mk (t :: rest) errors).expect kind message =
      if t.kind = kind then (some t.value, ⟨rest, errors⟩) else (none, (Cursor.mk (t :: rest) errors).fail message) := by
  rw [Cursor.expect, Reader.take?_cons]
  by_cases own : t.kind = kind
  · rw [if_pos (by simpa using own), if_pos own]
  · rw [if_neg (by simpa using own), if_neg own]

/-- An element that is begun without an error. -/
theorem exists_opening {r next : Reader} (midline : Midline e (t :: more)) (begins : isName t.kind = true ∨ t.kind = .colon)
    (stepped : (r.before (t :: more)).step t more = .ok next) (clean : next.cursor.errors.reports = []) :
    ∃ h n rest, Opening (t :: more) h (n :: rest) ∧ Closing n ∧ Midline e (n :: rest) := by
  have inline : t.kind ≠ .newline := by
    rintro newline
    simp [newline, isName] at begins
  have behind := midline.next inline
  rw [Reader.step] at stepped
  dsimp only at stepped
  rw [if_neg inline] at stepped
  by_cases named : isName t.kind = true
  · rw [if_pos named] at stepped
    cases stepped
    obtain ⟨c, more, rfl⟩ := behind.exists_cons
    rw [Reader.named, expect_cons] at clean
    by_cases colon : c.kind = .colon
    · rw [if_pos colon] at clean
      obtain ⟨head, connector, n, rest, title, closing, midline⟩ := exists_title (behind.next (by simp [colon])) clean
      exact ⟨_, n, rest, .opening (.given (.token named)) colon title, closing, midline⟩
    · rw [if_neg colon] at clean
      exact (reports_fail _ _ clean).elim
  · have colon := begins.resolve_left named
    rw [if_neg named, if_pos colon] at stepped
    cases stepped
    obtain ⟨head, connector, n, rest, title, closing, midline⟩ := exists_title behind clean
    refine ⟨_, n, rest, .opening (.absent fun value rest own => ?_) colon title, closing, midline⟩
    cases own with
    | token known => exact named known

/-- A line of props or metadata that is read without an error. -/
theorem exists_entryText {word : String} (midline : Midline e tokens)
    (clean : (entryText word ⟨tokens, errors⟩).2.errors.reports = []) :
    ∃ c t rest, tokens = c :: t :: rest ∧ c.kind = .colon ∧ t.kind = .string ∧ Midline e rest := by
  obtain ⟨c, tokens, rfl⟩ := midline.exists_cons
  rw [entryText, expect_cons] at clean
  by_cases colon : c.kind = .colon
  · rw [if_pos colon] at clean
    have behind := midline.next (by simp [colon])
    obtain ⟨t, rest, rfl⟩ := behind.exists_cons
    dsimp only at clean
    rw [expect_cons] at clean
    by_cases string : t.kind = .string
    · exact ⟨c, t, rest, rfl, colon, string, behind.next (by simp [string])⟩
    · rw [if_neg string] at clean
      exact (reports_fail _ _ clean).elim
  · rw [if_neg colon] at clean
    exact (reports_fail _ _ clean).elim

/-! Steps -/

/-- Of each element with an open body, its head and the text style that the body has said. -/
abbrev Levels := List (Head × Option (String × Nat))

/-- What a step without an error reads, and what it makes of the open bodies. -/
inductive Move : Levels → List Token → Levels → List Token → Prop
  | newline {levels : Levels} {n : Token} {rest : List Token} : n.kind = .newline → Move levels (n :: rest) levels rest
  | props {level : Head × Option (String × Nat)} {outer : Levels} {t : Token} {tokens rest : List Token} :
      Keyword "props" tokens (t :: rest) → t.kind = .string → Move (level :: outer) tokens (level :: outer) rest
  | metadata {level : Head × Option (String × Nat)} {outer : Levels} {t : Token} {tokens rest : List Token} :
      Keyword "metadata" tokens (t :: rest) → t.kind = .string → Move (level :: outer) tokens (level :: outer) rest
  | stylesheet {head : Head} {said : Option (String × Nat)} {outer : Levels} {t n : Token}
      {tokens styles texts skipped rest : List Token} {style : Option String} {textStyle : Option (Option String)} :
      Keyword "stylesheet" (t :: tokens) styles → Optional (One (· = .id)) styles style texts →
      Optional Slashed texts textStyle (skipped ++ n :: rest) → Inline skipped → n.kind = .newline →
      Move ((head, said) :: outer) (t :: tokens) ((head, (textStyle.join.map (·, t.line)).or said) :: outer) rest
  | bare {levels : Levels} {n : Token} {tokens rest : List Token} {h : Heading} : Opening tokens h (n :: rest) →
      n.kind = .newline → Move levels tokens levels (n :: rest)
  | body {levels : Levels} {n : Token} {tokens rest : List Token} {h : Heading} : Opening tokens h (n :: rest) →
      n.kind = .leftBrace → Move levels tokens ((h.head, none) :: levels) rest
  | close {head : Head} {said : Option (String × Nat)} {outer : Levels} {t : Token} {rest : List Token} :
      t.kind = .rightBrace → (head.isEdge = true → said = none) → Move ((head, said) :: outer) (t :: rest) outer rest

/-- From here a script leads to the end of the text, through the ends of all open bodies. -/
def Completes (e : Token) : Levels → List Token → Prop
  | [], tokens => ∃ s, Items false tokens s [e]
  | (head, said) :: outer, tokens => ∃ s t rest, Items true tokens s (t :: rest) ∧ t.kind = .rightBrace ∧
      (head.isEdge = true → said = none ∧ s.Unstyled) ∧ Completes e outer rest

namespace Completes
variable {levels levels' : Levels} {tokens' : List Token}

/-- More of a script goes in front of the rest. -/
theorem grow (complete : Completes e levels tokens')
    (front : ∀ s rest, Items (!levels.isEmpty) tokens' s rest →
      ∃ s', Items (!levels.isEmpty) tokens s' rest ∧ (s.Unstyled → s'.Unstyled)) : Completes e levels tokens := by
  cases levels with
  | nil =>
    obtain ⟨s, items⟩ := complete
    obtain ⟨s', items, _⟩ := front s _ items
    exact ⟨s', items⟩
  | cons level outer =>
    obtain ⟨s, t, rest, items, brace, proper, complete⟩ := complete
    obtain ⟨s', items, plain⟩ := front s _ items
    exact ⟨s', t, rest, items, brace, fun edge => ⟨(proper edge).1, plain (proper edge).2⟩, complete⟩

/-- What can be completed behind a step can be completed before it. -/
theorem of_move (move : Move levels tokens levels' tokens') (complete : Completes e levels' tokens') :
    Completes e levels tokens := by
  cases move with
  | newline kind => exact complete.grow fun s rest items => ⟨s, .newline kind items, id⟩
  | props keyword string => exact complete.grow fun s rest items => ⟨_, .props keyword string items, id⟩
  | metadata keyword string => exact complete.grow fun s rest items => ⟨_, .metadata keyword string items, id⟩
  | stylesheet keyword first second inline newline =>
    obtain ⟨s, b, rest, items, brace, proper, complete⟩ := complete
    refine ⟨_, b, rest, .stylesheet keyword first second inline newline items, brace, fun edge => ?_, complete⟩
    obtain ⟨said, plain⟩ := proper edge
    rw [Option.or_eq_none_iff, Option.map_eq_none_iff] at said
    exact ⟨said.2, said.1, plain⟩
  | bare opening newline => exact complete.grow fun s rest items => ⟨_, .bare opening newline items, id⟩
  | body opening left =>
    obtain ⟨body, b, rest, inside, brace, proper, complete⟩ := complete
    exact complete.grow fun s rest items => ⟨_, .body opening left inside brace (fun edge => (proper edge).2) items, id⟩
  | close brace proper => exact ⟨.nil, _, _, .nil, brace, fun edge => ⟨proper edge, trivial⟩, complete⟩

end Completes

end Grammar

namespace Reader
open Grammar

/-- The heads and text styles of the open bodies. -/
def levels (r : Reader) : Levels :=
  r.opened.map fun e => (e.head, e.body.textStyle)

variable {r next last : Reader} {t e : Token} {more tokens : List Token} {context : Context}

@[simp] theorem levels_within : (r.within context).levels = r.levels := rfl

@[simp] theorem levels_before : (r.before tokens).levels = r.levels := rfl

@[simp] theorem levels_join {f : Forest} : (r.join f).levels = r.levels := by
  obtain ⟨_, _, opened, _⟩ := r
  cases opened <;> rfl

theorem levels_mapBody {change : Body → Body} (plain : ∀ b, (change b).textStyle = b.textStyle) :
    (r.mapBody change).levels = r.levels := by
  obtain ⟨_, _, _ | ⟨e, outer⟩, _⟩ := r
  · rfl
  · simp only [levels, mapBody, List.map_cons, plain]

theorem reports_reject {message : String} : (r.reject t more message).cursor.errors.reports ≠ [] :=
  reports_add _ _ _

theorem cursor_propsEntry {c : Cursor} (entered : r.propsEntry c = .ok next) : next.cursor = (entryText "props" c).2 := by
  unfold propsEntry at entered
  split at entered
  · next text =>
    cases entered
    exact (congrArg Prod.snd text).symm
  · next text =>
    dsimp only at entered
    split at entered
    · cases entered
    · cases entered
      rw [cursor_mapBody]
      exact (congrArg Prod.snd text).symm

theorem cursor_metadataEntry {c : Cursor} : (r.metadataEntry c).cursor = (entryText "metadata" c).2 := by
  unfold metadataEntry
  split
  · next text => exact (congrArg Prod.snd text).symm
  · next text =>
    rw [cursor_mapBody]
    exact (congrArg Prod.snd text).symm

/-- The body of an edge that is closed without an error has no text style. -/
theorem style_of_close {e : OpenElement} {outer : List OpenElement} (opened : r.opened = e :: outer)
    (edge : e.head.isEdge = true) (clean : r.close.cursor.errors.reports = []) : e.body.textStyle = none := by
  by_contra styled
  obtain ⟨⟨style, line⟩, said⟩ := Option.ne_none_iff_exists'.1 styled
  rw [close, opened] at clean
  simp only [cursor_add, OpenElement.finalErrors, said] at clean
  cases head : e.head with
  | node => simp [Head.isEdge, head] at edge
  | edge =>
    rw [head] at clean
    exact reports_add _ _ _ clean

/-- An entry that is read without an error. -/
theorem move_of_entry (opened : r.opened ≠ []) (midline : Midline e (t :: more)) (keyword : t.kind = .keyword)
    (stepped : (r.before (t :: more)).step t more = .ok next) (clean : next.cursor.errors.reports = []) :
    Move r.levels (t :: more) next.levels next.cursor.rest ∧ Tail e next.cursor.rest := by
  obtain ⟨⟨head, said⟩, outer, levels⟩ : ∃ level outer, r.levels = level :: outer :=
    List.exists_cons_of_ne_nil (by simpa [Reader.levels] using opened)
  have behind := midline.next (by simp [keyword])
  have entered := stepped
  rw [step_keyword opened keyword, entry] at entered
  by_cases props : t.value = "props"
  · rw [if_pos props] at entered
    obtain ⟨c, s, rest, rfl, colon, string, onward⟩ := exists_entryText behind (cursor_propsEntry entered ▸ clean)
    obtain ⟨context, _, rfl⟩ := step_props opened (.keyword keyword props colon) string stepped
    rw [levels_before, levels_within, levels_mapBody (by exact fun _ => rfl), levels]
    exact ⟨.props (.keyword keyword props colon) string, onward.toTail⟩
  rw [if_neg props] at entered
  by_cases metadata : t.value = "metadata"
  · rw [if_pos metadata] at entered
    cases entered
    obtain ⟨c, s, rest, rfl, colon, string, onward⟩ := exists_entryText behind (cursor_metadataEntry ▸ clean)
    obtain ⟨context, _, known⟩ := step_metadata opened (.keyword keyword metadata colon) string
    rw [known] at stepped
    rw [← Except.ok.inj stepped, levels_before, levels_within, levels_mapBody (by exact fun _ => rfl), levels]
    exact ⟨.metadata (.keyword keyword metadata colon) string, onward.toTail⟩
  rw [if_neg metadata] at entered
  by_cases stylesheet : t.value = "stylesheet"
  · rw [if_pos stylesheet] at entered
    obtain ⟨c, more, rfl⟩ := behind.exists_cons
    by_cases colon : c.kind = .colon
    · obtain ⟨style, texts, first⟩ := exists_optional (One (· = .id)) more
      obtain ⟨textStyle, last, second⟩ := exists_optional Slashed texts
      have inside := Slashed.midline? second (One.midline? first rfl (behind.next (by simp [colon])))
      obtain ⟨skipped, n, rest, rfl, inline, newline, tail⟩ := exists_inline inside
      rw [step_stylesheet opened (.keyword keyword stylesheet colon) first second inline newline] at stepped
      cases stepped
      refine ⟨?_, tail⟩
      obtain ⟨_, _, _ | ⟨e', outer'⟩, _⟩ := r
      · exact (opened rfl).elim
      · exact .stylesheet (.keyword keyword stylesheet colon) first second inline newline
    · cases entered
      rw [stylesheetEntry, expect_cons, if_neg colon] at clean
      exact (reports_fail _ _ clean).elim
  · rw [if_neg stylesheet] at entered
    cases entered
    exact (reports_reject clean).elim

/-- A step without an error reads a piece of a script. -/
theorem move_of_step (midline : Midline e (t :: more)) (stepped : (r.before (t :: more)).step t more = .ok next)
    (clean : next.cursor.errors.reports = []) :
    Move r.levels (t :: more) next.levels next.cursor.rest ∧ Tail e next.cursor.rest := by
  by_cases newline : t.kind = .newline
  · rw [step_newline newline] at stepped
    cases stepped
    exact ⟨.newline newline, midline.tail⟩
  by_cases begins : isName t.kind = true ∨ t.kind = .colon
  · obtain ⟨h, n, rest, opening, closing, onward⟩ := exists_opening midline begins stepped clean
    rcases closing with newline | brace
    · obtain ⟨_, _, same, _, bare⟩ := step_bare opening newline
      cases same
      rw [bare] at stepped
      cases stepped
      rw [levels_before, levels_within, levels_join]
      exact ⟨.bare opening newline, onward.toTail⟩
    · obtain ⟨_, _, same, _, body⟩ := step_body opening brace
      cases same
      rw [body] at stepped
      cases stepped
      exact ⟨.body opening brace, onward.tail⟩
  have entered := stepped
  rw [not_or] at begins
  rw [step] at entered
  dsimp only at entered
  rw [if_neg newline, if_neg begins.1, if_neg begins.2] at entered
  obtain ⟨cursor, context, opened, finished⟩ := r
  cases opened with
  | nil =>
    cases entered
    exact (reports_reject clean).elim
  | cons e' outer =>
    rw [if_neg (by exact Bool.false_ne_true)] at entered
    by_cases brace : t.kind = .rightBrace
    · rw [if_pos brace] at entered
      have proper : e'.head.isEdge = true → e'.body.textStyle = none := by
        intro edge
        cases entered
        exact style_of_close rfl edge clean
      rw [step_close rfl brace proper] at stepped
      cases stepped
      rw [levels_before, levels_join]
      exact ⟨.close brace proper, midline.tail⟩
    · rw [if_neg brace] at entered
      by_cases keyword : t.kind = .keyword
      · exact move_of_entry (List.cons_ne_nil _ _) midline keyword stepped clean
      · rw [if_neg keyword] at entered
        cases entered
        exact (reports_reject clean).elim

/-- A text that is read without errors can be completed from wherever the reading is. -/
theorem completes_of_run (ends : e.kind = .eof) (tail : Tail e r.cursor.rest) (read : r.run = .ok last)
    (clean : last.cursor.errors.reports = []) : Completes e r.levels r.cursor.rest := by
  induction size : r.cursor.rest.length using Nat.strongRecOn generalizing r with
  | _ n ih =>
    obtain ⟨body, unread, whole⟩ := id tail
    cases body with
    | nil =>
      cases (run_ends unread ends).symm.trans read
      rw [unread]
      cases open' : r.opened with
      | nil =>
        rw [Reader.levels, open']
        exact ⟨.nil, .nil⟩
      | cons x outer =>
        -- A body that is open at the end is reported.
        rw [open'] at clean
        have report : ((e.line : Int), "Expected closing brace") ∈
            (r.closeAll e.line (x :: outer)).cursor.errors.reports := mem_closeAll
        rw [clean] at report
        cases report
    | cons t body =>
      rw [List.cons_append] at unread
      have proper := whole.proper t List.mem_cons_self
      obtain ⟨next, stepped, onward⟩ := exists_step unread proper read
      have clean' : next.cursor.errors.reports = [] := List.subset_nil.1 (clean ▸ (advances_run onward).errors)
      have same : r = r.before (t :: (body ++ [e])) := unread ▸ rfl
      rw [same] at stepped
      rw [unread] at tail ⊢
      obtain ⟨move, tail'⟩ := move_of_step (tail.midline proper ends) stepped clean'
      have shorter : next.cursor.rest.length < n := size ▸ length_step_lt unread stepped
      exact .of_move move (ih _ shorter tail' onward rfl)

end Reader

/-- The quotes of a text are closed, each in its line. -/
def Token.Terminated (text : String) : Prop :=
  ∀ line ∈ lines text.toList, Closed line

theorem Token.terminated_iff {text : String} : Terminated text ↔ (errorsOf text).reports = [] := by
  refine ⟨fun terminated => ?_, closed_of_lineErrors⟩
  rw [errorsOf, lineErrors_closed 0 .none terminated]
  rfl

/-- The reading of a whole text of the grammar. -/
theorem Grammar.Derives.run {tokens : List Token} {s : Script} {r last : Reader} (derives : Derives tokens s)
    (closed : r.opened = []) (read : (r.before tokens).run = .ok last) : last.cursor.errors = r.cursor.errors ∧
      (last.finished, last.context.ids) = ((r.finished ++ (s.forest r.context.ids).1), (s.forest r.context.ids).2) := by
  obtain ⟨e, ends, items⟩ := derives
  obtain ⟨context, ids, read⟩ := items.run (by simp) read
  cases (Reader.run_ends rfl ends).symm.trans read
  obtain ⟨_, _, _, _⟩ := r
  cases closed
  exact ⟨rfl, Prod.ext rfl ids⟩

namespace Parsed
variable {text : String} {context context' : Context} {parsed : Parsed}

/-- A text without errors is one of the grammar with closed quotes, and it means what any script of it stands for. -/
theorem accepts_grammar (read : ofText [] text context = (.ok parsed, context')) :
    (parsed.errors.reports = [] ↔ Token.Terminated text ∧ ∃ s, Grammar.Derives (Token.ofText text) s) ∧
      ∀ s, Grammar.Derives (Token.ofText text) s → (parsed.forest, context'.ids) = s.forest context.ids := by
  obtain ⟨last, run, rfl, rfl⟩ := gives_ofText.1 read
  obtain ⟨e, ends, tail⟩ := Token.exists_tail text
  let start : Reader := ⟨⟨Token.ofText text, Token.errorsOf text⟩, context, [], .nil⟩
  refine ⟨⟨fun clean => ?_, fun ⟨terminated, s, derives⟩ => ?_⟩, fun s derives => ?_⟩
  · have lexed : (Token.errorsOf text).reports ⊆ last.cursor.errors.reports := (Reader.advances_run run).errors
    have complete : Grammar.Completes e start.levels (Token.ofText text) := Reader.completes_of_run ends tail run clean
    obtain ⟨s, items⟩ := complete
    exact ⟨Token.terminated_iff.2 (List.subset_nil.1 (clean ▸ lexed)), s, e, ends, items⟩
  · obtain ⟨errors, _⟩ := derives.run (r := start) rfl run
    rw [errors]
    exact Token.terminated_iff.1 terminated
  · exact (derives.run (r := start) rfl run).2

/-- A node with an entry and an edge without an id in its body. -/
theorem accepts_grammar_nested :
    ∃ (context context' : Context) (parsed : Parsed) (s : Script),
      ofText [] "a: rect \"A\" \x7b\n  props: \"x=1\"\n  : edge a -> b\n\x7d" context = (.ok parsed, context') ∧
        Grammar.Derives (Token.ofText "a: rect \"A\" \x7b\n  props: \"x=1\"\n  : edge a -> b\n\x7d") s ∧
        s.forest context.ids = (parsed.forest, context'.ids) ∧
        parsed.forest = .cons ⟨"a", 0, .node "rect" (some "A") none, some (.leaf "x" (.int 1) .nil), none, none⟩
          (.cons ⟨"*", 2, .edge (some "a") (some "b") none, none, none, none⟩ .nil .nil) .nil := by
  let text := "a: rect \"A\" \x7b\n  props: \"x=1\"\n  : edge a -> b\n\x7d"
  let context : Context := ⟨⟨fun _ => "*", 0⟩, []⟩
  let f : Forest := .cons ⟨"a", 0, .node "rect" (some "A") none, some (.leaf "x" (.int 1) .nil), none, none⟩
    (.cons ⟨"*", 2, .edge (some "a") (some "b") none, none, none, none⟩ .nil .nil) .nil
  obtain ⟨parsed, read, seen⟩ := exists_gives (e := ofText [] text) (t := context)
    (fun parsed => parsed.errors.isEmpty && decide (parsed.forest = f)) (by decide +kernel)
  obtain ⟨clean, same⟩ := Bool.and_eq_true_iff.1 seen
  obtain ⟨accepts, means⟩ := accepts_grammar read
  obtain ⟨_, s, derives⟩ := accepts.1 (List.isEmpty_iff.1 clean)
  exact ⟨context, _, parsed, s, read, derives, (means s derives).symm, of_decide_eq_true same⟩

end Parsed
end LiveDiagram
