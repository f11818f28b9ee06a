import LiveDiagram.Source.Reader

/-! Reading only goes forward. Every step takes tokens off the front and keeps the errors found so far, to which it adds
complaints of its own, so that what holds of a reader and is kept by steps holds where the reading ends. -/
namespace LiveDiagram

theorem Errors.mem_add_iff {e : Errors} {line : Int} {message : String} {report : Int × String} :
    report ∈ (e.add line message).reports ↔ report ∈ e.reports ∨ report = (line, message) := by
  unfold add
  split
  · next known => exact ⟨.inl, fun either => either.elim id (· ▸ known)⟩
  · rw [List.mem_append, List.mem_singleton]

theorem Errors.subset_add (e : Errors) (line : Int) (message : String) : e.reports ⊆ (e.add line message).reports :=
  fun _ member => mem_add_iff.2 (.inl member)

theorem Errors.mem_messages {e : Errors} {line : Int} {message : String} :
    message ∈ e.messages line ↔ (line, message) ∈ e.reports := by
  simp [messages]

/-- An error is there once it is reported. -/
theorem Errors.mem_add (e : Errors) (line : Int) (message : String) : (line, message) ∈ (e.add line message).reports :=
  mem_add_iff.2 (.inr rfl)

/-- A message of the reader. None begins like the report of a repeated id. -/
def Complaint (message : String) : Prop :=
  message.toList.head?.any (· ≠ 'D') = true

instance : DecidablePred Complaint := fun _ => inferInstanceAs (Decidable (_ = true))

theorem Complaint.append {message : String} (complaint : Complaint message) (more : String) : Complaint (message ++ more) := by
  unfold Complaint at *
  rw [String.toList_append, List.head?_append]
  cases first : message.toList.head? with
  | none =>
    rw [first] at complaint
    cases complaint
  | some c => rwa [first] at complaint

namespace Cursor

/-- What was left to read has lost tokens in front, no error was lost, and only complaints have come to them. -/
structure Advances (c c' : Cursor) : Prop where
  rest : c'.rest <:+ c.rest
  errors : c.errors.reports ⊆ c'.errors.reports
  complaints : ∀ report ∈ c'.errors.reports, report ∈ c.errors.reports ∨ Complaint report.2

namespace Advances
variable {c c' c'' : Cursor} {tokens : List Token}

/-- Tokens are passed over and nothing is reported. -/
theorem silent (passed : tokens <:+ c.rest) : c.Advances { c with rest := tokens } :=
  ⟨passed, List.Subset.refl _, fun _ => .inl⟩

theorem refl (c : Cursor) : c.Advances c := silent (List.suffix_refl _)

theorem trans (first : c.Advances c') (second : c'.Advances c'') : c.Advances c'' where
  rest := second.rest.trans first.rest
  errors := List.Subset.trans first.errors second.errors
  complaints report member := (second.complaints report member).elim (first.complaints report) .inr

theorem tail {t : Token} {rest : List Token} (unread : c.rest = t :: rest) : c.Advances { c with rest := rest } :=
  silent (unread ▸ List.suffix_cons t rest)

theorem skipLine_suffix (tokens : List Token) : skipLine tokens <:+ tokens := by
  induction tokens with
  | nil => exact List.suffix_refl _
  | cons t rest ih =>
    rw [skipLine]
    split
    · exact List.suffix_refl _
    · split
      · exact List.suffix_cons t rest
      · exact ih.trans (List.suffix_cons t rest)

theorem skip (c : Cursor) : c.Advances { c with rest := skipLine c.rest } :=
  silent (skipLine_suffix _)

theorem report (c : Cursor) (line : Int) {message : String} (complaint : Complaint message) :
    c.Advances { c with errors := c.errors.add line message } where
  rest := List.suffix_refl _
  errors := Errors.subset_add _ _ _
  complaints report member := (Errors.mem_add_iff.1 member).imp_right fun same => by rwa [same]

theorem fail (c : Cursor) {message : String} (complaint : Complaint message) : c.Advances (c.fail message) :=
  (skip c).trans (report _ _ complaint)

theorem take? (accepted : TokenKind → Bool) (c : Cursor) : c.Advances (c.take? accepted).2 := by
  unfold Cursor.take?
  split
  · exact refl c
  · next unread =>
    split
    · exact tail unread
    · exact refl c

theorem take?_if (condition : Bool) (accepted : TokenKind → Bool) (c : Cursor) :
    c.Advances (if condition then c.take? accepted else (none, c)).2 := by
  split
  · exact take? accepted c
  · exact refl c

theorem expect (kind : TokenKind) {message : String} (complaint : Complaint message) (c : Cursor) :
    c.Advances (c.expect kind message).2 := by
  have taken := take? (· = kind) c
  unfold Cursor.expect
  split
  · next equal => simpa [equal] using taken
  · next equal =>
    rw [equal] at taken
    exact taken.trans (fail _ complaint)

theorem endLine {message : String} (complaint : Complaint message) (c : Cursor) : c.Advances (c.endLine message) := by
  unfold Cursor.endLine
  split
  · exact refl c
  · exact fail c complaint

end Advances
end Cursor

namespace Reader
open Cursor (Advances skipLine take? expect)
variable {r next : Reader} {t : Token} {rest : List Token} {c : Cursor}

theorem advances_nodeHeader (id : String) (line : Nat) (c : Cursor) : c.Advances (nodeHeader id line c).2 := by
  have shape := Advances.take? (fun kind => kind = .id || kind = .keyword) c
  unfold nodeHeader
  split
  · next equal =>
    rw [equal] at shape
    exact shape.trans (.fail _ (by decide))
  · next equal =>
    rw [equal] at shape
    exact shape.trans ((Advances.take? _ _).trans (.endLine (by decide) _))

theorem advances_edgeHeader (id : String) (line : Nat) (c : Cursor) : c.Advances (edgeHeader id line c).2 := by
  unfold edgeHeader
  exact (Advances.take?_if _ _ _).trans ((Advances.take? _ _).trans ((Advances.take?_if _ _ _).trans
    ((Advances.take? _ _).trans (.endLine (by decide) _))))

theorem advances_place (r : Reader) (e : OpenElement) (c : Cursor) : c.Advances (r.place e c).cursor := by
  unfold place
  split
  · next unread =>
    split
    · exact .tail unread
    · rw [cursor_add]
      exact .refl c
  · rw [cursor_add]
    exact .refl c

theorem advances_header (r : Reader) (id : String) (line : Nat) (c : Cursor) :
    c.Advances (r.header id line c).cursor := by
  have node := advances_nodeHeader id line c
  unfold header
  split
  · next t rest unread =>
    split
    · exact (Advances.tail unread).trans ((advances_edgeHeader id line _).trans (advances_place _ _ _))
    · split
      · next equal =>
        rw [equal] at node
        exact node.trans (advances_place _ _ _)
      · next equal =>
        rw [equal] at node
        exact node
  · exact node

theorem advances_entryText (keyword : String) (c : Cursor) : c.Advances (entryText keyword c).2 := by
  have colon : Complaint ("Expected \":\" after " ++ keyword ++ ":") := (Complaint.append (by decide) keyword).append ":"
  have text : Complaint ("Expected string after " ++ keyword ++ ":") := (Complaint.append (by decide) keyword).append ":"
  have colon := Advances.expect .colon colon c
  unfold entryText
  split
  · next equal => simpa [equal] using colon
  · next equal =>
    rw [equal] at colon
    exact colon.trans (.expect _ text _)

theorem advances_entry (entered : r.entry t rest ⟨rest, r.cursor.errors⟩ = .ok next) :
    Advances ⟨rest, r.cursor.errors⟩ next.cursor := by
  unfold entry at entered
  split at entered
  · have props := advances_entryText "props" ⟨rest, r.cursor.errors⟩
    unfold propsEntry at entered
    split at entered
    · next equal =>
      rw [equal] at props
      cases entered
      exact props
    · next equal =>
      rw [equal] at props
      simp only at entered
      split at entered
      · cases entered
      · cases entered
        simpa using props
  split at entered
  · have metadata := advances_entryText "metadata" ⟨rest, r.cursor.errors⟩
    cases entered
    unfold metadataEntry
    split
    · next equal =>
      rw [equal] at metadata
      exact metadata
    · next equal =>
      rw [equal] at metadata
      simpa using metadata
  split at entered
  · have colon := Advances.expect .colon (show Complaint "Expected \":\" after stylesheet:" by decide) ⟨rest, r.cursor.errors⟩
    cases entered
    unfold stylesheetEntry
    split
    · next equal =>
      rw [equal] at colon
      exact colon
    · next equal =>
      rw [equal] at colon
      simp only [cursor_mapBody]
      exact colon.trans ((Advances.take? _ _).trans ((Advances.take? _ _).trans ((Advances.take?_if _ _ _).trans
        (.skip _))))
  · cases entered
    exact (Advances.skip _).trans (.report _ _ (Complaint.append (by decide) _))

theorem advances_finalErrors (e : OpenElement) (c : Cursor) : c.Advances { c with errors := e.finalErrors c.errors } := by
  unfold OpenElement.finalErrors
  split
  · exact .report _ _ (by decide)
  · exact .refl c

theorem advances_close (r : Reader) : r.cursor.Advances r.close.cursor := by
  unfold close
  split
  · exact .refl _
  · rw [cursor_add]
    exact advances_finalErrors _ _

/-- What a step does: it passes over a newline, reads the header of an element, closes a body, reads an entry, or gives up the
line. -/
inductive Stepped (r : Reader) (t : Token) (rest : List Token) : Reader → Prop
  | newline : t.kind = .newline → Stepped r t rest { r with cursor := ⟨rest, r.cursor.errors⟩ }
  | named {c : Token} {more : List Token} : isName t.kind = true → rest = c :: more → c.kind = .colon →
      Stepped r t rest (r.header t.value t.line ⟨more, r.cursor.errors⟩)
  | anonymous : t.kind = .colon → Stepped r t rest (r.anonymous t ⟨rest, r.cursor.errors⟩)
  | failed (line : Int) {message : String} : Complaint message →
      Stepped r t rest { r with cursor := ⟨skipLine rest, r.cursor.errors.add line message⟩ }
  | closed : r.opened ≠ [] → t.kind = .rightBrace → Stepped r t rest (close { r with cursor := ⟨rest, r.cursor.errors⟩ })
  | entered {next : Reader} : r.opened ≠ [] → t.kind = .keyword → r.entry t rest ⟨rest, r.cursor.errors⟩ = .ok next →
      Stepped r t rest next

theorem stepped_named (r : Reader) (rest : List Token) (known : isName t.kind = true) :
    Stepped r t rest (r.named t ⟨rest, r.cursor.errors⟩) := by
  have complaint : Complaint "Expected \":\" after element ID" := by decide
  rw [named, expect, take?]
  cases rest with
  | nil => exact .failed (-1) complaint
  | cons c more =>
    by_cases colon : c.kind = .colon
    · simp only [colon, decide_true, if_true]
      exact .named known rfl colon
    · simp only [colon, decide_false, Bool.false_eq_true, if_false]
      exact .failed c.line complaint

theorem step_cases (stepped : r.step t rest = .ok next) : Stepped r t rest next := by
  unfold step at stepped
  dsimp only at stepped
  split at stepped
  · next newline =>
    cases stepped
    exact .newline newline
  split at stepped
  · next known =>
    cases stepped
    exact stepped_named r rest known
  split at stepped
  · next colon =>
    cases stepped
    exact .anonymous colon
  split at stepped
  · cases stepped
    exact .failed t.line (Complaint.append (by decide) _)
  next inside =>
  have opened : r.opened ≠ [] := by simpa using inside
  split at stepped
  · next brace =>
    cases stepped
    exact .closed opened brace
  split at stepped
  · next keyword => exact .entered opened keyword stepped
  · cases stepped
    exact .failed t.line (Complaint.append (by decide) _)

/-- A step takes its token and perhaps more. -/
theorem advances_step (stepped : r.step t rest = .ok next) : Advances ⟨rest, r.cursor.errors⟩ next.cursor := by
  cases step_cases stepped with
  | newline => exact .refl _
  | named _ unread => exact (Advances.tail unread).trans (advances_header _ _ _ _)
  | anonymous => exact advances_header _ _ _ _
  | failed line complaint => exact (Advances.skip _).trans (.report _ line complaint)
  | closed => exact advances_close { r with cursor := ⟨rest, r.cursor.errors⟩ }
  | entered _ _ entered => exact advances_entry entered

theorem length_step_lt (unread : r.cursor.rest = t :: rest) (stepped : r.step t rest = .ok next) :
    next.cursor.rest.length < r.cursor.rest.length := by
  rw [unread]
  exact Nat.lt_succ_of_le (length_step_le stepped)

/-- What holds of a reader holds where its reading ends, if steps keep it and the closing of an open body does. -/
theorem run_keeps (kept : Reader → Prop)
    (step : ∀ r t rest next, r.cursor.rest = t :: rest → r.step t rest = .ok next → kept r → kept next)
    (close : ∀ r line, kept r → kept (close { r with
      cursor := { r.cursor with errors := r.cursor.errors.add line "Expected closing brace" } }))
    {last : Reader} (read : r.run = .ok last) (holds : kept r) : kept last := by
  have closed (line : Nat) (open' : List OpenElement) (r : Reader) (holds : kept r) : kept (r.closeAll line open') := by
    induction open' generalizing r with
    | nil => exact holds
    | cons e outer ih => exact ih _ (close r line holds)
  induction size : r.cursor.rest.length using Nat.strongRecOn generalizing r with
  | _ n ih =>
    rw [run] at read
    split at read
    · cases read
      exact closed 0 _ r holds
    · next t rest unread =>
      split at read
      · cases read
        exact closed t.line _ r holds
      · split at read
        · cases read
        · next next stepped =>
          have shorter : next.cursor.rest.length < n := size ▸ length_step_lt unread stepped
          exact ih _ shorter read (step r t rest next unread stepped holds) rfl

/-- A whole reading goes only forward. -/
theorem advances_run {last : Reader} (read : r.run = .ok last) : r.cursor.Advances last.cursor := by
  refine run_keeps (fun next => r.cursor.Advances next.cursor) (fun s t rest next unread stepped held => ?_)
    (fun s line held => ?_) read (.refl _)
  · exact held.trans ((Advances.tail unread).trans (advances_step stepped))
  · have reported := Advances.report s.cursor line (show Complaint "Expected closing brace" by decide)
    exact held.trans (reported.trans (advances_close { s with
      cursor := { s.cursor with errors := s.cursor.errors.add line "Expected closing brace" } }))

/-- Where there is nothing to read, all open bodies are closed. -/
theorem run_nil (unread : r.cursor.rest = []) : r.run = .ok (r.closeAll 0 r.opened) := by
  rw [run]
  split
  · rfl
  · next same =>
    rw [unread] at same
    cases same

/-- A step that stops ends the run. -/
theorem run_halts {halt : Halt} (unread : r.cursor.rest = t :: rest) (proper : t.kind ≠ .eof)
    (halted : r.step t rest = .error halt) : r.run = .error halt := by
  rw [run]
  split
  · next empty =>
    rw [unread] at empty
    cases empty
  · next same =>
    cases unread.symm.trans same
    rw [if_neg proper]
    split
    · next other =>
      rw [halted] at other
      cases other
      rfl
    · next other =>
      rw [halted] at other
      cases other

/-- Where a text ends, all open bodies are closed. -/
theorem run_ends (unread : r.cursor.rest = t :: rest) (ends : t.kind = .eof) : r.run = .ok (r.closeAll t.line r.opened) := by
  rw [run]
  split
  · next empty =>
    rw [unread] at empty
    cases empty
  · next same =>
    cases unread.symm.trans same
    exact if_pos ends

theorem errors_closeAll {line : Nat} {opened : List OpenElement} :
    r.cursor.errors.reports ⊆ (r.closeAll line opened).cursor.errors.reports := by
  induction opened generalizing r with
  | nil => exact List.Subset.refl _
  | cons e outer ih =>
    refine List.Subset.trans (List.Subset.trans (Errors.subset_add _ line "Expected closing brace") ?_) ih
    exact (advances_close { r with cursor := { r.cursor with errors := r.cursor.errors.add line "Expected closing brace" } }).errors

/-- A body that is still open at the end is reported. -/
theorem mem_closeAll {line : Nat} {e : OpenElement} {outer : List OpenElement} :
    ((line : Int), "Expected closing brace") ∈ (r.closeAll line (e :: outer)).cursor.errors.reports := by
  rw [closeAll]
  refine errors_closeAll ?_
  exact (advances_close _).errors (Errors.mem_add _ _ _)

end Reader

/-- Reading a text without rules returns what the reader ends with. -/
theorem Parsed.gives_ofText {text : String} {context context' : Context} {parsed : Parsed} :
    ofText [] text context = (.ok parsed, context') ↔
      ∃ last, (Reader.mk ⟨Token.ofText text, Token.errorsOf text⟩ context [] .nil).run = .ok last ∧
        parsed = ⟨last.finished, last.cursor.errors⟩ ∧ context' = last.context := by
  unfold ofText
  cases (Reader.mk ⟨Token.ofText text, Token.errorsOf text⟩ context [] .nil).run with
  | error halt => exact ⟨fun stopped => (by cases stopped), fun ⟨_, returned, _⟩ => (by cases returned)⟩
  | ok last =>
    constructor
    · intro returned
      cases returned
      exact ⟨last, rfl, rfl, rfl⟩
    · rintro ⟨_, same, rfl, rfl⟩
      cases same
      rfl

end LiveDiagram
