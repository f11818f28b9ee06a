import LiveDiagram.Source.Reader
import LiveDiagram.Proofs.Source.Spelling

/-! What the reader does with whole lines: a header opens a body or adds an element, an entry changes the innermost open
body, and a closing brace adds the element whose body it closes. -/
namespace LiveDiagram.Reader

open Cursor
open Token (Shows Word)

variable {r : Reader} {line length : Nat} {tokens more : List Token} {words : List Word}

/-- The token at the end of a line. -/
abbrev lineEnd (line length : Nat) : Token := ⟨.newline, "\n", line, length⟩

/-- The reader with other tokens to read. -/
def before (r : Reader) (tokens : List Token) : Reader :=
  { r with cursor := { r.cursor with rest := tokens } }

@[simp] theorem rest_before : (r.before tokens).cursor.rest = tokens := rfl

/-- Adds a forest to the innermost open body, or to what is finished. -/
def join (r : Reader) (f : Forest) : Reader :=
  match r.opened with
  | [] => { r with finished := r.finished ++ f }
  | e :: outer => { r with opened := { e with body := { e.body with children := e.body.children ++ f } } :: outer }

theorem add_eq_join (d : Declaration) (children : Forest) : r.add d children = r.join (.cons d children .nil) := by
  unfold add join Forest.push
  cases r.opened <;> rfl

/-- Reading goes on from where a step leads. -/
theorem run_step {next : Reader} {t : Token} (unread : r.cursor.rest = t :: more) (proper : t.kind ≠ .eof)
    (stepped : r.step t more = .ok next) : r.run = next.run := by
  rw [Reader.run]
  split
  · next empty =>
    rw [unread] at empty
    cases empty
  · next t' more' same =>
    cases unread.symm.trans same
    rw [if_neg proper]
    split
    · next halt failed =>
      rw [stepped] at failed
      cases failed
    · next other taken =>
      cases stepped.symm.trans taken
      rfl

theorem run_newline : (r.before (lineEnd line length :: more)).run = (r.before more).run :=
  run_step rfl (by simp) rfl

/-- The reader behind the header of an element, in its body or past it. -/
def headed (r : Reader) (e : OpenElement) (opens : Bool) : Reader :=
  if opens then { r with opened := e :: r.opened } else r.join (.cons e.declaration .nil .nil)

/-- The brace at the end of a line that opens a body. -/
def brace (opens : Bool) : List Word :=
  if opens then [(.leftBrace, "\x7b")] else []

theorem run_placed {e : OpenElement} {opens : Bool} (length : Nat)
    (shows : List.Forall₂ (Shows line) (brace opens) tokens) :
    (r.place e { r.cursor with rest := tokens ++ lineEnd line length :: more }).run =
      ((r.before more).headed e opens).run := by
  cases opens with
  | true =>
    obtain ⟨t, _, ⟨column, rfl⟩, none, rfl⟩ := List.forall₂_cons_left_iff.1 shows
    cases none
    exact run_newline (r := { r with opened := e :: r.opened })
  | false =>
    cases shows
    have placed : r.place e { r.cursor with rest := lineEnd line length :: more } =
        (r.join (.cons e.declaration .nil .nil)).before (lineEnd line length :: more) := by
      rw [← add_eq_join]
      unfold place add
      cases r.opened <;> rfl
    have after : (r.join (.cons e.declaration .nil .nil)).before more = (r.before more).headed e false := by
      unfold headed join before
      cases r.opened <;> rfl
    rw [List.nil_append, placed, run_newline, after]

theorem place_before {e : OpenElement} {c : Cursor} : (r.before tokens).place e c = r.place e c := by
  unfold place add before
  cases r.opened <;> rfl

theorem endLine_brace {opens : Bool} {message : String} {errors : Errors}
    (shows : List.Forall₂ (Shows line) (brace opens) tokens) :
    (Cursor.mk (tokens ++ lineEnd line length :: more) errors).endLine message =
      ⟨tokens ++ lineEnd line length :: more, errors⟩ := by
  cases opens with
  | true =>
    obtain ⟨t, _, ⟨column, rfl⟩, none, rfl⟩ := List.forall₂_cons_left_iff.1 shows
    rfl
  | false =>
    cases shows
    rfl

/-- A quoted text that may stand before the end of a header. -/
def quoted (text : Option String) : List Word :=
  text.toList.map fun t => (.string, t)

theorem take?_quoted {text : Option String} {opens : Bool} (length : Nat) (more : List Token)
    (errors : Errors) (shows : List.Forall₂ (Shows line) (quoted text ++ brace opens) tokens) :
    ∃ left, List.Forall₂ (Shows line) (brace opens) left ∧
      (Cursor.mk (tokens ++ lineEnd line length :: more) errors).take? (· = .string) =
        (text, ⟨left ++ lineEnd line length :: more, errors⟩) := by
  cases text with
  | some t =>
    obtain ⟨_, left, ⟨column, rfl⟩, others, rfl⟩ := List.forall₂_cons_left_iff.1 shows
    exact ⟨left, others, rfl⟩
  | none =>
    refine ⟨tokens, shows, ?_⟩
    cases opens with
    | true =>
      obtain ⟨_, left, ⟨column, rfl⟩, others, rfl⟩ := List.forall₂_cons_left_iff.1 shows
      rfl
    | false =>
      cases shows
      rfl

theorem take?_cons {accepted : TokenKind → Bool} {t : Token} {errors : Errors} :
    (Cursor.mk (t :: more) errors).take? accepted =
      if accepted t.kind then (some t.value, ⟨more, errors⟩) else (none, ⟨t :: more, errors⟩) :=
  rfl

/-- The header of a node. -/
theorem run_node {kind kind' : TokenKind} {id shape : String} {name : Option String} {opens : Bool}
    (named : isName kind = true) (shaped : kind' = .id ∨ kind' = .keyword) (proper : shape ≠ "edge")
    (shows : List.Forall₂ (Shows line)
      ((kind, id) :: (.colon, ":") :: (kind', shape) :: (quoted name ++ brace opens)) tokens) :
    (r.before (tokens ++ lineEnd line length :: more)).run =
      ((r.before more).headed ⟨id, line, .node shape name none, none, .empty⟩ opens).run := by
  rcases shows with _ | ⟨⟨a, rfl⟩, _ | ⟨⟨b, rfl⟩, _ | ⟨⟨c, rfl⟩, shows⟩⟩⟩
  obtain ⟨left, braced, taken⟩ := take?_quoted length more r.cursor.errors shows
  rw [← run_placed length braced]
  have accepted : (decide (kind' = .id) || decide (kind' = .keyword)) = true := by
    rcases shaped with rfl | rfl <;> rfl
  have other : (decide (kind' = .keyword) && decide (shape = "edge")) = false := by
    rw [decide_eq_false proper, Bool.and_false]
  have start : kind ≠ .newline ∧ kind ≠ .eof := by
    constructor
    · rintro rfl
      cases named
    · rintro rfl
      cases named
  rw [List.cons_append, List.cons_append, List.cons_append]
  refine run_step rfl start.2 ?_
  simp only [step, start.1, if_false, named, if_true, Reader.named, expect, before, decide_true, header, other,
    nodeHeader, take?_cons, accepted, taken, endLine_brace braced, Bool.false_eq_true]
  exact congrArg Except.ok place_before

/-- The name of an end, if there is one. -/
def names (id : Option String) : List Word :=
  id.toList.map fun id => (Token.nameKind id, id)

theorem isName_nameKind (id : String) : isName (Token.nameKind id) = true := by
  unfold Token.nameKind
  split <;> rfl

/-- The words between the keyword of an edge and the end of its header: ends stand only next to a connector, and behind
a connector without an end there is no label. -/
inductive Ends : Option String → Option Connector → Option String → Option String → List Word → Prop
  | apart (label : Option String) : Ends none none none label (quoted label)
  | loose (source : Option String) (c : Connector) :
      Ends source (some c) none none (names source ++ [(.connector, String.ofList c.text)])
  | joined (source : Option String) (c : Connector) (target : String) (label : Option String) :
      Ends source (some c) (some target) label
        (names source ++ (.connector, String.ofList c.text) :: (Token.nameKind target, target) :: quoted label)

/-- The end of a header that neither goes on with a name nor with a connector. -/
theorem startsEndpoint_quoted {label : Option String} {opens : Bool} (length : Nat)
    (more : List Token) (shows : List.Forall₂ (Shows line) (quoted label ++ brace opens) tokens) :
    startsEndpoint (tokens ++ lineEnd line length :: more) = false ∧
      ∀ errors, (Cursor.mk (tokens ++ lineEnd line length :: more) errors).take? isConnector =
        (none, ⟨tokens ++ lineEnd line length :: more, errors⟩) := by
  cases label with
  | none =>
    cases opens with
    | true =>
      rcases shows with _ | ⟨⟨a, rfl⟩, none⟩
      exact ⟨rfl, fun _ => rfl⟩
    | false =>
      cases shows
      exact ⟨rfl, fun _ => rfl⟩
  | some text =>
    cases opens with
    | true =>
      rcases shows with _ | ⟨⟨a, rfl⟩, _ | ⟨⟨b, rfl⟩, none⟩⟩
      cases none
      exact ⟨rfl, fun _ => rfl⟩
    | false =>
      rcases shows with _ | ⟨⟨a, rfl⟩, none⟩
      cases none
      exact ⟨rfl, fun _ => rfl⟩

/-- At the end of a header there is neither a name nor a label. -/
theorem take?_brace {opens : Bool} (length : Nat) (more : List Token) (errors : Errors)
    (shows : List.Forall₂ (Shows line) (brace opens) tokens) :
    ((Cursor.mk (tokens ++ lineEnd line length :: more) errors).take? isName =
        (none, ⟨tokens ++ lineEnd line length :: more, errors⟩)) ∧
      (Cursor.mk (tokens ++ lineEnd line length :: more) errors).take? (· = .string) =
        (none, ⟨tokens ++ lineEnd line length :: more, errors⟩) := by
  cases opens with
  | true =>
    rcases shows with _ | ⟨⟨a, rfl⟩, none⟩
    exact ⟨rfl, rfl⟩
  | false =>
    cases shows
    exact ⟨rfl, rfl⟩

theorem exists_append {front back : List Word} (shows : List.Forall₂ (Shows line) (front ++ back) tokens) :
    ∃ first last, tokens = first ++ last ∧ List.Forall₂ (Shows line) front first ∧
      List.Forall₂ (Shows line) back last := by
  induction front generalizing tokens with
  | nil => exact ⟨[], tokens, rfl, .nil, shows⟩
  | cons word front ih =>
    rcases shows with _ | ⟨own, others⟩
    obtain ⟨first, last, rfl, early, late⟩ := ih others
    exact ⟨_ :: first, last, rfl, .cons own early, late⟩

/-- The start of an edge before its connector. -/
theorem take?_source {source : Option String} (connector : Token) (rest : List Token) (errors : Errors)
    (kind : connector.kind = .connector) (shows : List.Forall₂ (Shows line) (names source) tokens) :
    (if startsEndpoint (tokens ++ connector :: rest) then (Cursor.mk (tokens ++ connector :: rest) errors).take? isName
      else (none, ⟨tokens ++ connector :: rest, errors⟩)) = (source, ⟨connector :: rest, errors⟩) := by
  cases source with
  | none =>
    cases shows
    have other : startsEndpoint (connector :: rest) = false := by
      simp [startsEndpoint, kind]
    rw [List.nil_append, other]
    rfl
  | some id =>
    rcases shows with _ | ⟨⟨a, rfl⟩, none⟩
    cases none
    have starts : startsEndpoint (⟨Token.nameKind id, id, line, a⟩ :: connector :: rest) = true := by
      unfold Token.nameKind
      cases Quoted.isPlain id <;> simp [startsEndpoint, isConnector, kind]
    rw [List.cons_append, List.nil_append, starts, if_pos rfl, take?_cons, if_pos (isName_nameKind id)]

theorem edgeHeader_ends (id : String) (length : Nat) (more : List Token) {source target label : Option String}
    {connector : Option Connector} {ends : List Word} {opens : Bool} (errors : Errors) (stands : Ends source connector target label ends)
    (shows : List.Forall₂ (Shows line) (ends ++ brace opens) tokens) :
    ∃ left, List.Forall₂ (Shows line) (brace opens) left ∧
      edgeHeader id line ⟨tokens ++ lineEnd line length :: more, errors⟩ =
        (⟨id, line, .edge source target label, connector, .empty⟩,
          ⟨left ++ lineEnd line length :: more, errors⟩) := by
  have linked : isConnector .connector = true := rfl
  cases stands with
  | apart label =>
    obtain ⟨left, braced, taken⟩ := take?_quoted length more errors shows
    obtain ⟨starts, unlinked⟩ := startsEndpoint_quoted length more shows
    refine ⟨left, braced, ?_⟩
    simp only [edgeHeader, starts, unlinked, taken, endLine_brace braced, Option.isSome_none, Bool.false_eq_true,
      if_false, Option.bind_none]
  | loose source c =>
    rw [List.append_assoc] at shows
    obtain ⟨first, last, rfl, sources, shows⟩ := exists_append shows
    rcases shows with _ | ⟨⟨a, rfl⟩, braced⟩
    rename_i left
    refine ⟨left, braced, ?_⟩
    have started := take?_source ⟨.connector, String.ofList c.text, line, a⟩
      (left ++ lineEnd line length :: more) errors rfl sources
    obtain ⟨untargeted, unlabelled⟩ := take?_brace length more errors braced
    rw [List.append_assoc, List.cons_append]
    simp only [edgeHeader, started, take?_cons, linked, untargeted, unlabelled, endLine_brace braced,
      Option.isSome_some, if_true, Option.bind_some, String.toList_ofList, Connector.read?_text]
  | joined source c target label =>
    rw [List.append_assoc] at shows
    obtain ⟨first, last, rfl, sources, shows⟩ := exists_append shows
    rcases shows with _ | ⟨⟨a, rfl⟩, _ | ⟨⟨b, rfl⟩, late⟩⟩
    rename_i others
    obtain ⟨left, braced, taken⟩ := take?_quoted length more errors late
    refine ⟨left, braced, ?_⟩
    have started := take?_source ⟨.connector, String.ofList c.text, line, a⟩
      (⟨Token.nameKind target, target, line, b⟩ :: (others ++ lineEnd line length :: more)) errors rfl
      sources
    rw [List.append_assoc, List.cons_append, List.cons_append]
    simp only [edgeHeader, started, take?_cons, linked, isName_nameKind, taken, endLine_brace braced,
      Option.isSome_some, if_true, Option.bind_some, String.toList_ofList, Connector.read?_text]

/-- The header of an edge. -/
theorem run_edge {kind : TokenKind} {id : String} {source target label : Option String}
    {connector : Option Connector} {ends : List Word} {opens : Bool} (named : isName kind = true)
    (stands : Ends source connector target label ends)
    (shows : List.Forall₂ (Shows line)
      ((kind, id) :: (.colon, ":") :: (.keyword, "edge") :: (ends ++ brace opens)) tokens) :
    (r.before (tokens ++ lineEnd line length :: more)).run =
      ((r.before more).headed ⟨id, line, .edge source target label, connector, .empty⟩ opens).run := by
  rcases shows with _ | ⟨⟨a, rfl⟩, _ | ⟨⟨b, rfl⟩, _ | ⟨⟨c, rfl⟩, shows⟩⟩⟩
  obtain ⟨left, braced, header⟩ := edgeHeader_ends id length more r.cursor.errors stands shows
  rw [← run_placed length braced]
  have start : kind ≠ .newline ∧ kind ≠ .eof := by
    constructor
    · rintro rfl
      cases named
    · rintro rfl
      cases named
  rw [List.cons_append, List.cons_append, List.cons_append]
  refine run_step rfl start.2 ?_
  simp only [step, start.1, if_false, named, if_true, Reader.named, expect, before, decide_true, Reader.header,
    take?_cons, header, Bool.and_self]
  exact congrArg Except.ok place_before

/-! Lines -/

/-- The reader in other surroundings. -/
def within (r : Reader) (context : Context) : Reader :=
  { r with context }

/-- Tokens lead from one reader to another, whatever follows them and whatever the surroundings are. -/
def Reads (tokens : List Token) (r next : Reader) : Prop :=
  ∀ context more, ∃ context', ((r.within context).before (tokens ++ more)).run =
    ((next.within context').before more).run

namespace Reads
variable {next last : Reader} {t : Token}

theorem nil : Reads [] r r := fun context _ => ⟨context, rfl⟩

theorem append (first : Reads tokens r next) (second : Reads more next last) : Reads (tokens ++ more) r last := by
  intro context others
  obtain ⟨context', early⟩ := first context (more ++ others)
  obtain ⟨context'', late⟩ := second context' others
  rw [List.append_assoc]
  exact ⟨context'', early.trans late⟩

/-- One step, and what is read after it. -/
theorem step (proper : t.kind ≠ .eof)
    (stepped : ∀ context others, ∃ context', ((r.within context).before (t :: tokens ++ others)).step t
      (tokens ++ others) = .ok ((next.within context').before (more ++ others)))
    (reads : Reads more next last) : Reads (t :: tokens) r last := by
  intro context others
  obtain ⟨context', stepped⟩ := stepped context others
  obtain ⟨context'', late⟩ := reads context' others
  exact ⟨context'', (run_step rfl proper stepped).trans late⟩

theorem newline (line length : Nat) : Reads [lineEnd line length] r r :=
  step (by simp) (fun context _ => ⟨context, rfl⟩) nil

end Reads

theorem headed_before {e : OpenElement} {opens : Bool} (context : Context) :
    ((r.within context).before more).headed e opens = ((r.headed e opens).within context).before more := by
  unfold headed join within before
  cases opens <;> cases r.opened <;> rfl

/-! Entries -/

section Entries
variable {e : OpenElement} {outer : List OpenElement} {body : Body} {text : String}

/-- The reader in the body of an element. -/
def inside (r : Reader) (e : OpenElement) (outer : List OpenElement) (body : Body) : Reader :=
  { r with opened := { e with body } :: outer }

theorem step_entry {t : Token} (opened : r.opened ≠ []) (keyword : t.kind = .keyword) :
    r.step t tokens = r.entry t tokens { r.cursor with rest := tokens } := by
  have inside : r.opened.isEmpty = false := by
    simpa using opened
  simp [step, isName, keyword, inside]

theorem reads_props (r : Reader) (e : OpenElement) (outer : List OpenElement) (body : Body) (length : Nat)
    {props : Props} (read : Props.read text = .ok props)
    (shows : List.Forall₂ (Shows line) [(.keyword, "props"), (.colon, ":"), (.string, text)] tokens) :
    Reads (tokens ++ [lineEnd line length]) (r.inside e outer body)
      (r.inside e outer { body with props := some ((body.props.getD .nil).merge true props) }) := by
  rcases shows with _ | ⟨⟨a, rfl⟩, _ | ⟨⟨b, rfl⟩, _ | ⟨⟨c, rfl⟩, none⟩⟩⟩
  cases none
  refine .step (by simp) (fun context others => ⟨context.note (Props.readNotes text), ?_⟩) (.newline line length)
  rw [step_entry (List.cons_ne_nil _ _) rfl, entry, if_pos rfl]
  simp only [propsEntry, entryText, expect, take?_cons, List.append_eq, List.cons_append, decide_true, if_true, read]
  rfl

theorem reads_metadata (r : Reader) (e : OpenElement) (outer : List OpenElement) (body : Body) (length : Nat)
    (shows : List.Forall₂ (Shows line) [(.keyword, "metadata"), (.colon, ":"), (.string, text)] tokens) :
    Reads (tokens ++ [lineEnd line length]) (r.inside e outer body)
      (r.inside e outer { body with
        metadata := some ((body.metadata.getD .nil).overlay (Props.readMetadata text)) }) := by
  rcases shows with _ | ⟨⟨a, rfl⟩, _ | ⟨⟨b, rfl⟩, _ | ⟨⟨c, rfl⟩, none⟩⟩⟩
  cases none
  exact .step (by simp) (fun context others => ⟨context.note (Props.readMetadataNotes text), rfl⟩)
    (.newline line length)

/-- The first of some words if it is of a kind, and the words to go on with. -/
def leading (kind : TokenKind) : List Word → Option String × List Word
  | [] => (none, [])
  | (own, value) :: rest => if own = kind then (some value, rest) else (none, (own, value) :: rest)

/-- The style and the text style that the words of a line for styles say behind its colon. -/
def stylesOf (words : List Word) : Option String × Option String :=
  let (style, words) := leading .id words
  let (slash, words) := leading .slash words
  (style, if slash.isSome then (leading .id words).1 else none)

theorem take?_leading {kind : TokenKind} (proper : kind ≠ .newline) (shows : List.Forall₂ (Shows line) words tokens)
    (length : Nat) (more : List Token) (errors : Errors) :
    ∃ left, List.Forall₂ (Shows line) (leading kind words).2 left ∧
      (Cursor.mk (tokens ++ lineEnd line length :: more) errors).take? (· = kind) =
        ((leading kind words).1, ⟨left ++ lineEnd line length :: more, errors⟩) := by
  cases shows with
  | nil =>
    refine ⟨[], .nil, ?_⟩
    rw [List.nil_append, take?_cons, if_neg (by simpa using proper.symm)]
    rfl
  | @cons w t words tokens shown others =>
    obtain ⟨column, rfl⟩ := shown
    obtain ⟨own, value⟩ := w
    rw [List.cons_append, take?_cons, leading]
    by_cases same : own = kind
    · rw [if_pos same, if_pos (decide_eq_true same)]
      exact ⟨tokens, others, rfl⟩
    · rw [if_neg same, if_neg (by simpa using same)]
      exact ⟨_, .cons ⟨column, rfl⟩ others, rfl⟩

theorem mem_leading {kind : TokenKind} {w : Word} (member : w ∈ (leading kind words).2) : w ∈ words := by
  cases words with
  | nil => cases member
  | cons first rest =>
    rw [leading] at member
    split at member
    · exact List.mem_cons_of_mem _ member
    · exact member

theorem skipLine_words (proper : ∀ w ∈ words, w.1 ≠ .newline ∧ w.1 ≠ .eof) (shows : List.Forall₂ (Shows line) words tokens) :
    skipLine (tokens ++ lineEnd line length :: more) = more := by
  induction shows with
  | nil => rfl
  | @cons w t words tokens shown _ ih =>
    obtain ⟨column, rfl⟩ := shown
    obtain ⟨newline, eof⟩ := proper w List.mem_cons_self
    rw [List.cons_append, skipLine, if_neg eof, if_neg newline]
    exact ih fun x member => proper x (List.mem_cons_of_mem w member)

/-- Whatever a line for styles says behind its colon, it says no more than styles. -/
theorem reads_stylesheet (r : Reader) (e : OpenElement) (outer : List OpenElement) (body : Body) (length : Nat)
    (proper : ∀ w ∈ words, w.1 ≠ .newline ∧ w.1 ≠ .eof)
    (shows : List.Forall₂ (Shows line) ((.keyword, "stylesheet") :: (.colon, ":") :: words) tokens) :
    Reads (tokens ++ [lineEnd line length]) (r.inside e outer body)
      (r.inside e outer { body with
        style := (stylesOf words).1.or body.style
        textStyle := ((stylesOf words).2.map (·, line)).or body.textStyle }) := by
  rcases shows with _ | ⟨⟨a, rfl⟩, _ | ⟨⟨b, rfl⟩, shows⟩⟩
  refine .step (by simp) (fun context others => ⟨context, ?_⟩) .nil
  rename_i tokens
  obtain ⟨left, shows₁, taken₁⟩ := take?_leading (by simp : TokenKind.id ≠ .newline) shows length others r.cursor.errors
  obtain ⟨left', shows₂, taken₂⟩ := take?_leading (by simp : TokenKind.slash ≠ .newline) shows₁ length others r.cursor.errors
  obtain ⟨left'', shows₃, taken₃⟩ := take?_leading (by simp : TokenKind.id ≠ .newline) shows₂ length others r.cursor.errors
  have proper' : ∀ w ∈ (leading .slash (leading .id words).2).2, w.1 ≠ .newline ∧ w.1 ≠ .eof :=
    fun w member => proper w (mem_leading (mem_leading member))
  rw [step_entry (List.cons_ne_nil _ _) rfl]
  simp only [entry, stylesheetEntry, expect, before, within, inside, take?_cons, List.append_eq, List.cons_append,
    List.append_assoc, List.nil_append, decide_true, if_true, if_false, String.reduceEq, taken₁, taken₂, stylesOf]
  cases slash : (leading .slash (leading .id words).2).1 with
  | none =>
    simp only [Option.isSome_none, Bool.false_eq_true, if_false, skipLine_words proper' shows₂]
    rfl
  | some text =>
    simp only [Option.isSome_some, if_true, taken₃, skipLine_words (fun w member => proper' w (mem_leading member)) shows₃]
    rfl

/-- A style that is written, if there is one. -/
def styled (style : Option String) : List Word :=
  style.toList.map fun style => (.id, style)

theorem stylesOf_styled (style textStyle : Option String) :
    stylesOf (styled style ++ (.slash, "/") :: styled textStyle) = (style, textStyle) := by
  cases style <;> cases textStyle <;> rfl

/-- The brace that closes a body; the body of an edge has no text style. -/
theorem reads_close (r : Reader) (e : OpenElement) (outer : List OpenElement) (body : Body) (length : Nat)
    (proper : ∀ source target label, e.head = .edge source target label → body.textStyle = none)
    (shows : List.Forall₂ (Shows line) [(.rightBrace, "\x7d")] tokens) :
    Reads (tokens ++ [lineEnd line length]) (r.inside e outer body)
      ({ r with opened := outer }.join (.cons { e with body }.declaration body.children .nil)) := by
  rcases shows with _ | ⟨⟨a, rfl⟩, none⟩
  cases none
  refine .step (by simp) (fun context others => ⟨context, ?_⟩) (.newline line length)
  have fine (errors : Errors) : { e with body }.finalErrors errors = errors := by
    unfold OpenElement.finalErrors
    split
    · next head style =>
      rw [proper _ _ _ head] at style
      cases style
    · rfl
  show Except.ok (close _) = _
  simp only [close, inside, within, before, fine, add_eq_join]
  unfold join
  cases outer <;> rfl

end Entries

end LiveDiagram.Reader
