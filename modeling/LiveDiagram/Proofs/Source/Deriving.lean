import LiveDiagram.Proofs.Source.Grammar
import LiveDiagram.Proofs.Source.Joining
import LiveDiagram.Proofs.Source.Spoiling

/-! Reading what the grammar derives. Tokens that spell a script lead the reader, without an error, to what the script
stands for. -/
namespace LiveDiagram

namespace Grammar
open Reader (isName isConnector startsEndpoint edgeHeader nodeHeader)

variable {tokens rest : List Token} {errors : Errors}

/-- An optional part is always read in some way. -/
theorem exists_optional {β : Type} (part : Part β) (tokens : List Token) : ∃ value rest, Optional part tokens value rest := by
  by_cases there : ∃ value rest, part tokens value rest
  · obtain ⟨value, rest, given⟩ := there
    exact ⟨some value, rest, .given given⟩
  · exact ⟨none, tokens, .absent fun value rest given => there ⟨value, rest, given⟩⟩

theorem take?_of_optional {accepted : TokenKind → Bool} {value : Option String}
    (part : Optional (One accepted) tokens value rest) :
    (Cursor.mk tokens errors).take? accepted = (value, ⟨rest, errors⟩) := by
  cases part with
  | given own =>
    cases own with
    | token known => exact if_pos known
  | absent none =>
    cases tokens with
    | nil => rfl
    | cons t tokens => exact if_neg fun known => none _ _ (.token known)

theorem source_of_optional {source : Option String} (part : Optional Source tokens source rest) :
    (if startsEndpoint tokens then (Cursor.mk tokens errors).take? isName else (none, ⟨tokens, errors⟩)) =
      (source, ⟨rest, errors⟩) := by
  cases part with
  | given own =>
    cases own with
    | id kind => simp [startsEndpoint, kind, Cursor.take?, isName]
    | string kind linked => simp [startsEndpoint, kind, linked, Cursor.take?, isName]
  | absent none =>
    refine if_neg fun starts => ?_
    cases tokens with
    | nil => cases starts
    | cons t tokens =>
      rw [startsEndpoint, Bool.or_eq_true, decide_eq_true_eq, Bool.and_eq_true, decide_eq_true_eq] at starts
      rcases starts with kind | ⟨kind, linked⟩
      · exact none _ _ (.id kind)
      · cases tokens with
        | nil => cases linked
        | cons c tokens => exact none _ _ (.string kind linked)

theorem edgeHeader_of_parts {id : String} {line : Nat} {behind late : List Token} {source label : Option String}
    {link : Option (String × Option String)} (sources : Optional Source tokens source behind)
    (links : Optional Link behind link late) (labels : Optional (One (· = .string)) late label rest) :
    edgeHeader id line ⟨tokens, errors⟩ = (⟨id, line, .edge source (link.bind Prod.snd) label,
      (link.map Prod.fst).bind (Connector.read? ·.toList), .empty⟩,
      (Cursor.mk rest errors).endLine "Unexpected token after edge definition") := by
  rw [edgeHeader]
  dsimp only
  rw [source_of_optional sources]
  dsimp only
  cases links with
  | given own =>
    cases own with
    | link linked target =>
      rw [Reader.take?_cons, if_pos linked]
      dsimp only [Option.isSome_some]
      rw [if_pos rfl, take?_of_optional target]
      dsimp only
      rw [take?_of_optional labels]
      rfl
  | absent none =>
    have unlinked : (Cursor.mk behind errors).take? isConnector = (.none, ⟨behind, errors⟩) := by
      refine take?_of_optional (.absent fun value rest own => ?_)
      cases own with
      | token linked =>
        obtain ⟨target, rest, part⟩ := exists_optional (One isName) rest
        exact none _ _ (.link linked part)
    rw [unlinked]
    dsimp only [Option.isSome_none]
    rw [if_neg Bool.false_ne_true]
    dsimp only
    rw [take?_of_optional labels]
    rfl

theorem nodeHeader_of_parts {id : String} {line : Nat} {t : Token} {name : Option String}
    (shape : t.kind = .id ∨ t.kind = .keyword) (names : Optional (One (· = .string)) tokens name rest) :
    nodeHeader id line ⟨t :: tokens, errors⟩ = (some ⟨id, line, .node t.value name none, none, .empty⟩,
      (Cursor.mk rest errors).endLine "Unexpected token after node definition") := by
  rw [nodeHeader, Reader.take?_cons, if_pos (by simpa using shape)]
  dsimp only
  rw [take?_of_optional names]

/-- The end of a line, or the start of a body. -/
def Closing (t : Token) : Prop :=
  t.kind = .newline ∨ t.kind = .leftBrace

theorem Closing.endLine {n : Token} (closing : Closing n) (message : String) :
    (Cursor.mk (n :: rest) errors).endLine message = ⟨n :: rest, errors⟩ := by
  refine if_pos ?_
  rcases closing with kind | kind <;> simp [Cursor.kind, kind]

theorem header_of_title {r : Reader} {id : String} {line : Nat} {head : Head} {connector : Option String} {n : Token}
    (title : Title tokens (head, connector) (n :: rest)) (closing : Closing n) :
    r.header id line ⟨tokens, errors⟩ =
      r.place ⟨id, line, head, connector.bind (Connector.read? ·.toList), .empty⟩ ⟨n :: rest, errors⟩ := by
  generalize last : n :: rest = behind at title
  cases title with
  | node shape named =>
    rename_i t tokens name
    subst last
    have other : ¬(decide (t.kind = .keyword) && decide (t.value = "edge")) = true := by
      rcases shape with kind | ⟨_, word⟩ <;> simp_all
    rw [Reader.header]
    dsimp only
    rw [if_neg other, nodeHeader_of_parts (shape.imp_right And.left) named, closing.endLine]
    rfl
  | edge kind value sources links labels =>
    rename_i t tokens middle late source label link
    subst last
    rw [Reader.header]
    dsimp only
    rw [if_pos (by simp [kind, value]), edgeHeader_of_parts sources links labels, closing.endLine]

/-- Behind the colon of an element there is its title, whatever follows that, or the line is given up. -/
theorem header_cases (r : Reader) (id : String) (line : Nat) (tokens : List Token) (errors : Errors) :
    (∃ head connector behind message, Title tokens (head, connector) behind ∧ r.header id line ⟨tokens, errors⟩ =
      r.place ⟨id, line, head, connector.bind (Connector.read? ·.toList), .empty⟩ ((Cursor.mk behind errors).endLine message)) ∨
    r.header id line ⟨tokens, errors⟩ = { r with cursor := (Cursor.mk tokens errors).fail "Expected node type" } := by
  cases tokens with
  | nil => exact .inr rfl
  | cons t tokens =>
    rw [Reader.header]
    dsimp only
    by_cases edge : t.kind = .keyword ∧ t.value = "edge"
    · obtain ⟨source, a, sources⟩ := exists_optional Source tokens
      obtain ⟨link, b, links⟩ := exists_optional Link a
      obtain ⟨label, last, labels⟩ := exists_optional (One (· = .string)) b
      rw [if_pos (by simpa using edge), edgeHeader_of_parts sources links labels]
      exact .inl ⟨_, _, last, _, .edge edge.1 edge.2 sources links labels, rfl⟩
    · rw [if_neg (by simpa using edge)]
      by_cases shape : t.kind = .id ∨ t.kind = .keyword
      · obtain ⟨name, last, names⟩ := exists_optional (One (· = .string)) tokens
        rw [nodeHeader_of_parts shape names]
        exact .inl ⟨_, none, last, _, .node (shape.imp_right fun kind => ⟨kind, fun word => edge ⟨kind, word⟩⟩) names, rfl⟩
      · rw [nodeHeader, Reader.take?_cons, if_neg (by simpa using shape)]
        exact .inr rfl

end Grammar

/-- The surroundings once an element has its id. -/
def Heading.drawn (h : Heading) (context : Context) : Context :=
  { context with ids := (h.name context.ids).2 }

namespace Script
variable {s : Script}

/-- The entries leave the children alone. -/
theorem tells_children (b : Body) (children : Forest) : s.tells { b with children } = { s.tells b with children } := by
  induction s generalizing b with
  | nil => rfl
  | props text rest ih =>
    rw [tells, tells]
    exact ih { b with props := _ }
  | metadata text rest ih =>
    rw [tells, tells]
    exact ih { b with metadata := _ }
  | stylesheet line style textStyle rest ih =>
    rw [tells, tells]
    exact ih { b with style := _, textStyle := _ }
  | element heading body rest _ ih => exact ih b

/-- A body has a text style when it had one before or one of its entries gives one. -/
theorem textStyle_tells {b : Body} : (s.tells b).textStyle = none ↔ b.textStyle = none ∧ s.Unstyled := by
  induction s generalizing b with
  | nil => exact (and_iff_left trivial).symm
  | props text rest ih => exact ih
  | metadata text rest ih => exact ih
  | stylesheet line style textStyle rest ih =>
    rw [tells, ih, Unstyled, Option.or_eq_none_iff, Option.map_eq_none_iff, and_assoc, and_left_comm]
  | element heading body rest _ ih => exact ih

end Script

namespace Reader

/-- The reader that has read a script in the innermost open body, or at the top. -/
def saying (r : Reader) (s : Script) : Reader :=
  (r.mapBody s.tells).join (s.forest r.context.ids).1

variable {r last : Reader} {s : Script} {tokens : List Token} {context : Context}

theorem saying_nil : r.saying .nil = r := by
  obtain ⟨_, _, opened, _⟩ := r
  cases opened <;> exact join_nil _

/-- An entry changes the body in which the rest is read. -/
theorem run_entry {change : Body → Body} {whole : Script} (same : context.ids = r.context.ids)
    (read : ∃ context', context'.ids = (s.forest context.ids).2 ∧
      (((((r.mapBody change).within context).saying s).within context').before tokens).run = .ok last)
    (tells : ∀ b, whole.tells b = s.tells (change b)) (forest : whole.forest = s.forest) :
    ∃ context', context'.ids = (whole.forest r.context.ids).2 ∧
      (((r.saying whole).within context').before tokens).run = .ok last := by
  obtain ⟨context', ids, read⟩ := read
  have composed : whole.tells = s.tells ∘ change := funext tells
  have onward : ((r.mapBody change).within context).saying s = (r.saying whole).within context := by
    unfold saying
    rw [mapBody_within, join_within, mapBody_mapBody, composed, forest]
    exact congrArg (fun ids => ((r.mapBody (s.tells ∘ change)).join (s.forest ids).1).within context) same
  rw [onward] at read
  exact ⟨context', forest ▸ same ▸ ids, read⟩

/-- An element is added in front of what is read after it. -/
theorem run_element {h : Heading} {body : Script} {ids : IdSupply} {f : Forest}
    (children : body.forest (h.name r.context.ids).2 = (f, ids)) (same : context.ids = ids)
    (read : ∃ context', context'.ids = (s.forest context.ids).2 ∧
      (((((r.join (.cons { h.opens (h.name r.context.ids).1 with body := body.tells .empty }.declaration f .nil)).within
        context).saying s).within context').before tokens).run = .ok last) :
    ∃ context', context'.ids = ((Script.element h body s).forest r.context.ids).2 ∧
      (((r.saying (.element h body s)).within context').before tokens).run = .ok last := by
  obtain ⟨context', later, read⟩ := read
  have whole : (Script.element h body s).forest r.context.ids =
      (.cons { h.opens (h.name r.context.ids).1 with body := body.tells .empty }.declaration f (s.forest ids).1,
        (s.forest ids).2) := by
    rw [Script.forest]
    dsimp only
    rw [children]
  refine ⟨context', by rw [whole, ← same, later], ?_⟩
  unfold saying at read ⊢
  rw [mapBody_within, join_within, mapBody_join Script.tells_children, join_join] at read
  rw [whole, ← same]
  exact read

/-! Steps -/

section Steps
open Grammar (Keyword One Optional Slashed Inline)
variable {next : Reader} {t k n : Token} {more behind : List Token}

theorem entryText_of_keyword {word : String} (keyword : Keyword word (k :: more) (t :: behind)) (string : t.kind = .string)
    (name : String) (errors : Errors) : entryText name ⟨more, errors⟩ = (some t.value, ⟨behind, errors⟩) := by
  cases keyword with
  | keyword _ _ colon =>
    rw [entryText, Cursor.expect, take?_cons, if_pos (by simpa using colon)]
    dsimp only
    rw [Cursor.expect, take?_cons, if_pos (by simpa using string)]

theorem step_newline (newline : n.kind = .newline) : (r.before (n :: more)).step n more = .ok (r.before more) := by
  rw [step]
  exact if_pos newline

theorem opened_mapBody {change : Body → Body} (opened : r.opened ≠ []) :
    ((r.mapBody change).within context).opened ≠ [] := by
  obtain ⟨_, _, e | ⟨e, outer⟩, _⟩ := r
  · exact opened
  · exact List.cons_ne_nil _ _

theorem opened_join {f : Forest} (opened : r.opened ≠ []) : ((r.join f).within context).opened ≠ [] := by
  obtain ⟨_, _, e | ⟨e, outer⟩, _⟩ := r
  · exact opened
  · exact List.cons_ne_nil _ _

theorem step_keyword (opened : r.opened ≠ []) (keyword : k.kind = .keyword) :
    (r.before tokens).step k more = (r.before tokens).entry k more ⟨more, r.cursor.errors⟩ :=
  step_entry opened keyword

/-- A step over a line of props that can be read. -/
theorem step_props (opened : r.opened ≠ []) (keyword : Keyword "props" (k :: more) (t :: behind)) (string : t.kind = .string)
    (stepped : (r.before (k :: more)).step k more = .ok next) : ∃ context, context.ids = r.context.ids ∧
      next = ((r.mapBody fun b => { b with
        props := some ((b.props.getD .nil).merge true ((Props.read t.value).toOption.getD .nil)) }).within context).before
          behind := by
  have text := entryText_of_keyword keyword string "props" r.cursor.errors
  cases keyword with
  | keyword kind word _ =>
    rw [step_keyword opened kind, entry, if_pos word, propsEntry] at stepped
    dsimp only [before] at stepped
    rw [text] at stepped
    dsimp only at stepped
    split at stepped
    · cases stepped
    · next props read =>
      cases stepped
      refine ⟨r.context.note (Props.readNotes t.value), rfl, ?_⟩
      rw [← mapBody_within, ← mapBody_before, read]
      rfl

/-- A step over a line of metadata. -/
theorem step_metadata (opened : r.opened ≠ []) (keyword : Keyword "metadata" (k :: more) (t :: behind))
    (string : t.kind = .string) : ∃ context, context.ids = r.context.ids ∧ (r.before (k :: more)).step k more =
      .ok (((r.mapBody fun b => { b with
        metadata := some ((b.metadata.getD .nil).overlay (Props.readMetadata t.value)) }).within context).before behind) := by
  have text := entryText_of_keyword keyword string "metadata" r.cursor.errors
  cases keyword with
  | keyword kind word _ =>
    refine ⟨r.context.note (Props.readMetadataNotes t.value), rfl, ?_⟩
    rw [← mapBody_within, ← mapBody_before, step_keyword opened kind, entry, if_neg (by simp [word]), if_pos word,
      metadataEntry, text]
    rfl

theorem skipLine_inline {skipped : List Token} (inline : Inline skipped) (newline : n.kind = .newline) :
    Cursor.skipLine (skipped ++ n :: behind) = behind := by
  induction skipped with
  | nil => simp [Cursor.skipLine, newline]
  | cons t skipped ih =>
    obtain ⟨own, others⟩ := List.forall_mem_cons.1 inline
    rw [List.cons_append, Cursor.skipLine, if_neg own.2, if_neg own.1]
    exact ih others

theorem slash_of_optional {tokens rest : List Token} {style : Option (Option String)}
    (part : Optional Slashed tokens style rest) (errors : Errors) : ∃ slash left,
    (Cursor.mk tokens errors).take? (· = .slash) = (slash, left) ∧
      (if slash.isSome then left.take? (· = .id) else (none, left)) = (style.join, ⟨rest, errors⟩) := by
  cases part with
  | given own =>
    cases own with
    | slashed kind style =>
      rw [take?_cons, if_pos (by simpa using kind)]
      exact ⟨_, _, rfl, Grammar.take?_of_optional style⟩
  | absent none =>
    have alone : (Cursor.mk tokens errors).take? (· = .slash) = (.none, ⟨tokens, errors⟩) := by
      refine Grammar.take?_of_optional (.absent fun value rest own => ?_)
      cases own with
      | token kind =>
        obtain ⟨style, rest, part⟩ := Grammar.exists_optional (One (· = .id)) rest
        exact none _ _ (.slashed (by simpa using kind) part)
    exact ⟨_, _, alone, rfl⟩

/-- A step over a line for styles. -/
theorem step_stylesheet {styles texts skipped : List Token} {style : Option String} {textStyle : Option (Option String)}
    (opened : r.opened ≠ []) (keyword : Keyword "stylesheet" (k :: more) styles)
    (first : Optional (One (· = .id)) styles style texts) (second : Optional Slashed texts textStyle (skipped ++ n :: behind))
    (inline : Inline skipped) (newline : n.kind = .newline) : (r.before (k :: more)).step k more =
      .ok (((r.mapBody fun b => { b with
        style := style.or b.style, textStyle := (textStyle.join.map (·, k.line)).or b.textStyle }).within r.context).before
          behind) := by
  cases keyword with
  | keyword kind word colon =>
    obtain ⟨slash, left, slashed, styled⟩ := slash_of_optional second r.cursor.errors
    rw [← mapBody_within, ← mapBody_before, step_keyword opened kind, entry, if_neg (by simp [word]),
      if_neg (by simp [word]), if_pos word, stylesheetEntry, Cursor.expect]
    rw [take?_cons, if_pos (by simpa using colon)]
    dsimp only
    rw [Grammar.take?_of_optional first]
    dsimp only
    rw [slashed]
    dsimp only
    rw [styled]
    dsimp only
    rw [skipLine_inline inline newline]
    rfl

/-- A step over the brace that closes a body. The body of an edge has no text style. -/
theorem step_close {e : OpenElement} {outer : List OpenElement} (opened : r.opened = e :: outer) (brace : t.kind = .rightBrace)
    (proper : e.head.isEdge = true → e.body.textStyle = none) : (r.before (t :: more)).step t more =
      .ok ((Reader.join { r with opened := outer } (.cons e.declaration e.body.children .nil)).before more) := by
  have fine (errors : Errors) : e.finalErrors errors = errors := by
    unfold OpenElement.finalErrors
    split
    · next head style =>
      rw [proper (by rw [head]; rfl)] at style
      cases style
    · rfl
  have closed : (r.before (t :: more)).step t more = .ok (r.before more).close := by
    simp [step, isName, brace, before, opened]
  rw [closed, ← join_before]
  simp only [close, before, opened, fine, add_eq_join]

/-- The brace behind a script closes the body that it stands in. -/
theorem step_closing {h : Heading} {id : String} (brace : t.kind = .rightBrace) (proper : h.head.isEdge = true → s.Unstyled)
    {drawn : Context} :
    ((((Reader.within { r with opened := h.opens id :: r.opened } drawn).saying s).within context).before (t :: more)).step
      t more = .ok (((r.join (.cons { h.opens id with body := s.tells .empty }.declaration (s.forest drawn.ids).1 .nil)).within
        context).before more) := by
  have childless : (s.tells .empty).children = .nil := congrArg Body.children (Script.tells_children .empty .nil)
  let e : OpenElement := { h.opens id with body := { s.tells .empty with children := (s.forest drawn.ids).1 } }
  have inside : ((Reader.within { r with opened := h.opens id :: r.opened } drawn).saying s).within context =
      Reader.within { r with opened := e :: r.opened } context := by
    have grown : { s.tells .empty with children := (s.tells .empty).children ++ (s.forest drawn.ids).1 } = e.body := by
      rw [childless]
      rfl
    unfold saying mapBody join within
    dsimp only
    rw [show (h.opens id).body = .empty from rfl, grown]
  rw [inside, step_close rfl brace fun edge => Script.textStyle_tells.2 ⟨rfl, proper edge⟩, ← join_within]
  rfl

theorem place_newline {e : OpenElement} (newline : n.kind = .newline) :
    r.place e ⟨n :: more, r.cursor.errors⟩ = (r.join (.cons e.declaration .nil .nil)).before (n :: more) := by
  rw [← join_before, ← add_eq_join]
  exact place_bare (by simp [newline])

theorem place_brace {e : OpenElement} (brace : n.kind = .leftBrace) :
    r.place e ⟨n :: more, r.cursor.errors⟩ = Reader.before { r with opened := e :: r.opened } more := by
  unfold place
  dsimp only
  rw [if_pos brace]
  rfl

end Steps

end Reader

namespace Grammar
open Reader (isName exists_step run_step)

variable {tokens rest : List Token} {h : Heading} {n : Token}

/-- The front of an element is read in one step. -/
theorem step_of_opening {h : Heading} {n : Token} (opening : Opening tokens h (n :: rest)) (closing : Closing n) :
    ∃ t more, tokens = t :: more ∧ t.kind ≠ .eof ∧ ∀ r : Reader, r.step t more =
      .ok ((r.within (h.drawn r.context)).place (h.opens (h.name r.context.ids).1) ⟨n :: rest, r.cursor.errors⟩) := by
  generalize last : n :: rest = behind at opening
  cases opening with
  | opening named colon title =>
    rename_i t c tokens middle id head connector
    subst last
    refine ⟨t, tokens, rfl, ?_⟩
    generalize first : t :: tokens = all, next : c :: middle = behind at named
    cases named with
    | given own =>
      cases own with
      | token known =>
        cases first
        subst next
        have start : t.kind ≠ .newline ∧ t.kind ≠ .eof := by
          constructor <;> intro kind <;> simp [kind, isName] at known
        refine ⟨start.2, fun r => ?_⟩
        rw [Reader.step]
        dsimp only
        rw [if_neg start.1, if_pos known, Reader.named, Cursor.expect, Reader.take?_cons, if_pos (by simpa using colon)]
        dsimp only
        rw [header_of_title title closing]
        rfl
    | absent none =>
      subst next
      cases first
      have other : ¬isName t.kind = true := by simp [colon, isName]
      refine ⟨by simp [colon], fun r => ?_⟩
      rw [Reader.step]
      dsimp only
      rw [if_neg (by simp [colon]), if_neg other, if_pos colon, Reader.anonymous]
      dsimp only
      rw [header_of_title title closing]
      rfl

/-- An element that ends its line is taken up at once. -/
theorem step_bare (opening : Opening tokens h (n :: rest)) (newline : n.kind = .newline) :
    ∃ t more, tokens = t :: more ∧ t.kind ≠ .eof ∧ ∀ r : Reader, (r.before tokens).step t more =
      .ok (((r.join (.cons (h.opens (h.name r.context.ids).1).declaration .nil .nil)).within (h.drawn r.context)).before
        (n :: rest)) := by
  obtain ⟨t, more, same, proper, stepped⟩ := step_of_opening opening (.inl newline)
  refine ⟨t, more, same, proper, fun r => (stepped (r.before tokens)).trans (congrArg Except.ok ?_)⟩
  rw [Reader.within_before, Reader.place_before, ← Reader.join_within]
  exact Reader.place_newline newline

/-- An element with a body is open then. -/
theorem step_body (opening : Opening tokens h (n :: rest)) (brace : n.kind = .leftBrace) :
    ∃ t more, tokens = t :: more ∧ t.kind ≠ .eof ∧ ∀ r : Reader, (r.before tokens).step t more =
      .ok ((Reader.within { r with opened := h.opens (h.name r.context.ids).1 :: r.opened } (h.drawn r.context)).before rest) := by
  obtain ⟨t, more, same, proper, stepped⟩ := step_of_opening opening (.inr brace)
  refine ⟨t, more, same, proper, fun r => (stepped (r.before tokens)).trans (congrArg Except.ok ?_)⟩
  rw [Reader.within_before, Reader.place_before]
  exact Reader.place_brace brace

theorem Keyword.exists_cons {word : String} {tokens rest : List Token} (keyword : Keyword word tokens rest) :
    ∃ t more, tokens = t :: more ∧ t.kind ≠ .eof := by
  cases keyword with
  | keyword kind _ _ => exact ⟨_, _, rfl, by simp [kind]⟩

/-- A reading that ends has read what the grammar finds at its front: nothing is wrong there, and what it stands for is
taken up. -/
theorem Items.run {inner : Bool} {tokens rest : List Token} {s : Script} {r last : Reader} (items : Items inner tokens s rest)
    (deep : inner = true → r.opened ≠ []) (read : (r.before tokens).run = .ok last) :
    ∃ context, context.ids = (s.forest r.context.ids).2 ∧ (((r.saying s).within context).before rest).run = .ok last := by
  induction items generalizing r with
  | nil => exact ⟨r.context, rfl, Reader.saying_nil.symm ▸ read⟩
  | newline kind _ ih => exact ih deep ((run_step rfl (by simp [kind]) (Reader.step_newline kind)).symm.trans read)
  | props keyword string _ ih =>
    obtain ⟨k, more, rfl, proper⟩ := keyword.exists_cons
    obtain ⟨next, stepped, onward⟩ := exists_step rfl proper read
    obtain ⟨context, same, rfl⟩ := Reader.step_props (deep rfl) keyword string stepped
    exact Reader.run_entry same (ih (fun _ => Reader.opened_mapBody (deep rfl)) onward) (fun _ => rfl) rfl
  | metadata keyword string _ ih =>
    obtain ⟨k, more, rfl, proper⟩ := keyword.exists_cons
    obtain ⟨context, same, stepped⟩ := Reader.step_metadata (deep rfl) keyword string
    have onward := (run_step rfl proper stepped).symm.trans read
    exact Reader.run_entry same (ih (fun _ => Reader.opened_mapBody (deep rfl)) onward) (fun _ => rfl) rfl
  | stylesheet keyword first second inline newline _ ih =>
    have stepped := Reader.step_stylesheet (deep rfl) keyword first second inline newline
    obtain ⟨_, _, same, proper⟩ := keyword.exists_cons
    cases same
    have onward := (run_step rfl proper stepped).symm.trans read
    exact Reader.run_entry rfl (ih (fun _ => Reader.opened_mapBody (deep rfl)) onward) (fun _ => rfl) rfl
  | bare opening newline _ ih =>
    obtain ⟨t, more, rfl, proper, stepped⟩ := step_bare opening newline
    have onward := ih (fun inside => Reader.opened_join (deep inside)) ((run_step rfl proper (stepped r)).symm.trans read)
    exact Reader.run_element rfl rfl onward
  | body opening left _ right proper _ ih ih' =>
    -- Inside the braces the element is open; behind them it stands with the others, and reading goes on from there.
    rename_i l b tokens inside behind rest h body s
    obtain ⟨t, more, rfl, known, stepped⟩ := step_body opening left
    obtain ⟨context, ids, inner⟩ := ih (fun _ => List.cons_ne_nil _ _) ((run_step rfl known (stepped r)).symm.trans read)
    have closed := (run_step rfl (by simp [right]) (Reader.step_closing right proper)).symm.trans inner
    exact Reader.run_element rfl ids (ih' (fun inside => Reader.opened_join (deep inside)) closed)

end Grammar
end LiveDiagram
