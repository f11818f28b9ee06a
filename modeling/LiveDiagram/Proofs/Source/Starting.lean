import LiveDiagram.Proofs.Source.Deriving
import LiveDiagram.Proofs.Source.Spoken

/-! Where elements start. The declarations of a forest, each before its children, are those whose headers a reader has come to,
in the order in which it came to them: each stands on the line of the first token of its header, and the headers stand one
behind the other. -/
namespace LiveDiagram

/-- The head without the text style, which comes from the body. -/
def Head.title : Head → Head
  | node shape name _ => node shape name none
  | edge source target label => edge source target label

theorem Head.title_title (h : Head) : h.title.title = h.title := by
  cases h <;> rfl

/-- What the header of an element says, without what the body adds. -/
def Declaration.header (d : Declaration) : Declaration :=
  ⟨d.id, d.line, d.head.title, none, none, none⟩

/-- The header of this element stands here: its id, if one is written, and all of its head. The element has the line of the
first token. -/
structure Declaration.Starts (d : Declaration) (t : Token) (rest : List Token) : Prop where
  line : d.line = t.line
  opening : ∃ h behind, Grammar.Opening (t :: rest) h behind ∧ (∀ id ∈ h.id, d.id = id) ∧ d.head.title = h.head

theorem Declaration.starts_header {d : Declaration} {t : Token} {rest : List Token} :
    d.header.Starts t rest ↔ d.Starts t rest := by
  have same : d.header.head.title = d.head.title := d.head.title_title
  constructor
  · rintro ⟨line, h, behind, opening, id, head⟩
    exact ⟨line, h, behind, opening, id, same ▸ head⟩
  · rintro ⟨line, h, behind, opening, id, head⟩
    exact ⟨line, h, behind, opening, id, same.trans head⟩

namespace Grammar
variable {tokens rest more behind : List Token} {ds : List Declaration} {d : Declaration} {t : Token}

/-- The headers of elements, one behind the other, among other tokens. -/
inductive Headers : Part (List Declaration)
  | nil {tokens rest : List Token} : rest <:+ tokens → Headers tokens [] rest
  | cons {tokens more rest : List Token} {t : Token} {d : Declaration} {ds : List Declaration} : t :: more <:+ tokens →
      d.Starts t more → Headers more ds rest → Headers tokens (d :: ds) rest

namespace Headers

theorem forward (headers : Headers tokens ds rest) (onward : behind <:+ rest) : Headers tokens ds behind := by
  induction headers with
  | nil suffix => exact .nil (onward.trans suffix)
  | cons suffix starts _ ih => exact .cons suffix starts (ih onward)

theorem snoc (headers : Headers tokens ds (t :: rest)) (starts : d.Starts t rest) : Headers tokens (ds ++ [d]) rest := by
  generalize unread : t :: rest = all at headers
  induction headers with
  | nil suffix =>
    subst unread
    exact .cons suffix starts (.nil (List.suffix_refl _))
  | cons suffix own _ ih => exact .cons suffix own (ih unread)

theorem of_header (headers : Headers tokens (ds.map Declaration.header) rest) : Headers tokens ds rest := by
  induction ds generalizing tokens with
  | nil =>
    cases headers with
    | nil suffix => exact .nil suffix
  | cons d ds ih =>
    cases headers with
    | cons suffix starts later => exact .cons suffix (Declaration.starts_header.1 starts) (ih later)

theorem exists_mem (headers : Headers tokens ds rest) (member : d ∈ ds) : ∃ t ∈ tokens, d.line = t.line := by
  induction headers with
  | nil => cases member
  | cons suffix starts _ ih =>
    rcases List.mem_cons.1 member with rfl | later
    · exact ⟨_, suffix.subset List.mem_cons_self, starts.line⟩
    · obtain ⟨t, inside, line⟩ := ih later
      exact ⟨t, suffix.subset (List.mem_cons_of_mem _ inside), line⟩

/-- Where the lines of tokens only go up, so do those of the elements. -/
theorem pairwise_line (headers : Headers tokens ds rest) (ordered : tokens.Pairwise (·.line ≤ ·.line)) :
    ds.Pairwise (·.line ≤ ·.line) := by
  induction headers with
  | nil => exact .nil
  | cons suffix starts later ih =>
    obtain ⟨first, ordered⟩ := List.pairwise_cons.1 (ordered.sublist suffix.sublist)
    refine .cons (fun d member => ?_) (ih ordered)
    obtain ⟨t, inside, line⟩ := later.exists_mem member
    rw [starts.line, line]
    exact first t inside

end Headers
end Grammar

/-! What a reader has come to -/

def Forest.headers (f : Forest) : List Declaration :=
  f.preorder.map Declaration.header

def OpenElement.headers (e : OpenElement) : List Declaration :=
  e.declaration.header :: e.body.children.headers

/-- The headers of all elements that a reader has come to: those that are finished, then those with an open body, the
outermost first. -/
def Reader.headers (r : Reader) : List Declaration :=
  r.finished.headers ++ r.opened.reverse.flatMap OpenElement.headers

theorem Forest.headers_push (f : Forest) (d : Declaration) (children : Forest) :
    (f.push d children).headers = f.headers ++ d.header :: children.headers := by
  rw [headers, preorder_push, List.map_append, List.map_cons]
  rfl

theorem OpenElement.header_declaration (e : OpenElement) :
    e.declaration.header = ⟨e.id, e.line, e.head.title, none, none, none⟩ := by
  obtain ⟨_, _, _ | _, _, _⟩ := e <;> rfl

namespace Reader
open Grammar (Title Opening exists_optional)
variable {r next : Reader} {t : Token} {rest : List Token}

theorem headers_cons (cursor : Cursor) (context : Context) (e : OpenElement) (outer : List OpenElement) (f : Forest) :
    (Reader.mk cursor context (e :: outer) f).headers = (Reader.mk cursor context outer f).headers ++ e.headers := by
  simp [headers]

theorem headers_add (r : Reader) (d : Declaration) (children : Forest) :
    (r.add d children).headers = r.headers ++ d.header :: children.headers := by
  obtain ⟨cursor, context, _ | ⟨e, outer⟩, f⟩ := r
  · simpa [headers, add] using f.headers_push d children
  · have inner : OpenElement.headers { e with body := { e.body with children := e.body.children.push d children } } =
        e.headers ++ d.header :: children.headers :=
      congrArg (e.declaration.header :: ·) (Forest.headers_push _ _ _)
    rw [add]
    dsimp only
    rw [headers_cons, headers_cons, inner, List.append_assoc]

/-- What an entry changes in a body is no header. -/
theorem headers_mapBody {change : Body → Body} (apart : ∀ b, (change b).children = b.children) (r : Reader) :
    (r.mapBody change).headers = r.headers := by
  obtain ⟨cursor, context, _ | ⟨e, outer⟩, f⟩ := r
  · rfl
  · have same : OpenElement.headers { e with body := change e.body } = e.headers := by
      rw [OpenElement.headers, OpenElement.headers, OpenElement.header_declaration, OpenElement.header_declaration]
      dsimp only
      rw [apart]
    rw [mapBody]
    dsimp only
    rw [headers_cons, headers_cons, same]

/-- An element that is closed keeps its place. -/
theorem headers_close (r : Reader) : r.close.headers = r.headers := by
  obtain ⟨cursor, context, _ | ⟨e, outer⟩, f⟩ := r
  · rfl
  · rw [close]
    dsimp only
    rw [headers_add, headers_cons]
    rfl

theorem headers_place {e : OpenElement} (empty : e.body = .empty) (r : Reader) (c : Cursor) :
    (r.place e c).headers = r.headers ++ [e.declaration.header] := by
  have bare : e.headers = [e.declaration.header] := by
    rw [OpenElement.headers, empty]
    rfl
  unfold place
  split
  · split
    · rw [headers_cons, bare]
      rfl
    · exact headers_add _ _ _
  · exact headers_add _ _ _

/-- Behind the colon of an element either its title is read, or nothing is found. -/
theorem headers_header (r : Reader) (id : String) (line : Nat) (c : Cursor) :
    (r.header id line c).headers = r.headers ∨ ∃ head connector behind, Title c.rest (head, connector) behind ∧
      (r.header id line c).headers = r.headers ++ [⟨id, line, head.title, none, none, none⟩] := by
  rcases Grammar.header_cases r id line c.rest c.errors with ⟨head, connector, behind, message, title, placed⟩ | failed
  · refine .inr ⟨head, connector, behind, title, ?_⟩
    rw [placed, headers_place rfl, OpenElement.header_declaration]
  · rw [failed]
    exact .inl rfl

/-- The head that a title gives has no text style. -/
theorem title_of_title {tokens behind : List Token} {head : Head} {connector : Option String}
    (title : Title tokens (head, connector) behind) : head.title = head := by
  cases title <;> rfl

/-- A step comes to one header at most, and this one stands where the step begins. -/
theorem headers_step (stepped : r.step t rest = .ok next) :
    next.headers = r.headers ∨ ∃ d : Declaration, next.headers = r.headers ++ [d] ∧ d.Starts t rest := by
  cases step_cases stepped with
  | newline => exact .inl rfl
  | named known unread colon =>
    subst unread
    refine (headers_header _ _ _ _).imp_right fun ⟨head, connector, behind, title, same⟩ => ⟨_, same, rfl, ?_⟩
    refine ⟨_, behind, .opening (.given (.token known)) colon title, fun id member => Option.some.inj member, ?_⟩
    exact head.title_title.trans (title_of_title title)
  | anonymous colon =>
    refine (headers_header { r with context := { r.context with ids := r.context.ids.draw.2 } } _ _ _).imp_right
      fun ⟨head, connector, behind, title, same⟩ => ⟨_, same, rfl, ?_⟩
    refine ⟨_, behind, .opening (.absent fun value rest own => ?_) colon title, nofun,
      head.title_title.trans (title_of_title title)⟩
    cases own with
    | token known => simp [colon, isName] at known
  | failed => exact .inl rfl
  | closed => exact .inl (headers_close _)
  | entered _ _ entered =>
    obtain ⟨_, _, _, apart, rfl⟩ := exists_of_entry entered
    exact .inl (headers_mapBody apart _)

/-- All that a reader has come to stands in the tokens in this order, in front of what it has not read yet. -/
theorem headers_run {tokens : List Token} {last : Reader} (read : r.run = .ok last)
    (headers : Grammar.Headers tokens r.headers r.cursor.rest) : Grammar.Headers tokens last.headers last.cursor.rest := by
  refine run_keeps (fun s => Grammar.Headers tokens s.headers s.cursor.rest) (fun s t rest next unread stepped held => ?_)
    (fun s line held => ?_) read headers
  · rw [unread] at held
    have onward := (advances_step stepped).rest
    rcases headers_step stepped with same | ⟨d, same, starts⟩
    · rw [same]
      exact held.forward (onward.trans (List.suffix_cons t rest))
    · rw [same]
      exact (held.snoc starts).forward onward
  · rw [headers_close, rest_close]
    exact held

end Reader
end LiveDiagram
