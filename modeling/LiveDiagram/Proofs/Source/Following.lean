import LiveDiagram.Proofs.Source.Spoiling
import LiveDiagram.Proofs.Source.Splicing

/-! Two readings of a part of a text go the same way. Each piece of the reader is followed: what it finds on its own it also
finds in the whole, and both go on in the part. -/
namespace LiveDiagram

/-- What a body says, on other lines. -/
structure Body.Follows (p : Splice) (b b' : Body) : Prop where
  props : b'.props = b.props
  metadata : b'.metadata = b.metadata
  style : b'.style = b.style
  textStyle : b'.textStyle = b.textStyle.map fun said => (said.1, said.2 + p.offset)
  own : ∀ said ∈ b.textStyle, p.region said.2
  children : b.children.Moved p.offset p.alone p.whole b'.children

theorem Body.follows_empty (p : Splice) : Body.empty.Follows p Body.empty where
  props := rfl
  metadata := rfl
  style := rfl
  textStyle := rfl
  own := nofun
  children := .nil

/-- An open element on another line. -/
structure OpenElement.Follows (p : Splice) (e e' : OpenElement) : Prop where
  id : p.alone.Matches p.whole e.id e'.id
  line : e'.line = e.line + p.offset
  head : e'.head = e.head
  connector : e'.connector = e.connector
  body : e.body.Follows p e'.body

namespace OpenElement.Follows
variable {p : Splice} {e e' : OpenElement}

theorem declaration (follows : e.Follows p e') : e.declaration.Moved p.offset p.alone p.whole e'.declaration where
  id := follows.id
  line := follows.line
  head := by
    unfold OpenElement.declaration
    dsimp only
    rw [follows.head, follows.body.textStyle, Option.map_map]
    rfl
  props := by
    unfold OpenElement.declaration
    dsimp only
    rw [follows.connector, follows.body.props]
  metadata := follows.body.metadata
  style := follows.body.style

theorem finalErrors {errors errors' : Errors} (follows : e.Follows p e') (same : errors.Follows p.toSpan errors') :
    (e.finalErrors errors).Follows p.toSpan (e'.finalErrors errors') := by
  unfold OpenElement.finalErrors
  rw [follows.head, follows.body.textStyle]
  cases e.head with
  | node => exact same
  | edge =>
    cases said : e.body.textStyle with
    | none => exact same
    | some style => exact same.add (follows.body.own style said) _

end OpenElement.Follows

namespace Reader
open Cursor (Inside)
variable {p : Splice} {c c' : Cursor} {r r' : Reader}

/-! Headers -/

theorem startsEndpoint_follows (inside : c.Inside p c') : startsEndpoint c'.rest = startsEndpoint c.rest := by
  obtain ⟨t, rest, rest', errors, errors', rfl, rfl, _, _, _, _, behind⟩ := inside.exists_cons
  unfold startsEndpoint
  dsimp only
  rw [Token.kind_shift]
  by_cases string : t.kind = .string
  -- The token behind the string decides; a string never ends its line, so it is in the part as well.
  · obtain ⟨u, more, more', _, _, same, same', _⟩ := (behind (by simp [string])).exists_cons
    cases same
    cases same'
    rfl
  · simp only [string, decide_false, Bool.false_and]

theorem take?_if_follows (inside : c.Inside p c') (accepted : TokenKind → Bool) (inline : accepted .newline = false)
    (condition : Bool) : ∃ value d d', (if condition then c.take? accepted else (none, c)) = (value, d) ∧
      (if condition then c'.take? accepted else (none, c')) = (value, d') ∧ d.Inside p d' := by
  cases condition with
  | true => exact inside.take? accepted inline
  | false => exact ⟨none, c, c', rfl, rfl, inside⟩

theorem edgeHeader_follows (inside : c.Inside p c') (id id' : String) (line line' : Nat) :
    ∃ head connector d d', edgeHeader id line c = (⟨id, line, head, connector, .empty⟩, d) ∧
      edgeHeader id' line' c' = (⟨id', line', head, connector, .empty⟩, d') ∧ d.Follows p d' := by
  obtain ⟨source, a, a', taken, taken', inside₁⟩ := take?_if_follows inside isName rfl (startsEndpoint c.rest)
  obtain ⟨connector, b, b', linked, linked', inside₂⟩ := inside₁.take? isConnector rfl
  obtain ⟨target, d, d', named, named', inside₃⟩ := take?_if_follows inside₂ isName rfl connector.isSome
  obtain ⟨label, f, f', quoted, quoted', inside₄⟩ := inside₃.take? (· = .string) rfl
  unfold edgeHeader
  rw [startsEndpoint_follows inside, taken, taken']
  dsimp only
  rw [linked, linked']
  dsimp only
  rw [named, named']
  dsimp only
  rw [quoted, quoted']
  exact ⟨_, _, _, _, rfl, rfl, inside₄.endLine _⟩

theorem nodeHeader_follows (inside : c.Inside p c') (id id' : String) (line line' : Nat) :
    (∃ head d d', nodeHeader id line c = (some ⟨id, line, head, none, .empty⟩, d) ∧
      nodeHeader id' line' c' = (some ⟨id', line', head, none, .empty⟩, d') ∧ d.Follows p d') ∨
    ∃ d d', nodeHeader id line c = (none, d) ∧ nodeHeader id' line' c' = (none, d') ∧ d.Follows p d' := by
  obtain ⟨shape, a, a', taken, taken', inside₁⟩ := inside.take? (fun kind => kind = .id || kind = .keyword) rfl
  unfold nodeHeader
  rw [taken, taken']
  cases shape with
  | none => exact .inr ⟨_, _, rfl, rfl, inside₁.fail _⟩
  | some shape =>
    obtain ⟨name, b, b', quoted, quoted', inside₂⟩ := inside₁.take? (· = .string) rfl
    dsimp only
    rw [quoted, quoted']
    exact .inl ⟨_, _, _, rfl, rfl, inside₂.endLine _⟩

/-! Readers -/

/-- The elements that two readers have read so far, and the ids that they have drawn. -/
structure Tracks (p : Splice) (r r' : Reader) : Prop where
  ids : ∃ n, r.context.ids = p.alone.after n ∧ r'.context.ids = p.whole.after n
  opened : List.Forall₂ (OpenElement.Follows p) r.opened r'.opened
  finished : ∃ f, r'.finished = p.front ++ f ∧ r.finished.Moved p.offset p.alone p.whole f

/-- Two readers at the same point of the part. -/
structure Follows (p : Splice) (r r' : Reader) : Prop extends Tracks p r r' where
  cursor : r.cursor.Follows p r'.cursor

namespace Tracks

theorem follows (tracks : r.Tracks p r') (same : c.Follows p c') : Follows p { r with cursor := c } { r' with cursor := c' } :=
  ⟨⟨tracks.ids, tracks.opened, tracks.finished⟩, same⟩

end Tracks

namespace Follows

theorem add {d d' : Declaration} {children children' : Forest} (follows : r.Follows p r')
    (own : d.Moved p.offset p.alone p.whole d') (below : children.Moved p.offset p.alone p.whole children') :
    (r.add d children).Follows p (r'.add d' children') := by
  obtain ⟨cursor, context, opened, finished⟩ := r
  obtain ⟨cursor', context', opened', finished'⟩ := r'
  obtain ⟨⟨ids, open', f, rfl, moved⟩, same⟩ := follows
  have single : (Forest.cons d children .nil).Moved p.offset p.alone p.whole (.cons d' children' .nil) := .cons own below .nil
  cases open' with
  | nil => exact ⟨⟨ids, .nil, _, Forest.append_assoc _ _ _, moved.append single⟩, same⟩
  | cons first outer =>
    refine ⟨⟨ids, .cons ⟨first.id, first.line, first.head, first.connector, ?_⟩ outer, f, rfl, moved⟩, same⟩
    exact { first.body with children := first.body.children.append single }

theorem mapBody {change change' : Body → Body} (follows : r.Follows p r')
    (kept : ∀ b b' : Body, b.Follows p b' → (change b).Follows p (change' b')) :
    (r.mapBody change).Follows p (r'.mapBody change') := by
  obtain ⟨cursor, context, opened, finished⟩ := r
  obtain ⟨cursor', context', opened', finished'⟩ := r'
  obtain ⟨⟨ids, open', done⟩, same⟩ := follows
  cases open' with
  | nil => exact ⟨⟨ids, .nil, done⟩, same⟩
  | cons first outer => exact ⟨⟨ids, .cons { first with body := kept _ _ first.body } outer, done⟩, same⟩

theorem close (follows : r.Follows p r') : r.close.Follows p r'.close := by
  obtain ⟨cursor, context, opened, finished⟩ := r
  obtain ⟨cursor', context', opened', finished'⟩ := r'
  obtain ⟨⟨ids, open', done⟩, same⟩ := follows
  cases open' with
  | nil => exact ⟨⟨ids, .nil, done⟩, same⟩
  | cons first outer =>
    obtain ⟨body, tracks⟩ := id same
    exact add ⟨⟨ids, outer, done⟩, same.report (first.finalErrors tracks.errors)⟩ first.declaration first.body.children

end Follows

/-- An element whose header is read has its body in the part, or none in either reading. -/
theorem Tracks.place {e e' : OpenElement} (tracks : r.Tracks p r') (own : e.Follows p e') (follows : c.Follows p c') :
    (r.place e c).Follows p (r'.place e' c') := by
  have added : Follows p ({ r with cursor := c }.add e.declaration .nil) ({ r' with cursor := c' }.add e'.declaration .nil) :=
    (tracks.follows follows).add own.declaration .nil
  obtain ⟨body, inside⟩ := follows
  cases body with
  -- A header that failed has used up its line. If that was the last one, what follows is the end or the next part.
  | nil =>
    have ends : c.rest = [p.last] := inside.rest
    have behind : c'.rest = p.behind := inside.rest'
    rw [place_bare (by rw [ends]; simp [p.ends]), place_bare (by rw [behind]; exact p.apart)]
    exact added
  | cons t body =>
    have onward : c.Inside p c' := ⟨_, List.cons_ne_nil _ _, inside⟩
    obtain ⟨t, rest, rest', errors, errors', rfl, rfl, _, _, _, behind, _⟩ := onward.exists_cons
    unfold Reader.place
    dsimp only
    rw [Token.kind_shift]
    split
    · exact ⟨⟨tracks.ids, .cons own tracks.opened, tracks.finished⟩, behind⟩
    · exact added

theorem Tracks.header {id id' : String} {line : Nat} (tracks : r.Tracks p r') (same : p.alone.Matches p.whole id id')
    (inside : c.Inside p c') : (r.header id line c).Follows p (r'.header id' (line + p.offset) c') := by
  have node := nodeHeader_follows inside id id' line (line + p.offset)
  obtain ⟨t, rest, rest', errors, errors', rfl, rfl, _, _, _, _, behind⟩ := inside.exists_cons
  unfold Reader.header
  dsimp only
  rw [Token.kind_shift, Token.value_shift]
  split
  · next keyword =>
    have inline : t.kind ≠ .newline := by
      intro newline
      simp [newline] at keyword
    obtain ⟨head, connector, d, d', read, read', follows⟩ := edgeHeader_follows (behind inline) id id' line (line + p.offset)
    rw [read, read']
    exact tracks.place ⟨same, rfl, rfl, rfl, Body.follows_empty p⟩ follows
  · rcases node with ⟨head, d, d', read, read', follows⟩ | ⟨d, d', read, read', follows⟩
    · rw [read, read']
      exact tracks.place ⟨same, rfl, rfl, rfl, Body.follows_empty p⟩ follows
    · rw [read, read']
      exact tracks.follows follows

/-! Entries -/

theorem entryText_follows (inside : c.Inside p c') (keyword : String) :
    ∃ text d d', entryText keyword c = (text, d) ∧ entryText keyword c' = (text, d') ∧ d.Follows p d' := by
  unfold entryText
  rcases inside.expect .colon nofun ("Expected \":\" after " ++ keyword ++ ":") with
    ⟨_, d, d', taken, taken', onward⟩ | ⟨d, d', failed, failed', onward⟩
  · rw [taken, taken']
    dsimp only
    rcases onward.expect .string nofun ("Expected string after " ++ keyword ++ ":") with
      ⟨text, f, f', read, read', follows⟩ | ⟨f, f', read, read', follows⟩
    · exact ⟨some text, f, f', read, read', follows.follows⟩
    · exact ⟨none, f, f', read, read', follows⟩
  · rw [failed, failed']
    exact ⟨none, d, d', rfl, rfl, onward⟩

theorem Tracks.propsEntry {next : Reader} (tracks : r.Tracks p r') (inside : c.Inside p c')
    (entered : r.propsEntry c = .ok next) : ∃ next', r'.propsEntry c' = .ok next' ∧ next.Follows p next' := by
  obtain ⟨text, d, d', read, read', follows⟩ := entryText_follows inside "props"
  unfold Reader.propsEntry at entered ⊢
  rw [read] at entered
  rw [read']
  cases text with
  | none =>
    cases entered
    exact ⟨_, rfl, tracks.follows follows⟩
  | some text =>
    dsimp only at entered ⊢
    cases known : Props.read text with
    | error fault =>
      rw [known] at entered
      cases entered
    | ok props =>
      rw [known] at entered
      cases entered
      refine ⟨_, rfl, Follows.mapBody ⟨⟨tracks.ids, tracks.opened, tracks.finished⟩, follows⟩ fun b b' same => ?_⟩
      exact { same with props := by rw [same.props] }

theorem Tracks.metadataEntry (tracks : r.Tracks p r') (inside : c.Inside p c') :
    (r.metadataEntry c).Follows p (r'.metadataEntry c') := by
  obtain ⟨text, d, d', read, read', follows⟩ := entryText_follows inside "metadata"
  unfold Reader.metadataEntry
  rw [read, read']
  cases text with
  | none => exact tracks.follows follows
  | some text =>
    refine Follows.mapBody ⟨⟨tracks.ids, tracks.opened, tracks.finished⟩, follows⟩ fun b b' same => ?_
    exact { same with metadata := by rw [same.metadata] }

theorem Tracks.stylesheetEntry {line : Nat} (tracks : r.Tracks p r') (inside : c.Inside p c') (own : p.region line) :
    (r.stylesheetEntry line c).Follows p (r'.stylesheetEntry (line + p.offset) c') := by
  unfold Reader.stylesheetEntry
  rcases inside.expect .colon nofun "Expected \":\" after stylesheet:" with
    ⟨_, d, d', taken, taken', inside₁⟩ | ⟨d, d', failed, failed', follows⟩
  · rw [taken, taken']
    obtain ⟨style, f, f', first, first', inside₂⟩ := inside₁.take? (· = .id) rfl
    obtain ⟨slash, g, g', slashed, slashed', inside₃⟩ := inside₂.take? (· = .slash) rfl
    obtain ⟨textStyle, h, h', second, second', inside₄⟩ := take?_if_follows inside₃ (· = .id) rfl slash.isSome
    dsimp only
    rw [first, first']
    dsimp only
    rw [slashed, slashed']
    dsimp only
    rw [second, second']
    refine Follows.mapBody (tracks.follows inside₄.skip) fun b b' same => ?_
    refine { same with style := by rw [same.style], textStyle := ?_, own := fun said member => ?_ }
    · cases textStyle with
      | none => exact same.textStyle
      | some text => rfl
    · cases textStyle with
      | none => exact same.own said member
      | some text =>
        cases Option.some.inj member
        exact own
  · rw [failed, failed']
    exact tracks.follows follows

/-! Steps -/

theorem reject_eq_fail {t : Token} {rest : List Token} (unread : r.cursor.rest = t :: rest) (proper : t.kind ≠ .eof)
    (inline : t.kind ≠ .newline) (message : String) : r.reject t rest message = { r with cursor := r.cursor.fail message } := by
  rw [reject, Cursor.fail, Cursor.line, unread, Cursor.skipLine, if_neg proper, if_neg inline]

theorem Tracks.reject {t : Token} {rest rest' : List Token} (tracks : r.Tracks p r') (inside : r.cursor.Inside p r'.cursor)
    (unread : r.cursor.rest = t :: rest) (unread' : r'.cursor.rest = t.shift p.offset :: rest') (proper : t.kind ≠ .eof)
    (inline : t.kind ≠ .newline) (message : String) :
    (r.reject t rest message).Follows p (r'.reject (t.shift p.offset) rest' message) := by
  rw [reject_eq_fail unread proper inline, reject_eq_fail unread' proper inline]
  exact tracks.follows (inside.fail message)

theorem Tracks.named {t : Token} (tracks : r.Tracks p r') (inside : c.Inside p c') :
    (r.named t c).Follows p (r'.named (t.shift p.offset) c') := by
  unfold Reader.named
  rcases inside.expect .colon nofun "Expected \":\" after element ID" with
    ⟨_, d, d', taken, taken', onward⟩ | ⟨d, d', failed, failed', follows⟩
  · rw [taken, taken']
    exact tracks.header (.inl rfl) onward
  · rw [failed, failed']
    exact tracks.follows follows

theorem Tracks.anonymous {t : Token} (tracks : r.Tracks p r') (inside : c.Inside p c') :
    (r.anonymous t c).Follows p (r'.anonymous (t.shift p.offset) c') := by
  obtain ⟨n, drawn, drawn'⟩ := tracks.ids
  unfold Reader.anonymous
  rw [drawn, drawn', IdSupply.draw_after, IdSupply.draw_after]
  refine Tracks.header ⟨⟨n + 1, rfl, rfl⟩, tracks.opened, tracks.finished⟩ (.inr ⟨n, rfl, rfl⟩) inside

theorem Follows.inside {t : Token} {rest : List Token} (follows : r.Follows p r') (unread : r.cursor.rest = t :: rest)
    (proper : t.kind ≠ .eof) : r.cursor.Inside p r'.cursor := by
  obtain ⟨body, tracks⟩ := follows.cursor
  refine ⟨body, ?_, tracks⟩
  rintro rfl
  cases tracks.rest.symm.trans unread
  exact proper p.ends

theorem Tracks.entry {t : Token} {rest rest' : List Token} {next : Reader} (tracks : r.Tracks p r') (inside : c.Inside p c')
    (own : p.region t.line)
    (rejected : ∀ message, (r.reject t rest message).Follows p (r'.reject (t.shift p.offset) rest' message))
    (entered : r.entry t rest c = .ok next) :
    ∃ next', r'.entry (t.shift p.offset) rest' c' = .ok next' ∧ next.Follows p next' := by
  unfold Reader.entry at entered ⊢
  rw [Token.value_shift]
  by_cases props : t.value = "props"
  · rw [if_pos props] at entered ⊢
    exact tracks.propsEntry inside entered
  rw [if_neg props] at entered ⊢
  by_cases metadata : t.value = "metadata"
  · rw [if_pos metadata] at entered ⊢
    cases entered
    exact ⟨_, rfl, tracks.metadataEntry inside⟩
  rw [if_neg metadata] at entered ⊢
  by_cases stylesheet : t.value = "stylesheet"
  · rw [if_pos stylesheet] at entered ⊢
    cases entered
    exact ⟨_, rfl, tracks.stylesheetEntry inside own⟩
  · rw [if_neg stylesheet] at entered ⊢
    cases entered
    exact ⟨_, rfl, rejected _⟩

/-- Both readings take the same step. -/
theorem Follows.step {t : Token} {rest : List Token} {next : Reader} (follows : r.Follows p r')
    (unread : r.cursor.rest = t :: rest) (proper : t.kind ≠ .eof) (stepped : r.step t rest = .ok next) :
    ∃ rest' next', r'.cursor.rest = t.shift p.offset :: rest' ∧ r'.step (t.shift p.offset) rest' = .ok next' ∧
      next.Follows p next' := by
  have inside := follows.inside unread proper
  have tracks := follows.toTracks
  obtain ⟨cursor, context, opened, finished⟩ := r
  obtain ⟨cursor', context', opened', finished'⟩ := r'
  obtain ⟨_, _, rest', errors, errors', rfl, rfl, _, own, same, behind, inline⟩ := inside.exists_cons
  cases unread
  have empty : opened'.isEmpty = opened.isEmpty := by cases tracks.opened <;> rfl
  refine ⟨rest', ?_⟩
  unfold Reader.step at stepped ⊢
  dsimp only at stepped ⊢
  rw [Token.kind_shift, empty]
  by_cases newline : t.kind = .newline
  · rw [if_pos newline] at stepped ⊢
    cases stepped
    exact ⟨_, rfl, rfl, tracks.follows behind⟩
  -- From here the line goes on behind the token, so that whatever fails fails in it.
  have onward := inline newline
  have rejected (message : String) := tracks.reject inside rfl rfl proper newline message
  rw [if_neg newline] at stepped ⊢
  by_cases name : isName t.kind = true
  · rw [if_pos name] at stepped ⊢
    cases stepped
    exact ⟨_, rfl, rfl, tracks.named onward⟩
  rw [if_neg name] at stepped ⊢
  by_cases colon : t.kind = .colon
  · rw [if_pos colon] at stepped ⊢
    cases stepped
    exact ⟨_, rfl, rfl, tracks.anonymous onward⟩
  rw [if_neg colon] at stepped ⊢
  by_cases closed : opened.isEmpty = true
  · rw [if_pos closed] at stepped ⊢
    cases stepped
    exact ⟨_, rfl, rfl, rejected _⟩
  rw [if_neg closed] at stepped ⊢
  by_cases brace : t.kind = .rightBrace
  · rw [if_pos brace] at stepped ⊢
    cases stepped
    exact ⟨_, rfl, rfl, (tracks.follows behind).close⟩
  rw [if_neg brace] at stepped ⊢
  by_cases keyword : t.kind = .keyword
  · rw [if_pos keyword] at stepped ⊢
    obtain ⟨next', entered, reached⟩ := tracks.entry onward own rejected stepped
    exact ⟨next', rfl, entered, reached⟩
  · rw [if_neg keyword] at stepped ⊢
    cases stepped
    exact ⟨_, rfl, rfl, rejected _⟩

/-- Both readings go on until the part ends. -/
theorem Follows.run {last : Reader} (follows : r.Follows p r') (read : r.run = .ok last) :
    ∃ s s' : Reader, s.cursor.rest = [p.last] ∧ s'.cursor.rest = p.behind ∧ s.Follows p s' ∧
      last = s.closeAll p.last.line s.opened ∧ r'.run = s'.run := by
  induction size : r.cursor.rest.length using Nat.strongRecOn generalizing r r' with
  | _ n ih =>
    obtain ⟨body, tracks⟩ := id follows.cursor
    cases body with
    | nil =>
      have ended := (run_ends tracks.rest p.ends).symm.trans read
      exact ⟨r, r', tracks.rest, tracks.rest', follows, (Except.ok.inj ended).symm, rfl⟩
    | cons t body =>
      have unread : r.cursor.rest = t :: (body ++ [p.last]) := tracks.rest
      have proper := tracks.whole.proper t List.mem_cons_self
      obtain ⟨next, stepped, onward⟩ := exists_step unread proper read
      obtain ⟨rest', next', unread', stepped', follows'⟩ := follows.step unread proper stepped
      have shorter : next.cursor.rest.length < n := size ▸ length_step_lt unread stepped
      obtain ⟨s, s', last, behind, same, closed, run'⟩ := ih _ shorter follows' onward rfl
      exact ⟨s, s', last, behind, same, closed, (run_step unread' proper stepped').trans run'⟩

/-- Where the whole ends with the part, both close as many bodies. -/
theorem Follows.closeAll {line : Nat} {open' open'' : List OpenElement} (follows : r.Follows p r')
    (same : open'.length = open''.length) (own : p.region line) :
    (r.closeAll line open').Follows p (r'.closeAll (line + p.offset) open'') := by
  induction open' generalizing open'' r r' with
  | nil =>
    cases List.length_eq_zero_iff.1 same.symm
    exact follows
  | cons e outer ih =>
    obtain ⟨e', outer', rfl⟩ := List.exists_cons_of_length_eq_add_one same.symm
    obtain ⟨body, tracks⟩ := follows.cursor
    have reported := follows.toTracks.follows (follows.cursor.report (tracks.errors.add own "Expected closing brace"))
    rw [Reader.closeAll, Reader.closeAll]
    exact ih reported.close (Nat.succ.inj same)

end Reader
end LiveDiagram
