import LiveDiagram.Proofs.Props.Heard
import LiveDiagram.Proofs.Source.Advancing
import LiveDiagram.Proofs.Source.Spelling

/-! What a text can declare, whatever the text is. Shapes are words other than the keyword of edges, and props and
metadata are what lines of them are read as. -/
namespace LiveDiagram

namespace Token
variable {t : Token} {text : List Char} {line : Nat}

/-- A word of the characters that ids are made of. -/
def IsWord (word : String) : Prop :=
  word ≠ "" ∧ ∀ c ∈ word.toList, isIdChar c = true

theorem isWord_of_keyword {word : String} (known : word ∈ keywords) : IsWord word := by
  have all : ∀ word ∈ keywords, word ≠ "" ∧ ∀ c ∈ word.toList, isIdChar c = true := by decide
  exact all word known

/-- Only words are ids, and the keywords are apart from them. -/
structure Fair (t : Token) : Prop where
  id : t.kind = .id → IsWord t.value ∧ t.value ∉ keywords
  keyword : t.kind = .keyword → t.value ∈ keywords

theorem fair_of_other (other : t.kind ≠ .id) (other' : t.kind ≠ .keyword) : t.Fair :=
  ⟨fun own => (other own).elim, fun own => (other' own).elim⟩

theorem fair_wordPiece {word : List Char} {kind : TokenKind} {value : List Char} (nonempty : word ≠ [])
    (own : ∀ c ∈ word, isIdChar c = true) (found : (wordPiece word).token = some (kind, value)) (line column : Nat) :
    Fair ⟨kind, String.ofList value, line, column⟩ := by
  unfold wordPiece plainPiece at found
  simp only [Option.some.injEq, Prod.mk.injEq] at found
  obtain ⟨rfl, rfl⟩ := found
  by_cases known : String.ofList word ∈ keywords
  · rw [if_pos known]
    exact ⟨(fun own => by cases own), fun _ => known⟩
  · rw [if_neg known]
    refine ⟨fun _ => ⟨⟨fun empty => nonempty ?_, ?_⟩, known⟩, fun own => by cases own⟩
    · simpa using congrArg String.toList empty
    · rwa [String.toList_ofList]

theorem fair_piece {c : Char} {rest : List Char} {kind : TokenKind} {value : List Char}
    (found : (piece c rest).token = some (kind, value)) (line column : Nat) :
    Fair ⟨kind, String.ofList value, line, column⟩ := by
  have cut := piece_cut c rest
  generalize piece c rest = p at found cut
  cases cut with
  | gap => cases found
  | quoted =>
    cases found
    exact fair_of_other (by simp) (by simp)
  | symbol means =>
    cases found
    have other : kind ≠ .id ∧ kind ≠ .keyword := by
      unfold symbol? at means
      grind
    exact fair_of_other other.1 other.2
  | connector known =>
    cases found
    rcases known with rfl | rfl
    · exact fair_of_other (by simp) (by simp)
    · exact fair_of_other (by simp) (by simp)
  | word _ own => exact fair_wordPiece (List.cons_ne_nil _ _) own found line column

theorem fair_of_mem_pieces {column : Nat} {x : Nat × Piece} (member : x ∈ pieces column text) {kind : TokenKind}
    {value : List Char} (found : x.2.token = some (kind, value)) (line column : Nat) :
    Fair ⟨kind, String.ofList value, line, column⟩ := by
  obtain ⟨c, rest, same⟩ := exists_piece_of_mem member
  exact fair_piece (same ▸ found) line column

theorem fair_ofLine (member : t ∈ ofLine line text) : t.Fair := by
  unfold ofLine at member
  rcases List.mem_append.1 member with inside | last
  · obtain ⟨x, listed, made⟩ := List.mem_filterMap.1 inside
    obtain ⟨⟨kind, value⟩, found, rfl⟩ := Option.map_eq_some_iff.1 made
    exact fair_of_mem_pieces listed found line x.1
  · cases List.mem_singleton.1 last
    exact fair_of_other (by simp) (by simp)

theorem fair_ofLines {texts : List (List Char)} (member : t ∈ ofLines line texts) : t.Fair := by
  induction texts generalizing line with
  | nil => cases member
  | cons text texts ih =>
    rcases List.mem_append.1 member with own | later
    · exact fair_ofLine own
    · exact ih later

/-- All tokens of a text are fair. -/
theorem fair_ofText {text : String} (member : t ∈ ofText text) : t.Fair := by
  rcases List.mem_append.1 member with inside | last
  · exact fair_ofLines inside
  · cases List.mem_singleton.1 last
    exact fair_of_other (by simp) (by simp)

end Token

namespace Forest

theorem preorder_append (f g : Forest) : (f ++ g).preorder = f.preorder ++ g.preorder := by
  induction f with
  | nil => rfl
  | cons first children rest _ ih =>
    change first :: (children.preorder ++ (rest ++ g).preorder) = _
    rw [ih, preorder, List.cons_append, List.append_assoc]

theorem preorder_push (f : Forest) (d : Declaration) (children : Forest) :
    (f.push d children).preorder = f.preorder ++ d :: children.preorder := by
  rw [push, preorder_append]
  simp [preorder]

end Forest

/-! What has been read -/

/-- A header that a text can have: the shape of a node is a word, and not the word for edges; styles are words. -/
def Head.Spoken : Head → Prop
  | .node shape _ textStyle => (Token.IsWord shape ∧ shape ≠ "edge") ∧ ∀ s ∈ textStyle, Token.IsWord s
  | .edge .. => True

/-- A declaration that a text can make. -/
structure Declaration.Spoken (d : Declaration) : Prop where
  head : d.head.Spoken
  props : ∀ p ∈ d.props, p.Heard ∧ p.Tidy
  metadata : ∀ m ∈ d.metadata, m.Worded ∧ m.Tidy
  style : ∀ s ∈ d.style, Token.IsWord s

def Forest.Spoken (f : Forest) : Prop :=
  ∀ d ∈ f.preorder, d.Spoken

structure Body.Spoken (b : Body) : Prop where
  props : ∀ p ∈ b.props, p.Heard ∧ p.Tidy
  metadata : ∀ m ∈ b.metadata, m.Worded ∧ m.Tidy
  style : ∀ s ∈ b.style, Token.IsWord s
  textStyle : ∀ s ∈ b.textStyle, Token.IsWord s.1
  children : b.children.Spoken

structure OpenElement.Spoken (e : OpenElement) : Prop where
  head : e.head.Spoken
  body : e.body.Spoken

theorem Forest.Spoken.push {f children : Forest} {d : Declaration} (spoken : f.Spoken) (own : d.Spoken)
    (below : children.Spoken) : (f.push d children).Spoken := by
  intro x member
  rw [Forest.preorder_push, List.mem_append, List.mem_cons] at member
  rcases member with before | rfl | inside
  · exact spoken x before
  · exact own
  · exact below x inside

theorem Body.spoken_empty : Body.empty.Spoken where
  props := by simp [Body.empty]
  metadata := by simp [Body.empty]
  style := by simp [Body.empty]
  textStyle := by simp [Body.empty]
  children := by simp [Body.empty, Forest.Spoken, Forest.preorder]

theorem OpenElement.Spoken.declaration {e : OpenElement} (spoken : e.Spoken) : e.declaration.Spoken where
  head := by
    have own := spoken.head
    unfold OpenElement.declaration
    cases same : e.head with
    | edge => trivial
    | node shape name style =>
      rw [same] at own
      refine ⟨own.1, fun s member => ?_⟩
      obtain ⟨⟨word, line⟩, said, rfl⟩ := Option.map_eq_some_iff.1 member
      exact spoken.body.textStyle _ said
  props := by
    intro p member
    unfold OpenElement.declaration at member
    dsimp only at member
    split at member
    · next c _ =>
      cases Option.some.inj member
      obtain ⟨heard, tidy⟩ := Connector.heard_props c
      cases own : e.body.props with
      | none => exact ⟨heard.merge trivial, tidy.merge trivial⟩
      | some body =>
        obtain ⟨heard', tidy'⟩ := spoken.body.props body own
        exact ⟨heard.merge heard', tidy.merge tidy'⟩
    · exact spoken.body.props p member
  metadata := spoken.body.metadata
  style := spoken.body.style

namespace Reader
open Cursor (Advances)

/-- What a reader has read, and has still to read, is as a text can say it. -/
structure Spoken (r : Reader) : Prop where
  tokens : ∀ t ∈ r.cursor.rest, t.Fair
  opened : ∀ e ∈ r.opened, e.Spoken
  finished : r.finished.Spoken

namespace Spoken
variable {r : Reader} {c : Cursor} {e : OpenElement} {d : Declaration} {children : Forest}

/-- The reader may go forward. -/
theorem forward (spoken : r.Spoken) (advances : r.cursor.Advances c) (context : Context) :
    Spoken { r with cursor := c, context := context } where
  tokens t member := spoken.tokens t (advances.rest.subset member)
  opened := spoken.opened
  finished := spoken.finished

theorem add (spoken : r.Spoken) (own : d.Spoken) (below : children.Spoken) : (r.add d children).Spoken := by
  unfold Reader.add
  split
  · exact ⟨spoken.tokens, spoken.opened, spoken.finished.push own below⟩
  · next e outer opened =>
    have top := spoken.opened e (opened ▸ List.mem_cons_self)
    refine ⟨spoken.tokens, fun x member => ?_, spoken.finished⟩
    rcases List.mem_cons.1 member with rfl | other
    · exact ⟨top.head, top.body.props, top.body.metadata, top.body.style, top.body.textStyle,
        top.body.children.push own below⟩
    · exact spoken.opened x (opened ▸ List.mem_cons_of_mem e other)

theorem none : Forest.nil.Spoken := by simp [Forest.Spoken, Forest.preorder]

theorem place (spoken : r.Spoken) (own : e.Spoken) (advances : r.cursor.Advances c) : (r.place e c).Spoken := by
  unfold Reader.place
  split
  · next t rest unread =>
    split
    · have onward := spoken.forward (advances.trans (.tail unread)) r.context
      refine ⟨onward.tokens, fun x member => ?_, spoken.finished⟩
      rcases List.mem_cons.1 member with rfl | other
      · exact own
      · exact spoken.opened x other
    · exact (spoken.forward advances r.context).add own.declaration none
  · exact (spoken.forward advances r.context).add own.declaration none

/-- A node has a word for its shape that is no header of an edge. -/
theorem header (spoken : r.Spoken) (id : String) (line : Nat) (advances : r.cursor.Advances c) :
    (r.header id line c).Spoken := by
  have onward := spoken.forward advances r.context
  unfold Reader.header
  split
  · next t rest unread =>
    have fair : t.Fair := onward.tokens t (by rw [unread]; exact List.mem_cons_self)
    split
    · refine spoken.place ⟨trivial, Body.spoken_empty⟩ (advances.trans ((Advances.tail unread).trans ?_))
      exact advances_edgeHeader id line _
    · next node =>
      split
      · next e c' header =>
        have forward := advances_nodeHeader id line c
        rw [header] at forward
        refine spoken.place ?_ (advances.trans forward)
        unfold nodeHeader at header
        split at header
        · cases header
        · next shape c'' taken =>
          cases header
          refine ⟨?_, Body.spoken_empty⟩
          unfold Cursor.take? at taken
          rw [unread] at taken
          dsimp only at taken
          split at taken
          · next accepted =>
            cases taken
            rw [Bool.or_eq_true, decide_eq_true_eq, decide_eq_true_eq] at accepted
            refine ⟨?_, by simp⟩
            rcases accepted with id | keyword
            · obtain ⟨word, unknown⟩ := fair.id id
              exact ⟨word, fun same => unknown (same ▸ by decide)⟩
            · refine ⟨Token.isWord_of_keyword (fair.keyword keyword), fun same => node ?_⟩
              simp [keyword, same]
          · cases taken
      · next c' header =>
        have forward := advances_nodeHeader id line c
        rw [header] at forward
        exact spoken.forward (advances.trans forward) r.context
  · exact spoken.forward (advances.trans (advances_nodeHeader id line c)) r.context

/-- An id further on is a word. -/
theorem word_of_take? (spoken : r.Spoken) (advances : r.cursor.Advances c) {s : String}
    (taken : (c.take? (· = .id)).1 = some s) : Token.IsWord s := by
  unfold Cursor.take? at taken
  split at taken
  · cases taken
  · next t rest unread =>
    split at taken
    · next id =>
      cases taken
      have fair := spoken.tokens t (advances.rest.subset (unread ▸ List.mem_cons_self))
      exact (fair.id (of_decide_eq_true id)).1
    · cases taken

theorem mapBody (spoken : r.Spoken) {change : Body → Body} (keeps : ∀ b : Body, b.Spoken → (change b).Spoken) :
    (r.mapBody change).Spoken := by
  unfold Reader.mapBody
  split
  · exact spoken
  · next e outer opened =>
    have top := spoken.opened e (opened ▸ List.mem_cons_self)
    refine ⟨spoken.tokens, fun x member => ?_, spoken.finished⟩
    rcases List.mem_cons.1 member with rfl | other
    · exact ⟨top.head, keeps _ top.body⟩
    · exact spoken.opened x (opened ▸ List.mem_cons_of_mem e other)

theorem close (spoken : r.Spoken) : r.close.Spoken := by
  unfold Reader.close
  split
  · exact spoken
  · next e outer opened =>
    have top := spoken.opened e (opened ▸ List.mem_cons_self)
    refine add ⟨spoken.tokens, fun x member => ?_, spoken.finished⟩ top.declaration top.body.children
    exact spoken.opened x (opened ▸ List.mem_cons_of_mem e member)

theorem propsEntry {next : Reader} (spoken : r.Spoken) (entered : r.propsEntry c = .ok next)
    (forward : r.cursor.Advances next.cursor) : next.Spoken := by
  unfold Reader.propsEntry at entered
  split at entered
  · cases entered
    exact spoken.forward forward r.context
  · dsimp only at entered
    split at entered
    · cases entered
    · next props read =>
      cases entered
      rw [cursor_mapBody] at forward
      refine (spoken.forward forward _).mapBody fun body spoken =>
        ⟨?_, spoken.metadata, spoken.style, spoken.textStyle, spoken.children⟩
      obtain ⟨heard, tidy⟩ := Props.heard_read read
      intro p same
      cases Option.some.inj same
      cases own : body.props with
      | none => exact ⟨Props.Heard.merge trivial heard, Props.Tidy.merge (p := .nil) trivial tidy⟩
      | some before =>
        obtain ⟨heard', tidy'⟩ := spoken.props before own
        exact ⟨heard'.merge heard, tidy'.merge tidy⟩

theorem metadataEntry (spoken : r.Spoken) (forward : r.cursor.Advances (r.metadataEntry c).cursor) :
    (r.metadataEntry c).Spoken := by
  unfold Reader.metadataEntry at forward ⊢
  split at forward
  · exact spoken.forward forward r.context
  · next text c _ =>
    rw [cursor_mapBody] at forward
    refine (spoken.forward forward _).mapBody fun body spoken =>
      ⟨spoken.props, ?_, spoken.style, spoken.textStyle, spoken.children⟩
    obtain ⟨worded, tidy⟩ := Props.worded_readMetadata text
    intro m same
    cases Option.some.inj same
    cases own : body.metadata with
    | none => exact ⟨Props.Worded.overlay (p := .nil) trivial worded, Props.Tidy.overlay (p := .nil) trivial tidy⟩
    | some before =>
      obtain ⟨worded', tidy'⟩ := spoken.metadata before own
      exact ⟨worded'.overlay worded, tidy'.overlay tidy⟩

/-- The styles that an entry names are words. -/
theorem stylesheetEntry {line : Nat} (spoken : r.Spoken) (advances : r.cursor.Advances c)
    (forward : r.cursor.Advances (r.stylesheetEntry line c).cursor) : (r.stylesheetEntry line c).Spoken := by
  unfold Reader.stylesheetEntry at forward ⊢
  split at forward
  · exact spoken.forward forward r.context
  · next colon c' equal =>
    have behind := advances.trans (Advances.expect .colon
      (show Complaint "Expected \":\" after stylesheet:" by decide) c)
    rw [equal] at behind
    have afterStyle := behind.trans (Advances.take? (· = .id) c')
    have afterSlash := afterStyle.trans (Advances.take? (· = .slash) (c'.take? (· = .id)).2)
    have textWord (word : String) (said : (if ((c'.take? (· = .id)).2.take? (· = .slash)).1.isSome then
        ((c'.take? (· = .id)).2.take? (· = .slash)).2.take? (· = .id)
        else (Option.none, ((c'.take? (· = .id)).2.take? (· = .slash)).2)).1 = some word) : Token.IsWord word := by
      split at said
      · exact spoken.word_of_take? afterSlash said
      · cases said
    simp only [cursor_mapBody] at forward
    refine (spoken.forward forward _).mapBody fun body spoken' =>
      ⟨spoken'.props, spoken'.metadata, fun s member => ?_, fun s member => ?_, spoken'.children⟩
    · rcases Option.or_eq_some_iff.1 member with new | ⟨_, old⟩
      · exact spoken.word_of_take? behind new
      · exact spoken'.style s old
    · rcases Option.or_eq_some_iff.1 member with new | ⟨_, old⟩
      · obtain ⟨word, said, rfl⟩ := Option.map_eq_some_iff.1 new
        exact textWord word said
      · exact spoken'.textStyle s old

theorem entry {t : Token} {rest : List Token} {next : Reader} (spoken : r.Spoken)
    (advances : r.cursor.Advances ⟨rest, r.cursor.errors⟩) (entered : r.entry t rest ⟨rest, r.cursor.errors⟩ = .ok next) :
    next.Spoken := by
  have forward := advances.trans (advances_entry entered)
  unfold Reader.entry at entered
  split at entered
  · exact spoken.propsEntry entered forward
  split at entered
  · cases entered
    exact spoken.metadataEntry forward
  split at entered
  · cases entered
    exact spoken.stylesheetEntry advances forward
  · cases entered
    exact spoken.forward forward r.context

theorem step {t : Token} {rest : List Token} {next : Reader} (unread : r.cursor.rest = t :: rest)
    (stepped : r.step t rest = .ok next) (spoken : r.Spoken) : next.Spoken := by
  have tail : r.cursor.Advances ⟨rest, r.cursor.errors⟩ := .tail unread
  have forward := tail.trans (advances_step stepped)
  cases step_cases stepped with
  | newline => exact spoken.forward forward r.context
  | named _ unread => exact spoken.header _ _ (tail.trans (.tail unread))
  | anonymous =>
    have onward := spoken.forward (.refl r.cursor) { r.context with ids := r.context.ids.draw.2 }
    exact header (r := { r with context := { r.context with ids := r.context.ids.draw.2 } }) onward _ t.line tail
  | failed => exact spoken.forward forward r.context
  | closed => exact (spoken.forward tail r.context).close
  | entered _ _ entered => exact spoken.entry tail entered

theorem run {last : Reader} (read : r.run = .ok last) (spoken : r.Spoken) : last.Spoken := by
  refine run_keeps Spoken (fun s t rest next unread stepped held => held.step unread stepped) (fun s line held => ?_)
    read spoken
  exact (held.forward (.report _ line (show Complaint "Expected closing brace" by decide)) s.context).close

end Spoken
end Reader

/-- Whatever a text is, what it declares is as a text can say it. -/
theorem Parsed.spoken_ofText {rules : List Forest.Rule} {text : String} {context context' : Context} {parsed : Parsed}
    (read : ofText rules text context = (.ok parsed, context')) : parsed.forest.Spoken := by
  unfold ofText at read
  split at read
  · cases read
  · next r run =>
    cases read
    exact (Reader.Spoken.run run ⟨fun _ => Token.fair_ofText, by simp, by simp [Forest.Spoken, Forest.preorder]⟩).finished

end LiveDiagram
