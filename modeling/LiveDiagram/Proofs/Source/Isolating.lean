import LiveDiagram.Proofs.Outcome
import LiveDiagram.Proofs.Source.Following

/-! Two texts, one behind the other, are read as each of them is. Errors cost lines, not more: the first text is read to its
end as if nothing followed, and the second one as if nothing were in front of it. -/
namespace LiveDiagram

/-! The errors of the lines -/

/-- The errors that the lines of a text have on their own are on these lines. -/
theorem Token.bounded_errorsOf (text : String) :
    ∀ report ∈ (errorsOf text).reports, ∃ l : Nat, l < height text ∧ report.1 = l := by
  have follows : (lineErrors 0 .none (lines text.toList)).Follows ⟨0, (· < height text), fun _ => []⟩
      (lineErrors 0 .none (lines text.toList)) :=
    Errors.Follows.lineErrors ⟨fun _ _ => rfl, fun _ _ => rfl, nofun⟩ fun l _ high => by simpa [height] using high
  exact follows.bounded

/-- The lines of a text behind another one have the errors that they have on their own. -/
theorem Token.follows_errorsOf (text rest : String) :
    (errorsOf rest).Follows ⟨height text, fun _ => True, (errorsOf text).messages⟩ (errorsOf (text ++ "\n" ++ rest)) := by
  have start : Errors.none.Follows ⟨height text, fun _ => True, (errorsOf text).messages⟩ (errorsOf text) := by
    refine ⟨fun l _ => List.eq_nil_iff_forall_not_mem.2 fun message member => ?_, fun _ _ => rfl, nofun⟩
    obtain ⟨x, high, same⟩ := bounded_errorsOf text _ (Errors.mem_messages.1 member)
    simp only at same
    omega
  have lexed : (lineErrors 0 .none (lines rest.toList)).Follows ⟨height text, fun _ => True, (errorsOf text).messages⟩
      (lineErrors (0 + height text) (errorsOf text) (lines rest.toList)) := start.lineErrors fun _ _ _ => trivial
  rw [errorsOf_newline]
  rwa [Nat.zero_add] at lexed

/-- The lines of a text in front of another one have the errors that they have on their own. -/
theorem Token.follows_errorsOf_front (text rest : String) : (errorsOf text).Follows
    ⟨0, (· < height text), (errorsOf (text ++ "\n" ++ rest)).messages⟩ (errorsOf (text ++ "\n" ++ rest)) := by
  refine ⟨fun l low => (follows_errorsOf text rest).outside _ fun x _ => ?_, fun _ _ => rfl, bounded_errorsOf text⟩
  have low : l < height text := low
  change (l : Int) ≠ (x + height text : Nat)
  omega

/-- When the first text is read, the errors are its own and those that the lines of the second one had to begin with. -/
theorem Errors.Follows.onward {text rest : String} {e e' : Errors}
    (follows : e.Follows ⟨0, (· < Token.height text), (Token.errorsOf (text ++ "\n" ++ rest)).messages⟩ e') :
    (Token.errorsOf rest).Follows ⟨Token.height text, fun _ => True, e.messages⟩ e' := by
  have lexed := Token.follows_errorsOf text rest
  have front := Token.follows_errorsOf_front text rest
  refine ⟨fun l _ => ?_, fun l before => ?_, lexed.bounded⟩
  · rw [follows.outside _ fun x low => ?_]
    · exact lexed.inside l trivial
    · have low : x < Token.height text := low
      change ((l + Token.height text : Nat) : Int) ≠ (x + 0 : Nat)
      omega
  · have low : l < Token.height text := by
      by_contra high
      exact before (l - Token.height text).toNat trivial
        (by change l = ((l - Token.height text).toNat + Token.height text : Nat); omega)
    -- The lines of the first text, and those with a negative number, which no text has.
    by_cases natural : 0 ≤ l
    · obtain ⟨k, rfl⟩ := Int.eq_ofNat_of_zero_le natural
      exact follows.inside k (Int.ofNat_lt.1 low)
    · have elsewhere (x : Nat) (_ : x < Token.height text) : l ≠ x := by omega
      rw [follows.outside l elsewhere]
      dsimp only
      rw [lexed.outside l before, follows.messages_eq_nil elsewhere]
      exact front.messages_eq_nil elsewhere

namespace Splice

/-- The first of two texts. -/
def first (text rest : String) (e : Token) (alone whole : IdSupply) (ends : e.kind = .eof)
    (apart : ∀ t ∈ (Token.ofText rest).head?, t.kind ≠ .leftBrace) : Splice where
  offset := 0
  region := (· < Token.height text)
  others := (Token.errorsOf (text ++ "\n" ++ rest)).messages
  last := e
  behind := (Token.ofText rest).map (Token.shift (Token.height text))
  alone := alone
  whole := whole
  front := .nil
  ends := ends
  apart t member := by
    rw [List.head?_map] at member
    obtain ⟨u, first, rfl⟩ := Option.map_eq_some_iff.1 member
    exact apart u first

/-- The second of two texts, with what is read of the first one. -/
def second (n : Nat) (others : Int → List String) (e : Token) (alone whole : IdSupply) (front : Forest)
    (ends : e.kind = .eof) : Splice where
  offset := n
  region _ := True
  others := others
  last := e
  behind := [e.shift n]
  alone := alone
  whole := whole
  front := front
  ends := ends
  apart t member := by
    cases Option.some.inj member
    rw [Token.kind_shift, ends]
    nofun

end Splice

namespace Reader
open Token (ofText errorsOf height shift)
variable {text rest : String} {ids ids' : IdSupply} {c : Context} {s last : Reader}

/-- The reading of two texts has come to the second one, and the first one has been read as it is when it stands alone:
`last` is where it ends then. -/
structure Between (text rest : String) (ids ids' : IdSupply) (last s : Reader) : Prop where
  unread : s.cursor.rest = (ofText rest).map (shift (height text))
  closed : s.opened = []
  drawn : ∃ n, last.context.ids = ids.after n ∧ s.context.ids = ids'.after n
  finished : last.finished.Moved 0 ids ids' s.finished
  errors : (errorsOf rest).Follows ⟨height text, fun _ => True, last.cursor.errors.messages⟩ s.cursor.errors
  above : ∀ line : Int, height text ≤ line → last.cursor.errors.messages line = []

/-- Before the first text the reading of both is where that of the first one alone is. -/
theorem exists_follows_first (text : String) (apart : ∀ t ∈ (ofText rest).head?, t.kind ≠ .leftBrace)
    (c context : Context) :
    ∃ e ends, Follows (.first text rest e c.ids context.ids ends apart) ⟨⟨ofText text, errorsOf text⟩, c, [], .nil⟩
      ⟨⟨ofText (text ++ "\n" ++ rest), errorsOf (text ++ "\n" ++ rest)⟩, context, [], .nil⟩ := by
  obtain ⟨e, ends, tokens⟩ := Token.exists_ofText text
  refine ⟨e, ends, ⟨⟨0, rfl, rfl⟩, .nil, .nil, rfl, .nil⟩, Token.ofLines 0 (Token.lines text.toList), tokens, ?_,
    Token.whole_ofLines, ?_, Token.follows_errorsOf_front text rest⟩
  · rw [Splice.first, Token.map_shift_zero]
    exact Token.ofText_newline text rest
  · intro t member
    have low : t.line < height text := by simpa [height] using Token.line_lt_of_mem_ofLines member
    exact low

/-- The first text is read to its end if all its bodies are closed there. -/
theorem exists_between (read : (Reader.mk ⟨ofText text, errorsOf text⟩ c [] .nil).run = .ok last)
    (closed : ∀ line, (line, "Expected closing brace") ∉ last.cursor.errors.reports)
    (apart : ∀ t ∈ (ofText rest).head?, t.kind ≠ .leftBrace) (context : Context) :
    ∃ s, (Reader.mk ⟨ofText (text ++ "\n" ++ rest), errorsOf (text ++ "\n" ++ rest)⟩ context [] .nil).run = s.run ∧
      Between text rest c.ids context.ids last s := by
  obtain ⟨e, ends, start⟩ := exists_follows_first text apart c context
  obtain ⟨s, s', _, unread, follows, rfl, same⟩ := start.run read
  have done : s.opened = [] := by
    cases opened : s.opened with
    | nil => rfl
    | cons x outer =>
      rw [opened] at closed
      exact (closed _ mem_closeAll).elim
  rw [done]
  obtain ⟨⟨drawn, opened, f, finished, moved⟩, body, tracks⟩ := follows
  refine ⟨s', same, unread, List.forall₂_nil_left_iff.1 (done ▸ opened), drawn, finished ▸ moved, tracks.errors.onward, ?_⟩
  intro line high
  refine tracks.errors.messages_eq_nil fun x low => ?_
  have low : x < height text := low
  omega

/-- The second text is read to its end. -/
theorem exists_behind (read : (Reader.mk ⟨ofText rest, errorsOf rest⟩ c [] .nil).run = .ok last) {n : Nat}
    {others : Int → List String} (unread : s.cursor.rest = (ofText rest).map (shift n)) (closed : s.opened = [])
    (errors : (errorsOf rest).Follows ⟨n, fun _ => True, others⟩ s.cursor.errors) :
    ∃ last' f, s.run = .ok last' ∧ last'.finished = s.finished ++ f ∧ last.finished.Moved n c.ids s.context.ids f ∧
      last.cursor.errors.Follows ⟨n, fun _ => True, others⟩ last'.cursor.errors := by
  obtain ⟨e, ends, tokens⟩ := Token.exists_ofText rest
  have start : Follows (.second n others e c.ids s.context.ids s.finished ends)
      ⟨⟨ofText rest, errorsOf rest⟩, c, [], .nil⟩ s := by
    refine ⟨⟨⟨0, rfl, rfl⟩, ?_, .nil, (Forest.append_nil _).symm, .nil⟩, Token.ofLines 0 (Token.lines rest.toList), tokens,
      ?_, Token.whole_ofLines, fun _ _ => trivial, errors⟩
    · rw [closed]
      exact .nil
    · rw [unread, tokens, List.map_append]
      rfl
  obtain ⟨t, t', _, behind, follows, rfl, same⟩ := start.run read
  have ended : Follows _ (t.closeAll e.line t.opened) (t'.closeAll (e.line + n) t'.opened) :=
    follows.closeAll follows.opened.length_eq trivial
  obtain ⟨⟨_, _, f, finished, moved⟩, body, tracks⟩ := ended
  exact ⟨_, f, same.trans (run_ends behind ends), finished, moved, tracks.errors⟩

end Reader

namespace Parsed
variable {text rest : String} {a b : Parsed} {c₁ c₁' c₂ c₂' : Context}

/-- A text behind another one is read as when it stands alone, and so is the text in front of it. -/
theorem isolates (read : ofText [] text c₁ = (.ok a, c₁')) (read' : ofText [] rest c₂ = (.ok b, c₂'))
    (closed : ∀ line, (line, "Expected closing brace") ∉ a.errors.reports)
    (apart : ∀ t ∈ (Token.ofText rest).head?, t.kind ≠ .leftBrace) (context : Context) :
    ∃ all context' drawn f g, ofText [] (text ++ "\n" ++ rest) context = (.ok all, context') ∧
      all.forest = f ++ g ∧ a.forest.Moved 0 c₁.ids context.ids f ∧ c₁'.ids = c₁.ids.after drawn ∧
      b.forest.Moved (Token.height text) c₂.ids (context.ids.after drawn) g ∧
      ∀ line, all.errors.messages line = a.errors.messages line ++ b.errors.messages (line - Token.height text) := by
  obtain ⟨last, run, rfl, rfl⟩ := gives_ofText.1 read
  obtain ⟨last', run', rfl, rfl⟩ := gives_ofText.1 read'
  obtain ⟨s, same, between⟩ := Reader.exists_between run closed apart context
  obtain ⟨all, g, whole, finished, moved, errors⟩ := Reader.exists_behind run' between.unread between.closed between.errors
  obtain ⟨drawn, own, ids⟩ := between.drawn
  refine ⟨_, _, drawn, s.finished, g, gives_ofText.2 ⟨all, same.trans whole, rfl, rfl⟩, finished, between.finished, own,
    ids ▸ moved, fun line => ?_⟩
  by_cases high : Token.height text ≤ line
  · obtain ⟨l, rfl⟩ : ∃ l : Nat, line = (l + Token.height text : Nat) := ⟨(line - Token.height text).toNat, by omega⟩
    have shifted : ((l + Token.height text : Nat) : Int) - Token.height text = l := by omega
    rw [shifted, between.above _ high, List.nil_append]
    exact errors.inside l trivial
  · have none : last'.cursor.errors.messages (line - Token.height text) = [] := errors.messages_eq_nil fun x _ => by omega
    rw [none, List.append_nil]
    refine errors.outside line fun x _ => ?_
    change line ≠ (x + Token.height text : Nat)
    omega

/-- Errors in a body of the first text and in the second one, each with an element without an id. -/
theorem isolates_malformed :
    ∃ (context c c' : Context) (a all : Parsed) (f g : Forest),
      ofText [] "a: rect \x7b\n  props \"x\"\n  : edge a -> b \x7d\n\x7d" context = (.ok a, c) ∧
        ofText [] ("a: rect \x7b\n  props \"x\"\n  : edge a -> b \x7d\n\x7d" ++ "\n" ++ "b rect\n: rect \"B") context =
          (.ok all, c') ∧
        all.forest = f ++ g ∧ a.forest.Moved 0 context.ids context.ids f ∧
        (Forest.cons ⟨"*", 1, .node "rect" (some "B") none, none, none, none⟩ .nil .nil).Moved 4 context.ids
          (context.ids.after 1) g ∧
        all.errors.messages 1 = ["Expected \":\" after props:"] ∧
        all.errors.messages 5 = ["Unterminated string literal"] := by
  let text := "a: rect \x7b\n  props \"x\"\n  : edge a -> b \x7d\n\x7d"
  let rest := "b rect\n: rect \"B"
  let context : Context := ⟨⟨fun n => String.ofList (List.replicate (n + 1) '*'), 0⟩, []⟩
  obtain ⟨a, read, seen⟩ := exists_gives (e := ofText [] text) (t := context)
    (fun a => decide (a.errors.reports =
      [(1, "Expected \":\" after props:"), (2, "Unexpected token after edge definition")])) (by decide +kernel)
  obtain ⟨b, read', seen'⟩ := exists_gives (e := ofText [] rest) (t := context)
    (fun b => decide (b.forest = .cons ⟨"*", 1, .node "rect" (some "B") none, none, none, none⟩ .nil .nil ∧
      b.errors.reports = [(1, "Unterminated string literal"), (0, "Expected \":\" after element ID")])) (by decide +kernel)
  have errors := of_decide_eq_true seen
  obtain ⟨forest, errors'⟩ := of_decide_eq_true seen'
  obtain ⟨all, c', drawn, f, g, whole, parts, first, ids, second, messages⟩ := isolates read read'
    (fun line open' => by rw [errors] at open'; simp at open') (by decide +kernel) context
  have one : drawn = 1 := by
    have used : (ofText [] text context).2.ids.used = 1 := by decide +kernel
    have same := congrArg IdSupply.used ids
    change (ofText [] text context).2.ids.used = 0 + drawn at same
    omega
  have height : Token.height text = 4 := by decide +kernel
  rw [one, height, forest] at second
  rw [height] at messages
  refine ⟨context, _, c', a, all, f, g, read, whole, parts, first, second, ?_, ?_⟩
  · rw [messages, Errors.messages, Errors.messages, errors, errors']
    decide
  · rw [messages, Errors.messages, Errors.messages, errors, errors']
    decide

end Parsed
end LiveDiagram
