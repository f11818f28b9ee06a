import LiveDiagram.Proofs.Source.Isolating
import LiveDiagram.Proofs.Source.Looping
import LiveDiagram.Proofs.Source.Starting

/-! The reading of a text stays in the text. Its loops end and take a token with each round, the end is never passed, all errors
are on lines of the text, and the elements stand in the forest in the order of their first tokens, on the lines of these. -/
namespace LiveDiagram

namespace Reader
open Token (ofText height)
variable {p : Splice} {r r' s last : Reader} {text : String} {context : Context}

/-- Whatever steps lead to, the other reading gets there as well. -/
theorem Follows.reaches (follows : r.Follows p r') (reaches : r.Reaches s) : ∃ s', s.Follows p s' := by
  induction reaches generalizing r' with
  | refl => exact ⟨r', follows⟩
  | step unread proper stepped _ ih =>
    obtain ⟨_, next', _, _, onward⟩ := follows.step unread proper stepped
    exact ih onward

theorem depth_closeAll (line : Nat) (open' : List OpenElement) (r : Reader) :
    (r.closeAll line open').opened.length = r.opened.length - open'.length := by
  induction open' generalizing r with
  | nil => rfl
  | cons e outer ih =>
    rw [closeAll, ih, depth_close, List.length_cons, Nat.sub_sub, Nat.add_comm]

/-- The reading of a text, as it is followed by that of the same text with a line more. -/
theorem exists_follows_outset (text : String) (context : Context) : ∃ (p : Splice) (r' : Reader),
    (Parsed.outset text context).Follows p r' ∧ ∀ line, p.region line ↔ line < height text := by
  -- An empty line does not begin with a brace.
  have apart : ∀ t ∈ (ofText "").head?, t.kind ≠ .leftBrace := by decide +kernel
  obtain ⟨e, ends, follows⟩ := exists_follows_first text apart context context
  exact ⟨_, _, follows, fun _ => Iff.rfl⟩

/-- A reader that steps lead to stands in the text or at its end. -/
theorem tail_of_reaches (reaches : (Parsed.outset text context).Reaches r) :
    ∃ e, e.kind = .eof ∧ Token.Tail e r.cursor.rest := by
  obtain ⟨p, _, start, _⟩ := exists_follows_outset text context
  obtain ⟨_, follows⟩ := start.reaches reaches
  obtain ⟨body, tracks⟩ := follows.cursor
  exact ⟨p.last, p.ends, body, tracks.rest, tracks.whole⟩

/-- Where the reading of a text ends, all bodies are closed and all errors are on lines of the text. -/
theorem confined_of_run (read : (Parsed.outset text context).run = .ok last) :
    last.opened = [] ∧ ∀ report ∈ last.cursor.errors.reports, ∃ line : Nat, line < height text ∧ report.1 = line := by
  obtain ⟨p, r', start, region⟩ := exists_follows_outset text context
  obtain ⟨body, begins⟩ := start.cursor
  have tokens : ofText text = body ++ [p.last] := begins.rest
  have low : p.last.line < height text := Token.line_lt_of_mem_ofText (by simp [tokens])
  obtain ⟨s, s', _, _, follows, rfl, _⟩ := start.run read
  have ended := follows.closeAll follows.opened.length_eq ((region p.last.line).2 low)
  obtain ⟨_, tracks⟩ := ended.cursor
  refine ⟨List.length_eq_zero_iff.1 ?_, fun report member => ?_⟩
  · rw [depth_closeAll, Nat.sub_self]
  · obtain ⟨line, own, place⟩ := tracks.errors.bounded report member
    exact ⟨line, (region line).1 own, place⟩

end Reader

theorem Errors.mem_foldl_merge {rules : List Forest.Rule} {f : Forest} {e : Errors} {report : Int × String} :
    report ∈ (rules.foldl (fun errors rule => errors.merge (rule f)) e).reports ↔
      report ∈ e.reports ∨ ∃ rule ∈ rules, report ∈ rule f := by
  induction rules generalizing e with
  | nil => simp
  | cons rule rules ih => simp only [List.foldl_cons, ih, mem_merge_iff, List.exists_mem_cons_iff, or_assoc]

/-- The rule against repeated ids reports lines of elements only. -/
theorem Forest.exists_of_mem_repeatedIds {f : Forest} {report : Int × String} (member : report ∈ f.repeatedIds) :
    ∃ d ∈ f.preorder, report.1 = d.line := by
  obtain ⟨x, _, ⟨_, d, own, _, line⟩, _⟩ := mem_repeatedIds_iff.1 member
  exact ⟨d, own, line.symm⟩

namespace Parsed
open Reader (Round)
open Props (Overflows)
open Token (height)

/-- A text is read unless the reading comes to a line of props that overflows. Wherever the reading has come to, it is in front
of the end, and was so all the way, as it only goes forward. Each round of the innermost loop takes a token; while the loop is
not over it has one round more, and after some rounds it is over, in the body where it began unless the text ends. All errors
are on lines of the text, unless a rule other than the one against repeated ids reports them. The elements have the lines of
their first tokens, which stand in the text one behind the other, so that from one element to the next the line does not go
down. -/
theorem stays_within (rules : List Forest.Rule) (text : String) (context : Context)
    (fits : ∀ said digits, Meets text context said → ¬Overflows said digits) :
    (∀ r, (outset text context).Reaches r →
        (∃ e, e.kind = .eof ∧ Token.Tail e r.cursor.rest) ∧ r.cursor.rest <:+ Token.ofText text ∧
        (∀ s, r.Round s → s.cursor.rest.length < r.cursor.rest.length) ∧ (¬r.AtEnd → ∃ s, r.Round s) ∧
        ∃ s, Relation.ReflTransGen Round r s ∧ s.AtEnd ∧ (s.opened.length = r.opened.length ∨ s.cursor.kind = .eof)) ∧
      ∃ parsed context', ofText rules text context = (.ok parsed, context') ∧
        (∀ report ∈ parsed.errors.reports, (∃ line : Nat, line < height text ∧ report.1 = line) ∨
          ∃ rule ∈ rules, rule ≠ Forest.repeatedIds ∧ report ∈ rule parsed.forest) ∧
        Grammar.Headers (Token.ofText text) parsed.forest.preorder [] ∧
        parsed.forest.preorder.Pairwise (·.line ≤ ·.line) := by
  constructor
  · intro r reaches
    have fits : r.Fits := fun s said digits onward meets => fits said digits ⟨s, reaches.trans onward, meets⟩
    exact ⟨Reader.tail_of_reaches reaches, reaches.suffix, fun _ => Round.length_lt, Reader.exists_round fits,
      Reader.exists_loop fits⟩
  · obtain ⟨last, read⟩ : ∃ last, (outset text context).run = .ok last := by
      rcases Reader.run_ends_or_overflows (outset text context) with
        ⟨read, _⟩ | ⟨r, said, digits, _, _, reaches, here, excess⟩
      · exact read
      · exact (fits said digits ⟨r, reaches, here⟩ excess).elim
    obtain ⟨closed, bounded⟩ := Reader.confined_of_run read
    -- At the end all bodies are closed, so that what the reader has come to is the forest.
    have headers : Grammar.Headers (Token.ofText text) last.finished.preorder [] := by
      have come : Grammar.Headers (Token.ofText text) last.headers last.cursor.rest :=
        Reader.headers_run read (.nil (List.suffix_refl _))
      rw [Reader.headers, closed, List.reverse_nil, List.flatMap_nil, List.append_nil] at come
      exact come.of_header.forward List.nil_suffix
    refine ⟨⟨last.finished, _⟩, last.context, by rw [ofText_eq, read], fun report member => ?_, headers,
      headers.pairwise_line (Token.pairwise_line_ofText text)⟩
    rcases Errors.mem_foldl_merge.1 member with own | ⟨rule, listed, given⟩
    · exact .inl (bounded report own)
    · by_cases known : rule = Forest.repeatedIds
      · obtain ⟨d, declared, line⟩ := Forest.exists_of_mem_repeatedIds (known ▸ given)
        obtain ⟨t, inside, same⟩ := headers.exists_mem declared
        exact .inl ⟨d.line, same ▸ Token.line_lt_of_mem_ofText inside, line⟩
      · exact .inr ⟨rule, listed, known, given⟩

/-- A text with malformed lines, one of them in a body. -/
theorem stays_within_malformed : ∃ text context parsed context',
    text = "a: rect \x7b\n  props: \"x=1\"\n  : edge a -> b c\n\x7d\nb rect\nc: rect" ∧
      (∀ said digits, Meets text context said → ¬Overflows said digits) ∧
      ofText standardRules text context = (.ok parsed, context') ∧
      (∃ s, Relation.ReflTransGen Round (outset text context) s ∧ s.AtEnd) ∧
      parsed.errors.reports.map Prod.fst = [2, 4] ∧
      (∀ report ∈ parsed.errors.reports, ∃ line : Nat, line < height text ∧ report.1 = line) ∧
      parsed.forest.preorder.map Declaration.line = [0, 2, 5] ∧
      Grammar.Headers (Token.ofText text) parsed.forest.preorder [] ∧ parsed.forest.preorder.Pairwise (·.line ≤ ·.line) := by
  let text := "a: rect \x7b\n  props: \"x=1\"\n  : edge a -> b c\n\x7d\nb rect\nc: rect"
  let context : Context := ⟨⟨fun _ => "*", 0⟩, []⟩
  obtain ⟨parsed, read, seen⟩ := exists_read standardRules text context (fun parsed =>
    parsed.errors.reports.map Prod.fst = [2, 4] ∧ parsed.forest.preorder.map Declaration.line = [0, 2, 5])
    (by decide +kernel)
  obtain ⟨errors, lines⟩ := of_decide_eq_true seen
  have fits : ∀ said digits, Meets text context said → ¬Overflows said digits := by
    rcases reads_or_overflows standardRules text context with ⟨_, fits⟩ | ⟨_, _, _, stopped, _⟩
    · exact fits
    · cases read.symm.trans stopped
  obtain ⟨stands, parsed', context', read', bounded, headers, ordered⟩ := stays_within standardRules text context fits
  cases read.symm.trans read'
  obtain ⟨_, _, _, _, s, rounds, atEnd, _⟩ := stands _ (.refl _)
  refine ⟨text, context, parsed, _, rfl, fits, read, ⟨s, rounds, atEnd⟩, errors, fun report member => ?_, lines, headers,
    ordered⟩
  rcases bounded report member with own | ⟨rule, listed, other, _⟩
  · exact own
  · exact (other (List.mem_singleton.1 listed)).elim

end Parsed
end LiveDiagram
