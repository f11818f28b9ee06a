import LiveDiagram.Proofs.Document.Entries
import LiveDiagram.Proofs.Props.Overlong
import LiveDiagram.Proofs.Source.Deriving
import LiveDiagram.Proofs.Source.Distinct

/-! Whether the reading of a text ends. Malformed text is reported or passed over, with one exception: a line of props in an
open body that overflows stops the reading. A step stops there and nowhere else, hence so does a run. -/
namespace LiveDiagram

namespace Reader
open Cursor (Advances)
open Props (Overflows)
variable {r s next : Reader} {t : Token} {rest : List Token} {said : String} {fault : Fault}

/-- The reader stands in an open body before an entry with this line of props. -/
structure Meets (r : Reader) (said : String) : Prop where
  opened : r.opened ≠ []
  unread : ∃ t rest, Grammar.Keyword "props" r.cursor.rest (t :: rest) ∧ t.kind = .string ∧ t.value = said

/-- Steps lead from one reader to another. -/
inductive Reaches : Reader → Reader → Prop
  | refl (r : Reader) : Reaches r r
  | step {r next last : Reader} {t : Token} {rest : List Token} : r.cursor.rest = t :: rest → t.kind ≠ .eof →
      r.step t rest = .ok next → Reaches next last → Reaches r last

/-- What is met later was there from the start. -/
theorem Reaches.suffix (reaches : Reaches r s) : s.cursor.rest <:+ r.cursor.rest := by
  induction reaches with
  | refl => exact List.suffix_refl _
  | step unread _ stepped _ ih =>
    have onward := (Advances.tail unread).trans (advances_step stepped)
    exact ih.trans onward.rest

theorem Meets.mem {said : String} (meets : r.Meets said) : ∃ t ∈ r.cursor.rest, t.kind = .string ∧ t.value = said := by
  obtain ⟨_, t, rest, front, string, value⟩ := meets
  refine ⟨t, ?_, string, value⟩
  generalize r.cursor.rest = tokens at front
  cases front with
  | keyword => simp

/-- An entry of props is the only one that can stop the reader, and does so where its text overflows. -/
theorem propsEntry_ends (r : Reader) (c : Cursor) :
    ((∃ next, r.propsEntry c = .ok next) ∧
        ∀ text behind digits, entryText "props" c = (some text, behind) → ¬Overflows text digits) ∨
      ∃ text behind digits context, r.propsEntry c = .error (.tooManyDigits digits, context) ∧
        entryText "props" c = (some text, behind) ∧ Overflows text digits := by
  unfold propsEntry
  cases given : entryText "props" c with
  | mk text behind =>
    cases text with
    | none => exact .inl ⟨⟨_, rfl⟩, fun _ _ _ same => nomatch same⟩
    | some text =>
      rcases Props.read_ends text with ⟨⟨p, read⟩, fits⟩ | ⟨digits, failed, excess⟩
      · dsimp only
        rw [read]
        refine .inl ⟨⟨_, rfl⟩, fun other _ digits same => ?_⟩
        cases same
        exact fits digits
      · dsimp only
        rw [failed]
        exact .inr ⟨text, behind, digits, _, rfl, rfl, excess⟩

/-- The text of an entry is a string behind the colon. -/
theorem exists_of_entryText {keyword text : String} {c behind : Cursor} (given : entryText keyword c = (some text, behind)) :
    ∃ k t rest, c.rest = k :: t :: rest ∧ k.kind = .colon ∧ t.kind = .string ∧ t.value = text := by
  obtain ⟨tokens, errors⟩ := c
  rw [entryText] at given
  rcases tokens with _ | ⟨k, tokens⟩
  · cases given
  by_cases colon : k.kind = .colon
  · rw [Cursor.expect, take?_cons, if_pos (by simpa using colon)] at given
    dsimp only at given
    rcases tokens with _ | ⟨t, tokens⟩
    · cases given
    by_cases string : t.kind = .string
    · rw [Cursor.expect, take?_cons, if_pos (by simpa using string)] at given
      cases given
      exact ⟨k, t, tokens, rfl, colon, string, rfl⟩
    · rw [Cursor.expect, take?_cons, if_neg (by simpa using string)] at given
      cases given
  · rw [Cursor.expect, take?_cons, if_neg (by simpa using colon)] at given
    cases given

/-- A step can be made unless the reader meets a line of props that overflows. -/
theorem step_ends (unread : r.cursor.rest = t :: rest) :
    ((∃ next, r.step t rest = .ok next) ∧ ∀ said digits, r.Meets said → ¬Overflows said digits) ∨
      ∃ said digits context, r.step t rest = .error (.tooManyDigits digits, context) ∧ r.Meets said ∧
        Overflows said digits := by
  by_cases entry : r.opened ≠ [] ∧ t.kind = .keyword ∧ t.value = "props"
  · obtain ⟨opened, keyword, props⟩ := entry
    rw [step_entry opened keyword, Reader.entry, if_pos props]
    rcases propsEntry_ends r { r.cursor with rest := rest } with ⟨stepped, fits⟩ | ⟨text, behind, digits, context, failed, given, excess⟩
    · refine .inl ⟨stepped, fun said digits meets => ?_⟩
      obtain ⟨_, string, behind, front, kind, rfl⟩ := meets
      rw [unread] at front
      exact fits _ _ digits (entryText_of_keyword front kind "props" _)
    · obtain ⟨k, string, behind, same, colon, kind, value⟩ := exists_of_entryText given
      refine .inr ⟨text, digits, context, failed, ⟨opened, string, behind, ?_, kind, value⟩, excess⟩
      rw [unread, show rest = k :: string :: behind from same]
      exact .keyword keyword props colon
  · apply Or.inl
    constructor
    · unfold step
      dsimp only
      split
      · exact ⟨_, rfl⟩
      split
      · exact ⟨_, rfl⟩
      split
      · exact ⟨_, rfl⟩
      split
      · exact ⟨_, rfl⟩
      split
      · exact ⟨_, rfl⟩
      split
      · next inside _ keyword =>
        have other : t.value ≠ "props" := fun props => entry ⟨by simpa using inside, keyword, props⟩
        unfold Reader.entry
        rw [if_neg other]
        split
        · exact ⟨_, rfl⟩
        split
        · exact ⟨_, rfl⟩
        · exact ⟨_, rfl⟩
      · exact ⟨_, rfl⟩
    · intro said digits meets
      obtain ⟨opened, string, behind, front, _, _⟩ := meets
      rw [unread] at front
      cases front with
      | keyword keyword props _ => exact (entry ⟨opened, keyword, props⟩).elim

/-- A line of props that cannot be read stops the reader that meets it. -/
theorem Meets.halts (meets : r.Meets said) (failed : Props.read said = .error fault) :
    ∃ context', r.run = .error (fault, context') := by
  obtain ⟨opened, t, rest, front, string, rfl⟩ := meets
  generalize unread : r.cursor.rest = tokens at front
  have front' := front
  cases front with
  | @keyword k c _ keyword props colon =>
    refine ⟨r.context.note (Props.readNotes t.value), run_halts unread (by simp [keyword]) ?_⟩
    rw [step_entry opened keyword, entry, if_pos props, propsEntry, entryText_of_keyword front' string]
    dsimp only
    rw [failed]

/-- A reader that has come to the end closes what is open. -/
theorem run_of_ended (ended : ∀ t rest, r.cursor.rest = t :: rest → t.kind = .eof) : ∃ last, r.run = .ok last := by
  cases unread : r.cursor.rest with
  | nil => exact ⟨_, run_nil unread⟩
  | cons t rest => exact ⟨_, run_ends unread (ended t rest unread)⟩

/-- A reader that has come to the end meets nothing. -/
theorem not_meets_of_ended (ended : ∀ t rest, r.cursor.rest = t :: rest → t.kind = .eof) (said : String) : ¬r.Meets said := by
  rintro ⟨_, string, behind, front, _, _⟩
  generalize unread : r.cursor.rest = tokens at front
  cases front with
  | keyword keyword _ _ =>
    rw [ended _ _ unread] at keyword
    cases keyword

/-- Reading ends unless the reader comes to a line of props that overflows. -/
theorem run_ends_or_overflows (r : Reader) :
    ((∃ last, r.run = .ok last) ∧ ∀ s said digits, r.Reaches s → s.Meets said → ¬Overflows said digits) ∨
      ∃ s said digits context, r.run = .error (.tooManyDigits digits, context) ∧ r.Reaches s ∧ s.Meets said ∧
        Overflows said digits := by
  -- By what is left to read. The next step overflows itself, or whatever overflows is met from where it leads.
  induction size : r.cursor.rest.length using Nat.strongRecOn generalizing r with
  | _ n ih =>
    by_cases ended : ∀ t rest, r.cursor.rest = t :: rest → t.kind = .eof
    · apply Or.inl
      constructor
      · exact run_of_ended ended
      · intro s said digits reaches meets
        cases reaches with
        | refl => exact (not_meets_of_ended ended said meets).elim
        | step unread proper _ _ => exact (proper (ended _ _ unread)).elim
    · obtain ⟨t, rest, unread, proper⟩ : ∃ t rest, r.cursor.rest = t :: rest ∧ t.kind ≠ .eof := by
        by_contra none
        exact ended fun t rest unread => by_contra fun proper => none ⟨t, rest, unread, proper⟩
      rcases step_ends unread with ⟨⟨next, stepped⟩, fits⟩ | ⟨said, digits, context, halted, meets, excess⟩
      · have shorter : next.cursor.rest.length < n := size ▸ length_step_lt unread stepped
        rw [run_step unread proper stepped]
        rcases ih _ shorter next rfl with ⟨read, others⟩ | ⟨s, said, digits, context, halted, reaches, late⟩
        · refine .inl ⟨read, fun s said digits reaches meets => ?_⟩
          cases reaches with
          | refl => exact fits said digits meets
          | step unread' _ stepped' reaches =>
            cases unread.symm.trans unread'
            cases stepped.symm.trans stepped'
            exact others s said digits reaches meets
        · exact .inr ⟨s, said, digits, context, halted, .step unread proper stepped reaches, late⟩
      · exact .inr ⟨r, said, digits, context, run_halts unread proper halted, .refl r, meets, excess⟩

/-- A line of props that cannot be read stops the reader in an open body. -/
theorem run_props_halts {text : List Char} (opened : r.opened ≠ []) (failed : Props.read said = .error fault)
    (spells : Token.Spells text [(.keyword, "props"), (.colon, ":"), (.string, said)]) (line : Nat) (more : List Token) :
    ∃ context', (r.before (Token.ofLine line text ++ more)).run = .error (fault, context') := by
  have shows := spells.shows line 0
  have entry : Token.ofLine line text = Token.among line (Token.pieces 0 text) ++ [lineEnd line text.length] := rfl
  rw [entry]
  generalize Token.among line (Token.pieces 0 text) = tokens at shows
  rcases shows with _ | ⟨⟨a, rfl⟩, _ | ⟨⟨b, rfl⟩, _ | ⟨⟨c, rfl⟩, none⟩⟩⟩
  cases none
  exact Meets.halts ⟨opened, _, _, .keyword rfl rfl rfl, rfl, rfl⟩ failed

end Reader

theorem Quoted.quote_plain {text : String} (plain : ∀ c ∈ text.toList, c ≠ '\\' ∧ c ≠ '"' ∧ c ≠ '\n') :
    quote text = "\"" ++ text ++ "\"" := by
  have same : text.toList.flatMap encodeChar = text.toList := by
    generalize text.toList = chars at plain
    induction chars with
    | nil => rfl
    | cons c chars ih =>
      obtain ⟨backslash, quote, newline⟩ := plain c List.mem_cons_self
      rw [List.flatMap_cons, ih fun x member => plain x (List.mem_cons_of_mem c member), encodeChar, if_neg backslash,
        if_neg quote, if_neg newline]
      rfl
  apply String.toList_injective
  rw [quote, same]
  simp

namespace Parsed
open Reader
open Token (Spells)
open Props (Overflows)
variable {text said : String} {context : Context} {fault : Fault}

/-- The reader before a text. -/
def outset (text : String) (context : Context) : Reader :=
  ⟨⟨Token.ofText text, Token.errorsOf text⟩, context, [], .nil⟩

theorem ofText_eq (rules : List Forest.Rule) (text : String) (context : Context) :
    ofText rules text context = match (outset text context).run with
      | .error (fault, context') => (.error fault, context')
      | .ok r => (.ok ⟨r.finished, rules.foldl (fun errors rule => errors.merge (rule r.finished)) r.cursor.errors⟩,
          r.context) := rfl

/-- The reading of a text comes to this line of props in an open body. -/
def Meets (text : String) (context : Context) (said : String) : Prop :=
  ∃ r, (outset text context).Reaches r ∧ r.Meets said

/-- The line of props is a string of the text. -/
theorem Meets.mem (meets : Meets text context said) : ∃ t ∈ Token.ofText text, t.kind = .string ∧ t.value = said := by
  obtain ⟨r, reaches, here⟩ := meets
  obtain ⟨t, member, string⟩ := here.mem
  exact ⟨t, reaches.suffix.subset member, string⟩

/-- Every text is read to its end, unless the reading comes to a line of props that overflows. There it stops, and names the
number of digits that are too many. -/
theorem reads_or_overflows (rules : List Forest.Rule) (text : String) (context : Context) :
    ((∃ parsed context', ofText rules text context = (.ok parsed, context')) ∧
        ∀ said digits, Meets text context said → ¬Overflows said digits) ∨
      ∃ said digits context', ofText rules text context = (.error (.tooManyDigits digits), context') ∧
        Meets text context said ∧ Overflows said digits ∧
        ∃ t ∈ Token.ofText text, t.kind = .string ∧ t.value = said := by
  rcases run_ends_or_overflows (outset text context) with ⟨⟨last, read⟩, fits⟩ | ⟨r, said, digits, context', halted, reaches, here, excess⟩
  · apply Or.inl
    constructor
    · rw [ofText_eq, read]
      exact ⟨_, _, rfl⟩
    · rintro said digits ⟨r, reaches, here⟩
      exact fits r said digits reaches here
  · have meets : Meets text context said := ⟨r, reaches, here⟩
    refine .inr ⟨said, digits, context', ?_, meets, excess, meets.mem⟩
    rw [ofText_eq, halted]

/-- A line of props that cannot be read, in the body of a node. -/
theorem stops_at_props {said : String} {fault : Fault} (failed : Props.read said = .error fault) (rules : List Forest.Rule)
    (context : Context) :
    ∃ context', ofText rules ("\n".intercalate ["a: rect \x7b", "  props: " ++ Quoted.quote said, "\x7d"]) context =
      (.error fault, context') := by
  have entry : Spells ("  props: " ++ Quoted.quote said).toList [(.keyword, "props"), (.colon, ":"), (.string, said)] := by
    simpa [String.toList_append] using (spells_props said).space.space
  have cut : Token.lines ("\n".intercalate ["a: rect \x7b", "  props: " ++ Quoted.quote said, "\x7d"]).toList =
      ["a: rect \x7b", "  props: " ++ Quoted.quote said, "\x7d"].map String.toList := by
    apply Token.lines_joined (List.cons_ne_nil _ _)
    simp only [List.forall_mem_cons]
    exact ⟨by decide, entry.unbroken, by decide, nofun⟩
  have header : Token.ofLine 0 "a: rect \x7b".toList =
      [⟨.id, "a", 0, 0⟩, ⟨.colon, ":", 0, 1⟩, ⟨.id, "rect", 0, 3⟩, ⟨.leftBrace, "\x7b", 0, 8⟩] ++ [lineEnd 0 9] := by
    decide +kernel
  obtain ⟨more, unread⟩ : ∃ more, Token.ofText ("\n".intercalate ["a: rect \x7b", "  props: " ++ Quoted.quote said, "\x7d"]) =
      Token.ofLine 0 "a: rect \x7b".toList ++ (Token.ofLine 1 ("  props: " ++ Quoted.quote said).toList ++ more) := by
    unfold Token.ofText
    rw [cut]
    refine ⟨Token.ofLines 2 ["\x7d".toList] ++ [⟨.eof, "", 2, 1⟩], ?_⟩
    simp [Token.ofLines]
  have shows : List.Forall₂ (Token.Shows 0) ((.id, "a") :: (.colon, ":") :: (.id, "rect") :: (quoted none ++ brace true))
      [⟨.id, "a", 0, 0⟩, ⟨.colon, ":", 0, 1⟩, ⟨.id, "rect", 0, 3⟩, ⟨.leftBrace, "\x7b", 0, 8⟩] :=
    .cons ⟨0, rfl⟩ (.cons ⟨1, rfl⟩ (.cons ⟨3, rfl⟩ (.cons ⟨8, rfl⟩ .nil)))
  have opens (r : Reader) (more : List Token) : (r.before (Token.ofLine 0 "a: rect \x7b".toList ++ more)).run =
      ((r.before more).headed ⟨"a", 0, .node "rect" none none, none, .empty⟩ true).run := by
    rw [header, List.append_assoc]
    exact run_node rfl (.inl rfl) (by decide) shows
  generalize "\n".intercalate ["a: rect \x7b", "  props: " ++ Quoted.quote said, "\x7d"] = text at unread ⊢
  obtain ⟨context', halted⟩ :=
    run_props_halts (r := (outset text context).headed ⟨"a", 0, .node "rect" none none, none, .empty⟩ true)
      (List.cons_ne_nil _ _) failed entry 1 more
  have run : (outset text context).run = .error (fault, context') :=
    calc (outset text context).run
      _ = ((outset text context).before (Token.ofText text)).run := rfl
      _ = _ := by
        rw [unread, opens]
        exact halted
  refine ⟨context', ?_⟩
  rw [ofText_eq, run]

/-- A whole number with too many digits, in a text that is malformed in no other way. -/
theorem stops_at_digits {digits : List Char} (all : ∀ c ∈ digits, c.isDigit = true)
    (many : Fault.digitLimit < digits.length) (rules : List Forest.Rule) (context : Context) :
    ∃ context', ofText rules ("a: rect \x7b\n  props: \"x=" ++ String.ofList digits ++ "\"\n\x7d") context =
      (.error (.tooManyDigits digits.length), context') := by
  have quoted : Quoted.quote ("x=" ++ String.ofList digits) = "\"" ++ ("x=" ++ String.ofList digits) ++ "\"" := by
    apply Quoted.quote_plain
    intro c member
    simp only [String.toList_append, String.toList_ofList, List.mem_append] at member
    rcases member with front | digit
    · revert c
      decide
    · refine ⟨?_, ?_, ?_⟩ <;> rintro rfl <;> cases all _ digit
  have same : "a: rect \x7b\n  props: \"x=" ++ String.ofList digits ++ "\"\n\x7d" =
      "\n".intercalate ["a: rect \x7b", "  props: " ++ Quoted.quote ("x=" ++ String.ofList digits), "\x7d"] := by
    rw [quoted]
    apply String.toList_injective
    simp
  rw [same]
  exact stops_at_props (Props.read_digits all many) rules context

/-- One digit more than are converted. -/
theorem long_number_stops : ∃ context',
    ofText standardRules ("a: rect \x7b\n  props: \"x=" ++ String.ofList (List.replicate 4301 '1') ++ "\"\n\x7d")
      ⟨⟨fun _ => "*", 0⟩, []⟩ = (.error (.tooManyDigits 4301), context') := by
  have digits : ∀ c ∈ List.replicate 4301 '1', c.isDigit = true := by
    intro c member
    rw [List.eq_of_mem_replicate member]
    rfl
  have size : (List.replicate 4301 '1').length = 4301 := List.length_replicate
  obtain ⟨context', stopped⟩ := stops_at_digits digits (by rw [size]; decide) standardRules ⟨⟨fun _ => "*", 0⟩, []⟩
  rw [size] at stopped
  exact ⟨context', stopped⟩

end Parsed
end LiveDiagram
