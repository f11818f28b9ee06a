import LiveDiagram.Proofs.Source.Halting

/-! The loops of the reader: one over the elements of a text and, inside it, one over the entries of every body. A round of
a loop is a step with all steps in the body that it opens. It takes a token at least and comes to an end, and so does the
loop. -/
namespace LiveDiagram

theorem Cursor.exists_cons {c : Cursor} (going : c.kind ≠ .eof) : ∃ t rest, c.rest = t :: rest ∧ t.kind = c.kind := by
  obtain ⟨_ | ⟨t, rest⟩, errors⟩ := c
  · exact (going rfl).elim
  · exact ⟨t, rest, rfl, rfl⟩

namespace Reader
open Props (Overflows)
variable {r s next last : Reader} {t : Token} {rest : List Token} {depth : Nat}

/-! Rounds -/

/-- Steps that lead from one reader to another, each of them with more than so many open bodies. -/
inductive Below (depth : Nat) : Reader → Reader → Prop
  | refl (r : Reader) : Below depth r r
  | step {r next last : Reader} {t : Token} {rest : List Token} : depth < r.opened.length → r.cursor.rest = t :: rest →
      t.kind ≠ .eof → r.step t rest = .ok next → Below depth next last → Below depth r last

/-- One entry or element is read: a step and, if it opens a body, all of that body, unless the text ends in it. -/
inductive Takes : Reader → Reader → Prop
  | takes {r next last : Reader} {t : Token} {rest : List Token} : r.cursor.rest = t :: rest → t.kind ≠ .eof →
      r.step t rest = .ok next → Below r.opened.length next last →
      last.opened.length = r.opened.length ∨ last.cursor.kind = .eof → Takes r last

/-- The innermost loop is over: the text ends here, or the open body does. -/
def AtEnd (r : Reader) : Prop :=
  r.cursor.kind = .eof ∨ (r.opened ≠ [] ∧ r.cursor.kind = .rightBrace)

def skipNewlines (r : Reader) : Reader :=
  r.before (r.cursor.rest.dropWhile (·.kind = .newline))

/-- One round of the innermost loop. In a body it reads an entry, and outside all bodies an element behind any number of
newlines, if there is one. -/
inductive Round : Reader → Reader → Prop
  | entry {r last : Reader} : r.opened ≠ [] → ¬r.AtEnd → r.Takes last → Round r last
  | element {r last : Reader} : r.opened = [] → ¬r.AtEnd → r.skipNewlines.Takes last → Round r last
  | blank {r : Reader} : r.opened = [] → ¬r.AtEnd → r.skipNewlines.cursor.kind = .eof → Round r r.skipNewlines

/-! Where steps lead -/

theorem Reaches.trans (reaches : Reaches r s) (onward : Reaches s last) : Reaches r last := by
  induction reaches with
  | refl => exact onward
  | step unread proper stepped _ ih => exact .step unread proper stepped (ih onward)

theorem Below.reaches (below : Below depth r s) : Reaches r s := by
  induction below with
  | refl r => exact .refl r
  | step _ unread proper stepped _ ih => exact .step unread proper stepped ih

theorem Takes.reaches (takes : r.Takes s) : Reaches r s := by
  cases takes with
  | takes unread proper stepped below _ => exact .step unread proper stepped below.reaches

theorem reaches_skipNewlines (r : Reader) : r.Reaches r.skipNewlines := by
  have skips (tokens : List Token) : (r.before tokens).Reaches (r.before (tokens.dropWhile (·.kind = .newline))) := by
    induction tokens with
    | nil => exact .refl _
    | cons t rest ih =>
      by_cases newline : t.kind = .newline
      · rw [List.dropWhile_cons_of_pos (by simpa using newline)]
        exact .step rfl (by simp [newline]) (step_newline newline) ih
      · rw [List.dropWhile_cons_of_neg (by simpa using newline)]
        exact .refl _
  exact skips r.cursor.rest

theorem Round.reaches (round : r.Round s) : Reaches r s := by
  cases round with
  | entry _ _ takes => exact takes.reaches
  | element _ _ takes => exact (reaches_skipNewlines r).trans takes.reaches
  | blank _ _ _ => exact reaches_skipNewlines r

/-! Each round takes a token -/

theorem Reaches.length_le (reaches : Reaches r s) : s.cursor.rest.length ≤ r.cursor.rest.length :=
  reaches.suffix.length_le

theorem Takes.length_lt (takes : r.Takes s) : s.cursor.rest.length < r.cursor.rest.length := by
  cases takes with
  | takes unread _ stepped below _ => exact below.reaches.length_le.trans_lt (length_step_lt unread stepped)

/-- Steps that lead elsewhere have taken a token. -/
theorem Reaches.length_lt (reaches : Reaches r s) (apart : s ≠ r) : s.cursor.rest.length < r.cursor.rest.length := by
  cases reaches with
  | refl => exact (apart rfl).elim
  | step unread _ stepped onward => exact onward.length_le.trans_lt (length_step_lt unread stepped)

theorem Round.length_lt (round : r.Round s) : s.cursor.rest.length < r.cursor.rest.length := by
  cases round with
  | entry _ _ takes => exact takes.length_lt
  | element _ _ takes => exact takes.length_lt.trans_le (reaches_skipNewlines r).length_le
  | blank _ going ended => exact (reaches_skipNewlines r).length_lt fun same => going (.inl (same ▸ ended))

/-! How many bodies are open -/

theorem depth_add (r : Reader) (d : Declaration) (children : Forest) :
    (r.add d children).opened.length = r.opened.length := by
  obtain ⟨_, _, _ | ⟨_, _⟩, _⟩ := r <;> rfl

theorem depth_mapBody (r : Reader) (change : Body → Body) : (r.mapBody change).opened.length = r.opened.length := by
  obtain ⟨_, _, _ | ⟨_, _⟩, _⟩ := r <;> rfl

theorem depth_close (r : Reader) : r.close.opened.length = r.opened.length - 1 := by
  obtain ⟨_, _, _ | ⟨e, outer⟩, _⟩ := r
  · rfl
  · exact depth_add _ _ _

theorem depth_le_place (r : Reader) (e : OpenElement) (c : Cursor) : r.opened.length ≤ (r.place e c).opened.length := by
  unfold place
  split
  · split
    · exact Nat.le_succ _
    · exact (depth_add { r with cursor := c } _ _).ge
  · exact (depth_add { r with cursor := c } _ _).ge

theorem depth_le_header (r : Reader) (id : String) (line : Nat) (c : Cursor) :
    r.opened.length ≤ (r.header id line c).opened.length := by
  unfold header
  split
  · split
    · exact depth_le_place _ _ _
    · split
      · exact depth_le_place _ _ _
      · exact Nat.le_refl _
  · exact Nat.le_refl _

/-- Only the brace of the innermost open body closes one. -/
theorem depth_le_step (stepped : r.step t rest = .ok next) (stays : r.opened = [] ∨ t.kind ≠ .rightBrace) :
    r.opened.length ≤ next.opened.length := by
  cases step_cases stepped with
  | newline => exact Nat.le_refl _
  | named => exact depth_le_header _ _ _ _
  | anonymous => exact depth_le_header { r with context := { r.context with ids := r.context.ids.draw.2 } } _ _ _
  | failed => exact Nat.le_refl _
  | closed opened brace => exact (stays.elim opened fun other => other brace).elim
  | entered _ _ entered =>
    obtain ⟨cursor, context, change, _, rfl⟩ := exists_of_entry entered
    exact (depth_mapBody { r with cursor, context } change).ge

/-- A step closes one body at most. -/
theorem depth_le_step_add_one (stepped : r.step t rest = .ok next) : r.opened.length ≤ next.opened.length + 1 := by
  by_cases stays : r.opened = [] ∨ t.kind ≠ .rightBrace
  · exact (depth_le_step stepped stays).trans (Nat.le_succ _)
  · obtain ⟨inside, brace⟩ : r.opened ≠ [] ∧ t.kind = .rightBrace := by simpa [not_or] using stays
    have closes : r.step t rest = .ok (close { r with cursor := { r.cursor with rest := rest } }) := by
      simp [Reader.step, brace, isName, inside]
    cases closes.symm.trans stepped
    rw [depth_close]
    dsimp only
    omega

/-! Rounds and loops end -/

/-- No line of props that the reader comes to overflows. -/
def Fits (r : Reader) : Prop :=
  ∀ s said digits, r.Reaches s → s.Meets said → ¬Overflows said digits

theorem Fits.onward (fits : r.Fits) (reaches : r.Reaches s) : s.Fits :=
  fun last said digits onward => fits last said digits (reaches.trans onward)

theorem Fits.exists_step (fits : r.Fits) (unread : r.cursor.rest = t :: rest) : ∃ next, r.step t rest = .ok next := by
  rcases step_ends unread with ⟨stepped, _⟩ | ⟨said, digits, _, _, meets, excess⟩
  · exact stepped
  · exact (fits r said digits (.refl r) meets excess).elim

/-- The reader comes back out of the bodies that are open, unless the text ends. -/
theorem exists_below (fits : r.Fits) (deep : depth ≤ r.opened.length) :
    ∃ s, Below depth r s ∧ (s.opened.length = depth ∨ s.cursor.kind = .eof) := by
  -- By what is left to read. A step closes one body at most, so that no depth is passed over on the way out.
  induction size : r.cursor.rest.length using Nat.strongRecOn generalizing r with
  | _ n ih =>
    by_cases there : r.opened.length = depth ∨ r.cursor.kind = .eof
    · exact ⟨r, .refl r, there⟩
    · obtain ⟨apart, going⟩ := not_or.1 there
      obtain ⟨t, rest, unread, same⟩ := Cursor.exists_cons going
      have proper : t.kind ≠ .eof := same ▸ going
      obtain ⟨next, stepped⟩ := fits.exists_step unread
      have shorter : next.cursor.rest.length < n := size ▸ length_step_lt unread stepped
      have deep' : depth ≤ next.opened.length := by
        have closed := depth_le_step_add_one stepped
        omega
      obtain ⟨s, below, back⟩ := ih _ shorter (fits.onward (.step unread proper stepped (.refl next))) deep' rfl
      exact ⟨s, .step (by omega) unread proper stepped below, back⟩

theorem exists_takes (fits : r.Fits) (going : r.cursor.kind ≠ .eof) (stays : r.opened = [] ∨ r.cursor.kind ≠ .rightBrace) :
    ∃ s, r.Takes s := by
  obtain ⟨t, rest, unread, same⟩ := Cursor.exists_cons going
  rw [← same] at going stays
  obtain ⟨next, stepped⟩ := fits.exists_step unread
  have behind := fits.onward (.step unread going stepped (.refl next))
  obtain ⟨s, below, back⟩ := exists_below behind (depth_le_step stepped stays)
  exact ⟨s, .takes unread going stepped below back⟩

/-- Unless the innermost loop is over it has one round more, which ends. -/
theorem exists_round (fits : r.Fits) (going : ¬r.AtEnd) : ∃ s, r.Round s := by
  obtain ⟨proper, inside⟩ := not_or.1 going
  by_cases top : r.opened = []
  · by_cases ended : r.skipNewlines.cursor.kind = .eof
    · exact ⟨_, .blank top going ended⟩
    · obtain ⟨s, takes⟩ := exists_takes (fits.onward (reaches_skipNewlines r)) ended (.inl top)
      exact ⟨s, .element top going takes⟩
  · obtain ⟨s, takes⟩ := exists_takes fits proper (.inr fun brace => inside ⟨top, brace⟩)
    exact ⟨s, .entry top going takes⟩

/-- A round ends in the body where it began, unless the text ends. -/
theorem Round.back (round : r.Round s) : s.opened.length = r.opened.length ∨ s.cursor.kind = .eof := by
  cases round with
  | entry _ _ takes =>
    cases takes with
    | takes _ _ _ _ back => exact back
  | element _ _ takes =>
    cases takes with
    | takes _ _ _ _ back => exact back
  | blank _ _ ended => exact .inr ended

/-- The innermost loop ends, in the body where it began unless the text ends. -/
theorem exists_loop (fits : r.Fits) :
    ∃ s, Relation.ReflTransGen Round r s ∧ s.AtEnd ∧ (s.opened.length = r.opened.length ∨ s.cursor.kind = .eof) := by
  induction size : r.cursor.rest.length using Nat.strongRecOn generalizing r with
  | _ n ih =>
    by_cases atEnd : r.AtEnd
    · exact ⟨r, .refl, atEnd, .inl rfl⟩
    · obtain ⟨next, round⟩ := exists_round fits atEnd
      by_cases ended : next.cursor.kind = .eof
      · exact ⟨next, .single round, .inl ended, .inr ended⟩
      · obtain ⟨s, rounds, atEnd, back⟩ := ih _ (size ▸ round.length_lt) (fits.onward round.reaches) rfl
        have same := round.back.resolve_right ended
        exact ⟨s, .head round rounds, atEnd, by rwa [same] at back⟩

end Reader
end LiveDiagram
