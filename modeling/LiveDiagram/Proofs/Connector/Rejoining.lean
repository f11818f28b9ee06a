import LiveDiagram.Proofs.Connector.Drawing
import LiveDiagram.Proofs.Connector.Reading
import LiveDiagram.Proofs.Props.Paths

/-! Edge props split into a connector and what it leaves of them, and put together again. The whole tells the same
connector and leaves the same, and differs from the props before in nothing but what a connector says. -/
namespace LiveDiagram.Connector
open Props (Tidy Paired kept)

variable {p p' d d' : Props} {c : Connector} {key other : String} {path : List String} {drop : Props → Props}

/-- The paths of what a connector says. -/
def said : List (List String) :=
  [["stroke", "width"], ["stroke", "pattern"], ["arrow", "start", "type"], ["arrow", "end", "type"]]

/-- Arrowheads that differ in nothing but their types. -/
structure AlikeHeads (d d' : Props) : Prop where
  others : ∀ key, key ≠ "start" → key ≠ "end" → d'.get? key = d.get? key
  scalars : ∀ key, key = "start" ∨ key = "end" → d'.scalarAt key = d.scalarAt key
  ends : ∀ key, key = "start" ∨ key = "end" → ∀ other, other ≠ "type" →
    (d'.dictAt key).get? other = (d.dictAt key).get? other

/-- Props that differ in nothing but what a connector says. Scalars in place of the dictionaries on the way to it are
the same; the dictionaries may be there or not. -/
structure Alike (p p' : Props) : Prop where
  others : ∀ key, key ≠ "stroke" → key ≠ "arrow" → p'.get? key = p.get? key
  scalars : ∀ key, key = "stroke" ∨ key = "arrow" → p'.scalarAt key = p.scalarAt key
  stroke : ∀ key, key ≠ "width" → key ≠ "pattern" → (p'.dictAt "stroke").get? key = (p.dictAt "stroke").get? key
  arrow : AlikeHeads (p.dictAt "arrow") (p'.dictAt "arrow")

/-- Away from what a connector says, such props hold the same, and on the way to it the same scalars. -/
theorem Alike.valueAt? (alike : Alike p p') (unsaid : ∀ own ∈ said, ¬own <+: path) :
    (∀ s, p'.valueAt? path = some (.scalar s) ↔ p.valueAt? path = some (.scalar s)) ∧
      ((∀ own ∈ said, ¬path <+: own) → p'.valueAt? path = p.valueAt? path) := by
  have equal (same : p'.valueAt? path = p.valueAt? path) :
      (∀ s, p'.valueAt? path = some (.scalar s) ↔ p.valueAt? path = some (.scalar s)) ∧
        ((∀ own ∈ said, ¬path <+: own) → p'.valueAt? path = p.valueAt? path) :=
    ⟨fun s => by rw [same], fun _ => same⟩
  have above {d d' : Props} {key : String} (own : List String) (member : own ∈ said) (ahead : path <+: own)
      (first : p.valueAt? path = d.get? key) (second : p'.valueAt? path = d'.get? key)
      (same : d'.scalarAt key = d.scalarAt key) :
      (∀ s, p'.valueAt? path = some (.scalar s) ↔ p.valueAt? path = some (.scalar s)) ∧
        ((∀ own ∈ said, ¬path <+: own) → p'.valueAt? path = p.valueAt? path) := by
    refine ⟨fun s => ?_, fun apart => (apart own member ahead).elim⟩
    rw [first, second, ← Props.scalarAt_eq_some, ← Props.scalarAt_eq_some, same]
  -- the cases are the keys that lead further towards what is said
  rcases path with _ | ⟨key, path⟩
  · exact ⟨fun s => ⟨fun found => (nomatch found), fun found => (nomatch found)⟩,
      fun apart => (apart ["stroke", "width"] (by decide) List.nil_prefix).elim⟩
  by_cases stroke : key = "stroke"
  · subst stroke
    rcases path with _ | ⟨key, path⟩
    · exact above ["stroke", "width"] (by decide) (by decide) rfl rfl (alike.scalars _ (.inl rfl))
    · have width : key ≠ "width" := by
        rintro rfl
        exact unsaid ["stroke", "width"] (by decide) (List.prefix_append ["stroke", "width"] path)
      have pattern : key ≠ "pattern" := by
        rintro rfl
        exact unsaid ["stroke", "pattern"] (by decide) (List.prefix_append ["stroke", "pattern"] path)
      have below : (p'.dictAt "stroke").valueAt? (key :: path) = (p.dictAt "stroke").valueAt? (key :: path) :=
        Props.valueAt?_congr (alike.stroke key width pattern)
      exact equal below
  by_cases arrow : key = "arrow"
  · subst arrow
    rcases path with _ | ⟨key, path⟩
    · exact above ["arrow", "start", "type"] (by decide) (by decide) rfl rfl (alike.scalars _ (.inr rfl))
    by_cases tip : key = "start" ∨ key = "end"
    · have own : ["arrow", key, "type"] ∈ said := by
        rcases tip with rfl | rfl <;> decide
      rcases path with _ | ⟨other, path⟩
      · exact above _ own (List.prefix_append ["arrow", key] ["type"]) rfl rfl (alike.arrow.scalars key tip)
      · have type : other ≠ "type" := by
          rintro rfl
          exact unsaid _ own (List.prefix_append ["arrow", key, "type"] path)
        have below : ((p'.dictAt "arrow").dictAt key).valueAt? (other :: path) =
            ((p.dictAt "arrow").dictAt key).valueAt? (other :: path) :=
          Props.valueAt?_congr (alike.arrow.ends key tip other type)
        exact equal below
    · rw [not_or] at tip
      have below : (p'.dictAt "arrow").valueAt? (key :: path) = (p.dictAt "arrow").valueAt? (key :: path) :=
        Props.valueAt?_congr (alike.arrow.others key tip.1 tip.2)
      exact equal below
  · exact equal (Props.valueAt?_congr (alike.others key stroke arrow))

/-! What is left -/

theorem get?_dropping_of_ne (apart : key ≠ other) : (dropping p key drop).get? other = p.get? other := by
  rcases dropping_cases p key drop with same | same | ⟨d, _, _, same⟩
  · rw [same]
  · rw [same, Props.get?_erase_of_ne apart]
  · rw [same, Props.get?_set, if_neg apart]

theorem get?_dropping (tidy : p.Tidy) (none : drop .nil = .nil) :
    (dropping p key drop).get? key = kept (p.scalarAt key) (drop (p.dictAt key)) := by
  unfold dropping Props.scalarAt Props.dictAt
  cases found : p.get? key with
  | none => simp [kept, found, none, Props.isEmpty]
  | some v =>
    cases v with
    | scalar s => simp [kept, found]
    | dict d =>
      by_cases empty : (drop d).isEmpty = true
      · simp [kept, empty, Props.get?_erase_self tidy]
      · simp [kept, empty, Props.get?_set]

/-- What is left of the stroke. -/
def unlined (stroke : Props) : Props :=
  (stroke.erase "width").erase "pattern"

/-- What is left of the arrowheads. -/
def headless (arrow : Props) : Props :=
  dropping (dropping arrow "start" (·.erase "type")) "end" (·.erase "type")

theorem residue_eq (p : Props) : residue p = dropping (dropping p "arrow" headless) "stroke" unlined := rfl

theorem tidy_unlined (tidy : d.Tidy) : (unlined d).Tidy :=
  tidy.erase.erase

theorem tidy_headless (tidy : d.Tidy) : (headless d).Tidy :=
  tidy_dropping (tidy_dropping tidy fun _ tidy => tidy.erase) fun _ tidy => tidy.erase

theorem get?_residue (stroke : key ≠ "stroke") (arrow : key ≠ "arrow") : (residue p).get? key = p.get? key := by
  rw [residue_eq, get?_dropping_of_ne stroke.symm, get?_dropping_of_ne arrow.symm]

theorem get?_residue_arrow (tidy : p.Tidy) :
    (residue p).get? "arrow" = kept (p.scalarAt "arrow") (headless (p.dictAt "arrow")) := by
  rw [residue_eq, get?_dropping_of_ne (by decide), get?_dropping tidy rfl]

theorem get?_residue_stroke (tidy : p.Tidy) :
    (residue p).get? "stroke" = kept (p.scalarAt "stroke") (unlined (p.dictAt "stroke")) := by
  have before : (dropping p "arrow" headless).get? "stroke" = p.get? "stroke" := get?_dropping_of_ne (by decide)
  rw [residue_eq, get?_dropping (tidy_dropping tidy fun _ => tidy_headless) rfl]
  unfold Props.scalarAt Props.dictAt
  rw [before]

theorem get?_headless (start : key ≠ "start") (stop : key ≠ "end") : (headless d).get? key = d.get? key := by
  rw [headless, get?_dropping_of_ne stop.symm, get?_dropping_of_ne start.symm]

theorem get?_headless_end (tidy : d.Tidy) (tip : key = "start" ∨ key = "end") :
    (headless d).get? key = kept (d.scalarAt key) ((d.dictAt key).erase "type") := by
  rcases tip with rfl | rfl
  · rw [headless, get?_dropping_of_ne (by decide), get?_dropping tidy rfl]
  · have before : (dropping d "start" (·.erase "type")).get? "end" = d.get? "end" := get?_dropping_of_ne (by decide)
    rw [headless, get?_dropping (tidy_dropping tidy fun _ tidy => tidy.erase) rfl]
    unfold Props.scalarAt Props.dictAt
    rw [before]

theorem paired_of_eq (tidy : d.Tidy) (equal : d'.get? key = d.get? key) : Paired (d'.get? key) (d.get? key) := by
  rw [equal]
  exact (Props.same_iff tidy tidy).1 (Props.same_refl tidy) key

/-- What other keys hold is left as it is when one is erased. -/
theorem get?_erase_congr (tidy : d.Tidy) (tidy' : d'.Tidy) (equal : other ≠ key → d'.get? other = d.get? other) :
    (d'.erase key).get? other = (d.erase key).get? other := by
  by_cases own : other = key
  · subst own
    rw [Props.get?_erase_self tidy, Props.get?_erase_self tidy']
  · rw [Props.get?_erase_of_ne (Ne.symm own), Props.get?_erase_of_ne (Ne.symm own), equal own]

theorem AlikeHeads.same_headless (alike : AlikeHeads d d') (tidy : d.Tidy) (tidy' : d'.Tidy) :
    (headless d').same (headless d) = true := by
  refine (Props.same_iff (tidy_headless tidy') (tidy_headless tidy)).2 fun key => ?_
  by_cases tip : key = "start" ∨ key = "end"
  · rw [get?_headless_end tidy' tip, get?_headless_end tidy tip, alike.scalars key tip]
    refine Props.paired_kept ((Props.same_iff tidy'.dictAt.erase tidy.dictAt.erase).2 fun other => ?_)
    exact paired_of_eq tidy.dictAt.erase (get?_erase_congr tidy.dictAt tidy'.dictAt (alike.ends key tip other))
  · rw [not_or] at tip
    refine paired_of_eq (tidy_headless tidy) ?_
    rw [get?_headless tip.1 tip.2, get?_headless tip.1 tip.2, alike.others key tip.1 tip.2]

/-- Props that differ in nothing but what a connector says leave the same. -/
theorem Alike.same_residue (alike : Alike p p') (tidy : p.Tidy) (tidy' : p'.Tidy) :
    (residue p').same (residue p) = true := by
  refine (Props.same_iff (tidy_residue tidy') (tidy_residue tidy)).2 fun key => ?_
  by_cases stroke : key = "stroke"
  · subst stroke
    rw [get?_residue_stroke tidy', get?_residue_stroke tidy, alike.scalars _ (.inl rfl)]
    refine Props.paired_kept ((Props.same_iff (tidy_unlined tidy'.dictAt) (tidy_unlined tidy.dictAt)).2 fun other => ?_)
    refine paired_of_eq (tidy_unlined tidy.dictAt) ?_
    exact get?_erase_congr tidy.dictAt.erase tidy'.dictAt.erase fun pattern =>
      get?_erase_congr tidy.dictAt tidy'.dictAt fun width => alike.stroke other width pattern
  by_cases arrow : key = "arrow"
  · subst arrow
    rw [get?_residue_arrow tidy', get?_residue_arrow tidy, alike.scalars _ (.inr rfl)]
    exact Props.paired_kept (alike.arrow.same_headless tidy.dictAt tidy'.dictAt)
  · refine paired_of_eq (tidy_residue tidy) ?_
    rw [get?_residue stroke arrow, get?_residue stroke arrow, alike.others key stroke arrow]

/-! What is put together again -/

variable {left : Props} {s : Option Scalar} {start stop : Option Arrowhead}

/-- The dictionary under a key of merged props, where nothing but what was kept of it comes behind. -/
theorem dictAt_merge_kept (tidy : left.Tidy) (held : left.get? key = kept s d) :
    (p.merge true left).dictAt key = if s.isSome then .nil else (p.dictAt key).merge true d := by
  rw [Props.dictAt_merge tidy, Props.scalarAt_of_kept held, Props.dictAt_of_kept held]
  cases s <;> rfl

theorem scalarAt_merge_kept (tidy : left.Tidy) (held : left.get? key = kept s d) (free : p.scalarAt key = none) :
    (p.merge true left).scalarAt key = s := by
  rw [Props.scalarAt_merge tidy free, Props.scalarAt_of_kept held]

theorem get?_props (stroke : key ≠ "stroke") (arrow : key ≠ "arrow") : c.props.get? key = none := by
  rw [props_eq]
  split <;> simp [Props.get?, stroke.symm, arrow.symm]

theorem scalarAt_props (own : key = "stroke" ∨ key = "arrow") : c.props.scalarAt key = none := by
  rw [props_eq]
  rcases own with rfl | rfl <;> split <;> rfl

theorem dictAt_props_stroke : c.props.dictAt "stroke" = stroke c.line := by
  rw [props_eq]
  rfl

theorem dictAt_props_arrow : c.props.dictAt "arrow" = tips c.start c.stop := by
  rw [props_eq]
  split
  · next empty => rw [empty]; rfl
  · rfl

theorem get?_tips (first : key ≠ "start") (last : key ≠ "end") : (tips start stop).get? key = none := by
  cases start <;> cases stop <;> simp [tips, tip, Props.get?, first.symm, last.symm]

theorem scalarAt_tips (tip : key = "start" ∨ key = "end") : (tips start stop).scalarAt key = none := by
  rcases tip with rfl | rfl <;> cases start <;> cases stop <;> rfl

theorem get?_dictAt_tips (tip : key = "start" ∨ key = "end") (apart : other ≠ "type") :
    ((tips start stop).dictAt key).get? other = none := by
  rcases tip with rfl | rfl <;> cases start <;> cases stop <;> first | rfl | exact if_neg apart.symm

theorem alikeHeads_merge (tidy : d.Tidy) : AlikeHeads d ((tips start stop).merge true (headless d)) where
  others key first last := by
    rw [Props.get?_merge_of_none (tidy_headless tidy) (get?_tips first last), get?_headless first last]
  scalars key tip := scalarAt_merge_kept (tidy_headless tidy) (get?_headless_end tidy tip) (scalarAt_tips tip)
  ends key tip other apart := by
    rw [dictAt_merge_kept (tidy_headless tidy) (get?_headless_end tidy tip)]
    cases scalar : d.scalarAt key with
    | some s =>
      rw [Props.dictAt_of_scalarAt scalar]
      rfl
    | none =>
      refine (Props.get?_merge_of_none tidy.dictAt.erase (get?_dictAt_tips tip apart)).trans ?_
      exact Props.get?_erase_of_ne (Ne.symm apart)

/-- Put behind the props of a connector, what props leave makes them up again but for what the connector says. -/
theorem alike_merge (c : Connector) (tidy : p.Tidy) : Alike p (c.props.merge true (residue p)) where
  others key first last := by
    rw [Props.get?_merge_of_none (tidy_residue tidy) (get?_props first last), get?_residue first last]
  scalars key own := by
    have free := scalarAt_props (c := c) own
    rcases own with rfl | rfl
    · exact scalarAt_merge_kept (tidy_residue tidy) (get?_residue_stroke tidy) free
    · exact scalarAt_merge_kept (tidy_residue tidy) (get?_residue_arrow tidy) free
  stroke key width pattern := by
    rw [dictAt_merge_kept (tidy_residue tidy) (get?_residue_stroke tidy), dictAt_props_stroke]
    cases scalar : p.scalarAt "stroke" with
    | some s =>
      rw [Props.dictAt_of_scalarAt scalar]
      rfl
    | none =>
      have unsaid : (stroke c.line).get? key = none := by
        cases c.line <;> simp [stroke, Line.pattern?, Props.get?, width.symm, pattern.symm]
      refine (Props.get?_merge_of_none tidy.dictAt.erase.erase unsaid).trans ?_
      rw [Props.get?_erase_of_ne (Ne.symm pattern), Props.get?_erase_of_ne (Ne.symm width)]
  arrow := by
    rw [dictAt_merge_kept (tidy_residue tidy) (get?_residue_arrow tidy), dictAt_props_arrow]
    cases scalar : p.scalarAt "arrow" with
    | some s =>
      rw [Props.dictAt_of_scalarAt scalar]
      exact ⟨fun _ _ _ => rfl, fun _ _ => rfl, fun _ _ _ _ => rfl⟩
    | none => exact alikeHeads_merge tidy.dictAt

/-! What is told of it -/

theorem opens_iff : p.Opens key ↔ ∀ s, p.scalarAt key = some s → s.isPresent = false := by
  unfold Props.Opens
  simp only [Props.scalarAt_eq_some]

theorem opens_congr (same : p'.scalarAt key = p.scalarAt key) : p'.Opens key ↔ p.Opens key := by
  rw [opens_iff, opens_iff, same]

/-- What a style with a connector says of the line and of both ends. -/
theorem of_connector? {s : EdgeStyle} (found : s.connector? = .ok (some c)) :
    s.line? = some c.line ∧ EdgeStyle.head? s.start = .ok (some c.start) ∧ EdgeStyle.head? s.stop = .ok (some c.stop) := by
  unfold EdgeStyle.connector? at found
  cases line : s.line? with
  | none => rw [line] at found; cases found
  | some own =>
    rw [line] at found
    rcases first : EdgeStyle.head? s.start with _ | _ | start
    · simp only [first] at found; cases found
    · simp only [first] at found; cases found
    rcases last : EdgeStyle.head? s.stop with _ | _ | stop
    · simp only [first, last] at found; cases found
    · simp only [first, last] at found; cases found
    simp only [first, last] at found
    cases found
    exact ⟨rfl, rfl, rfl⟩

theorem typeIn_tips_start : EdgeStyle.typeIn ((tips start stop).dictAt "start") = .ofText? (start.map Arrowhead.name) := by
  cases start <;> cases stop <;> rfl

theorem typeIn_tips_stop : EdgeStyle.typeIn ((tips start stop).dictAt "end") = .ofText? (stop.map Arrowhead.name) := by
  cases start <;> cases stop <;> rfl

/-- The type under a key of merged arrowheads comes from the first of them, unless a scalar takes their place. -/
theorem typeIn_merge_headless (tidy : d.Tidy) (tip : key = "start" ∨ key = "end") :
    EdgeStyle.typeIn ((p.merge true (headless d)).dictAt key) =
      if (d.scalarAt key).isSome then .null else EdgeStyle.typeIn (p.dictAt key) := by
  rw [dictAt_merge_kept (tidy_headless tidy) (get?_headless_end tidy tip)]
  split
  · rfl
  · unfold EdgeStyle.typeIn
    rw [Props.get?_merge tidy.dictAt.erase, Props.get?_erase_self tidy.dictAt]
    rfl

/-- The type of an arrowhead put together again is the one that the connector says. Where a scalar stands in its place
or in that of both arrowheads, there was none. -/
theorem typeIn_merge_residue {head : Option Arrowhead} (tidy : p.Tidy) (tip : key = "start" ∨ key = "end")
    (own : EdgeStyle.typeIn ((tips c.start c.stop).dictAt key) = .ofText? (head.map Arrowhead.name))
    (found : EdgeStyle.head? (EdgeStyle.typeIn ((p.dictAt "arrow").dictAt key)) = .ok (some head)) :
    EdgeStyle.typeIn (((c.props.merge true (residue p)).dictAt "arrow").dictAt key) = .ofText? (head.map Arrowhead.name) := by
  have unheaded (empty : (p.dictAt "arrow").dictAt key = .nil) : .null = Value.ofText? (head.map Arrowhead.name) := by
    rw [empty] at found
    cases found
    rfl
  rw [dictAt_merge_kept (tidy_residue tidy) (get?_residue_arrow tidy), dictAt_props_arrow]
  cases outer : p.scalarAt "arrow" with
  | some s => exact unheaded (by rw [Props.dictAt_of_scalarAt outer]; rfl)
  | none =>
    refine (typeIn_merge_headless tidy.dictAt tip).trans ?_
    cases inner : (p.dictAt "arrow").scalarAt key with
    | some s => exact unheaded (Props.dictAt_of_scalarAt inner)
    | none => exact own

/-- The stroke put together again is the one that the connector says, which is the plain one where a scalar stands in
its place. -/
theorem stroke_merge (tidy : p.Tidy) (found : p.style.line? = some c.line) :
    (c.props.merge true (residue p)).style.width = c.style.width ∧
      (c.props.merge true (residue p)).style.pattern = c.style.pattern := by
  unfold Props.style at found ⊢
  dsimp only
  rw [dictAt_merge_kept (tidy_residue tidy) (get?_residue_stroke tidy), dictAt_props_stroke]
  cases scalar : p.scalarAt "stroke" with
  | some s =>
    have plain : c.line = .thin := by
      rw [Props.dictAt_of_scalarAt scalar] at found
      have told : some Line.thin = some c.line := found
      exact (Option.some.inj told).symm
    unfold style
    rw [plain]
    exact ⟨rfl, rfl⟩
  | none =>
    have own (key : String) (gone : (unlined (p.dictAt "stroke")).get? key = none) :
        ((stroke c.line).merge true (unlined (p.dictAt "stroke"))).get? key = (stroke c.line).get? key := by
      rw [Props.get?_merge (tidy_unlined tidy.dictAt), gone]
      rfl
    have width : (unlined (p.dictAt "stroke")).get? "width" = none := by
      rw [unlined, Props.get?_erase_of_ne (by decide), Props.get?_erase_self tidy.dictAt]
    have pattern : (unlined (p.dictAt "stroke")).get? "pattern" = none := Props.get?_erase_self tidy.dictAt.erase
    simp only [Option.isSome_none, Bool.false_eq_true, if_false, own _ width, own _ pattern]
    unfold style
    cases c.line <;> exact ⟨rfl, rfl⟩

theorem style_merge (tidy : p.Tidy) (found : p.style.connector? = .ok (some c)) :
    (c.props.merge true (residue p)).style = c.style := by
  obtain ⟨line, start, stop⟩ := of_connector? found
  obtain ⟨width, pattern⟩ := stroke_merge tidy line
  have first := typeIn_merge_residue tidy (.inl rfl) typeIn_tips_start start
  have last := typeIn_merge_residue tidy (.inr rfl) typeIn_tips_stop stop
  calc (c.props.merge true (residue p)).style
      = ⟨(c.props.merge true (residue p)).style.width, (c.props.merge true (residue p)).style.pattern,
          EdgeStyle.typeIn (((c.props.merge true (residue p)).dictAt "arrow").dictAt "start"),
          EdgeStyle.typeIn (((c.props.merge true (residue p)).dictAt "arrow").dictAt "end")⟩ := rfl
    _ = c.style := by rw [width, pattern, first, last]; rfl

theorem ofProps?_merge_residue (tidy : p.Tidy) (found : ofProps? p = .ok (some c)) :
    ofProps? (c.props.merge true (residue p)) = .ok (some c) := by
  have alike := alike_merge c tidy
  unfold ofProps? at found ⊢
  rcases Props.ofProps_cases p with ⟨⟨stroke, arrow, start, stop⟩, whole⟩ | ⟨_, fault, whole⟩
  · rw [whole] at found
    rcases Props.ofProps_cases (c.props.merge true (residue p)) with ⟨_, whole'⟩ | ⟨shut, _⟩
    · rw [whole', style_merge tidy found]
      exact connector?_style c
    · exact (shut ⟨(opens_congr (alike.scalars _ (.inl rfl))).2 stroke, (opens_congr (alike.scalars _ (.inr rfl))).2 arrow,
        (opens_congr (alike.arrow.scalars _ (.inl rfl))).2 start,
        (opens_congr (alike.arrow.scalars _ (.inr rfl))).2 stop⟩).elim
  · rw [whole] at found
    cases found

/-- A connector told by edge props is read again from its text, and its props with what was left of the others behind
them tell it again and leave the same. They hold the same as before, but for what the connector says and for
dictionaries on the way to it, in whose place there is a scalar only if it was there before. -/
theorem residue_rejoins (tidy : p.Tidy) (found : ofProps? p = .ok (some c)) :
    ∃ q, (read? c.text).map (fun read => read.props.merge true (residue p)) = some q ∧
      ofProps? q = .ok (some c) ∧ (residue q).same (residue p) = true ∧
      ∀ path, (∀ own ∈ said, ¬own <+: path) →
        (∀ s, q.valueAt? path = some (.scalar s) ↔ p.valueAt? path = some (.scalar s)) ∧
          ((∀ own ∈ said, ¬path <+: own) → q.valueAt? path = p.valueAt? path) := by
  have alike := alike_merge c tidy
  refine ⟨c.props.merge true (residue p), ?_, ofProps?_merge_residue tidy found, ?_, fun path => alike.valueAt?⟩
  · rw [read?_text, Option.map_some]
  · exact alike.same_residue tidy ((heard_props c).2.merge (tidy_residue tidy))

theorem residue_rejoins_sized :
    ∃ p q : Props, p.Tidy ∧ ofProps? p = .ok (some ⟨.thin, none, some .bar⟩) ∧
      p.valueAt? ["arrow", "start", "type"] = some (.scalar (.text "NONE")) ∧
      ofProps? q = .ok (some ⟨.thin, none, some .bar⟩) ∧ (residue q).same (residue p) = true ∧
      q.valueAt? ["arrow", "start", "size"] = some (.scalar (.int 4)) ∧ q.valueAt? ["stroke"] = some (.scalar .null) := by
  let start := Props.leaf "type" (.text "NONE") (.leaf "size" (.int 4) .nil)
  let p := Props.node "arrow" (.node "start" start (.node "end" (.leaf "type" (.text "BAR") .nil) .nil))
    (.leaf "stroke" .null .nil)
  have tidy : p.Tidy := ⟨rfl, ⟨rfl, ⟨rfl, rfl, trivial⟩, rfl, ⟨rfl, trivial⟩, trivial⟩, rfl, trivial⟩
  have told : ofProps? p = .ok (some ⟨.thin, none, some .bar⟩) := by decide +kernel
  obtain ⟨q, _, told', same, alike⟩ := residue_rejoins tidy told
  refine ⟨p, q, tidy, told, rfl, told', same, ?_, ?_⟩
  · exact ((alike ["arrow", "start", "size"] (by decide)).1 _).2 rfl
  · exact ((alike ["stroke"] (by decide)).1 _).2 rfl

end LiveDiagram.Connector
