import LiveDiagram.Proofs.Document.Twins

/-! Text that formatting leaves as it is. The text of a document that a text built is built into a document with the very
same text, where all that is written comes back: styles are words, metadata are exact, the props of edges keep their
places behind those of the connector, and the nodes at the ends of edges have a line of their own. -/
namespace LiveDiagram

variable {α : Type} [Coordinate α]

/-- A text that is formatted is canonical. Once it was brought into an empty document and written again, it is written
the same when that text is brought into an empty document in turn. -/
theorem Work.applyText_canonical (bounds bounds' : Bounds α) {text : String} {context context' : Context} {parsed : Parsed}
    (clean : Parsed.Clean text context parsed context') (suits : context'.ids.Suits parsed.forest.preorder) :
    ∃ w, Gives (Work.applyText text) ⟨Document.empty bounds, context⟩ parsed.errors w ∧
      ∀ formatted, w.document.text = .ok formatted →
        (∀ e ∈ w.document.shown, e.Stable .standard) →
        (∀ e ∈ w.document.shown, ∀ x ∈ e.linked, x ∈ w.document.shown.map Element.id) →
        ∀ c again c', Parsed.Clean formatted c again c' → c'.ids.Suits again.forest.preorder →
          ∃ w', Gives (Work.applyText formatted) ⟨Document.empty bounds', c⟩ again.errors w' ∧
            w'.document.text = .ok formatted := by
  obtain ⟨w, ids, given, built, brought⟩ := Work.applyText_builds bounds clean suits
  refine ⟨w, given, fun formatted written own linked c again c' reread suits' => ?_⟩
  obtain ⟨w', ids', given', built', brought'⟩ := Work.applyText_builds bounds' reread suits'
  refine ⟨w', given', ?_⟩
  have restates := (brought.restates (fun e member => (own e member).lined) written reread).2
  have distinct := (Parsed.clean_iff.1 clean).2
  have distinct' := (Parsed.clean_iff.1 reread).2
  have clear (e : Element α) (member : e ∈ w.document.shown) : e.Spoken ∧ e.Stable .standard :=
    ⟨brought.spoken e (List.mem_of_find?_eq_some (brought.unfolds.find?_of_mem_shown member)), own e member⟩
  have whole : again.forest.sites none = [] ++ (again.forest.sites none ++ []) := (List.append_nil _).symm
  have unfolds := brought'.unfolds
  rw [built'.top_eq] at unfolds
  have twins : Outline.Twins .standard none none _ _ := built'.twins suits' distinct' brought'.spoken built.labelsNodes
    (fun _ _ _ parted => built.ends_of_restates suits distinct brought restates linked parted) whole brought.unfolds restates
    clear unfolds (by simp)
  obtain ⟨lines, wrote, rfl⟩ := Document.text_eq written
  have wrote' := twins.write wrote
  rw [← built'.top_eq] at wrote'
  unfold Document.text Document.linesOf
  rw [wrote']
  rfl

/-- An edge with a connector and a label, and a node with props. -/
theorem Work.applyText_canonical_labelled :
    ∃ (context c c' : Context) (w w' : Workspace Quantity) (formatted : String) (again : Parsed),
      (∃ errors, Gives (Work.applyText "a: rect \x7b props: \"color=red\" \x7d\nb: rect\ne: edge a ==#|> b \"L\"")
        ⟨Document.empty Document.page, context⟩ errors w) ∧ w.document.text = .ok formatted ∧
        (∀ e ∈ w.document.shown, e.Stable .standard) ∧
        (∀ e ∈ w.document.shown, ∀ x ∈ e.linked, x ∈ w.document.shown.map Element.id) ∧
        Parsed.Clean formatted c again c' ∧
        Gives (Work.applyText formatted) ⟨Document.empty Document.page, c⟩ again.errors w' ∧
        w'.document.text = .ok formatted := by
  let text := "a: rect \x7b props: \"color=red\" \x7d\nb: rect\ne: edge a ==#|> b \"L\""
  let formatted := "a: rect \x7b\n  props: \"color=red\"\n\x7d\n\nb: rect\n\ne: edge a ==#|> b \"L\"\n"
  let context : Context := ⟨⟨fun _ => "*", 0⟩, []⟩
  let v := ((Work.applyText text).run (⟨Document.empty Document.page, context⟩ : Workspace Quantity)).2
  let one (f : Forest) : Bool := Declaration.labels f.preorder = 1 && !(f.preorder.flatMap Declaration.mentions).contains "*"
  obtain ⟨parsed, clean, once⟩ := Parsed.exists_clean text context one (by decide +kernel)
  obtain ⟨again, reread, once'⟩ := Parsed.exists_clean formatted context one (by decide +kernel)
  have suits {f : Forest} (once : one f = true) {ids : IdSupply} (drawn : ids.ahead 0 = "*") : ids.Suits f.preorder := by
    simp only [one, Bool.and_eq_true, decide_eq_true_eq, Bool.not_eq_true', List.contains_eq_mem,
      decide_eq_false_iff_not] at once
    refine ⟨fun i within j within' _ => ?_, fun i within => ?_⟩
    · omega
    · obtain rfl : i = 0 := by omega
      exact drawn ▸ once.2
  obtain ⟨w, given, fixed⟩ := Work.applyText_canonical (Document.page : Bounds Quantity) Document.page clean
    (suits once (by decide +kernel))
  obtain rfl : v = w := congrArg Prod.snd given
  have written : v.document.text = .ok formatted := by decide +kernel
  have linked : ∀ e ∈ v.document.shown, ∀ x ∈ e.linked, x ∈ v.document.shown.map Element.id := by decide +kernel
  have brought := (Work.OfTexts.apply (.empty _ _) given clean.errors).brought
  have own : ∀ e ∈ v.document.shown, e.Stable .standard := by
    have verbatim : ∀ e ∈ v.document.shown, e.Verbatim .standard ∧ (e.isJoined = true → e.bodyProps.Unlined) := by
      decide +kernel
    intro e member
    have spoken := brought.spoken e (List.mem_of_find?_eq_some (brought.unfolds.find?_of_mem_shown member))
    exact (verbatim e member).1.stable spoken (verbatim e member).2
  obtain ⟨w', given', written'⟩ := fixed formatted written own linked context again _ reread (suits once' (by decide +kernel))
  exact ⟨context, context, _, v, w', formatted, again, ⟨_, given⟩, written, own, linked, reread, given', written'⟩

/-- Formatting changes a formatted text where the props of an edge do not keep apart from those of its connector, where
an end is at a label on the line of its edge or below it, where there is a blank in front of a path, and where a style is
more than a word. -/
theorem Work.applyText_drifts :
    ["a: rect\ne: edge a -> \x7b\n  props: \"stroke.pattern=weird\"\n\x7d",
        "e: edge \x7b\n  props: \"color=red;stroke.width=2;stroke.dash=5\"\n\x7d",
        "e: edge \x7b\n  n: text \"L\"\n\x7d\ng: edge n --", "a: rect \x7b\n  props: \"\\\\ a=1\"\n\x7d",
        "a: rect \x7b\n  metadata: \"style=x y\"\n\x7d"].Forall fun text =>
      ∃ (context c c' : Context) (parsed again : Parsed) (w w' : Workspace Quantity) (formatted formatted' : String),
        Parsed.Clean text context parsed c ∧ c.ids.Suits parsed.forest.preorder ∧
        Gives (Work.applyText text) ⟨Document.empty Document.page, context⟩ parsed.errors w ∧
        w.document.text = .ok formatted ∧ Parsed.Clean formatted c again c' ∧
        Gives (Work.applyText formatted) ⟨Document.empty Document.page, c⟩ again.errors w' ∧
        w'.document.text = .ok formatted' ∧ formatted' ≠ formatted := by
  let context : Context := ⟨⟨fun _ => "*", 0⟩, []⟩
  let after (text : String) (context : Context) :=
    (Work.applyText text).run (⟨Document.empty Document.page, context⟩ : Workspace Quantity)
  let read (text : String) := Parsed.ofText Parsed.standardRules text context
  refine List.forall_iff_forall_mem.2 fun text member => ?_
  have ends : ∃ formatted formatted',
      ((after text context).1.toOption.any Errors.isEmpty = true ∧ (after text context).2.document.text = .ok formatted) ∧
      ((after formatted (read text).2).1.toOption.any Errors.isEmpty = true ∧
        (after formatted (read text).2).2.document.text = .ok formatted') ∧
      ((read text).1.toOption.all fun parsed => Declaration.labels parsed.forest.preorder = 0) = true ∧
      formatted' ≠ formatted := by
    simp only [List.mem_cons, List.not_mem_nil, or_false] at member
    rcases member with rfl | rfl | rfl | rfl | rfl
    · exact ⟨"a: rect\n\ne: edge a -- \x7b\n  props: \"stroke.pattern=weird\"\n\x7d\n",
        "a: rect\n\ne: edge a -- \x7b\n  props: \"stroke.width=1;stroke.pattern=weird\"\n\x7d\n", by decide +kernel⟩
    · exact ⟨"e: edge == \x7b\n  props: \"color=red;stroke.dash=5\"\n\x7d\n",
        "e: edge == \x7b\n  props: \"stroke.dash=5;color=red\"\n\x7d\n", by decide +kernel⟩
    · exact ⟨"e: edge \"L\"\n\ng: edge n --\n", "e: edge \"L\"\n\ng: edge \x7b\n  props: \"stroke.width=1\"\n\x7d\n",
        by decide +kernel⟩
    · exact ⟨"a: rect \x7b\n  props: \" a=1\"\n\x7d\n", "a: rect \x7b\n  props: \"a=1\"\n\x7d\n", by decide +kernel⟩
    · exact ⟨"a: rect \x7b\n  stylesheet: x y /\n\x7d\n", "a: rect \x7b\n  stylesheet: x /\n\x7d\n", by decide +kernel⟩
  obtain ⟨formatted, formatted', ⟨applies, written⟩, ⟨applies', written'⟩, bare, other⟩ := ends
  obtain ⟨parsed, c, clean, given⟩ := Work.exists_applied text ⟨Document.empty Document.page, context⟩ applies
  have same : read text = (.ok parsed, c) := clean.read
  rw [same] at bare applies' written'
  have suits : c.ids.Suits parsed.forest.preorder := by
    have none : Declaration.labels parsed.forest.preorder = 0 := by simpa [Except.toOption] using bare
    refine ⟨fun i within => ?_, fun i within => ?_⟩ <;> omega
  obtain ⟨again, c', clean', given'⟩ := Work.exists_applied formatted ⟨Document.empty Document.page, c⟩ applies'
  exact ⟨context, c, c', parsed, again, _, _, formatted, formatted', clean, suits, given, written, clean', given', written',
    other⟩

end LiveDiagram
