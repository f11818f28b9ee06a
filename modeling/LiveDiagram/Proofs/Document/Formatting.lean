import LiveDiagram.Proofs.Document.Brought

/-! What a text still says when it is formatted, that is, brought into an empty document and written again. An edge keeps
its connection to every node that is declared before it, and to no other. -/
namespace LiveDiagram

/-- The ids of the nodes among declarations. -/
def Declaration.nodeIds (ds : List Declaration) : List String :=
  (ds.filter (·.kind = .node)).map id

theorem Site.nodeIds_eq (sites : List Site) : Site.nodeIds sites = Declaration.nodeIds (sites.map Site.head) := by
  simp only [Site.nodeIds, Declaration.nodeIds, List.filter_map, List.map_map]
  rfl

/-- The sites of a forest that is split at a declaration. -/
theorem Forest.exists_site {f : Forest} {before after : List Declaration} {d : Declaration}
    (split : f.preorder = before ++ d :: after) :
    ∃ sites s more, f.sites none = sites ++ s :: more ∧ sites.map Site.head = before ∧ s.head = d := by
  rw [← f.heads_sites none, List.map_eq_append_iff] at split
  obtain ⟨sites, rest, whole, front, back⟩ := split
  obtain ⟨s, more, rfl, own, _⟩ := List.map_eq_cons_iff.1 back
  exact ⟨sites, s, more, whole, front, own⟩

variable {α : Type} [Coordinate α]

omit [Coordinate α] in
/-- Whatever restates an outline restates elements that have a line. -/
theorem Outline.Restates.exists_of_mem {config : Config α} {leftOut : Option String} {o : Outline α} {f : Forest}
    (restates : o.Restates config leftOut f) {g : Declaration} (member : g ∈ f.preorder) :
    ∃ e ∈ o.shown leftOut, ∃ children echo line, g = e.restated config children echo line := by
  induction restates with
  | nil => cases member
  | skip out _ ih =>
    rw [shown, if_pos out]
    exact ih member
  | @cons _ e children _ _ _ echo line kept _ _ _ ih ih' =>
    rw [shown_cons kept]
    rcases List.mem_cons.1 member with rfl | member
    · exact ⟨e, List.mem_cons_self, children, echo, line, rfl⟩
    · rcases List.mem_append.1 member with inner | later
      · obtain ⟨x, there, said⟩ := ih inner
        exact ⟨x, List.mem_cons_of_mem e (List.mem_append_left _ there), said⟩
      · obtain ⟨x, there, said⟩ := ih' later
        exact ⟨x, List.mem_cons_of_mem e (List.mem_append_right _ there), said⟩

/-- What the text of a built document declares under the id of a declaration is of the same kind, and names those nodes
at the ends of an edge that were declared before it. -/
theorem Built.kept_of_restates {ids ids' : IdSupply} {f again : Forest} {d : Document α} (brought : d.Brought)
    (built : Built .standard ids (f.sites none) d ids')
    (restates : (d.outline d.top).Restates .standard none again) {before after : List Declaration} {p g : Declaration}
    (split : f.preorder = before ++ p :: after) (member : g ∈ again.preorder) (same : g.id = p.id) :
    g.kind = p.kind ∧ ∀ source target label, p.head = .edge source target label → ∃ label', g.head =
      .edge (source.filter (· ∈ Declaration.nodeIds before)) (target.filter (· ∈ Declaration.nodeIds before)) label' := by
  obtain ⟨sites, s, more, whole, rfl, rfl⟩ := Forest.exists_site split
  obtain ⟨birth, bounds, placed⟩ := built.placed sites s more whole
  obtain ⟨e, there, children, echo, line, rfl⟩ := restates.exists_of_mem member
  have found := brought.unfolds.find?_of_mem_shown there
  have named : e.id = s.id := same
  rw [named, placed] at found
  obtain rfl := Option.some.inj found
  constructor
  · unfold Element.restated Declaration.kind Site.element Site.content
    cases s.head.head <;> rfl
  · intro source target label head
    unfold Element.restated Site.element Site.content
    simp only [head, Endpoint.node?_resolve, Site.nodeIds_eq]
    exact ⟨_, rfl⟩

/-- A text that is formatted keeps connections to nodes that come first. Its edges are connected, in the forest of the
formatted text, with the nodes of their names that are declared before them. A name that leads to a node further on, or
to no node, is gone. -/
theorem Work.applyText_keeps_ends (bounds : Bounds α) {text : String} {context context' : Context} {parsed : Parsed}
    (clean : Parsed.Clean text context parsed context') (suits : context'.ids.Suits parsed.forest.preorder) :
    ∃ w, Gives (Work.applyText text) ⟨Document.empty bounds, context⟩ parsed.errors w ∧
      ∀ formatted again c c', w.document.text = .ok formatted → (∀ e ∈ w.document.shown, e.Lined .standard) →
        Parsed.Clean formatted c again c' →
        ∀ before p after, parsed.forest.preorder = before ++ p :: after → ∀ g ∈ again.forest.preorder, g.id = p.id →
          g.kind = p.kind ∧ ∀ source target label, p.head = .edge source target label → ∃ label', g.head =
            .edge (source.filter (· ∈ Declaration.nodeIds before)) (target.filter (· ∈ Declaration.nodeIds before))
              label' := by
  obtain ⟨w, ids, given, built, brought⟩ := Work.applyText_builds bounds clean suits
  refine ⟨w, given, fun formatted again c c' written lined reread before p after split g member same => ?_⟩
  exact built.kept_of_restates brought (brought.restates lined written reread).2 split member same

/-- An edge between two nodes keeps the end at the node before it, and no other. -/
theorem Work.applyText_keeps_ends_between :
    ∃ (context c c' : Context) (w : Workspace Quantity) (formatted : String) (again : Parsed),
      (∃ errors, Gives (Work.applyText "a: rect\ne: edge a -> b\nb: rect") ⟨Document.empty Document.page, context⟩ errors w) ∧
        w.document.text = .ok formatted ∧ Parsed.Clean formatted c again c' ∧
        ∃ g ∈ again.forest.preorder, g.id = "e" ∧ ∃ label, g.head = .edge (some "a") none label := by
  let text := "a: rect\ne: edge a -> b\nb: rect"
  let formatted := "a: rect\n\ne: edge a --\n\nb: rect\n"
  let context : Context := ⟨⟨fun _ => "*", 0⟩, []⟩
  let v := ((Work.applyText text).run (⟨Document.empty Document.page, context⟩ : Workspace Quantity)).2
  let a : Declaration := ⟨"a", 0, .node "rect" none none, none, none, none⟩
  let e : Declaration := ⟨"e", 1, .edge (some "a") (some "b") none, none, none, none⟩
  let b : Declaration := ⟨"b", 2, .node "rect" none none, none, none, none⟩
  obtain ⟨parsed, clean, read⟩ : ∃ parsed, Parsed.Clean text context parsed _ ∧ _ :=
    Parsed.exists_clean _ _ (fun f => decide (f.preorder = [a] ++ e :: [b])) (by decide +kernel)
  obtain ⟨again, reread, there⟩ : ∃ again, Parsed.Clean formatted context again _ ∧ _ :=
    Parsed.exists_clean _ _ (fun f => f.preorder.any (·.id = "e")) (by decide +kernel)
  rw [decide_eq_true_eq] at read
  have suits (ids : IdSupply) : ids.Suits parsed.forest.preorder := by
    have bare : Declaration.labels parsed.forest.preorder = 0 := by
      rw [read]
      rfl
    refine ⟨fun i within => ?_, fun i within => ?_⟩ <;> omega
  obtain ⟨w, given, keeps⟩ := Work.applyText_keeps_ends (Document.page : Bounds Quantity) clean (suits _)
  obtain rfl : v = w := congrArg Prod.snd given
  have written : v.document.text = .ok formatted := by decide +kernel
  have lined : ∀ x ∈ v.document.shown, x.Lined .standard := by decide +kernel
  obtain ⟨g, member, named⟩ := List.any_eq_true.1 there
  rw [decide_eq_true_eq] at named
  obtain ⟨_, ends⟩ := keeps formatted again context _ written lined reread [a] e [b] read g member named
  obtain ⟨label, head⟩ := ends _ _ _ rfl
  exact ⟨context, context, _, v, formatted, again, ⟨_, given⟩, written, reread, g, member, named, label, head⟩

/-- Formatting loses an end at a node that is declared further on. Where a style holds line breaks, it can bring about
another edge in the place of one that has no line. -/
theorem Work.applyText_loses_ends :
    ["e: edge a -- b\na: rect\nb: rect",
        "m: rect\nn: rect\ne: edge \x7b\n  l: text \"L\" \x7b\n    x: edge m -- n\n  \x7d\n\x7d\n" ++
          "z: rect \x7b\n  metadata: \"style=q\\nx: edge n -- m\\nstylesheet: q\"\n\x7d"].Forall fun text =>
      ∃ (context c c' c'' : Context) (parsed again : Parsed) (w : Workspace Quantity) (formatted : String),
        Parsed.Clean text context parsed c ∧
        (∃ errors, Gives (Work.applyText text) ⟨Document.empty Document.page, context⟩ errors w) ∧
        w.document.text = .ok formatted ∧ Parsed.Clean formatted c' again c'' ∧
        ∃ p ∈ parsed.forest.preorder, ∃ g ∈ again.forest.preorder, g.id = p.id ∧
          ∃ name ∈ Declaration.nodeIds parsed.forest.preorder, (∃ target label, p.head = .edge (some name) target label) ∧
            ∀ target label, g.head ≠ .edge (some name) target label := by
  let context : Context := ⟨⟨fun _ => "*", 0⟩, []⟩
  let start : Workspace Quantity := ⟨Document.empty Document.page, context⟩
  let plain : Props := .node "stroke" (.leaf "width" (.int 1) .nil) .nil
  refine List.forall_iff_forall_mem.2 fun text member => ?_
  simp only [List.mem_cons, List.not_mem_nil, or_false] at member
  rcases member with forward | broken
  · let formatted := "e: edge \x7b\n  props: \"stroke.width=1\"\n\x7d\n\na: rect\n\nb: rect\n"
    let p : Declaration := ⟨"e", 0, .edge (some "a") (some "b") none, some plain, none, none⟩
    let g : Declaration := ⟨"e", 0, .edge none none none, some plain, none, none⟩
    obtain ⟨parsed, clean, read⟩ := Parsed.exists_clean text context
      (fun f => decide (p ∈ f.preorder ∧ "a" ∈ Declaration.nodeIds f.preorder)) (by subst forward; decide +kernel)
    obtain ⟨again, reread, there⟩ := Parsed.exists_clean formatted context (fun f => decide (g ∈ f.preorder))
      (by decide +kernel)
    obtain ⟨errors, given, _⟩ := exists_gives (e := Work.applyText text) (t := start) Errors.isEmpty
      (by subst forward; decide +kernel)
    rw [decide_eq_true_eq] at read there
    exact ⟨context, _, context, _, parsed, again, _, formatted, clean, ⟨errors, given⟩, by subst forward; decide +kernel,
      reread, p, read.1, g, there, rfl, "a", read.2, ⟨_, _, rfl⟩, by simp [g]⟩
  · let formatted := "m: rect\n\nn: rect\n\ne: edge \"L\"\n\n" ++
      "z: rect \x7b\n  stylesheet: q\nx: edge n -- m\nstylesheet: q /\n\x7d\n"
    let p : Declaration := ⟨"x", 4, .edge (some "m") (some "n") none, some plain, none, none⟩
    let g : Declaration := ⟨"x", 8, .edge (some "n") (some "m") none, some plain, none, none⟩
    obtain ⟨parsed, clean, read⟩ := Parsed.exists_clean text context
      (fun f => decide (p ∈ f.preorder ∧ "m" ∈ Declaration.nodeIds f.preorder)) (by subst broken; decide +kernel)
    obtain ⟨again, reread, there⟩ := Parsed.exists_clean formatted context (fun f => decide (g ∈ f.preorder))
      (by decide +kernel)
    obtain ⟨errors, given, _⟩ := exists_gives (e := Work.applyText text) (t := start) Errors.isEmpty
      (by subst broken; decide +kernel)
    rw [decide_eq_true_eq] at read there
    exact ⟨context, _, context, _, parsed, again, _, formatted, clean, ⟨errors, given⟩, by subst broken; decide +kernel,
      reread, p, read.1, g, there, rfl, "m", read.2, ⟨_, _, rfl⟩, by simp [g]⟩

end LiveDiagram
