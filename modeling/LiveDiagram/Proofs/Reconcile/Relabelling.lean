import LiveDiagram.Proofs.Reconcile.Carrying
import LiveDiagram.Proofs.Reconcile.Supplanting

/-! Putting a text on an edge. A lone label that is not to be kept takes the text; several of them leave, and then, as
where there is none, a new label comes in. -/
namespace LiveDiagram

variable {α : Type} [Coordinate α]

namespace Reconcile
variable {t : Transaction α} {config : Config α} {edge text : String} {keep : List String} {e l : Element α}

/-- A lone label takes the text. -/
theorem putLabel_lone (consistent : t.document.Consistent) (isOpen : t.ledger.closed = false)
    (found : t.document.find? edge = some e) (isEdge : e.isEdge = true) (lone : t.document.unlisted edge keep = [l]) :
    ∃ t', Gives (Edit.putLabel config edge text keep) t l.id t' ∧
      t'.document = t.document.modify l.id (Element.retext (some text)) := by
  have there : t.document.find? l.id = some l :=
    ((Document.mem_unlisted consistent).1 (lone ▸ List.mem_singleton.2 rfl)).1
  have leads : Leads t.document t.context.ids (relabel config e (t.document.boundsOf e) edge text keep [l]) l.id _ _ :=
    .bind (.update there) .pure
  obtain ⟨t', given, document, _⟩ := leads t ⟨rfl, rfl, isOpen⟩
  refine ⟨t', (gives_putLabel (s := Document.siteOf edge keep) found isEdge fun _ _ => Iff.rfl).2 ?_, document⟩
  rw [← Document.unlisted_eq, lone]
  exact given

theorem leads_freshLabel {d : Document α} {ids : IdSupply} {holder : Handle} {content : NodeContent α}
    {label : LabelPlacement α} (consistent : d.Consistent) (live : d.isLive holder = true)
    (absent : d.contains (ids.name ids.used) = false) :
    Leads d ids (freshLabel holder holder.id content label) (ids.name ids.used)
      ((d.enter (.new (ids.name ids.used) (.node content) .nil .nil) (some holder.id)).modify (ids.name ids.used)
        (Element.mapNode fun content => { content with label := some label })) { ids with used := ids.used + 1 } := by
  have held : ∀ p, some holder.id = some p → d.contains p = true := by
    rintro _ ⟨⟩
    exact Document.contains_iff_mem.2 (List.mem_map_of_mem (Document.isLive_iff.1 live))
  have entered := Document.find?_enter (x := ids.name ids.used) (e := .new _ (.node content) .nil .nil) absent rfl rfl held
  refine .bind .freshId (.bind (.insert consistent absent rfl ?_) (.bind (.markLabel (entered.trans (if_pos rfl)) rfl) .pure))
  rintro _ ⟨⟩
  exact live

/-- Where there is no lone label, all that are not to be kept leave, and a new one comes in. -/
theorem putLabel_fresh (consistent : t.document.Consistent) (acyclic : t.document.Acyclic)
    (isOpen : t.ledger.closed = false) (found : t.document.find? edge = some e) (isEdge : e.isEdge = true)
    (unused : t.document.contains (t.context.ids.name t.context.ids.used) = false)
    (others : ∀ l, t.document.unlisted edge keep ≠ [l]) :
    ∃ t' u ids n, Gives (Edit.putLabel config edge text keep) t n.id t' ∧ n.id = t.context.ids.name t.context.ids.used ∧
      (∃ content, n.content = .node content ∧ content.text = text) ∧
      t.document.Swept ((t.document.unlisted edge keep).map Element.id) ids u ∧ t.document.Renewed t'.document edge ids n := by
  obtain rfl : e.id = edge := Document.find?_eq_some_id found
  have distinct : ((t.document.unlisted e.id keep).map Element.id).Nodup := Document.nodup_unlisted consistent
  obtain ⟨_, u, removed, isOpen', supply⟩ :=
    Proceeds.removeAll consistent acyclic (fun l => Document.parentOf_unlisted consistent) distinct isOpen
  obtain ⟨ids, swept⟩ := Edit.removeAll_swept consistent removed
  have consistent' := consistent.steps (Edit.removeAll_steps ⟨true, false⟩ consistent removed).1
  have edge : u.document.find? e.id = some (t.document.bereft ids e) := by
    rw [swept.cleared, if_neg (swept.edge_stays consistent acyclic), found]
    rfl
  have live : u.document.isLive e.handle = true :=
    Document.isLive_iff.2 (List.mem_map.2 ⟨_, Document.mem_of_find? edge, Document.handle_bereft e⟩)
  have absent : u.document.contains (t.context.ids.name t.context.ids.used) = false := by
    rw [← Bool.not_eq_true, swept.cleared.contains, unused]
    simp
  have leads : Leads u.document t.context.ids
      (freshLabel e.handle e.id ⟨config.labelShape, t.document.boundsOf e, text, none⟩ config.label) _ _ _ :=
    leads_freshLabel consistent' live absent
  obtain ⟨t', fresh, document, _⟩ := leads u ⟨rfl, supply, isOpen'⟩
  obtain ⟨n, named, written, renewed⟩ :=
    swept.cleared.renewed unused (Document.contains_of_find? edge) document
  refine ⟨t', u.document, ids, n, named ▸ ?_, named, ⟨_, written, rfl⟩, swept, renewed⟩
  refine (gives_putLabel (s := Document.siteOf e.id keep) found isEdge fun _ _ => Iff.rfl).2 ?_
  exact (gives_relabel (s := Document.siteOf e.id keep) consistent (fun _ _ => Iff.rfl) others).2 ⟨u, removed, fresh⟩

end Reconcile

/-- Putting a text on an edge of a sound document returns, and one label that is not to be kept carries it: a lone one
that was there, which is all that changes, and else a new one. Elements leave where there were several such labels, and
then those within them. The labels to be kept stay in their order and in their state, and all else outlives what leaves. -/
theorem Edit.putLabel_upserted {t : Transaction α} {config : Config α} {edge text : String} {keep : List String}
    (consistent : t.document.Consistent) (acyclic : t.document.Acyclic) (isOpen : t.ledger.closed = false)
    (isEdge : t.document.IsEdge edge) (unused : t.document.contains (t.context.ids.name t.context.ids.used) = false)
    (unnamed : t.context.ids.name t.context.ids.used ∉ keep) :
    ∃ m t', Gives (Edit.putLabel config edge text keep) t m.id t' ∧ t'.document.Consistent ∧
      t.document.Upserted t'.document edge text keep m := by
  obtain ⟨e, found, isEdge⟩ := isEdge
  have sound {m : String} {t' : Transaction α} (given : Gives (Edit.putLabel config edge text keep) t m t') :
      t'.document.Consistent := consistent.steps (Edit.putLabel_steps ⟨true, false⟩ consistent given)
  by_cases lone : ∃ l, t.document.unlisted edge keep = [l]
  · obtain ⟨l, lone⟩ := lone
    obtain ⟨t', given, document⟩ : ∃ t', Gives (Edit.putLabel config edge text keep) t l.id t' ∧ _ :=
      Reconcile.putLabel_lone consistent isOpen found isEdge lone
    exact ⟨l.retext (some text), t', Element.keepsBuild_retext.id l ▸ given, sound given,
      Document.upserted_of_lone consistent acyclic lone document⟩
  · have others (l : Element α) : t.document.unlisted edge keep ≠ [l] := fun alone => lone ⟨l, alone⟩
    obtain ⟨t', u, ids, n, given, named, written, swept, renewed⟩ :
        ∃ t' u ids, ∃ n : Element α, Gives (Edit.putLabel config edge text keep) t n.id t' ∧ _ :=
      Reconcile.putLabel_fresh consistent acyclic isOpen found isEdge unused others
    exact ⟨n, t', given, sound given,
      renewed.upserted swept consistent acyclic found others (named ▸ unnamed) written⟩

/-- Two labels give way to one. -/
theorem Edit.putLabel_upserted_pair :
    ∃ (t t' : Transaction Quantity) (m : Element Quantity), (t.document.labelsOf "k").map Element.id = ["a", "b"] ∧
      Gives (Edit.putLabel .standard "k" "three" []) t m.id t' ∧ t'.document.labelsOf "k" = [m] ∧
      t'.document.contains "a" = false ∧ t'.document.contains "b" = false := by
  obtain ⟨t, consistent, acyclic, isOpen, isEdge, unused, labels⟩ : ∃ t : Transaction Quantity,
      t.document.Consistent ∧ t.document.Acyclic ∧ t.ledger.closed = false ∧ t.document.IsEdge "k" ∧
        t.document.contains (t.context.ids.name t.context.ids.used) = false ∧
        (t.document.labelsOf "k").map Element.id = ["a", "b"] := by
    let line : Content Quantity := .edge (.free .origin) (.free .origin)
    let edge : Edit Quantity Unit := Edit.insert (.new "k" line .nil .nil) none
    let one : Edit Quantity String := Edit.putLabel .standard "k" "one" []
    let two : Edit Quantity String := Edit.putLabel .standard "k" "two" ["a"]
    let name : Nat → String
      | 0 => "a"
      | 1 => "b"
      | _ => "c"
    let t₀ : Transaction Quantity := ⟨Document.empty Document.page, .opened Quantity true, ⟨⟨name, 0⟩, []⟩⟩
    let t₁ := (edge.run t₀).2
    let t₂ := (one.run t₁).2
    let t₃ := (two.run t₂).2
    have loose (relation : Relation) (p : Endpoint Quantity)
        (ending : (Element.new "k" line .nil .nil).end? relation = some p) : t₀.document.Fits p := by
      cases relation <;> cases ending <;> trivial
    obtain ⟨_, first, _⟩ : ∃ b, Gives edge t₀ b t₁ ∧ _ := exists_gives (fun _ => true) (by decide +kernel)
    obtain ⟨_, second, _⟩ : ∃ b, Gives one t₁ b t₂ ∧ _ := exists_gives (fun _ => true) (by decide +kernel)
    obtain ⟨_, third, _⟩ : ∃ b, Gives two t₂ b t₃ ∧ _ := exists_gives (fun _ => true) (by decide +kernel)
    have empty := Document.consistent_empty (Document.page : Bounds Quantity)
    have steps₁ : Steps ⟨false, false⟩ t₀ t₁ :=
      (Edit.insert_steps ⟨false, false⟩ empty rfl rfl loose (by simp) (by simp) first).2.2.2
    have consistent₁ : t₁.document.Consistent := empty.steps steps₁
    have steps₂ : Steps ⟨false, false⟩ t₁ t₂ := Edit.putLabel_steps _ consistent₁ second
    have consistent₂ : t₂.document.Consistent := consistent₁.steps steps₂
    have steps₃ : Steps ⟨false, false⟩ t₂ t₃ := Edit.putLabel_steps _ consistent₂ third
    have layered : t₃.document.Layered :=
      (((Document.layered_of_bare rfl).steps empty rfl steps₁).steps consistent₁ rfl steps₂).steps consistent₂ rfl steps₃
    have consistent : t₃.document.Consistent := consistent₂.steps steps₃
    have isEdge : (t₃.document.find? "k").any Element.isEdge = true := by decide +kernel
    exact ⟨t₃, consistent, layered.acyclic consistent, by decide +kernel, (Option.any_eq_true _ _).1 isEdge,
      by decide +kernel, by decide +kernel⟩
  obtain ⟨m, t', given, _, upserted⟩ :
      ∃ m : Element Quantity, ∃ t', Gives (Edit.putLabel .standard "k" "three" []) t m.id t' ∧ _ :=
    Edit.putLabel_upserted consistent acyclic isOpen isEdge unused List.not_mem_nil
  have all (d : Document Quantity) : d.unlisted "k" [] = d.labelsOf "k" := List.filter_eq_self.2 (by simp)
  have gone (x : String) (label : x ∈ (t.document.labelsOf "k").map Element.id) : t'.document.contains x = false := by
    obtain ⟨l, member, same⟩ := List.mem_map.1 label
    have there : t.document.contains x = true :=
      Document.contains_iff_find?.2 ⟨l, same ▸ ((Document.mem_labelsOf consistent).1 member).1⟩
    have supplanted : t.document.Supplanted "k" [] x := by
      have both : ((t.document.labelsOf "k").map Element.id).length = 2 := congrArg List.length labels
      rw [List.length_map] at both
      rw [Document.Supplanted, all, both]
      exact ⟨by decide, l, member, same ▸ .refl⟩
    rw [← Bool.not_eq_true, upserted.contains]
    rintro (⟨_, stays⟩ | rfl)
    · exact stays supplanted
    · rw [(upserted.fresh fun l lone => ?_).1] at there
      · cases there
      · rw [Document.Supplanted, lone] at supplanted
        exact absurd supplanted.1 (by simp)
  exact ⟨t, t', m, labels, given, (all _).symm.trans upserted.unlisted, gone "a" (by simp [labels]), gone "b" (by simp [labels])⟩

end LiveDiagram
