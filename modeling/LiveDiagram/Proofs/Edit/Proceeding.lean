import LiveDiagram.Proofs.Edit.Labels
import LiveDiagram.Proofs.Edit.Leading

/-! Edits that go on. From an open transaction such an edit returns, and it leaves the transaction open and the ids to
come as they were; what the next edit asks of the document is known from what this one gives. -/
namespace LiveDiagram

variable {α : Type}

/-- From an open transaction the edit returns in an open one with the same ids to come. -/
def Proceeds {β : Type} (t : Transaction α) (e : Edit α β) : Prop :=
  t.ledger.closed = false → ∃ b t', Gives e t b t' ∧ t'.ledger.closed = false ∧ t'.context.ids = t.context.ids

namespace Proceeds
variable {β γ : Type} {t : Transaction α} {e : Edit α β} {f : β → Edit α γ}

theorem of_leads {b : β} {d : Document α} (leads : Leads t.document t.context.ids e b d t.context.ids) :
    Proceeds t e := by
  intro isOpen
  obtain ⟨t', given, _, supply, isOpen'⟩ := leads t ⟨rfl, rfl, isOpen⟩
  exact ⟨b, t', given, isOpen', supply⟩

theorem pure {b : β} : Proceeds t (Pure.pure b) :=
  of_leads .pure

theorem bind (first : Proceeds t e) (rest : ∀ b u, Gives e t b u → Proceeds u (f b)) : Proceeds t (e >>= f) := by
  intro isOpen
  obtain ⟨b, u, early, isOpen', supply⟩ := first isOpen
  obtain ⟨c, t', late, isOpen'', supply'⟩ := rest b u early isOpen'
  exact ⟨c, t', gives_bind.2 ⟨b, u, early, late⟩, isOpen'', supply'.trans supply⟩

theorem document {f : Document α → Edit α γ} (rest : Proceeds t (f t.document)) : Proceeds t (Edit.document >>= f) := by
  refine .bind (of_leads (.document .pure)) fun d u given => ?_
  obtain ⟨rfl, rfl⟩ := Edit.gives_document.1 given
  exact rest

theorem element {id : String} {f : Element α → Edit α γ} {p : Element α} (found : t.document.find? id = some p)
    (rest : Proceeds t (f p)) : Proceeds t (Edit.element id >>= f) := by
  refine .bind (of_leads (.element found)) fun q u given => ?_
  obtain ⟨found', rfl⟩ := Edit.gives_element.1 given
  cases found.symm.trans found'
  exact rest

theorem note {n : Note} : Proceeds t (Edit.note n) :=
  of_leads .note

theorem change {f : Document α → Document α} : Proceeds t (Edit.change f) :=
  of_leads .change

/-- A step that is taken on a condition, and what comes after it either way. -/
theorem when {c : Prop} [Decidable c] {e : Edit α PUnit} {f : Edit α γ} (first : c → Proceeds t e)
    (rest : ∀ u, Gives (if c then e else Pure.pure PUnit.unit) t PUnit.unit u → Proceeds u f) :
    Proceeds t (if c then do { e; f } else f) := by
  by_cases holds : c
  · rw [if_pos holds]
    exact .bind (first holds) fun _ u given => rest u (by rwa [if_pos holds])
  · rw [if_neg holds]
    exact rest t (by rw [if_neg holds]; exact gives_pure.2 ⟨rfl, rfl⟩)

/-- A loop goes on if each of its rounds does and leaves what the next one needs. -/
theorem forM {f : β → Edit α PUnit} {xs : List β} (inv : Transaction α → Prop) (start : inv t)
    (round : ∀ x ∈ xs, ∀ u, inv u → Proceeds u (f x) ∧ ∀ u', Gives (f x) u PUnit.unit u' → inv u') :
    Proceeds t (xs.forM f) := by
  intro isOpen
  have rounds : ∀ x ∈ xs, ∀ u, inv u ∧ u.ledger.closed = false ∧ u.context.ids = t.context.ids →
      ∃ u', Gives (f x) u PUnit.unit u' ∧ inv u' ∧ u'.ledger.closed = false ∧ u'.context.ids = t.context.ids := by
    rintro x member u ⟨kept, isOpen, supply⟩
    obtain ⟨proceeds, keeps⟩ := round x member u kept
    obtain ⟨_, u', given, isOpen', supply'⟩ := proceeds isOpen
    exact ⟨u', given, keeps u' given, isOpen', supply'.trans supply⟩
  obtain ⟨t', given, _, rest⟩ := exists_gives_forM _ ⟨start, isOpen, rfl⟩ rounds
  exact ⟨⟨⟩, t', given, rest⟩

variable [Coordinate α] {id : String}

theorem record {p : Element α} : Proceeds t (Edit.record p) :=
  of_leads .record

theorem touch {p : Element α} : Proceeds t (Edit.touch p) :=
  fun isOpen => ⟨(), _, Edit.gives_touch.2 ⟨isOpen, rfl⟩, Ledger.closed_keep.trans isOpen, rfl⟩

theorem update {change : Element α → Element α} (there : t.document.contains id = true) :
    Proceeds t (Edit.update id change) := by
  obtain ⟨p, found⟩ := Document.contains_iff_find?.1 there
  exact of_leads (.update found)

theorem moveStart {p : Endpoint α} (there : t.document.contains id = true) : Proceeds t (Edit.moveStart id p) :=
  .bind (.update there) fun _ _ _ => .change

theorem moveStop {p : Endpoint α} (there : t.document.contains id = true) : Proceeds t (Edit.moveStop id p) :=
  .bind (.update there) fun _ _ _ => .change

theorem insert {p : Element α} {parent : Option Handle} (consistent : t.document.Consistent)
    (absent : t.document.contains p.id = false) (topmost : p.parent = none)
    (live : ∀ holder, parent = some holder → t.document.isLive holder = true) : Proceeds t (Edit.insert p parent) :=
  of_leads (.insert consistent absent topmost live)

theorem nest {parent : String} (there : t.document.contains parent = true) : Proceeds t (Edit.nest parent id) := by
  obtain ⟨p, found⟩ := Document.contains_iff_find?.1 there
  unfold Edit.nest Edit.attach
  refine .element found (.bind .touch fun _ u _ => .document ?_)
  split
  · exact .bind .touch fun _ _ _ => .change
  · exact .change

/-! Labels -/

theorem markLabel {edge : String} {label : LabelPlacement α} (there : t.document.contains edge = true)
    (present : t.document.contains id = true) : Proceeds t (Edit.markLabel edge id label) := by
  unfold Edit.markLabel
  refine .bind (.update present) fun _ u changed => ?_
  have same := fun x => Edit.contains_changeLabel changed (x := x)
  obtain ⟨e, found⟩ := Document.contains_iff_find?.1 ((same id).trans present)
  refine .element found ?_
  split
  · exact .nest ((same edge).trans there)
  · exact .pure

/-- Choosing labels among elements that may not be there. -/
theorem chooseLabels {standard : LabelPlacement α} {edge : String} {ids : List String}
    (there : t.document.contains edge = true) : Proceeds t (Edit.chooseLabels standard edge ids) := by
  let inv (u : Transaction α) : Prop := ∀ x, u.document.contains x = t.document.contains x
  unfold Edit.chooseLabels
  refine .document (.bind (.forM inv (fun _ => rfl) fun e member u kept => ⟨.update ?_, fun u' changed x => ?_⟩)
    fun _ u dropped => .forM inv ?_ fun x _ v kept => ⟨.document ?_, fun v' round y => ?_⟩)
  · have child := (List.mem_filter.1 (List.mem_filter.1 member).1).1
    exact (kept e.id).trans (Document.contains_iff_find?.2 ⟨e, (Document.mem_childrenOf child).2⟩)
  · exact (Edit.contains_changeLabel changed).trans (kept x)
  · exact dropped.forM inv (fun _ => rfl) fun e _ v v' kept changed x => (Edit.contains_changeLabel changed).trans (kept x)
  · split
    · next e found =>
      split
      · exact .markLabel ((kept edge).trans there) (Document.contains_of_find? found)
      · exact .pure
    · exact .pure
  · simp only [gives_bind, Edit.gives_document] at round
    obtain ⟨_, _, ⟨rfl, rfl⟩, round⟩ := round
    split at round
    · split at round
      · exact (Edit.contains_markLabel round).trans (kept y)
      · exact (gives_pure.1 round).2 ▸ kept y
    · exact (gives_pure.1 round).2 ▸ kept y

/-! Removal -/

theorem freeEnds {node edge : String} : Proceeds t (Edit.freeEnds node edge) := by
  unfold Edit.freeEnds
  refine .document ?_
  split
  · next start stop content =>
    have there : t.document.contains edge = true := by
      obtain ⟨e, found, _⟩ := Option.map_eq_some_iff.1 content
      exact Document.contains_of_find? found
    refine .when (fun _ => .moveStart there) fun u first => ?_
    have there' : u.document.contains edge = true := by
      split at first
      · rw [Document.contains, Edit.find?_rejoin Element.keepsPlace_setStart first, if_pos rfl, Option.isSome_map]
        exact there
      · exact (gives_pure.1 first).2 ▸ there
    split
    · exact .moveStop there'
    · exact .pure
  · exact .pure

theorem freeNodes {doomed : List String} {nodes : List (Element α)} : Proceeds t (nodes.forM fun node => do
    let edges := (← Edit.document).attachedEdges node.id
    (edges.filter (!doomed.contains ·)).forM (Edit.freeEnds node.id)) := by
  refine .forM (fun _ => True) trivial fun node _ u _ => ⟨.document ?_, fun _ _ => trivial⟩
  exact .forM (fun _ => True) trivial fun _ _ _ _ => ⟨freeEnds, fun _ _ => trivial⟩

end Proceeds

section
variable [Coordinate α] {t t' : Transaction α} {id x : String}

/-- What a ledger covers it covers after any edit. -/
theorem Steps.covers {terms : Terms} (steps : Steps terms t t') (covered : t.ledger.covers x = true) :
    t'.ledger.covers x = true := by
  induction steps with
  | refl => exact covered
  | tail _ step ih =>
    cases step with
    | record => exact Edit.covers_keep_of_covers ih
    | _ => exact ih

omit [Coordinate α] in
theorem Proceeds.announceRemovals {leaving : List (Element α)} (covered : ∀ e ∈ leaving, t.ledger.covers e.id = true) :
    Proceeds t (leaving.forM Edit.announceRemoval) := by
  intro isOpen
  have round : ∀ e ∈ leaving, Gives (Edit.announceRemoval e) t PUnit.unit t := fun e member =>
    Edit.gives_requireCovered.2 ⟨isOpen, covered e member, rfl⟩
  exact ⟨⟨⟩, t, gives_forM_still round, isOpen, rfl⟩

theorem Edit.covers_records {leaving : List (Element α)} {b : Unit} (given : Gives (leaving.forM Edit.record) t b t') :
    ∀ e ∈ leaving, t'.ledger.covers e.id = true := by
  induction leaving generalizing t with
  | nil => simp
  | cons e rest ih =>
    obtain ⟨u, first, others⟩ := gives_forM_cons.1 given
    intro p member
    rcases List.mem_cons.1 member with rfl | later
    · refine others.forM (fun u => u.ledger.covers p.id = true) ?_ fun q _ v v' covered recorded => ?_
      · obtain ⟨_, rfl⟩ := Edit.gives_record.1 first
        exact Edit.covers_keep
      · obtain ⟨_, rfl⟩ := Edit.gives_record.1 recorded
        exact Edit.covers_keep_of_covers covered
    · exact ih others p later

/-- Removing an element that is there. -/
theorem Proceeds.remove (consistent : t.document.Consistent) (present : t.document.contains id = true) :
    Proceeds t (Edit.remove id) := by
  obtain ⟨root, found⟩ := Document.contains_iff_find?.1 present
  have there : ∀ e ∈ (t.document.subtree id).filterMap t.document.find?, t.document.find? e.id = some e := by
    intro e member
    obtain ⟨x, _, lookup⟩ := List.mem_filterMap.1 member
    exact Document.find?_eq_some_id lookup ▸ lookup
  unfold Edit.remove
  refine .element found (.document (.bind (.forM (fun _ => True) trivial fun _ _ _ _ => ⟨.record, fun _ _ => trivial⟩)
    fun _ u recorded => .bind .freeNodes fun _ v freed => .document ?_))
  obtain ⟨_, same⟩ := Edit.records_steps ⟨true, true⟩ there recorded
  have frees := (Edit.freeNodes_steps ⟨true, true⟩ (same ▸ consistent) freed).1
  have covered (e : Element α) (member : e ∈ (t.document.subtree id).filterMap t.document.find?) :
      v.ledger.covers e.id = true := frees.covers (Edit.covers_records recorded e member)
  have last (w : Transaction α)
      (covered : ∀ e ∈ (t.document.subtree id).filterMap t.document.find?, w.ledger.covers e.id = true) :
      Proceeds w (do
        Edit.change (·.detach id)
        ((t.document.subtree id).filterMap t.document.find?).forM Edit.announceRemoval
        Edit.change (·.unregister (t.document.subtree id))
        Edit.note (.removed root.tag ((t.document.subtree id).length - 1))) := by
    refine .bind .change fun _ x detached => .bind (.announceRemovals ?_) fun _ _ _ => .bind .change fun _ _ _ => .note
    rw [Edit.gives_change.1 detached]
    exact covered
  split
  · next parent held =>
    have consistent' : v.document.Consistent := (same ▸ consistent : u.document.Consistent).steps frees
    obtain ⟨p, lookup⟩ := Document.contains_iff_find?.1 (consistent'.contains_parent held)
    refine .element lookup (.bind .touch fun _ w touched => last w fun e member => ?_)
    obtain ⟨_, rfl⟩ := Edit.gives_touch.1 touched
    exact Edit.covers_keep_of_covers (covered e member)
  · exact last v covered

end
end LiveDiagram
