import LiveDiagram.Proofs.Edit.Remove

/-! Labels of edges as steps. A node that is marked as the label of the edge around it does not move. -/
namespace LiveDiagram

variable {α : Type}

theorem Document.mem_childrenOf {d : Document α} {id : String} {e : Element α} (member : e ∈ d.childrenOf id) :
    e.id ∈ d.childIds id ∧ d.find? e.id = some e := by
  obtain ⟨child, inside, found⟩ := List.mem_filterMap.1 member
  cases Document.find?_eq_some_id found
  exact ⟨inside, found⟩

theorem Document.parentOf_of_mem_children {d : Document α} {id child : String} {e : Element α} (consistent : d.Consistent)
    (found : d.find? id = some e) (member : child ∈ e.children) : d.parentOf child = some id := by
  rw [← consistent.mem_children, childIds, found]
  exact member

theorem Element.end?_of_isLabelled {e : Element α} {relation : Relation} (labelled : e.isLabelled = true) :
    e.end? relation = none := by
  obtain ⟨_, _, content, _, _, _, _⟩ := e
  cases content with
  | node => cases relation <;> rfl
  | edge => cases labelled

theorem Document.labelsOf_of_childless {d : Document α} {id : String} {e : Element α} (found : d.find? id = some e)
    (childless : e.children = []) : d.labelsOf id = [] := by
  unfold labelsOf childrenOf
  rw [found, Option.elim_some, childless]
  rfl

theorem Document.mem_labelsOf {d : Document α} {holder : String} {e : Element α} (consistent : d.Consistent) :
    e ∈ d.labelsOf holder ↔ d.find? e.id = some e ∧ e.isLabelled = true ∧ e.parent = some holder := by
  have placed (found : d.find? e.id = some e) : e.parent = some holder ↔ e.id ∈ d.childIds holder := by
    rw [consistent.mem_children, parentOf, found, Option.bind_some]
  rw [labelsOf, List.mem_filter]
  constructor
  · rintro ⟨child, labelled⟩
    obtain ⟨inside, found⟩ := mem_childrenOf child
    exact ⟨found, labelled, (placed found).2 inside⟩
  · rintro ⟨found, labelled, parent⟩
    exact ⟨List.mem_filterMap.2 ⟨e.id, (placed found).1 parent, found⟩, labelled⟩

/-- A node marked as a label in an element. -/
def Document.LabelIn (d : Document α) (holder x : String) : Prop :=
  ∃ e, d.find? x = some e ∧ e.isLabelled = true ∧ e.parent = some holder

theorem Document.LabelIn.parentOf {d : Document α} {holder x : String} (label : d.LabelIn holder x) :
    d.parentOf x = some holder := by
  obtain ⟨e, found, _, parent⟩ := label
  exact parentOf_eq_some.2 ⟨e, found, parent⟩

theorem Document.mem_labelIds {d : Document α} {holder x : String} (consistent : d.Consistent) :
    x ∈ (d.labelsOf holder).map Element.id ↔ d.LabelIn holder x := by
  rw [List.mem_map]
  constructor
  · rintro ⟨e, label, rfl⟩
    exact ⟨e, (mem_labelsOf consistent).1 label⟩
  · rintro ⟨e, found, label⟩
    have named := Document.find?_eq_some_id found
    exact ⟨e, (mem_labelsOf consistent).2 ⟨named ▸ found, label⟩, named⟩

namespace Edit

variable [Coordinate α] {t t' : Transaction α} {id x edge : String} {b : Unit} (terms : Terms)

/-- An edit that moves nothing keeps the parent of every element that it leaves there. -/
def Stays (t t' : Transaction α) : Prop :=
  ∀ x, t'.document.contains x = true → t.document.contains x = true ∧ t'.document.parentOf x = t.document.parentOf x

omit [Coordinate α] in
theorem Stays.refl (t : Transaction α) : Stays t t := fun _ there => ⟨there, rfl⟩

omit [Coordinate α] in
theorem Stays.trans {u : Transaction α} (first : Stays t u) (second : Stays u t') : Stays t t' := by
  intro x there
  obtain ⟨between, parent⟩ := second x there
  exact ⟨(first x between).1, parent.trans (first x between).2⟩

theorem contains_changeLabel {label : Option (LabelPlacement α)} (given : Gives (changeLabel id label) t b t') :
    t'.document.contains x = t.document.contains x := by
  obtain ⟨_, _, _, rfl⟩ := gives_update.1 given
  exact Document.contains_modify Element.keepsPlace_mapNode.id

theorem contains_nest {parent : String} (given : Gives (nest parent id) t b t') : t'.document.contains x = t.document.contains x := by
  simp only [nest, attach, gives_bind, gives_element, gives_touch, gives_document, if_true] at given
  obtain ⟨_, _, ⟨_, rfl⟩, _, _, ⟨_, rfl⟩, _, _, ⟨rfl, rfl⟩, rest⟩ := given
  split at rest
  · simp only [gives_bind, gives_touch, gives_change] at rest
    obtain ⟨_, _, ⟨_, rfl⟩, rfl⟩ := rest
    exact Document.contains_attach
  · obtain rfl := gives_change.1 rest
    exact Document.contains_attach

theorem contains_markLabel {label : LabelPlacement α} (given : Gives (markLabel edge id label) t b t') :
    t'.document.contains x = t.document.contains x := by
  simp only [markLabel, gives_bind, gives_element] at given
  obtain ⟨_, u, changed, _, _, ⟨_, rfl⟩, given⟩ := given
  refine Eq.trans ?_ (contains_changeLabel changed)
  split at given
  · exact contains_nest given
  · exact (gives_pure.1 given).2 ▸ rfl

theorem stays_changeLabel {label : Option (LabelPlacement α)} (given : Gives (changeLabel id label) t b t') :
    Stays t t' := by
  refine fun x there => ⟨contains_changeLabel given ▸ there, ?_⟩
  obtain ⟨_, _, _, rfl⟩ := gives_update.1 given
  exact Document.parentOf_modify Element.keepsPlace_mapNode.id Element.keepsPlace_mapNode.parent

theorem stays_remove (consistent : t.document.Consistent) (given : Gives (remove id) t b t') : Stays t t' := by
  obtain ⟨_, _, after, _⟩ := remove_steps ⟨true, true⟩ consistent given
  intro x there
  obtain ⟨e, found⟩ := Document.contains_iff_find?.1 there
  have lookup := after x
  rw [found] at lookup
  split at lookup
  · cases lookup
  · obtain ⟨before, former, rfl⟩ := Option.map_eq_some_iff.1 lookup.symm
    refine ⟨Document.contains_of_find? former, ?_⟩
    simp only [Document.parentOf, found, former, Option.bind_some]
    exact Document.parent_bereft before

theorem markLabel_steps {label : LabelPlacement α} (placed : terms.moves = true ∨ t.document.parentOf id = some edge)
    (given : Gives (markLabel edge id label) t b t') :
    Steps terms t t' ∧ (t.document.parentOf id = some edge → Stays t t') := by
  simp only [markLabel, gives_bind, gives_element] at given
  obtain ⟨_, u, changed, e, _, ⟨found, rfl⟩, given⟩ := given
  have early : Steps terms t u := changeLabel_steps terms changed
  have stays := stays_changeLabel changed
  have present : u.document.contains id = true := Document.contains_of_find? found
  have holder : e.parent = t.document.parentOf id := by
    rw [← (stays id present).2]
    simp only [Document.parentOf, found, Option.bind_some]
  split at given
  · next apart =>
    rw [holder] at apart
    rcases placed with moving | nested
    · exact ⟨early.trans (nest_steps terms given present moving), fun same => (apart same).elim⟩
    · exact (apart nested).elim
  · obtain ⟨_, rfl⟩ := gives_pure.1 given
    exact ⟨early, fun _ => stays⟩

/-- Choosing labels moves no label that is in its place. -/
theorem chooseLabels_steps {standard : LabelPlacement α} {ids : List String}
    (placed : terms.moves = true ∨ ∀ id ∈ ids, t.document.contains id = true → t.document.parentOf id = some edge)
    (given : Gives (chooseLabels standard edge ids) t b t') : Steps terms t t' := by
  simp only [chooseLabels, gives_bind, gives_document] at given
  obtain ⟨_, _, ⟨rfl, rfl⟩, _, u, dropped, chosen⟩ := given
  have early : Steps terms t u ∧ Stays t u := by
    refine dropped.forM (fun u => Steps terms t u ∧ Stays t u) ⟨.refl, .refl t⟩ ?_
    rintro e _ v v' ⟨steps, stays⟩ changed
    exact ⟨steps.trans (changeLabel_steps terms changed), stays.trans (stays_changeLabel changed)⟩
  have late := chosen.forM (fun v => Steps terms t v ∧ (terms.moves = true ∨ Stays t v)) ⟨early.1, .inr early.2⟩ ?_
  · exact late.1
  · rintro id member v v' ⟨steps, stays⟩ round
    simp only [gives_bind, gives_document] at round
    obtain ⟨_, _, ⟨rfl, rfl⟩, round⟩ := round
    split at round
    · next e found =>
      split at round
      · have there : v.document.contains id = true := Document.contains_of_find? found
        have own : terms.moves = true ∨ v.document.parentOf id = some edge := by
          rcases placed with moved | placed
          · exact .inl moved
          · refine stays.imp_right fun stays => ?_
            rw [(stays id there).2]
            exact placed id member (stays id there).1
        obtain ⟨marked, still⟩ := markLabel_steps terms own round
        refine ⟨steps.trans marked, ?_⟩
        rcases stays with moved | stays
        · exact .inl moved
        · exact own.imp_right fun own => stays.trans (still own)
      · obtain ⟨_, rfl⟩ := gives_pure.1 round
        exact ⟨steps, stays⟩
    · obtain ⟨_, rfl⟩ := gives_pure.1 round
      exact ⟨steps, stays⟩

/-- Choosing all labels of an edge once more changes nothing. -/
theorem gives_chooseLabels_still {standard : LabelPlacement α} {ids : List String}
    (within : ∀ e ∈ t.document.labelsOf edge, e.id ∈ ids)
    (placed : ∀ id ∈ ids, ∀ e, t.document.find? id = some e → e.isLabelled = true ∧ e.parent = some edge) :
    Gives (chooseLabels standard edge ids) t () t := by
  have others : (t.document.labelsOf edge).filter (!ids.contains ·.id) = [] := by
    rw [List.filter_eq_nil_iff]
    intro e member
    simp [within e member]
  refine gives_bind.2 ⟨_, t, gives_document.2 ⟨rfl, rfl⟩, gives_bind.2 ⟨(), t, ?_, gives_forM_still fun id member => ?_⟩⟩
  · rw [others]
    exact gives_forM_nil.2 rfl
  · refine gives_bind.2 ⟨_, t, gives_document.2 ⟨rfl, rfl⟩, ?_⟩
    cases found : t.document.find? id with
    | none => exact gives_pure.2 ⟨rfl, rfl⟩
    | some e =>
      obtain ⟨labelled, parent⟩ := placed id member e found
      unfold Element.isLabelled at labelled
      dsimp only
      rw [if_neg (by simp [Option.isNone_iff_eq_none, ← Option.not_isSome_iff_eq_none, labelled, parent])]
      exact gives_pure.2 ⟨rfl, rfl⟩

omit [Coordinate α] in
theorem parentOf_of_mem_labelsOf {d : Document α} {e : Element α} (consistent : d.Consistent)
    (label : e ∈ d.labelsOf edge) : d.parentOf e.id = some edge :=
  (consistent.mem_children edge e.id).1 (Document.mem_childrenOf (List.mem_filter.1 label).1).1

/-- Keeping some labels of an edge as they are, after others may have gone. -/
theorem keepLabels_steps {u : Transaction α} {standard : LabelPlacement α} {chosen : Element α → Bool}
    (consistent : t.document.Consistent) (stays : Stays t u)
    (given : Gives (chooseLabels standard edge (((t.document.labelsOf edge).filter chosen).map Element.id)) u b t') :
    Steps terms u t' := by
  refine chooseLabels_steps terms (.inr ?_) given
  intro id member there
  obtain ⟨e, kept, rfl⟩ := List.mem_map.1 member
  rw [(stays e.id there).2]
  exact parentOf_of_mem_labelsOf consistent (List.mem_filter.1 kept).1

theorem removeAll_steps {labels : List (Element α)} (consistent : t.document.Consistent)
    (given : Gives (labels.forM fun label => remove label.id) t b t') : Steps terms t t' ∧ Stays t t' := by
  refine given.forM (fun u => Steps terms t u ∧ Stays t u) ⟨.refl, .refl t⟩ ?_
  rintro label _ u u' ⟨steps, stays⟩ removed
  have consistent' : u.document.Consistent := consistent.steps steps
  exact ⟨steps.trans (remove_steps terms consistent' removed).2.1, stays.trans (stays_remove consistent' removed)⟩

theorem freshId_steps (given : Gives (freshId : Edit α String) t id t') : Steps terms t t' ∧ t'.document = t.document := by
  simp only [freshId, gives_bind, gives_get, gives_set, gives_pure] at given
  obtain ⟨_, _, ⟨rfl, rfl⟩, _, u, rfl, _, rfl⟩ := given
  exact ⟨.single (.say _ _), rfl⟩

/-- Setting the inline label of an edge: whatever it takes, no element that was there is moved. -/
theorem putLabel_steps {config : Config α} {text label : String} {keep : List String}
    (consistent : t.document.Consistent) (given : Gives (putLabel config edge text keep) t label t') :
    Steps terms t t' := by
  simp only [putLabel, gives_bind, gives_element] at given
  obtain ⟨e, _, ⟨found, rfl⟩, given⟩ := given
  split at given
  · simp at given
  simp only [gives_bind, gives_document] at given
  obtain ⟨_, _, ⟨rfl, rfl⟩, given⟩ := given
  have born : e.birth < t.document.births := by
    exact consistent.births_lt e.handle (List.mem_map_of_mem (Document.mem_of_find? found))
  have named := Document.find?_eq_some_id found
  have fresh (u : Transaction α) (steps : Steps terms t u) {bounds : Bounds α}
      (made : Gives (do
        let id ← freshId
        insert (.new id (.node ⟨config.labelShape, bounds, text, none⟩) .nil .nil) (some e.handle)
        markLabel edge id config.label
        return id) u label t') : Steps terms t t' := by
    simp only [gives_bind, gives_pure] at made
    obtain ⟨id, v, drawn, _, w, inserted, _, _, marked, rfl, rfl⟩ := made
    obtain ⟨drawing, same⟩ := freshId_steps terms drawn
    have consistent' : v.document.Consistent := consistent.steps (steps.trans drawing)
    have older : e.birth < v.document.births := Nat.lt_of_lt_of_le born (Steps.births_le (steps.trans drawing))
    obtain ⟨_, _, entered, entering⟩ := insert_steps terms consistent' rfl rfl
      (by intro relation p ending; cases relation <;> cases ending) (by rintro _ ⟨⟩; exact older) (by intro _; exact ⟨trivial, trivial⟩) inserted
    refine ((steps.trans drawing).trans entering).trans (markLabel_steps terms (.inr ?_) marked).1
    rw [entered, Document.parentOf_enter]
    exact (if_pos rfl).trans (congrArg some named)
  split at given
  · simp only [gives_bind, gives_pure] at given
    obtain ⟨_, u, renamed, _, rfl⟩ := given
    exact putText_steps terms renamed
  · split at given
    · rw [gives_bind] at given
      obtain ⟨_, u, removed, given⟩ := given
      have early := (removeAll_steps terms consistent removed).1
      rw [gives_bind] at given
      obtain ⟨_, _, looked, given⟩ := given
      obtain ⟨rfl, rfl⟩ := gives_document.1 looked
      rw [gives_bind] at given
      obtain ⟨_, v, chosen, given⟩ := given
      have middle := keepLabels_steps terms (consistent.steps early) (.refl u) chosen
      exact fresh v (early.trans middle) given
    · exact fresh t .refl given

end Edit
end LiveDiagram
