import LiveDiagram.Proofs.Reconcile.Built

/-! Creating the elements of declarations in a document where none of them is yet. The visit of the next site returns,
and what it leads to is built of one more declaration. -/
namespace LiveDiagram

variable {α : Type} [Coordinate α]

namespace Reconcile
variable {config : Config α} {ids ids' : IdSupply} {d : Document α}

omit [Coordinate α] in
theorem leads_nodeNamed {name : Option String} :
    Leads d ids (nodeNamed name) (name.filter fun n => (d.node? n).isSome) d ids := by
  have same : (name.bind d.node?).map Element.id = name.filter fun n => (d.node? n).isSome := by
    cases name with
    | none => rfl
    | some n =>
      cases found : d.node? n with
      | none => simp [Option.filter, found]
      | some e =>
        have named : e.id = n := Document.find?_eq_some_id (Option.eq_some_of_filter_eq_some found)
        simp [Option.filter, found, named]
  rw [← same]
  exact .document .pure

omit [Coordinate α] in
theorem leads_newEnd {nodes : List String} {name : Option String} {free unresolved : Point α}
    (known : ∀ n, name = some n → ((d.node? n).isSome = true ↔ n ∈ nodes)) :
    Leads d ids (newEnd name free unresolved) (.resolve nodes free unresolved name) d ids := by
  cases name with
  | none => exact .pure
  | some n =>
    refine .bind leads_nodeNamed ?_
    simp only [Endpoint.resolve, Option.filter_some]
    by_cases there : n ∈ nodes
    · rw [if_pos there, if_pos ((known n rfl).2 there)]
      exact .pure
    · rw [if_neg there, if_neg fun node => there ((known n rfl).1 node)]
      exact .bind .note .pure

omit [Coordinate α] in
/-- An end that a new edge gets is free or at a node that is there. -/
theorem fits_resolve {nodes : List String} {name : Option String} {free unresolved : Point α}
    (known : ∀ n, name = some n → ((d.node? n).isSome = true ↔ n ∈ nodes)) :
    d.Fits (.resolve nodes free unresolved name) := by
  cases name with
  | none => trivial
  | some n =>
    unfold Endpoint.resolve
    dsimp only
    split
    · next there => exact (known n rfl).2 there
    · trivial

/-- An edge without children gets its first label. -/
theorem leads_putLabel (config : Config α) (text : String) {edge : String} {e : Element α} (consistent : d.Consistent)
    (found : d.find? edge = some e) (isEdge : e.isEdge = true) (childless : e.children = [])
    (fresh : d.contains (ids.ahead 0) = false) :
    ∃ d', Leads d ids (Edit.putLabel config edge text []) (ids.ahead 0) d' (ids.skip 1) ∧ d'.Consistent ∧
      d.handles ⊆ d'.handles ∧ d'.top = d.top ∧ ∃ bounds, ∀ x, d'.find? x =
        if x = ids.ahead 0 then
          some ⟨ids.ahead 0, d.births, .node ⟨config.labelShape, bounds, text, some config.label⟩, .nil, .nil, some edge, []⟩
        else (d.find? x).map fun p => { p with children := p.children ++ if some edge = some x then [ids.ahead 0] else [] } := by
  let label : Element α := .new (ids.ahead 0) (.node ⟨config.labelShape, d.boundsOf e, text, none⟩) .nil .nil
  let mark : Element α → Element α := Element.mapNode fun content => { content with label := some config.label }
  have keeps : Element.KeepsShape mark := .mapNode fun _ => rfl
  have named := Document.find?_eq_some_id found
  have bare : (d.labelsOf edge).filter (!([] : List String).contains ·.id) = [] := by
    simp only [Document.labelsOf, Document.childrenOf, found, Option.elim_some, childless, List.filterMap_nil,
      List.filter_nil]
  have live (holder : Handle) (same : some e.handle = some holder) : d.isLive holder = true := by
    cases same
    exact Document.isLive_iff.2 (List.mem_map_of_mem (Document.mem_of_find? found))
  have held (holder : String) (same : some edge = some holder) : d.contains holder = true := by
    cases same
    exact Document.contains_of_find? found
  have notNode : e.isNode = false := by rw [e.isNode_eq_not_isEdge, isEdge, Bool.not_true]
  have endless (relation : Relation) (p : Endpoint α) (ending : label.end? relation = some p) : d.Fits p := by
    cases relation <;> cases ending
  have entered (x : String) : (d.enter label (some edge)).find? x = _ := Document.find?_enter fresh rfl rfl held
  refine ⟨(d.enter label (some edge)).modify (ids.ahead 0) mark, ?_, ?_, ?_, ?_, d.boundsOf e, fun x => ?_⟩
  · have inserted : Leads d { ids with used := ids.used + 1 } (Edit.insert label (some e.handle)) () _ _ :=
      .insert consistent fresh rfl live
    have renamed : (some e.handle).map Handle.id = some edge := congrArg some named
    rw [renamed] at inserted
    unfold Edit.putLabel
    refine .bind (.element found) ?_
    rw [notNode]
    refine .document ?_
    rw [bare]
    exact .bind .freshId (.bind inserted (.bind (.markLabel ((entered _).trans (if_pos rfl)) rfl) .pure))
  · exact Document.Sound.adjust (consistent.enter fresh rfl rfl endless held) keeps.toKeepsPlace keeps.ends
  · rw [Document.handles_modify keeps.handle, Document.handles_enter]
    exact List.subset_append_left ..
  · refine (Document.top_enter consistent fresh rfl).trans ?_
    rw [if_neg (Option.some_ne_none _), List.append_nil]
  · rw [Document.find?_modify keeps.id, entered]
    by_cases own : x = ids.ahead 0
    · subst own
      exact (if_pos rfl).trans (.trans (by rw [if_pos (by rfl)]; rfl) (if_pos rfl).symm)
    · exact (if_neg own).trans (.trans (if_neg own) (if_neg own).symm)

end Reconcile

namespace Built
open Reconcile
variable {config : Config α} {ids ids' : IdSupply} {done rest : List Site} {s : Site} {d : Document α}
  (built : Built config ids done d ids') (suits : ids.Suits ((done ++ s :: rest).map Site.head))
  (distinct : ((done ++ s :: rest).map Site.id).Nodup)

include built suits distinct

/-- The element of the next site enters below the one around it. -/
theorem enters {parent : Option Handle} (under : Under d done s.holder parent) {content : Content α}
    (fits : ∀ relation p, (s.entry content).end? relation = some p → d.Fits p) :
    Leads d ids' (Edit.insert (s.entry content) parent) () (d.enter (s.entry content) s.around) ids' ∧
      (d.enter (s.entry content) s.around).Consistent ∧
      d.handles ⊆ (d.enter (s.entry content) s.around).handles ∧
      (d.enter (s.entry content) s.around).top = d.top ++ (if s.around = none then [s.id] else []) ∧
      ∀ x, (d.enter (s.entry content) s.around).find? x =
        if x = s.id then some { s.entry content with birth := d.births, parent := s.around }
        else (d.find? x).map fun p => { p with children := p.children ++ if s.around = some x then [s.id] else [] } := by
  have absent : d.contains (s.entry content).id = false := built.absent suits distinct
  have held (x : String) (around : s.around = some x) : d.contains x = true := by
    obtain ⟨p, held, rfl⟩ := Option.map_eq_some_iff.1 around
    obtain ⟨e, found, _⟩ := built.kind_found (under.met p held)
    exact Document.contains_of_find? found
  refine ⟨?_, built.consistent.enter absent rfl rfl fits held, ?_, Document.top_enter built.consistent absent rfl,
    fun x => Document.find?_enter absent rfl rfl held⟩
  · have inserted : Leads d ids' (Edit.insert (s.entry content) parent) () _ ids' :=
      .insert built.consistent absent rfl under.live
    rwa [under.named] at inserted
  · rw [Document.handles_enter]
    exact List.subset_append_left ..

/-- The element around the next site is an edge just where the declaration is one. -/
theorem isEdge_around {h : Handle} (under : Under d done s.holder (some h)) {content : Content α}
    (fits : ∀ relation p, (s.entry content).end? relation = some p → d.Fits p) :
    ((d.enter (s.entry content) s.around).find? h.id).any Element.isEdge = s.holder.any (·.kind = .edge) := by
  obtain ⟨_, _, _, _, found⟩ := built.enters suits distinct under fits
  obtain ⟨p, held, named⟩ := Option.map_eq_some_iff.1 under.named.symm
  obtain ⟨e, lookup, kind⟩ := built.kind_found (under.met p held)
  have apart : p.id ≠ s.id := Document.ne_of_contains (Document.contains_of_find? lookup) (built.absent suits distinct)
  rw [← named, found, if_neg apart, lookup, held, Option.any_some, ← kind]
  rfl

section Node
variable {shape : String} {name style : Option String} (head : s.head.head = .node shape name style)
  {parent : Option Handle} (under : Under d done s.holder parent) (reference : Option (Bounds α))

omit built suits distinct [Coordinate α] in
variable (s d shape name) in
theorem fits_node (bounds : Bounds α) (label : Option (LabelPlacement α)) (relation : Relation) (p : Endpoint α)
    (ending : (s.entry (Site.node shape name bounds label)).end? relation = some p) : d.Fits p := by
  cases relation <;> cases ending

include head under

/-- A node enters, and then is marked as a label if it is one. -/
theorem leads_create_node {d' : Document α}
    (marked : Leads (d.enter (s.entry (Site.node shape name (newBounds config d reference) none)) s.around) ids'
      (parent.elim (Pure.pure ()) fun parent => do
        if ((← Edit.document).find? parent.id).any Element.isEdge then Edit.markLabel parent.id s.id config.label)
      () d' ids') : Leads d ids' (create config parent reference s.head) () d' ids' := by
  have inserted := (built.enters suits distinct under (fits_node s d shape name (newBounds config d reference) none)).1
  unfold create
  rw [head]
  cases parent <;> exact .bind .note (.document (.bind inserted marked))

/-- A node in its place is all that a site of a node asks for, once its label is the right one. -/
theorem extend_node (bounds : Bounds α) {d' : Document α} (consistent' : d'.Consistent)
    (top' : d'.top = (d.enter (s.entry (Site.node shape name bounds none)) s.around).top)
    (own : d'.find? s.id = some { s.entry (Site.node shape name bounds
      (if s.holder.any (·.kind = .edge) then some config.label else none)) with birth := d.births, parent := s.around })
    (others : ∀ x, x ≠ s.id → d'.find? x = (d.enter (s.entry (Site.node shape name bounds none)) s.around).find? x) :
    Built config ids (done ++ [s]) d' ids' := by
  have unlabelled : s.head.label? = none := by
    unfold Declaration.label?
    rw [head]
  obtain ⟨_, _, _, top, found⟩ := built.enters suits distinct under (fits_node s d shape name bounds none)
  have meets : Meets config ids done s d d' := {
    held := under.met
    consistent := consistent'
    top := top'.trans top
    own := by
      refine ⟨d.births, bounds, own.trans ?_⟩
      rw [Site.element_node head, Site.labelIds, unlabelled]
      rfl
    label := by simp [unlabelled]
    others := fun x other _ => by rw [others x other, found, if_neg other] }
  have extended := built.extend suits distinct meets
  rwa [unlabelled] at extended

/-- A node is created for the next site, and marked as a label below an edge. -/
theorem creates_node : ∃ d', Leads d ids' (create config parent reference s.head) () d' ids' ∧
    d.handles ⊆ d'.handles ∧ Built config ids (done ++ [s]) d' ids' := by
  let bounds : Bounds α := newBounds config d reference
  let node (label : Option (LabelPlacement α)) : Content α := Site.node shape name bounds label
  let mark : Element α → Element α := Element.mapNode fun content => { content with label := some config.label }
  have endless : ∀ relation p, (s.entry (node none)).end? relation = some p → d.Fits p :=
    fits_node s d shape name bounds none
  obtain ⟨_, consistent, kept, top, found⟩ := built.enters suits distinct under endless
  have here : (d.enter (s.entry (node none)) s.around).find? s.id =
      some { s.entry (node none) with birth := d.births, parent := s.around } := (found s.id).trans (if_pos rfl)
  cases parent with
  | none =>
    have topmost : s.holder = none := Option.map_eq_none_iff.1 under.named.symm
    refine ⟨_, built.leads_create_node suits distinct head under reference .pure, kept,
      built.extend_node suits distinct head under bounds consistent rfl ?_ fun _ _ => rfl⟩
    rw [here, topmost]
    rfl
  | some h =>
    have around := built.isEdge_around suits distinct under endless
    by_cases edge : s.holder.any (·.kind = .edge) = true
    · have keeps : Element.KeepsShape mark := .mapNode fun _ => rfl
      refine ⟨(d.enter (s.entry (node none)) s.around).modify s.id mark,
        built.leads_create_node suits distinct head under reference (.document ?_), ?_,
        built.extend_node suits distinct head under bounds
          (Document.Sound.adjust consistent keeps.toKeepsPlace keeps.ends) rfl ?_ fun x other => ?_⟩
      · rw [around, if_pos edge]
        exact .markLabel here under.named.symm
      · rwa [Document.handles_modify keeps.handle]
      · rw [Document.find?_modify keeps.id, if_pos rfl, here, if_pos edge]
        rfl
      · rw [Document.find?_modify keeps.id, if_neg other]
    · refine ⟨_, built.leads_create_node suits distinct head under reference (.document ?_), kept,
        built.extend_node suits distinct head under bounds consistent rfl ?_ fun _ _ => rfl⟩
      · rw [around, if_neg edge]
        exact .pure
      · rw [here, if_neg edge]

end Node

omit distinct in
/-- The nodes that an edge names are there where they were met. -/
theorem isSome_node?_end {source target label : Option String} (head : s.head.head = .edge source target label)
    {n : String} (mentioned : source = some n ∨ target = some n) :
    (d.node? n).isSome = true ↔ n ∈ Site.nodeIds done := by
  have ends : s.head.ends = source.toList ++ target.toList := by
    unfold Declaration.ends
    rw [head]
  refine built.isSome_node? suits ?_ (List.mem_append_right done List.mem_cons_self) ?_
  · rw [Site.labels_append]
    omega
  · refine List.mem_cons_of_mem s.id ?_
    rw [ends]
    rcases mentioned with rfl | rfl <;> simp

omit distinct in
theorem fits_edge {source target label : Option String} (head : s.head.head = .edge source target label)
    (relation : Relation) (p : Endpoint α)
    (ending : (s.entry (Site.edge config done source target)).end? relation = some p) : d.Fits p := by
  rcases end?_new_edge ending with rfl | rfl
  · exact fits_resolve fun n given => built.isSome_node?_end suits head (.inl given)
  · exact fits_resolve fun n given => built.isSome_node?_end suits head (.inr given)

/-- An edge enters between the nodes that are there, and then gets its label. -/
theorem leads_create_edge {source target label : Option String} (head : s.head.head = .edge source target label)
    {parent : Option Handle} (under : Under d done s.holder parent) (reference : Option (Bounds α)) {d' : Document α}
    {ids'' : IdSupply}
    (labelled : Leads (d.enter (s.entry (Site.edge config done source target)) s.around) ids' (label.elim (Pure.pure ())
      fun text => Functor.discard (Edit.putLabel config s.id text [])) () d' ids'') :
    Leads d ids' (create config parent reference s.head) () d' ids'' := by
  have inserted := (built.enters suits distinct under (built.fits_edge suits head)).1
  have known {n : String} (mentioned : source = some n ∨ target = some n) := built.isSome_node?_end suits head mentioned
  unfold create
  rw [head]
  cases label <;> exact .bind .note (.bind (leads_newEnd fun n given => known (.inl given))
    (.bind (leads_newEnd fun n given => known (.inr given)) (.bind inserted labelled)))

/-- An edge without a label is created for the next site. -/
theorem creates_bare_edge {source target : Option String} (head : s.head.head = .edge source target none)
    {parent : Option Handle} (under : Under d done s.holder parent) (reference : Option (Bounds α)) :
    ∃ d' ids'', Leads d ids' (create config parent reference s.head) () d' ids'' ∧ d.handles ⊆ d'.handles ∧
      Built config ids (done ++ [s]) d' ids'' := by
  have unlabelled : s.head.label? = none := Declaration.label?_edge head
  obtain ⟨_, consistent, kept, top, found⟩ := built.enters suits distinct under (built.fits_edge suits head)
  have meets : Meets config ids done s d (d.enter (s.entry (Site.edge config done source target)) s.around) := {
    held := under.met
    consistent := consistent
    top := top
    own := by
      refine ⟨d.births, d.bounds, ((found s.id).trans (if_pos rfl)).trans ?_⟩
      rw [Site.element_edge head, Site.labelIds, unlabelled]
      rfl
    label := by simp [unlabelled]
    others := fun x other _ => by rw [found, if_neg other] }
  have extended := built.extend suits distinct meets
  rw [unlabelled] at extended
  exact ⟨_, ids', built.leads_create_edge suits distinct head under reference .pure, kept, extended⟩

/-- An edge with a label is created for the next site, and the label under the next id. -/
theorem creates_labelled_edge {source target : Option String} {text : String}
    (head : s.head.head = .edge source target (some text)) {parent : Option Handle}
    (under : Under d done s.holder parent) (reference : Option (Bounds α)) :
    ∃ d' ids'', Leads d ids' (create config parent reference s.head) () d' ids'' ∧ d.handles ⊆ d'.handles ∧
      Built config ids (done ++ [s]) d' ids'' := by
  have carried : s.head.label? = some text := Declaration.label?_edge head
  have labelled : s.head.label?.isSome = true := by rw [carried]; rfl
  have named : ids'.ahead 0 = Site.labelId ids done := by
    rw [built.supply]
    rfl
  have apart : s.id ≠ Site.labelId ids done :=
    labelId_ne suits labelled (List.mem_append_right done List.mem_cons_self) id_mem_mentions
  obtain ⟨_, consistent, kept, top, found⟩ := built.enters suits distinct under (built.fits_edge suits head)
  let entered := d.enter (s.entry (Site.edge config done source target)) s.around
  have here : entered.find? s.id = some { s.entry (Site.edge config done source target) with
      birth := d.births, parent := s.around } := (found s.id).trans (if_pos rfl)
  have fresh : entered.contains (ids'.ahead 0) = false := by
    have old := Document.not_contains_iff.1 (built.labelId_absent suits labelled)
    rw [named, Document.not_contains_iff, found, if_neg apart.symm, old]
    rfl
  obtain ⟨d', put, consistent', kept', top', bounds, found'⟩ :=
    leads_putLabel config text consistent here rfl rfl fresh
  rw [named] at found'
  have meets : Meets config ids done s d d' := {
    held := under.met
    consistent := consistent'
    top := top'.trans top
    own := by
      refine ⟨d.births, d.bounds, ?_⟩
      rw [found', if_neg apart, here, Site.element_edge head, Site.labelIds, if_pos labelled]
      simp only [Option.map_some, if_true]
      rfl
    label := fun text' given => by
      cases given.symm.trans carried
      exact ⟨entered.births, bounds, (found' _).trans (if_pos rfl)⟩
    others := fun x other unlisted => by
      have apart' : x ≠ Site.labelId ids done := fun same => unlisted (mem_labelIds.2 ⟨labelled, same⟩)
      rw [found', if_neg apart', found, if_neg other, if_neg fun same => other (Option.some.inj same).symm]
      cases d.find? x <;> simp }
  have extended := built.extend suits distinct meets
  rw [if_pos labelled] at extended
  exact ⟨d', _, built.leads_create_edge suits distinct head under reference put.discard,
    List.Subset.trans kept kept', extended⟩

omit built in
/-- A visit of the next site creates its element. -/
theorem rounds : Rounds config (Built config ids) done s := by
  intro parent reference d ids' built under
  have missing : d.find? s.head.id = none := Document.not_contains_iff.1 (built.absent suits distinct)
  obtain ⟨d', ids'', created, kept, built'⟩ : ∃ d' ids'', Leads d ids' (create config parent reference s.head) () d' ids'' ∧
      d.handles ⊆ d'.handles ∧ Built config ids (done ++ [s]) d' ids'' := by
    cases head : s.head.head with
    | node shape name style => exact (built.creates_node suits distinct head under reference).imp fun d' all => ⟨ids', all⟩
    | edge source target label =>
      cases label with
      | none => exact built.creates_bare_edge suits distinct head under reference
      | some text => exact built.creates_labelled_edge suits distinct head under reference
  obtain ⟨birth, bounds, found⟩ := built'.placed done s [] rfl
  refine ⟨⟨s.id, birth⟩, d', ids'', ?_, rfl, ?_, kept, built'⟩
  · unfold visitOne
    refine .document ?_
    rw [missing]
    exact .bind created (.bind (.element found) .pure)
  · exact Document.isLive_iff.2 (List.mem_map_of_mem (Document.mem_of_find? found))

end Built

end LiveDiagram
