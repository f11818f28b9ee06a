import LiveDiagram.Proofs.Reconcile.Sites
import LiveDiagram.Proofs.Reconcile.Visit

/-! What a pass over a forest with distinct ids has built when it has met the first declarations. The document is known
by them alone: one element for each declaration, and one label for each labelled edge, under the ids that are drawn for
labels in order. -/
namespace LiveDiagram

/-- The names of nodes at the ends of an edge. -/
def Declaration.ends (d : Declaration) : List String :=
  match d.head with
  | .node .. => []
  | .edge source target _ => source.toList ++ target.toList

/-- The ids that a declaration speaks of. -/
def Declaration.mentions (d : Declaration) : List String :=
  d.id :: d.ends

/-- How many edges carry a label. -/
def Declaration.labels (ds : List Declaration) : Nat :=
  ds.countP (·.label?.isSome)

/-- The `n`-th id from now on. -/
def IdSupply.ahead (ids : IdSupply) (n : Nat) : String :=
  ids.name (ids.used + n)

/-- The supply when `n` ids more are gone. -/
def IdSupply.skip (ids : IdSupply) (n : Nat) : IdSupply :=
  { ids with used := ids.used + n }

/-- The ids to come are distinct from each other and from all that the declarations speak of, as far as labels need
them. -/
structure IdSupply.Suits (ids : IdSupply) (ds : List Declaration) : Prop where
  distinct : ∀ i < Declaration.labels ds, ∀ j < Declaration.labels ds, ids.ahead i = ids.ahead j → i = j
  unused : ∀ i < Declaration.labels ds, ids.ahead i ∉ ds.flatMap Declaration.mentions

theorem IdSupply.Suits.of_bare {ids : IdSupply} {ds : List Declaration} (bare : Declaration.labels ds = 0) : ids.Suits ds where
  distinct i within := absurd within (by omega)
  unused i within := absurd within (by omega)

variable {α : Type} [Coordinate α]

/-- An end of a new edge where these nodes are there. -/
def Endpoint.resolve (nodes : List String) (free unresolved : Point α) : Option String → Endpoint α
  | none => .free free
  | some name => if name ∈ nodes then .atCenter name else .free unresolved

omit [Coordinate α] in
/-- An end leads to the node of its name where that is there, and to none otherwise. -/
theorem Endpoint.node?_resolve (nodes : List String) (free unresolved : Point α) (name : Option String) :
    (Endpoint.resolve nodes free unresolved name).node? = name.filter (· ∈ nodes) := by
  unfold resolve
  cases name with
  | none => rfl
  | some name =>
    rw [Option.filter_some]
    by_cases there : name ∈ nodes
    · simp [there, node?, link?, atCenter]
    · simp [there, node?, link?]

namespace Site

/-- The ids of the nodes among the sites. -/
def nodeIds (sites : List Site) : List String :=
  (sites.filter (·.head.kind = .node)).map id

/-- The content of the element of a site after the sites before it. -/
def content (config : Config α) (before : List Site) (bounds : Bounds α) (s : Site) : Content α :=
  match s.head.head with
  | .node shape name _ =>
    .node ⟨shape, bounds, name.getD "", if s.holder.any (·.kind = .edge) then some config.label else none⟩
  | .edge source target _ =>
    .edge (.resolve (nodeIds before) config.freeStart config.unresolvedStart source)
      (.resolve (nodeIds before) config.freeStop config.unresolvedStop target)

/-- The element of a site after the sites before it. -/
def element (config : Config α) (before : List Site) (children : List String) (birth : Nat) (bounds : Bounds α)
    (s : Site) : Element α where
  id := s.id
  birth := birth
  content := s.content config before bounds
  props := s.head.props.getD .nil
  metadata := Reconcile.styled s.head (s.head.metadata.getD .nil)
  parent := s.around
  children := children

/-- The id of the label of a site after the sites before it. -/
def labelId (ids : IdSupply) (before : List Site) : String :=
  ids.ahead (Declaration.labels (before.map head))

/-- The ids that lead to a label of a site. -/
def labelIds (ids : IdSupply) (before : List Site) (s : Site) : List String :=
  if s.head.label?.isSome then [labelId ids before] else []

/-- The label of a site. -/
def label (config : Config α) (ids : IdSupply) (before : List Site) (text : String) (birth : Nat) (bounds : Bounds α)
    (s : Site) : Element α where
  id := labelId ids before
  birth := birth
  content := .node ⟨config.labelShape, bounds, text, some config.label⟩
  props := .nil
  metadata := .nil
  parent := some s.id
  children := []

/-- The element of a site as it enters. -/
def entry (content : Content α) (s : Site) : Element α :=
  .new s.id content (s.head.props.getD .nil) (Reconcile.styled s.head (s.head.metadata.getD .nil))

/-- The content of a new node of this shape and name. -/
def node (shape : String) (name : Option String) (bounds : Bounds α) (label : Option (LabelPlacement α)) : Content α :=
  .node ⟨shape, bounds, name.getD "", label⟩

/-- The content of a new edge between these names after these sites. -/
def edge (config : Config α) (before : List Site) (source target : Option String) : Content α :=
  .edge (.resolve (nodeIds before) config.freeStart config.unresolvedStart source)
    (.resolve (nodeIds before) config.freeStop config.unresolvedStop target)

variable {config : Config α} {ids : IdSupply} {before : List Site} {children : List String} {birth : Nat}
  {bounds : Bounds α} {s : Site}

theorem element_node {shape : String} {name style : Option String} (head : s.head.head = .node shape name style) :
    s.element config before children birth bounds =
      { s.entry (node shape name bounds (if s.holder.any (·.kind = .edge) then some config.label else none)) with
        birth := birth, parent := s.around, children := children } := by
  simp only [element, content, head]
  rfl

theorem element_edge {source target label : Option String} (head : s.head.head = .edge source target label) :
    s.element config before children birth bounds =
      { s.entry (edge config before source target) with birth := birth, parent := s.around, children := children } := by
  simp only [element, content, head]
  rfl

theorem kind_element : (s.element config before children birth bounds).kind = s.head.kind := by
  obtain ⟨holder, ⟨id, line, head, props, metadata, style⟩, listed⟩ := s
  cases head <;> rfl

theorem labels_append {sites more : List Site} : Declaration.labels ((sites ++ more).map head) =
    Declaration.labels (sites.map head) + Declaration.labels (more.map head) := by
  simp only [Declaration.labels, List.map_append, List.countP_append]

theorem labels_singleton : Declaration.labels ([s].map head) = if s.head.label?.isSome then 1 else 0 := by
  simp only [Declaration.labels, List.map_cons, List.map_nil, List.countP_singleton]

end Site

/-- The document of a pass that has met these sites, with the ids to come after them. -/
structure Built (config : Config α) (ids : IdSupply) (done : List Site) (d : Document α) (ids' : IdSupply) : Prop where
  consistent : d.Consistent
  supply : ids' = ids.skip (Declaration.labels (done.map Site.head))
  there : ∀ x, d.contains x = true ↔
    x ∈ done.map Site.id ∨ ∃ k < Declaration.labels (done.map Site.head), x = ids.ahead k
  top : d.top = Site.below none done
  met : ∀ s ∈ done, ∀ p, s.holder = some p → p ∈ done.map Site.head
  placed : ∀ before s after, done = before ++ s :: after → ∃ birth bounds, d.find? s.id =
    some (s.element config before (s.labelIds ids before ++ Site.below (some s.id) done) birth bounds)
  labelled : ∀ before s after text, done = before ++ s :: after → s.head.label? = some text →
    ∃ birth bounds, d.find? (Site.labelId ids before) = some (s.label config ids before text birth bounds)

namespace Built
variable {config : Config α} {ids ids' : IdSupply} {done rest : List Site} {s : Site} {d d' : Document α}

/-- Splitting a list at one of its elements, when it has a last one. -/
theorem split_cases {γ : Type} {xs before after : List γ} {x y : γ} (split : xs ++ [y] = before ++ x :: after) :
    (before = xs ∧ x = y) ∨ ∃ after', xs = before ++ x :: after' := by
  rcases List.eq_nil_or_concat after with rfl | ⟨init, last, rfl⟩
  · obtain ⟨same, own⟩ := List.append_inj' split rfl
    exact .inl ⟨same.symm, (List.singleton_inj.1 own).symm⟩
  · rw [List.concat_eq_append, ← List.cons_append, ← List.append_assoc] at split
    exact .inr ⟨init, (List.append_inj' split rfl).1⟩

theorem id_mem_mentions : s.id ∈ s.head.mentions :=
  List.mem_cons_self

/-- No id of a label is one that a declaration speaks of. -/
theorem ahead_ne {all : List Site} {s : Site} {x : String} (suits : ids.Suits (all.map Site.head)) (member : s ∈ all)
    (spoken : x ∈ s.head.mentions) {k : Nat} (within : k < Declaration.labels (all.map Site.head)) :
    x ≠ ids.ahead k := by
  rintro rfl
  exact suits.unused k within (List.mem_flatMap.2 ⟨s.head, List.mem_map_of_mem member, spoken⟩)

section
variable (built : Built config ids done d ids') (suits : ids.Suits ((done ++ s :: rest).map Site.head))

theorem labels_lt (labelled : s.head.label?.isSome = true) :
    Declaration.labels (done.map Site.head) < Declaration.labels ((done ++ s :: rest).map Site.head) := by
  rw [List.append_cons, Site.labels_append, Site.labels_append, Site.labels_singleton, if_pos labelled]
  omega

include suits

/-- The id of the label of a site is apart from all that the declarations speak of. -/
theorem labelId_ne (labelled : s.head.label?.isSome = true) {s' : Site} (member : s' ∈ done ++ s :: rest) {x : String}
    (spoken : x ∈ s'.head.mentions) : x ≠ Site.labelId ids done :=
  ahead_ne suits member spoken (labels_lt labelled)

include built

theorem absent (distinct : ((done ++ s :: rest).map Site.id).Nodup) : d.contains s.id = false := by
  rw [← Bool.not_eq_true, built.there]
  rintro (before | ⟨k, within, same⟩)
  · rw [List.map_append, List.nodup_append] at distinct
    exact distinct.2.2 _ before _ List.mem_cons_self rfl
  · refine ahead_ne suits (List.mem_append_right done List.mem_cons_self) id_mem_mentions ?_ same
    rw [Site.labels_append]
    omega

theorem labelId_absent (labelled : s.head.label?.isSome = true) : d.contains (Site.labelId ids done) = false := by
  rw [← Bool.not_eq_true, built.there]
  rintro (before | ⟨k, within, same⟩)
  · obtain ⟨s', member, named⟩ := List.mem_map.1 before
    exact labelId_ne suits labelled (List.mem_append_left _ member) id_mem_mentions named
  · have same := suits.distinct _ (labels_lt labelled) k (Nat.lt_trans within (labels_lt labelled)) same
    omega

end

theorem mem_labelIds {x : String} :
    x ∈ s.labelIds ids done ↔ s.head.label?.isSome = true ∧ x = Site.labelId ids done := by
  unfold Site.labelIds
  split <;> simp [*]

/-- What a document is when one more site was met: it has the element of the site, its label if it has one, and the
element around it has one more child. -/
structure Meets (config : Config α) (ids : IdSupply) (done : List Site) (s : Site) (d d' : Document α) : Prop where
  held : ∀ p, s.holder = some p → p ∈ done.map Site.head
  consistent : d'.Consistent
  top : d'.top = d.top ++ if s.around = none then [s.id] else []
  own : ∃ birth bounds, d'.find? s.id = some (s.element config done (s.labelIds ids done) birth bounds)
  label : ∀ text, s.head.label? = some text →
    ∃ birth bounds, d'.find? (Site.labelId ids done) = some (s.label config ids done text birth bounds)
  others : ∀ x, x ≠ s.id → x ∉ s.labelIds ids done → d'.find? x = (d.find? x).map fun p =>
    { p with children := p.children ++ if s.around = some x then [s.id] else [] }

section Extend
variable (built : Built config ids done d ids') (suits : ids.Suits ((done ++ s :: rest).map Site.head))
  (distinct : ((done ++ s :: rest).map Site.id).Nodup) (meets : Meets config ids done s d d')

omit [Coordinate α] in
include distinct in
theorem id_not_mem : s.id ∉ done.map Site.id := by
  intro inside
  rw [List.map_append, List.nodup_append] at distinct
  exact distinct.2.2 _ inside _ List.mem_cons_self rfl

include built meets

theorem held_extend {s' : Site} (member : s' ∈ done ++ [s]) {p : Declaration} (held : s'.holder = some p) :
    p ∈ done.map Site.head := by
  rcases List.mem_append.1 member with old | new
  · exact built.met s' old p held
  · cases List.mem_singleton.1 new
    exact meets.held p held

/-- No site that was met is below an id that is not one of those before it. -/
theorem around_ne {x : String} (apart : x ∉ done.map Site.id) {s' : Site} (member : s' ∈ done ++ [s]) :
    s'.around ≠ some x := by
  intro same
  obtain ⟨p, held, rfl⟩ := Option.map_eq_some_iff.1 same
  obtain ⟨s'', inside, rfl⟩ := List.mem_map.1 (built.held_extend meets member held)
  exact apart (List.mem_map_of_mem inside)

theorem there_extend (x : String) : d'.contains x = true ↔ x ∈ (done ++ [s]).map Site.id ∨
    ∃ k < Declaration.labels ((done ++ [s]).map Site.head), x = ids.ahead k := by
  rw [Site.labels_append, Site.labels_singleton, List.map_append, List.mem_append]
  by_cases same : x = s.id
  · obtain ⟨_, _, found⟩ := meets.own
    simp [same, Document.contains, found]
  by_cases fresh : x ∈ s.labelIds ids done
  · obtain ⟨labelled, rfl⟩ := mem_labelIds.1 fresh
    obtain ⟨text, given⟩ := Option.isSome_iff_exists.1 labelled
    obtain ⟨_, _, found⟩ := meets.label text given
    rw [if_pos labelled]
    simp only [Document.contains, found, Option.isSome_some, true_iff]
    exact .inr ⟨_, Nat.lt_succ_self _, rfl⟩
  · have old : d'.contains x = d.contains x := by
      simp only [Document.contains, meets.others x same fresh, Option.isSome_map]
    rw [old, built.there]
    refine or_congr (by simp [same]) (exists_congr fun k => and_congr_left fun named => ?_)
    subst named
    rw [mem_labelIds, not_and] at fresh
    split
    · next labelled =>
      have other : k ≠ Declaration.labels (done.map Site.head) := fun same => fresh labelled (same ▸ rfl)
      omega
    · rw [Nat.add_zero]

include suits distinct

theorem placed_extend {before after : List Site} {s' : Site} (split : done ++ [s] = before ++ s' :: after) :
    ∃ birth bounds, d'.find? s'.id = some (s'.element config before
      (s'.labelIds ids before ++ Site.below (some s'.id) (done ++ [s])) birth bounds) := by
  have apart : s.id ∉ done.map Site.id := id_not_mem distinct
  rcases split_cases split with ⟨rfl, rfl⟩ | ⟨after', rfl⟩
  · obtain ⟨birth, bounds, found⟩ := meets.own
    have childless : Site.below (some s'.id) (before ++ [s']) = [] :=
      Site.below_eq_nil fun _ => built.around_ne meets apart
    rw [childless, List.append_nil]
    exact ⟨birth, bounds, found⟩
  · obtain ⟨birth, bounds, found⟩ := built.placed before s' after' rfl
    have member : s' ∈ before ++ s' :: after' := List.mem_append_right before List.mem_cons_self
    refine ⟨birth, bounds, ?_⟩
    rw [meets.others s'.id (fun same => apart (same ▸ List.mem_map_of_mem member)), found, Site.below_concat,
      ← List.append_assoc]
    · rfl
    · rw [mem_labelIds]
      exact fun fresh => labelId_ne suits fresh.1 (List.mem_append_left _ member) id_mem_mentions fresh.2

theorem labelled_extend {before after : List Site} {s' : Site} {text : String}
    (split : done ++ [s] = before ++ s' :: after) (given : s'.head.label? = some text) :
    ∃ birth bounds, d'.find? (Site.labelId ids before) = some (s'.label config ids before text birth bounds) := by
  rcases split_cases split with ⟨rfl, rfl⟩ | ⟨after', rfl⟩
  · exact meets.label text given
  · obtain ⟨birth, bounds, found⟩ := built.labelled before s' after' text rfl given
    have member : s' ∈ before ++ s' :: after' := List.mem_append_right before List.mem_cons_self
    have here : s ∈ before ++ s' :: after' ++ s :: rest := List.mem_append_right _ List.mem_cons_self
    have earlier : Declaration.labels (before.map Site.head) <
        Declaration.labels ((before ++ s' :: after').map Site.head) := labels_lt (given ▸ rfl)
    have within : Declaration.labels (before.map Site.head) <
        Declaration.labels ((before ++ s' :: after' ++ s :: rest).map Site.head) := by
      rw [Site.labels_append]
      omega
    -- The label that is there is neither the new element nor its label, as drawn ids are apart from each other and
    -- from all that is declared.
    refine ⟨birth, bounds, ?_⟩
    rw [meets.others, found]
    · rw [Option.map_some, if_neg]
      · rfl
      · refine built.around_ne meets (fun inside => ?_) (List.mem_append_right _ (List.mem_singleton.2 rfl))
        obtain ⟨s'', inside, named⟩ := List.mem_map.1 inside
        exact ahead_ne suits (List.mem_append_left _ inside) id_mem_mentions within named
    · exact fun same => ahead_ne suits here id_mem_mentions within same.symm
    · rw [mem_labelIds]
      rintro ⟨labelled, same⟩
      have same := suits.distinct _ within _ (labels_lt labelled) same
      omega

/-- The pass has built what it should when one more site was met. -/
theorem extend : Built config ids (done ++ [s]) d' (ids'.skip (if s.head.label?.isSome then 1 else 0)) where
  consistent := meets.consistent
  supply := by
    rw [built.supply, Site.labels_append, Site.labels_singleton]
    exact congrArg (IdSupply.mk ids.name) (Nat.add_assoc ..)
  there := built.there_extend meets
  top := by rw [meets.top, built.top, Site.below_concat]
  met s' member p held := by
    rw [List.map_append]
    exact List.mem_append_left _ (built.held_extend meets member held)
  placed _ _ _ := built.placed_extend suits distinct meets
  labelled _ _ _ _ := built.labelled_extend suits distinct meets

end Extend

/-- The element of a declaration that was met, with its kind. -/
theorem kind_found (built : Built config ids done d ids') {p : Declaration} (met : p ∈ done.map Site.head) :
    ∃ e, d.find? p.id = some e ∧ e.kind = p.kind := by
  obtain ⟨s, member, rfl⟩ := List.mem_map.1 met
  obtain ⟨before, after, split⟩ := List.append_of_mem member
  obtain ⟨birth, bounds, found⟩ := built.placed before s after split
  exact ⟨_, found, Site.kind_element⟩

/-- The nodes that a declaration can speak of are those that were met. -/
theorem isSome_node? (built : Built config ids done d ids') {all : List Site} (suits : ids.Suits (all.map Site.head))
    (known : Declaration.labels (done.map Site.head) ≤ Declaration.labels (all.map Site.head)) (member : s ∈ all)
    {name : String} (spoken : name ∈ s.head.mentions) :
    (d.node? name).isSome = true ↔ name ∈ Site.nodeIds done := by
  have here (s' : Site) (met : s' ∈ done) : (d.node? s'.id).isSome = true ↔ s'.head.kind = .node := by
    obtain ⟨e, found, kind⟩ := built.kind_found (List.mem_map_of_mem met)
    rw [Document.isSome_node?]
    change (d.find? s'.head.id).any _ = true ↔ _
    rw [found, ← kind]
    exact decide_eq_true_iff
  have listed : name ∈ Site.nodeIds done ↔ ∃ s' ∈ done, s'.head.kind = .node ∧ s'.id = name := by
    simp only [Site.nodeIds, List.mem_map, List.mem_filter, decide_eq_true_eq, and_assoc]
  rw [listed]
  constructor
  · intro node
    rcases (built.there name).1 (Document.contains_of_node? node) with met | ⟨k, within, same⟩
    · obtain ⟨s', inside, rfl⟩ := List.mem_map.1 met
      exact ⟨s', inside, (here s' inside).1 node, rfl⟩
    · exact (ahead_ne suits member spoken (Nat.lt_of_lt_of_le within known) same).elim
  · rintro ⟨s', met, node, rfl⟩
    exact (here s' met).2 node

end Built

/-- Nothing was met yet in a document without elements. -/
theorem built_nil {config : Config α} {ids : IdSupply} {d : Document α} (consistent : d.Consistent)
    (vacant : d.elements = []) : Built config ids [] d ids where
  consistent := consistent
  supply := rfl
  there x := by simp [Document.contains, Document.find?, vacant, Declaration.labels]
  top := by
    refine List.eq_nil_iff_forall_not_mem.2 fun x member => ?_
    have there := ((consistent.mem_top x).1 member).1
    simp [Document.contains, Document.find?, vacant] at there
  met := by simp
  placed := by simp
  labelled := by simp

end LiveDiagram
