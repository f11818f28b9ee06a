import LiveDiagram.Proofs.History.Restore

/-! The phases of a restore lead to another document, where that document gives the states to reach and the elements
without a state are in their places already: the elements with a state become those of the other document, and the
rest stays as it is. -/
namespace LiveDiagram

variable {α : Type}

def ContentState.kind : ContentState α → ElementKind
  | .node _ => .node
  | .edge .. => .edge

def Snapshot.kind (s : Snapshot α) : ElementKind := s.content.kind

/-- The element with the props, metadata and node content of a state. -/
def Element.filledBy (s : Snapshot α) (e : Element α) : Element α :=
  { e with
    props := s.props
    metadata := s.metadata
    content := match e.content, s.content with
      | .node _, .node content => .node content
      | content, _ => content }

/-- An element with the kind, the entries and the node content of a state. -/
structure Element.Bears (e : Element α) (s : Snapshot α) : Prop where
  props : e.props = s.props
  metadata : e.metadata = s.metadata
  kind : e.kind = s.kind
  content : ∀ content, s.content = .node content → e.content = .node content

theorem Element.Bears.congr {e e' : Element α} {s : Snapshot α} (bears : e.Bears s) (props : e'.props = e.props)
    (metadata : e'.metadata = e.metadata) (content : e'.content = e.content) : e'.Bears s := by
  refine ⟨props.trans bears.props, metadata.trans bears.metadata, ?_, fun c node => content.trans (bears.content c node)⟩
  rw [← bears.kind]
  exact congrArg Content.kind content

theorem Element.bears_filledBy {e : Element α} {s : Snapshot α} (kind : e.kind = s.kind) :
    (e.filledBy s).Bears s := by
  rcases e with ⟨_, _, content, _, _, _, _⟩
  rcases s with ⟨_, _, _, _, _, state⟩
  cases content <;> cases state
  · exact ⟨rfl, rfl, rfl, by simp [filledBy]⟩
  · cases kind
  · cases kind
  · exact ⟨rfl, rfl, rfl, by simp⟩

theorem Edit.kind_blank (s : Snapshot α) : (Edit.blank s).kind = s.kind := by
  rcases s with ⟨_, _, _, _, _, content⟩
  cases content <;> rfl

namespace Document
variable {d d' g : Document α} {s : Snapshot α} {x : String}

/-! Each phase by element -/

theorem find?_filled : (d.filled s).find? x = if x = s.id then (d.find? x).map (Element.filledBy s) else d.find? x := by
  have entries (x : String) : (d.modify s.id fun e => { e with props := s.props, metadata := s.metadata }).find? x =
      if x = s.id then (d.find? x).map fun e => { e with props := s.props, metadata := s.metadata } else d.find? x :=
    find?_modify fun _ => rfl
  unfold filled
  dsimp only
  generalize (d.modify s.id fun e => { e with props := s.props, metadata := s.metadata }) = d' at entries ⊢
  by_cases named : x = s.id
  · subst named
    have own := entries s.id
    rw [if_pos rfl] at own ⊢
    cases found : d.find? s.id with
    | none => simp [own, found]
    | some e =>
      rcases e with ⟨name, birth, content, _, _, _, _⟩
      rcases s with ⟨id, parent, children, props, metadata, state⟩
      cases content <;> cases state <;> simp only [own, found, Option.map_some]
      · rw [find?_modify Element.keepsPlace_mapNode.id, if_pos rfl, own, found]
        rfl
      all_goals rfl
  · have other := entries x
    rw [if_neg named] at other ⊢
    split
    · rw [find?_modify Element.keepsPlace_mapNode.id, if_neg named, other]
    · exact other

theorem find?_revived : (d.revived s).find? x =
    if x = s.id then some (Element.filledBy s ((d.find? s.id).getD { Edit.blank s with birth := d.births }))
    else d.find? x := by
  unfold revived
  rw [find?_filled]
  by_cases named : x = s.id
  · subst named
    cases present : d.contains s.id with
    | true =>
      obtain ⟨e, found⟩ := contains_iff_find?.1 present
      simp [found]
    | false =>
      have missing := not_contains_iff.1 present
      have registered : ({ d.register (Edit.blank s) with top := d.top ++ [s.id] } : Document α).find? s.id =
          some { Edit.blank s with birth := d.births } :=
        (find?_register_of_absent (e := Edit.blank s) present).trans (if_pos rfl)
      simp [missing, registered]
  · simp only [named, if_false]
    split
    · rfl
    · next absent =>
      rw [Bool.not_eq_true] at absent
      exact (find?_register_of_absent (e := Edit.blank s) absent).trans (if_neg named)

theorem find?_arranged (named : x ≠ s.id) : (d.arranged s).find? x = d.find? x := by
  unfold arranged
  dsimp only
  rw [find?_modify, if_neg named]
  exact fun _ => rfl

theorem find?_rejoined (named : x ≠ s.id) : (d.rejoined s).find? x = d.find? x := by
  unfold rejoined
  split
  · rw [find?_connect, find?_modify, if_neg named]
    exact fun _ => rfl
  · rfl

theorem find?_rejoined_node {e : Element α} {content : NodeContent α} (found : d.find? s.id = some e)
    (node : e.content = .node content) : d.rejoined s = d := by
  unfold rejoined
  rw [found]
  simp only [Option.map_some, node]

theorem find?_rejoined_edge {e : Element α} {first second : Endpoint α} {start stop : EndpointState α}
    (found : d.find? s.id = some e) (edge : e.content = .edge first second) (state : s.content = .edge start stop) :
    (d.rejoined s).find? s.id = some { e with content := .edge (d.endFrom start) (d.endFrom stop) } := by
  unfold rejoined
  rw [found]
  simp only [Option.map_some, edge, state]
  rw [find?_connect, find?_modify, if_pos rfl, found]
  · rfl
  · exact fun _ => rfl

/-! Each phase over all states -/

/-- Going through states of different elements keeps what each change keeps, and each element stays as its change
leaves it. -/
theorem foldl_each (change : Snapshot α → Document α → Document α) {present : List (Snapshot α)}
    (distinct : (present.map Snapshot.id).Nodup) (inv : Document α → Prop) (done : Snapshot α → Document α → Prop)
    (start : inv d) (keeps : ∀ s ∈ present, ∀ d, inv d → inv (change s d))
    (own : ∀ s ∈ present, ∀ d, inv d → done s (change s d))
    (others : ∀ s ∈ present, ∀ r ∈ present, r.id ≠ s.id → ∀ d, inv d → done r d → done r (change s d)) :
    inv (present.foldl (fun d s => change s d) d) ∧
      ∀ s ∈ present, done s (present.foldl (fun d s => change s d) d) := by
  -- What the change of one element has done, those of the others leave alone.
  have later (r : Snapshot α) (present : List (Snapshot α)) (d : Document α)
      (keeps : ∀ s ∈ present, ∀ d, inv d → inv (change s d))
      (others : ∀ s ∈ present, ∀ d, inv d → done r d → done r (change s d)) (start : inv d) (now : done r d) :
      done r (present.foldl (fun d s => change s d) d) := by
    induction present generalizing d with
    | nil => exact now
    | cons s rest ih =>
      exact ih (change s d) (fun s member => keeps s (List.mem_cons_of_mem _ member))
        (fun s member => others s (List.mem_cons_of_mem _ member)) (keeps s List.mem_cons_self d start)
        (others s List.mem_cons_self d start now)
  induction present generalizing d with
  | nil => exact ⟨start, by simp⟩
  | cons s rest ih =>
    rw [List.map_cons, List.nodup_cons] at distinct
    have next := keeps s List.mem_cons_self d start
    have apart (r : Snapshot α) (member : r ∈ rest) : r.id ≠ s.id := fun same =>
      distinct.1 (same ▸ List.mem_map_of_mem member)
    have rest' := ih distinct.2 next (fun r member => keeps r (List.mem_cons_of_mem s member))
      (fun r member => own r (List.mem_cons_of_mem s member))
      (fun r member q member' => others r (List.mem_cons_of_mem s member) q (List.mem_cons_of_mem s member'))
    refine ⟨rest'.1, fun r member => ?_⟩
    rcases List.mem_cons.1 member with rfl | member
    · refine later r rest (change r d) (fun q member => keeps q (List.mem_cons_of_mem r member)) ?_ next
        (own r List.mem_cons_self d start)
      exact fun q member => others q (List.mem_cons_of_mem r member) r List.mem_cons_self (Ne.symm (apart q member))
    · exact rest'.2 r member

variable [Coordinate α] {present : List (Snapshot α)}

/-- A document from which the given states lead to another one: they are states of that document, and elements
without a given state have the same place and kind in both. -/
structure Ready (present : List (Snapshot α)) (d g : Document α) : Prop where
  consistent : d.Consistent
  goal : g.Consistent
  distinct : (present.map Snapshot.id).Nodup
  target : ∀ s ∈ present, g.state? s.id = some s
  kinds : ∀ s ∈ present, ∀ e, d.find? s.id = some e → e.kind = s.kind
  others : ∀ x, x ∉ present.map Snapshot.id → d.contains x = g.contains x ∧ d.parentOf x = g.parentOf x ∧
    d.childIds x = g.childIds x ∧ (d.node? x).isSome = (g.node? x).isSome

/-- A document on the way: what has a state bears it, and the rest is as it was. -/
structure Underway (present : List (Snapshot α)) (d d' : Document α) : Prop where
  consistent : d'.Consistent
  others : ∀ x, x ∉ present.map Snapshot.id → d'.find? x = d.find? x
  bears : ∀ s ∈ present, ∃ e, d'.find? s.id = some e ∧ e.Bears s

theorem kind_snapshot {e : Element α} : (d.snapshot e).kind = e.kind := by
  rcases e with ⟨_, _, content, _, _, _, _⟩
  cases content <;> rfl

namespace Ready

theorem target_element (ready : d.Ready present g) (member : s ∈ present) :
    ∃ e, g.find? s.id = some e ∧ g.snapshot e = s :=
  Option.map_eq_some_iff.1 (ready.target s member)

theorem target_parent (ready : d.Ready present g) (member : s ∈ present) : g.parentOf s.id = s.parent := by
  obtain ⟨e, found, state⟩ := ready.target_element member
  rw [parentOf, found, ← state]
  rfl

theorem target_children (ready : d.Ready present g) (member : s ∈ present) : g.childIds s.id = s.children := by
  obtain ⟨e, found, state⟩ := ready.target_element member
  rw [childIds, found, ← state]
  rfl

theorem target_kind (ready : d.Ready present g) (member : s ∈ present) :
    (g.node? s.id).isSome = decide (s.kind = .node) := by
  obtain ⟨e, found, state⟩ := ready.target_element member
  rw [isSome_node?, found, ← state]
  rcases e with ⟨_, _, content, _, _, _, _⟩
  cases content <;> rfl

theorem contains (ready : d.Ready present g) (underway : Underway present d d') : d'.contains x = g.contains x := by
  by_cases listed : x ∈ present.map Snapshot.id
  · obtain ⟨s, member, rfl⟩ := List.mem_map.1 listed
    obtain ⟨e, found, _⟩ := underway.bears s member
    obtain ⟨e', found', _⟩ := ready.target_element member
    rw [contains_of_find? found, contains_of_find? found']
  · rw [← (ready.others x listed).1]
    unfold Document.contains
    rw [underway.others x listed]

theorem node? (ready : d.Ready present g) (underway : Underway present d d') :
    (d'.node? x).isSome = (g.node? x).isSome := by
  by_cases listed : x ∈ present.map Snapshot.id
  · obtain ⟨s, member, rfl⟩ := List.mem_map.1 listed
    obtain ⟨e, found, bears⟩ := underway.bears s member
    rw [ready.target_kind member, isSome_node?, found, ← bears.kind]
    rfl
  · rw [← (ready.others x listed).2.2.2, isSome_node?, isSome_node?, underway.others x listed]

/-- An element without a state has the children that it is to have. -/
theorem parent_iff (ready : d.Ready present g) (underway : Underway present d d') {y : String}
    (unlisted : y ∉ present.map Snapshot.id) : d'.parentOf x = some y ↔ g.parentOf x = some y := by
  have same : d'.childIds y = g.childIds y := by
    rw [← (ready.others y unlisted).2.2.1]
    unfold childIds
    rw [underway.others y unlisted]
  rw [← underway.consistent.mem_children, ← ready.goal.mem_children, same]

end Ready

/-! Elements are revived -/

/-- A document in which elements are being revived. -/
structure Reviving (present : List (Snapshot α)) (d d' : Document α) : Prop where
  consistent : d'.Consistent
  others : ∀ x, x ∉ present.map Snapshot.id → d'.find? x = d.find? x
  kinds : ∀ s ∈ present, ∀ e, d'.find? s.id = some e → e.kind = s.kind

omit [Coordinate α] in
theorem Reviving.bears (reviving : Reviving present d d') (member : s ∈ present) :
    ∃ e, (d'.revived s).find? s.id = some e ∧ e.Bears s := by
  refine ⟨_, find?_revived.trans (if_pos rfl), Element.bears_filledBy ?_⟩
  cases found : d'.find? s.id with
  | none => exact Edit.kind_blank s
  | some e => exact reviving.kinds s member e found

omit [Coordinate α] in
theorem Reviving.step (distinct : (present.map Snapshot.id).Nodup) (reviving : Reviving present d d')
    (member : s ∈ present) : Reviving present d (d'.revived s) := by
  refine ⟨reviving.consistent.revived, fun x unlisted => ?_, fun r other e found => ?_⟩
  · have apart : x ≠ s.id := fun same => unlisted (same ▸ List.mem_map_of_mem member)
    rw [find?_revived, if_neg apart]
    exact reviving.others x unlisted
  · by_cases same : r.id = s.id
    · have equal : r = s := List.inj_on_of_nodup_map distinct other member same
      subst equal
      obtain ⟨e', found', bears⟩ := reviving.bears member
      cases found.symm.trans found'
      exact bears.kind
    · rw [find?_revived, if_neg same] at found
      exact reviving.kinds r other e found

namespace Ready

theorem reviving (ready : d.Ready present g) : Reviving present d d :=
  ⟨ready.consistent, fun _ _ => rfl, ready.kinds⟩

/-- All elements with a state are there once they are revived. -/
theorem revived (ready : d.Ready present g) : Underway present d (present.foldl (fun d s => d.revived s) d) := by
  have all := foldl_each Document.revived ready.distinct (Reviving present d)
    (fun s d' => ∃ e, d'.find? s.id = some e ∧ e.Bears s) ready.reviving
    (fun s member d' reviving => reviving.step ready.distinct member)
    (fun s member d' reviving => reviving.bears member)
    (fun s _ r _ apart d' _ bears => by rwa [find?_revived, if_neg apart])
  exact ⟨all.1.consistent, all.1.others, all.2⟩

/-! Elements are put in their places -/

theorem settled_eq (ready : d.Ready present g) (underway : Underway present d d') (member : s ∈ present) :
    d'.settled s = if d'.parentOf s.id = s.parent then d' else d'.attach s.id s.parent := by
  have parent : s.parent.filter d'.contains = s.parent := by
    cases held : s.parent with
    | none => rfl
    | some p =>
      have there : d'.contains p = true := by
        rw [ready.contains underway]
        exact ready.goal.contains_parent ((ready.target_parent member).trans held)
      rw [Option.filter_some, if_pos there]
  unfold settled
  simp only [parent]
  by_cases right : d'.parentOf s.id = s.parent
  · have topmost : s.parent.isNone = true → d'.top.contains s.id = true := by
      intro none
      rw [Option.isNone_iff_eq_none] at none
      obtain ⟨e, found, _⟩ := underway.bears s member
      rw [List.contains_iff_mem, underway.consistent.mem_top]
      exact ⟨contains_of_find? found, right.trans none, by simp⟩
    cases none : s.parent.isNone with
    | false => simp [right]
    | true => simp [right, List.contains_iff_mem.1 (topmost none)]
  · simp [right]

end Ready

/-- A document in which elements are being put in their places: each parent is still the one at the beginning or
the right one already. -/
structure Settling (present : List (Snapshot α)) (d g start d' : Document α) : Prop extends Underway present d d' where
  parents : ∀ x, d'.parentOf x = start.parentOf x ∨ d'.parentOf x = g.parentOf x

theorem Settling.step {start : Document α} (ready : d.Ready present g) (begun : Underway present d start)
    (settling : Settling present d g start d') (member : s ∈ present) : Settling present d g start (d'.settled s) := by
  rw [ready.settled_eq settling.toUnderway member]
  split
  · exact settling
  next wrong =>
  have goal := ready.target_parent member
  obtain ⟨own, there, _⟩ := settling.bears s member
  have present' : d'.contains s.id = true := contains_of_find? there
  have before : d'.parentOf s.id = start.parentOf s.id :=
    (settling.parents s.id).resolve_right fun right => wrong (right.trans goal)
  have old (y : String) (unlisted : y ∉ present.map Snapshot.id) : d'.parentOf s.id ≠ some y := by
    intro held
    refine wrong (held.trans ?_)
    rw [← goal, (ready.parent_iff begun unlisted).1 (before ▸ held)]
  have new (y : String) (unlisted : y ∉ present.map Snapshot.id) : s.parent ≠ some y := by
    intro held
    refine wrong ?_
    rw [before, held, (ready.parent_iff begun unlisted).2 (goal.trans held)]
  have held : ∀ holder, s.parent = some holder → d'.contains holder = true := by
    intro holder held
    rw [ready.contains settling.toUnderway]
    exact ready.goal.contains_parent (goal.trans held)
  refine ⟨⟨Sound.attach settling.consistent present' held (.inl rfl), fun x unlisted => ?_, fun r other => ?_⟩, fun x => ?_⟩
  · rw [find?_attach, ← settling.others x unlisted]
    have apart : x ≠ s.id := fun same => unlisted (same ▸ List.mem_map_of_mem member)
    simp only [apart, old x unlisted, new x unlisted, if_false, List.append_nil]
    cases d'.find? x <;> rfl
  · obtain ⟨e, found, bears⟩ := settling.bears r other
    rw [find?_attach, found]
    exact ⟨_, rfl, bears.congr rfl rfl rfl⟩
  · rw [parentOf_attach present']
    by_cases same : x = s.id
    · rw [if_pos same, same]
      exact .inr goal.symm
    · rw [if_neg same]
      exact settling.parents x

/-- A document in which all elements are in their places. -/
structure Placed (present : List (Snapshot α)) (d g d' : Document α) : Prop extends Underway present d d' where
  parents : ∀ x, d'.parentOf x = g.parentOf x

/-- All elements with a state come to their places. -/
theorem Ready.settled (ready : d.Ready present g) (begun : Underway present d d') :
    Placed present d g (present.foldl (fun d s => d.settled s) d') := by
  have all := foldl_each Document.settled ready.distinct (Settling present d g d')
    (fun s d' => d'.parentOf s.id = s.parent) ⟨begun, fun x => .inl rfl⟩
    (fun s member d' settling => settling.step ready begun member) ?own ?others
  case own =>
    intro s member d' settling
    rw [ready.settled_eq settling.toUnderway member]
    split
    · next right => exact right
    · obtain ⟨e, found, _⟩ := settling.bears s member
      rw [parentOf_attach (contains_of_find? found), if_pos rfl]
  case others =>
    intro s member r _ apart d' settling right
    rw [ready.settled_eq settling.toUnderway member]
    split
    · exact right
    · obtain ⟨e, found, _⟩ := settling.bears s member
      rw [parentOf_attach (contains_of_find? found), if_neg apart]
      exact right
  refine ⟨all.1.toUnderway, fun x => ?_⟩
  by_cases listed : x ∈ present.map Snapshot.id
  · obtain ⟨s, member, rfl⟩ := List.mem_map.1 listed
    exact (all.2 s member).trans (ready.target_parent member).symm
  · rw [← (ready.others x listed).2.1]
    unfold parentOf
    rw [all.1.others x listed]

/-! Children are put in order -/

theorem Placed.childIds_perm (ready : d.Ready present g) (placed : Placed present d g d') (member : s ∈ present)
    (child : String) : child ∈ d'.childIds s.id ↔ child ∈ s.children := by
  rw [placed.consistent.mem_children, placed.parents, ← ready.target_children member, ready.goal.mem_children]

theorem Placed.arranged_eq (ready : d.Ready present g) (placed : Placed present d g d') (member : s ∈ present) :
    ∃ e, d'.find? s.id = some e ∧ e.Bears s ∧ (d'.arranged s).find? s.id = some { e with children := s.children } := by
  obtain ⟨e, found, bears⟩ := placed.bears s member
  have ordered : (s.children.filter fun id => d'.parentOf id = some s.id) = s.children := by
    refine List.filter_eq_self.2 fun child inside => decide_eq_true ?_
    rw [← placed.consistent.mem_children, placed.childIds_perm ready member]
    exact inside
  have rest : e.children.filter (!s.children.contains ·) = [] := by
    refine List.filter_eq_nil_iff.2 fun child inside => ?_
    have own : child ∈ d'.childIds s.id := by
      rw [childIds, found]
      exact inside
    simpa using (placed.childIds_perm ready member child).1 own
  refine ⟨e, found, bears, ?_⟩
  unfold arranged
  dsimp only
  rw [ordered, find?_modify, if_pos rfl, found, Option.map_some, rest, List.append_nil]
  exact fun _ => rfl

theorem Placed.step (ready : d.Ready present g) (placed : Placed present d g d') (member : s ∈ present) :
    Placed present d g (d'.arranged s) := by
  obtain ⟨e, found, bears, arranged⟩ := placed.arranged_eq ready member
  have distinct : s.children.Nodup := ready.target_children member ▸ ready.goal.children_nodup s.id
  refine ⟨⟨placed.consistent.arranged distinct, fun x unlisted => ?_, fun r other => ?_⟩, fun x => ?_⟩
  · have apart : x ≠ s.id := fun same => unlisted (same ▸ List.mem_map_of_mem member)
    rw [find?_arranged apart]
    exact placed.others x unlisted
  · by_cases same : r.id = s.id
    · cases List.inj_on_of_nodup_map ready.distinct other member same
      exact ⟨_, arranged, bears.congr rfl rfl rfl⟩
    · rw [find?_arranged same]
      exact placed.bears r other
  · rw [← placed.parents x]
    exact parentOf_modify (fun _ => rfl) (fun _ => rfl)

/-- A document in which all elements have their children in order. -/
structure Ordered (present : List (Snapshot α)) (d g d' : Document α) : Prop extends Placed present d g d' where
  children : ∀ s ∈ present, d'.childIds s.id = s.children

theorem Placed.arranged (ready : d.Ready present g) (placed : Placed present d g d') :
    Ordered present d g (present.foldl (fun d s => d.arranged s) d') := by
  have all := foldl_each Document.arranged ready.distinct (Placed present d g)
    (fun s d' => d'.childIds s.id = s.children) placed
    (fun s member d' placed => placed.step ready member) ?own ?others
  case own =>
    intro s member d' placed
    obtain ⟨e, _, _, arranged⟩ := placed.arranged_eq ready member
    rw [childIds, arranged]
    rfl
  case others =>
    intro s _ r _ apart d' _ right
    rw [childIds, find?_arranged apart]
    exact right
  exact ⟨all.1, all.2⟩

/-! Ends are joined -/

/-- An end that fits a document is found again from its state wherever the same nodes are. -/
theorem endFrom_stateOfEnd {p : Endpoint α} (fits : g.Fits p)
    (same : ∀ x, (d'.node? x).isSome = (g.node? x).isSome) : d'.endFrom (g.stateOfEnd p) = p := by
  cases p with
  | free position => rfl
  | stranded node anchor position => exact fits.elim
  | connected node anchor =>
    have there : (d'.node? node).isSome = true := (same node).trans fits
    unfold endFrom stateOfEnd
    simp [Endpoint.link?, there]

/-- The element of a document but for its birth. -/
def Reborn (d g : Document α) (x : String) : Prop :=
  ∃ e e', d.find? x = some e ∧ g.find? x = some e' ∧ e = { e' with birth := e.birth }

/-- A document in which ends are being joined. -/
structure Joining (present : List (Snapshot α)) (d g d' : Document α) : Prop extends Underway present d d' where
  parents : ∀ s ∈ present, d'.parentOf s.id = s.parent
  children : ∀ s ∈ present, d'.childIds s.id = s.children

theorem Ordered.joining (ready : d.Ready present g) (ordered : Ordered present d g d') : Joining present d g d' where
  toUnderway := ordered.toUnderway
  parents s member := (ordered.parents s.id).trans (ready.target_parent member)
  children := ordered.children

theorem Joining.reborn (ready : d.Ready present g) (joining : Joining present d g d') (member : s ∈ present) :
    (d'.rejoined s).Reborn g s.id := by
  obtain ⟨e, found, bears⟩ := joining.bears s member
  obtain ⟨e', goal, state⟩ := ready.target_element member
  have parent := joining.parents s member
  have children := joining.children s member
  rw [parentOf, found] at parent
  rw [childIds, found] at children
  simp only [Option.bind_some, Option.elim_some] at parent children
  have named := find?_eq_some_id found
  have named' := find?_eq_some_id goal
  have nodes := fun x => ready.node? (x := x) joining.toUnderway
  have ends (relation : Relation) (p : Endpoint α) (ending : e'.end? relation = some p) :
      d'.endFrom (g.stateOfEnd p) = p :=
    endFrom_stateOfEnd (ready.goal.end_fits relation s.id p (endOf_eq_some.2 ⟨e', goal, ending⟩)) nodes
  rcases e with ⟨_, birth, content, _, _, _, _⟩
  rcases e' with ⟨name, birth', content', props', metadata', parent', children'⟩
  subst state
  cases bears.props
  cases bears.metadata
  cases parent
  cases children
  cases named
  cases content' with
  | node content' =>
    cases bears.content content' rfl
    refine ⟨⟨_, birth, _, _, _, _, _⟩, _, ?_, goal, rfl⟩
    rw [find?_rejoined_node found rfl]
    exact found
  | edge start stop =>
    cases content with
    | node content => cases bears.kind
    | edge first second =>
      refine ⟨⟨_, birth, _, _, _, _, _⟩, _, find?_rejoined_edge found rfl rfl, goal, ?_⟩
      rw [ends .start start rfl, ends .stop stop rfl]

theorem Joining.step (ready : d.Ready present g) (joining : Joining present d g d') (member : s ∈ present) :
    Joining present d g (d'.rejoined s) := by
  obtain ⟨e, e', found, goal, same⟩ := joining.reborn ready member
  obtain ⟨e'', goal', state⟩ := ready.target_element member
  cases goal.symm.trans goal'
  have own (r : Snapshot α) (other : r ∈ present) (equal : r.id = s.id) : r = s :=
    List.inj_on_of_nodup_map ready.distinct other member equal
  refine ⟨⟨joining.consistent.rejoined, fun x unlisted => ?_, fun r other => ?_⟩, fun r other => ?_, fun r other => ?_⟩
  · have apart : x ≠ s.id := fun equal => unlisted (equal ▸ List.mem_map_of_mem member)
    rw [find?_rejoined apart]
    exact joining.others x unlisted
  · by_cases equal : r.id = s.id
    · cases own r other equal
      refine ⟨e, found, ?_⟩
      rw [same, ← state]
      rcases e' with ⟨_, _, content, _, _, _, _⟩
      cases content
      · exact ⟨rfl, rfl, rfl, by rintro _ ⟨⟩; rfl⟩
      · exact ⟨rfl, rfl, rfl, by simp [snapshot]⟩
    · rw [find?_rejoined equal]
      exact joining.bears r other
  · by_cases equal : r.id = s.id
    · cases own r other equal
      rw [parentOf, found, same, ← state]
      rfl
    · rw [parentOf, find?_rejoined equal]
      exact joining.parents r other
  · by_cases equal : r.id = s.id
    · cases own r other equal
      rw [childIds, found, same, ← state]
      rfl
    · rw [childIds, find?_rejoined equal]
      exact joining.children r other

theorem Joining.rejoined (ready : d.Ready present g) (joining : Joining present d g d') :
    Joining present d g (present.foldl (fun d s => d.rejoined s) d') ∧
      ∀ s ∈ present, (present.foldl (fun d s => d.rejoined s) d').Reborn g s.id :=
  foldl_each Document.rejoined ready.distinct (Joining present d g)
    (fun s d' => d'.Reborn g s.id) joining (fun s member d' joining => joining.step ready member)
    (fun s member d' joining => joining.reborn ready member)
    (fun s _ r _ apart d' _ reborn => by
      unfold Reborn
      rw [find?_rejoined apart]
      exact reborn)

/-- The phases of a restore lead to the elements of the other document where there are states, and leave the rest. -/
theorem Ready.restored (ready : d.Ready present g) :
    (∀ x, x ∉ present.map Snapshot.id → (d.restored present).find? x = d.find? x) ∧
      ∀ s ∈ present, (d.restored present).Reborn g s.id := by
  have placed := ready.settled ready.revived
  have joining := (placed.arranged ready).joining ready
  obtain ⟨last, reborn⟩ := joining.rejoined ready
  exact ⟨last.others, reborn⟩

end Document

/-! A restore returns -/

namespace Edit
variable {t : Transaction α} {s : Snapshot α}

theorem fill_returns (fits : ∀ e, t.document.find? s.id = some e → e.kind = s.kind) :
    Gives (fill s) t () { t with document := t.document.filled s } := by
  simp only [fill, gives_bind, gives_change, gives_document]
  refine ⟨(), _, rfl, _, _, ⟨rfl, rfl⟩, ?_⟩
  unfold Document.filled
  dsimp only
  have entries : (t.document.modify s.id fun e => { e with props := s.props, metadata := s.metadata }).find? s.id =
      (t.document.find? s.id).map fun e => { e with props := s.props, metadata := s.metadata } := by
    rw [Document.find?_modify, if_pos rfl]
    exact fun _ => rfl
  rw [entries]
  cases found : t.document.find? s.id with
  | none => exact gives_pure.2 ⟨rfl, rfl⟩
  | some e =>
    have kind := fits e found
    rcases e with ⟨_, _, content, _, _, _, _⟩
    rcases s with ⟨_, _, _, _, _, state⟩
    cases content <;> cases state
    · exact gives_change.2 rfl
    · cases kind
    · cases kind
    · exact gives_pure.2 ⟨rfl, rfl⟩

theorem revive_returns (fits : ∀ e, t.document.find? s.id = some e → e.kind = s.kind) :
    Gives (revive s) t () { t with document := t.document.revived s } := by
  simp only [revive, gives_bind, gives_document]
  refine ⟨_, _, ⟨rfl, rfl⟩, gives_when.2 ⟨_, gives_changeWhen.2 rfl, ?_⟩⟩
  unfold Document.revived
  cases present : t.document.contains s.id with
  | true => exact fill_returns fits
  | false =>
    refine fill_returns fun e found => ?_
    have registered : (t.document.register (blank s)).find? s.id = some { blank s with birth := t.document.births } :=
      (Document.find?_register_of_absent present).trans (if_pos rfl)
    cases registered.symm.trans found
    exact kind_blank s

theorem rejoin_returns {e : Element α} (found : t.document.find? s.id = some e) (kind : e.kind = s.kind) :
    Gives (rejoin s) t () { t with document := t.document.rejoined s } := by
  simp only [rejoin, gives_bind, gives_document]
  refine ⟨_, _, ⟨rfl, rfl⟩, ?_⟩
  unfold Document.rejoined
  rw [found]
  rcases e with ⟨_, _, content, _, _, _, _⟩
  rcases s with ⟨_, _, _, _, _, state⟩
  cases content <;> cases state
  · exact gives_pure.2 ⟨rfl, rfl⟩
  · cases kind
  · cases kind
  · simp only [Option.map_some, gives_bind, gives_change]
    exact ⟨(), _, rfl, rfl⟩

/-- A loop of changes returns when each change does, as long as an invariant holds. -/
theorem forM_returns {f : Snapshot α → Edit α Unit} (change : Snapshot α → Document α → Document α)
    {xs : List (Snapshot α)} (inv : Document α → Prop) (start : inv t.document)
    (keeps : ∀ s ∈ xs, ∀ d, inv d → inv (change s d))
    (each : ∀ s ∈ xs, ∀ u : Transaction α, inv u.document →
      Gives (f s) u () { u with document := change s u.document }) :
    Gives (xs.forM f) t () { t with document := xs.foldl (fun d s => change s d) t.document } := by
  induction xs generalizing t with
  | nil => exact gives_forM_nil.2 rfl
  | cons s rest ih =>
    refine gives_forM_cons.2 ⟨_, each s List.mem_cons_self t start, ?_⟩
    exact ih (keeps s List.mem_cons_self _ start) (fun s member => keeps s (List.mem_cons_of_mem _ member))
      fun s member => each s (List.mem_cons_of_mem _ member)

variable [Coordinate α] {g : Document α} {states : States α} {u : Transaction α}

/-- A restore returns when its removals do and leave a document from which the states lead to another one. -/
theorem restore_returns (removed : Gives ((states.filter (·.2.isNone)).forM fun (id, _) => removeIfPresent id) t () u)
    (ready : u.document.Ready (presentOf states) g) :
    Gives (restore states) t ()
      { u with document := (u.document.restored (presentOf states)).emit .restored (states.map Prod.fst) } := by
  have begun := ready.revived
  have placed := ready.settled begun
  have joining := (placed.arranged ready).joining ready
  simp only [restore, gives_bind, gives_change]
  refine ⟨(), u, removed, (), _, forM_returns Document.revived
    (Document.Reviving (presentOf states) u.document) ready.reviving ?revived ?revive, (), _,
    forM_returns Document.settled (fun _ => True) trivial (fun _ _ _ _ => trivial)
      (fun _ _ _ _ => gives_settle.2 rfl), (), _,
    forM_returns Document.arranged (fun _ => True) trivial (fun _ _ _ _ => trivial)
      (fun _ _ _ _ => gives_arrange.2 rfl), (), _,
    forM_returns Document.rejoined (Document.Joining (presentOf states) u.document g) joining
      ?joined ?join, rfl⟩
  case revived => exact fun s member d reviving => reviving.step ready.distinct member
  case revive => exact fun s member v reviving => revive_returns (reviving.kinds s member)
  case joined => exact fun s member d joining => joining.step ready member
  case join =>
    intro s member v joining
    obtain ⟨e, found, bears⟩ := joining.bears s member
    exact rejoin_returns found bears.kind

end Edit
end LiveDiagram
