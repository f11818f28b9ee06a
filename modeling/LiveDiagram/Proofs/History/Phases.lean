import LiveDiagram.Document.History
import LiveDiagram.Proofs.Document.Entry
import LiveDiagram.Proofs.Edit.Primitives

/-! The phases of a restore as changes of a document: elements are filled in, put in their places, their children
ordered and their ends joined. Each phase leaves the invariant intact. -/
namespace LiveDiagram

variable {α : Type}

namespace Document

/-- Gives an element the props, metadata and node content of a state. -/
def filled (s : Snapshot α) (d : Document α) : Document α :=
  let d := d.modify s.id fun e => { e with props := s.props, metadata := s.metadata }
  match (d.find? s.id).map Element.content, s.content with
  | some (.node _), .node content => d.modify s.id (·.mapNode fun _ => content)
  | _, _ => d

/-- Makes sure that the element of a state exists, and fills it in. -/
def revived (s : Snapshot α) (d : Document α) : Document α :=
  filled s (if d.contains s.id then d else { d.register (Edit.blank s) with top := d.top ++ [s.id] })

/-- Moves an element to the parent of its state. -/
def settled (s : Snapshot α) (d : Document α) : Document α :=
  let parent := s.parent.filter d.contains
  if d.parentOf s.id ≠ parent || (parent.isNone && !d.top.contains s.id) then d.attach s.id parent else d

/-- Puts the children of an element in the order of its state. -/
def arranged (s : Snapshot α) (d : Document α) : Document α :=
  let ordered := s.children.filter fun id => d.parentOf id = some s.id
  d.modify s.id fun e => { e with children := ordered ++ e.children.filter (!ordered.contains ·) }

/-- Gives an edge the ends of its state. -/
def rejoined (s : Snapshot α) (d : Document α) : Document α :=
  match (d.find? s.id).map Element.content, s.content with
  | some (.edge ..), .edge start stop =>
    (d.modify s.id fun e => { e with content := .edge (d.endFrom start) (d.endFrom stop) }).connect s.id
  | _, _ => d

end Document

namespace Edit
variable {t t' : Transaction α} {s : Snapshot α} {b : Unit}

theorem gives_fill (given : Gives (fill s) t b t') : t' = { t with document := t.document.filled s } := by
  simp only [fill, gives_bind, gives_change, gives_document] at given
  obtain ⟨_, u, rfl, _, _, ⟨rfl, rfl⟩, given⟩ := given
  unfold Document.filled
  dsimp only at given ⊢
  split at given <;> rename_i found stated
  · rw [gives_change] at given
    simp only [found, stated]
    exact given
  · exact (gives_throw.1 given).elim
  · obtain ⟨_, rfl⟩ := gives_pure.1 given
    split
    · next found' stated' => exact (found _ _ found' stated').elim
    · rfl

theorem gives_revive (given : Gives (revive s) t b t') : t' = { t with document := t.document.revived s } := by
  simp only [revive, gives_bind, gives_document] at given
  obtain ⟨_, _, ⟨rfl, rfl⟩, given⟩ := given
  obtain ⟨u, present, given⟩ := gives_when.1 given
  rw [gives_fill given, gives_changeWhen.1 present]
  unfold Document.revived
  cases t.document.contains s.id <;> rfl

theorem gives_settle : Gives (settle s) t b t' ↔ t' = { t with document := t.document.settled s } := by
  simp only [settle, gives_bind, gives_document]
  constructor
  · rintro ⟨_, _, ⟨rfl, rfl⟩, given⟩
    exact gives_changeWhen.1 given
  · rintro rfl
    exact ⟨_, _, ⟨rfl, rfl⟩, gives_changeWhen.2 rfl⟩

theorem gives_arrange : Gives (arrange s) t b t' ↔ t' = { t with document := t.document.arranged s } := by
  simp only [arrange, gives_bind, gives_document, gives_change]
  constructor
  · rintro ⟨_, _, ⟨rfl, rfl⟩, rfl⟩
    rfl
  · rintro rfl
    exact ⟨_, _, ⟨rfl, rfl⟩, rfl⟩

theorem gives_rejoin (given : Gives (rejoin s) t b t') : t' = { t with document := t.document.rejoined s } := by
  simp only [rejoin, gives_bind, gives_document] at given
  obtain ⟨_, _, ⟨rfl, rfl⟩, given⟩ := given
  unfold Document.rejoined
  split at given <;> rename_i found stated
  · simp only [gives_bind, gives_change] at given
    obtain ⟨_, u, rfl, rfl⟩ := given
    simp only [found, stated]
  · exact (gives_throw.1 given).elim
  · obtain ⟨_, rfl⟩ := gives_pure.1 given
    split
    · next found' stated' => exact (found _ _ _ _ found' stated').elim
    · rfl

/-- A loop of changes changes the document from each element of the list to the next. -/
theorem foldl_of_gives_forM {β : Type} {f : β → Edit α Unit} {change : β → Document α → Document α} {xs : List β}
    (each : ∀ x u u', Gives (f x) u () u' → u' = { u with document := change x u.document })
    (given : Gives (xs.forM f) t b t') :
    t' = { t with document := xs.foldl (fun d x => change x d) t.document } := by
  induction xs generalizing t with
  | nil => exact (gives_forM_nil.1 given).symm
  | cons x rest ih =>
    obtain ⟨u, first, others⟩ := gives_forM_cons.1 given
    rw [ih others, each x t u first]
    rfl

end Edit

namespace Document
variable {d : Document α} {s : Snapshot α} {id : String}

theorem modify_congr {change change' : Element α → Element α} {e : Element α}
    (distinct : (d.handles.map Handle.id).Nodup) (found : d.find? id = some e) (same : change e = change' e) :
    d.modify id change = d.modify id change' := by
  have elements : (d.elements.map fun e => if e.id = id then change e else e) =
      d.elements.map fun e => if e.id = id then change' e else e := by
    apply List.map_congr_left
    intro other member
    by_cases named : other.id = id
    · have lookup := find?_of_mem distinct member
      rw [named, found] at lookup
      cases lookup
      rw [if_pos named, if_pos named, same]
    · rw [if_neg named, if_neg named]
  simp only [modify, elements]

theorem Consistent.filled (consistent : d.Consistent) : (d.filled s).Consistent := by
  have entries : (d.modify s.id fun e => { e with props := s.props, metadata := s.metadata }).Consistent :=
    Sound.adjust consistent ⟨fun _ => rfl, fun _ => rfl, fun _ => rfl, fun _ => rfl⟩ fun _ _ => rfl
  unfold Document.filled
  dsimp only
  split
  · exact Sound.adjust entries Element.keepsPlace_mapNode Element.end?_mapNode
  · exact entries

theorem end?_blank {relation : Relation} {p : Endpoint α} (ending : (Edit.blank s).end? relation = some p) :
    ∃ position, p = .free position := by
  rcases s with ⟨_, _, _, _, _, content⟩
  cases content <;> cases relation <;> cases ending
  · exact ⟨_, rfl⟩
  · exact ⟨_, rfl⟩

/-- A blank element at the top. -/
theorem Consistent.registerBlank (consistent : d.Consistent) (absent : d.contains s.id = false) :
    { d.register (Edit.blank s) with top := d.top ++ [s.id] }.Consistent := by
  have free : ∀ relation p, (Edit.blank s).end? relation = some p → d.Fits p := by
    intro relation p ending
    obtain ⟨position, rfl⟩ := end?_blank ending
    trivial
  have registered : (d.register (Edit.blank s)).Sound (some s.id) (some s.id) :=
    Sound.register consistent absent rfl rfl free
  have topmost : (d.register (Edit.blank s)).parentOf s.id = none :=
    parentOf_register_self (e := Edit.blank s) absent rfl
  have outside : s.id ∉ (d.register (Edit.blank s)).top := consistent.not_mem_top absent
  have placed : ((d.register (Edit.blank s)).attach s.id none).Sound (some s.id) none :=
    registered.attach (contains_register.2 (.inr rfl)) (by simp) (.inr rfl)
  rw [attach_top topmost outside] at placed
  refine placed.bare ?_ ?_
  · intro relation node anchor ending
    have own := (endOf_register_self (e := Edit.blank s) absent).symm.trans ending
    obtain ⟨position, same⟩ := end?_blank own
    cases same
  · intro relation node arc has
    have some := consistent.end_of_arc relation arc s.id node has
    simp [endOf_of_absent absent] at some

theorem Consistent.revived (consistent : d.Consistent) : (d.revived s).Consistent := by
  unfold Document.revived
  apply Consistent.filled
  split
  · exact consistent
  · next absent =>
    rw [Bool.not_eq_true] at absent
    exact consistent.registerBlank absent

theorem Consistent.settled (consistent : d.Consistent) (present : d.contains s.id = true) :
    (d.settled s).Consistent := by
  unfold Document.settled
  dsimp only
  split
  · refine Sound.attach consistent present ?_ (.inl rfl)
    intro holder filtered
    exact (Option.filter_eq_some_iff.1 filtered).2
  · exact consistent

/-- The children that an element has are those of a state that are there, in the order of the state, and the
others. -/
theorem perm_ordered {children ordered : List String} (distinct : children.Nodup) (distinct' : ordered.Nodup)
    (known : ∀ x ∈ ordered, x ∈ children) : (ordered ++ children.filter (!ordered.contains ·)).Perm children := by
  rw [List.perm_ext_iff_of_nodup ?_ distinct]
  · intro x
    by_cases member : x ∈ ordered
    · simp [member, known x member]
    · simp [member]
  · rw [List.nodup_append]
    refine ⟨distinct', distinct.filter _, ?_⟩
    intro x member y kept same
    have kept := (List.mem_filter.1 kept).2
    simp [← same, member] at kept

theorem Consistent.arranged (consistent : d.Consistent) (distinct : s.children.Nodup) : (d.arranged s).Consistent := by
  refine Sound.reorder (fun children => s.children.filter (fun id => d.parentOf id = some s.id) ++
    children.filter (!(s.children.filter fun id => d.parentOf id = some s.id).contains ·)) consistent ?_
  refine perm_ordered (consistent.children_nodup s.id) (distinct.filter _) ?_
  intro x member
  exact (consistent.mem_children s.id x).2 (by simpa using (List.mem_filter.1 member).2)

theorem fits_endFrom {state : EndpointState α} : d.Fits (d.endFrom state) := by
  unfold endFrom
  split
  · split
    · next there => exact there
    · trivial
  · trivial

theorem Consistent.rejoined (consistent : d.Consistent) : (d.rejoined s).Consistent := by
  unfold Document.rejoined
  split
  · next first second start stop found _ =>
    obtain ⟨e, found, edge⟩ := Option.map_eq_some_iff.1 found
    have replaced : (d.modify s.id fun e => { e with content := .edge (d.endFrom start) (d.endFrom stop) }) =
        d.modify s.id (Element.setStop (d.endFrom stop) ∘ Element.setStart (d.endFrom start)) := by
      refine modify_congr consistent.ids_nodup found ?_
      simp only [Function.comp_apply, Element.setStart, Element.setStop, edge]
    rw [replaced]
    refine (Sound.modify consistent ?_ (by simp) (fun apart => (apart rfl).elim) ?_).connect
    · exact Element.keepsPlace_setStop.comp Element.keepsPlace_setStart
    · intro e relation p lookup ending
      rcases Element.end?_setStop ending with rfl | ending
      · exact fits_endFrom
      · rcases Element.end?_setStart ending with rfl | ending
        · exact fits_endFrom
        · exact consistent.end_fits relation s.id p (endOf_eq_some.2 ⟨e, lookup, ending⟩)
  · exact consistent

theorem surroundings_filled : (d.filled s).surroundings = d.surroundings := by
  unfold filled
  dsimp only
  split <;> rfl

theorem surroundings_revived : (d.revived s).surroundings = d.surroundings := by
  unfold revived
  rw [surroundings_filled]
  split <;> rfl

theorem surroundings_settled : (d.settled s).surroundings = d.surroundings := by
  unfold settled
  dsimp only
  split
  · exact surroundings_attach
  · rfl

theorem surroundings_arranged : (d.arranged s).surroundings = d.surroundings := rfl

theorem surroundings_rejoined : (d.rejoined s).surroundings = d.surroundings := by
  unfold rejoined
  split
  · exact surroundings_connect
  · rfl

theorem foldl_keeps {β γ : Type} {view : Document α → γ} {change : β → Document α → Document α}
    (each : ∀ d x, view (change x d) = view d) (xs : List β) :
    view (xs.foldl (fun d x => change x d) d) = view d := by
  induction xs generalizing d with
  | nil => rfl
  | cons x rest ih => exact ih.trans (each d x)

end Document
end LiveDiagram
