import LiveDiagram.Proofs.Endings
import LiveDiagram.Proofs.History.Leads

/-! How a restore ends. It stops only where it finds an element of the other kind than a state, and a document whose
elements have the kinds that the states are of is restored without a fault. -/
namespace LiveDiagram

variable {α : Type}

/-- The kind that goes with each id. -/
abbrev Kinds := String → Option ElementKind

namespace Document
variable {d d' : Document α} {s : Snapshot α} {id x : String} {kinds : Kinds}

/-- The kind of the element that an id leads to. -/
def kindOf (d : Document α) : Kinds :=
  fun x => (d.find? x).map Element.kind

theorem kindOf_eq_state? [Coordinate α] : d.kindOf x = (d.state? x).map Snapshot.kind := by
  unfold kindOf state?
  rw [Option.map_map]
  congr 1
  funext e
  obtain ⟨_, _, content, _, _, _, _⟩ := e
  cases content <;> rfl

theorem kindOf_modify {change : Element α → Element α} (named : ∀ e, (change e).id = e.id)
    (kind : ∀ e, d.find? id = some e → (change e).kind = e.kind) : (d.modify id change).kindOf x = d.kindOf x := by
  unfold kindOf
  rw [find?_modify named]
  split
  · next same =>
    cases found : d.find? x with
    | none => rfl
    | some e => exact congrArg some (kind e (same ▸ found))
  · rfl

theorem kindOf_attach {parent : Option String} : (d.attach id parent).kindOf x = d.kindOf x := by
  unfold kindOf
  rw [find?_attach, Option.map_map]
  rfl

theorem kindOf_revived :
    (d.revived s).kindOf x = if x = s.id then some ((d.kindOf s.id).getD s.kind) else d.kindOf x := by
  have filled (e : Element α) : (e.filledBy s).kind = e.kind := by
    obtain ⟨_, _, content, _, _, _, _⟩ := e
    obtain ⟨_, _, _, _, _, state⟩ := s
    cases content <;> cases state <;> rfl
  unfold kindOf
  rw [find?_revived]
  split
  · rw [Option.map_some, filled]
    cases d.find? s.id with
    | none => exact congrArg some (Edit.kind_blank s)
    | some e => rfl
  · rfl

theorem kindOf_settled : (d.settled s).kindOf x = d.kindOf x := by
  unfold settled
  dsimp only
  split
  · exact kindOf_attach
  · rfl

theorem kindOf_arranged : (d.arranged s).kindOf x = d.kindOf x :=
  kindOf_modify (fun _ => rfl) fun _ _ => rfl

theorem kindOf_rejoined : (d.rejoined s).kindOf x = d.kindOf x := by
  unfold rejoined
  split
  · next content _ =>
    have joined {change : Element α → Element α} : ((d.modify s.id change).connect s.id).kindOf x =
        (d.modify s.id change).kindOf x := congrArg (Option.map Element.kind) find?_connect
    rw [joined]
    refine kindOf_modify (fun _ => rfl) fun e found => ?_
    rw [found, Option.map_some, Option.some.injEq] at content
    unfold Element.kind
    rw [content]
    rfl
  · rfl

/-- Every element has the kind that goes with its id. -/
def Obeys (d : Document α) (kinds : Kinds) : Prop :=
  ∀ x k, d.kindOf x = some k → kinds x = some k

theorem Obeys.kind {e : Element α} (obeys : d.Obeys kinds) (own : kinds x = some s.kind) (found : d.find? x = some e) :
    e.kind = s.kind := by
  have kind := obeys x e.kind (congrArg (Option.map Element.kind) found)
  exact Option.some.inj (kind.symm.trans own)

theorem Obeys.congr (obeys : d.Obeys kinds) (same : ∀ x, d'.kindOf x = d.kindOf x) : d'.Obeys kinds :=
  fun x k kind => obeys x k (same x ▸ kind)

theorem Obeys.revived (obeys : d.Obeys kinds) (own : kinds s.id = some s.kind) : (d.revived s).Obeys kinds := by
  intro x k kind
  rw [kindOf_revived] at kind
  split at kind
  · next same =>
    subst same
    rw [← kind, own]
    cases there : d.kindOf s.id with
    | none => rfl
    | some k' => exact own.symm.trans (obeys s.id k' there)
  · exact obeys x k kind

theorem Obeys.foldl_revived {states : List (Snapshot α)} (obeys : d.Obeys kinds)
    (own : ∀ s ∈ states, kinds s.id = some s.kind) : (states.foldl (fun d s => d.revived s) d).Obeys kinds := by
  induction states generalizing d with
  | nil => exact obeys
  | cons s rest ih =>
    exact ih (obeys.revived (own s List.mem_cons_self)) fun r member => own r (List.mem_cons_of_mem s member)

end Document

/-- States that count as the same are of one kind. -/
theorem Snapshot.kind_of_same [Coordinate α] {a b : Snapshot α} (same : a.same b = true) : a.kind = b.kind := by
  obtain ⟨_, _, _, _, _, content⟩ := a
  obtain ⟨_, _, _, _, _, content'⟩ := b
  cases content <;> cases content' <;> simp [Snapshot.same, ContentState.same] at same <;> rfl

namespace Edit
variable {t : Transaction α} {s : Snapshot α}

/-- Reviving stops where a node is to take the state of an edge, which it has the props and metadata of by then. -/
theorem revive_ends : Ends (revive s) t (fun _ _ => True) fun fault t' => fault = .missingField "node_type" ∧
    t'.document = t.document.modify s.id fun e => { e with props := s.props, metadata := s.metadata } := by
  by_cases fits : ∀ e, t.document.find? s.id = some e → e.kind = s.kind
  · exact .of_gives (revive_returns fits) trivial
  simp only [not_forall] at fits
  obtain ⟨e, found, other⟩ := fits
  have present : t.document.contains s.id = true := Document.contains_of_find? found
  have entries : (t.document.modify s.id fun e => { e with props := s.props, metadata := s.metadata }).find? s.id =
      some { e with props := s.props, metadata := s.metadata } := by
    rw [Document.find?_modify, if_pos rfl, found]
    · rfl
    · exact fun _ => rfl
  refine .andThen (gives_document.2 ⟨rfl, rfl⟩) ?_
  rw [present]
  refine .andThen (b := ()) (gives_change.2 rfl) (.andThen (gives_document.2 ⟨rfl, rfl⟩) ?_)
  rw [entries]
  obtain ⟨_, _, content, _, _, _, _⟩ := e
  obtain ⟨_, _, _, _, _, state⟩ := s
  cases content <;> cases state
  · exact .of_gives (b := ()) (gives_change.2 rfl) trivial
  · exact .throw ⟨rfl, rfl⟩
  · exact .of_gives (gives_pure.2 ⟨rfl, rfl⟩) trivial
  · exact .of_gives (gives_pure.2 ⟨rfl, rfl⟩) trivial

/-- Joining the ends stops where an edge is to take the state of a node. -/
theorem rejoin_ends : Ends (rejoin s) t (fun _ _ => True) fun fault t' => fault = .missingField "start" ∧ t' = t := by
  refine .andThen (gives_document.2 ⟨rfl, rfl⟩) ?_
  split
  · exact .andThen (b := ()) (gives_change.2 rfl) (.of_gives (b := ()) (gives_change.2 rfl) trivial)
  · exact .throw ⟨rfl, rfl⟩
  · exact .of_gives (gives_pure.2 ⟨rfl, rfl⟩) trivial

variable [Coordinate α] {states : States α} {kinds : Kinds}

/-- Where a restore stops, a field is missing in a state of the other kind; it leaves a document that holds the
invariant, and the history alone. -/
theorem restore_ends (consistent : t.document.Consistent) (sane : states.Sane) (idle : t.ledger.Idle) :
    Ends (restore states) t (fun _ _ => True) fun fault t' => (∃ field, fault = .missingField field) ∧
      t'.document.Consistent ∧ t'.document.history = t.document.history := by
  let Sound (u : Transaction α) : Prop := u.document.Consistent ∧ u.document.history = t.document.history
  obtain ⟨u, ids, removed, ⟨consistent', _⟩, _, _⟩ :=
    removals_return (l := t.ledger) idle (states.filter (·.2.isNone)) ⟨consistent, rfl⟩
  have history : u.document.history = t.document.history := by
    have both := removed.forM (fun u => Steps ⟨true, true⟩ t u) .refl fun _ _ v v' steps round =>
      steps.trans (removeIfPresent_steps (consistent.steps steps) round)
    exact both.history_eq
  refine .andThen removed (.bind (p := fun _ v => Sound v) (.forM Sound ⟨consistent', history⟩ ?revive)
    fun _ v revived sound => ?_)
  case revive =>
    rintro s _ v ⟨sound, same⟩
    refine revive_ends.mono (fun _ v' given _ => ?_) ?_
    · rw [gives_revive given]
      exact ⟨sound.revived, (congrArg Document.Surroundings.history Document.surroundings_revived).trans same⟩
    · rintro _ v' ⟨rfl, left⟩
      rw [left]
      exact ⟨⟨_, rfl⟩, Document.Sound.adjust sound ⟨fun _ => rfl, fun _ => rfl, fun _ => rfl, fun _ => rfl⟩
        fun _ _ => rfl, same⟩
  have there := (Document.consistent_foldl_revived (presentOf states) consistent').2
  rw [foldl_of_gives_forM (fun _ _ _ => gives_revive) revived] at sound ⊢
  refine .andThen (b := ()) (forM_returns Document.settled (fun _ => True) trivial (fun _ _ _ _ => trivial)
    fun _ _ _ _ => gives_settle.2 rfl) (.andThen (b := ()) (forM_returns Document.arranged (fun _ => True) trivial
    (fun _ _ _ _ => trivial) fun _ _ _ _ => gives_arrange.2 rfl) ?_)
  refine .bind (p := fun _ v => Sound v) (.forM Sound ⟨?consistent, ?history⟩ ?rejoin) fun _ _ _ _ =>
    .of_gives (b := ()) (gives_change.2 rfl) trivial
  case consistent =>
    refine Document.consistent_foldl_arranged _ (Document.consistent_foldl_settled _ sound.1 fun s member =>
      (there s.id).2 (.inr (List.mem_map_of_mem member))) fun s member => ?_
    obtain ⟨⟨id, _⟩, entry, rfl⟩ := List.mem_filterMap.1 member
    exact sane id s entry
  case history =>
    have phases (d : Document α) : ((presentOf states).foldl (fun d s => d.arranged s)
        ((presentOf states).foldl (fun d s => d.settled s) d)).surroundings = d.surroundings := by
      rw [Document.foldl_keeps fun _ _ => Document.surroundings_arranged,
        Document.foldl_keeps fun _ _ => Document.surroundings_settled]
    exact (congrArg Document.Surroundings.history (phases _)).trans sound.2
  case rejoin =>
    rintro s _ v ⟨sound, same⟩
    refine rejoin_ends.mono (fun _ v' given _ => ?_) ?_
    · rw [gives_rejoin given]
      exact ⟨sound.rejoined, (congrArg Document.Surroundings.history Document.surroundings_rejoined).trans same⟩
    · rintro _ v' ⟨rfl, rfl⟩
      exact ⟨⟨_, rfl⟩, sound, same⟩

/-- Where all states are of the kinds that go with their ids, and so are the elements that stay, a restore returns, and
leaves elements of these kinds. -/
theorem restore_obeys (consistent : t.document.Consistent) (idle : t.ledger.Idle)
    (own : ∀ s ∈ presentOf states, kinds s.id = some s.kind)
    (stays : ∀ x k, (x, none) ∉ states → t.document.kindOf x = some k → kinds x = some k) :
    ∃ t', Gives (restore states) t () t' ∧ t'.document.Obeys kinds := by
  obtain ⟨u, ids, removed, ⟨consistent', _⟩, cleared, gone⟩ :=
    removals_return (l := t.ledger) idle (states.filter (·.2.isNone)) ⟨consistent, rfl⟩
  have obeys : u.document.Obeys kinds := by
    intro x k kind
    unfold Document.kindOf at kind
    rw [cleared] at kind
    split at kind
    · cases kind
    · next leaves =>
      obtain ⟨_, found, rfl⟩ := Option.map_eq_some_iff.1 kind
      obtain ⟨e, former, rfl⟩ := Option.map_eq_some_iff.1 found
      rw [Document.kind_bereft]
      refine stays x e.kind (fun absent => leaves ((gone x).2 ?_)) (congrArg (Option.map Element.kind) former)
      exact ⟨x, States.mem_absent.2 absent, Document.contains_of_find? former, Document.mem_subtree_self⟩
  let revived : Document α := (presentOf states).foldl (fun d s => d.revived s) u.document
  have obeys' : revived.Obeys kinds := obeys.foldl_revived own
  -- The later phases change no kind.
  let Same (d : Document α) : Prop := d.kindOf = revived.kindOf
  let settled : Document α := (presentOf states).foldl (fun d s => d.settled s) revived
  let arranged : Document α := (presentOf states).foldl (fun d s => d.arranged s) settled
  have same : Same settled := Document.foldl_keeps (fun _ _ => funext fun _ => Document.kindOf_settled) _
  have same : Same arranged :=
    Eq.trans (Document.foldl_keeps (fun _ _ => funext fun _ => Document.kindOf_arranged) _) same
  have rejoined : Same ((presentOf states).foldl (fun d s => d.rejoined s) arranged) :=
    Eq.trans (Document.foldl_keeps (fun _ _ => funext fun _ => Document.kindOf_rejoined) _) same
  refine ⟨_, gives_bind.2 ⟨(), u, removed, gives_bind.2 ⟨(), _, forM_returns Document.revived
      (fun d => d.Obeys kinds) obeys (fun s member d obeys => obeys.revived (own s member)) ?revive,
    gives_bind.2 ⟨(), _, forM_returns Document.settled (fun _ => True) trivial (fun _ _ _ _ => trivial)
      fun _ _ _ _ => gives_settle.2 rfl,
    gives_bind.2 ⟨(), _, forM_returns Document.arranged (fun _ => True) trivial (fun _ _ _ _ => trivial)
      fun _ _ _ _ => gives_arrange.2 rfl,
    gives_bind.2 ⟨(), _, forM_returns Document.rejoined Same same (fun _ _ _ same =>
      (funext fun _ => Document.kindOf_rejoined).trans same) ?rejoin, gives_change.2 rfl⟩⟩⟩⟩⟩, ?_⟩
  case revive => exact fun s member v obeys => revive_returns fun e found => obeys.kind (own s member) found
  case rejoin =>
    intro s member v same
    have there := ((Document.consistent_foldl_revived (presentOf states) consistent').2 s.id).2
      (.inr (List.mem_map_of_mem member))
    obtain ⟨e, found⟩ := Document.contains_iff_find?.1 there
    have kind : v.document.kindOf s.id = some e.kind := (congrFun same s.id).trans (congrArg (Option.map Element.kind) found)
    obtain ⟨e', found', kind'⟩ := Option.map_eq_some_iff.1 kind
    exact rejoin_returns found' (kind'.trans (obeys'.kind (own s member) found))
  exact obeys'.congr fun x => congrFun rejoined x

end Edit
end LiveDiagram
