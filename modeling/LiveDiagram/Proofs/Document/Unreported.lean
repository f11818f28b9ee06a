import LiveDiagram.Proofs.Document.Applying
import LiveDiagram.Proofs.Document.Printing
import LiveDiagram.Proofs.Props.Discerning

/-! Passes that report nothing. All elements stay then, and have the very entries from before unless a scalar has been
replaced by one that counts as the same. -/
namespace LiveDiagram

variable {α : Type} [Coordinate α]

/-! What declarations make of entries -/

namespace Declaration
variable {d : Declaration} {p : Props}

theorem mergedProps_twice (tidy : d.Tidy) : d.mergedProps (d.mergedProps p) = d.mergedProps p := by
  unfold mergedProps
  cases given : filled d.props with
  | none => rfl
  | some q => exact Props.merge_again (tidy.1 q (Option.eq_some_of_filter_eq_some given))

/-- Props that are the same once a declaration has been merged into them are the very ones from before. -/
theorem mergedProps_eq (tidy : d.Tidy) (tidy' : p.Tidy) (discerns : ∀ q ∈ d.props, p.Discerns q)
    (same : (d.mergedProps p).same p = true) : d.mergedProps p = p := by
  unfold mergedProps at same ⊢
  cases given : filled d.props with
  | none => rfl
  | some q =>
    have own : d.props = some q := Option.eq_some_of_filter_eq_some given
    rw [given] at same
    exact Props.merge_of_holds (Props.holds_of_same tidy' (tidy.1 q own) (discerns q own) same)

theorem prefix_keys_mergedMetadata : p.keys <+: (d.mergedMetadata p).keys := by
  have text {q : Props} {key : String} {t : Option String} : q.keys <+: (Reconcile.withText key t q).keys := by
    unfold Reconcile.withText
    cases spoken t with
    | none => exact List.prefix_rfl
    | some t => exact Props.prefix_keys_set
  unfold mergedMetadata Reconcile.styled
  refine List.IsPrefix.trans ?_ (text.trans text)
  cases filled d.metadata with
  | none => exact List.prefix_rfl
  | some m => exact Props.prefix_keys_overlay

end Declaration

namespace Site
variable {sites : List Site} {x : String} {a b : Props × Props}

/-- With distinct ids, props are those from before or have a declaration merged into them. -/
theorem props_of_dresses (distinct : (known sites).Nodup) (tidy : ∀ s ∈ sites, s.head.Tidy)
    (dresses : Relation.ReflTransGen (Dresses sites x) a b) :
    b.1 = a.1 ∨ ∃ s ∈ sites, s.id = x ∧ b.1 = s.head.mergedProps a.1 := by
  induction dresses with
  | refl => exact .inl rfl
  | tail _ last ih =>
    obtain ⟨s, member, own, rfl⟩ := last
    refine .inr ⟨s, member, own, ?_⟩
    rcases ih with same | ⟨r, member', own', same⟩
    · rw [same]
    · obtain rfl : r = s := List.inj_on_of_nodup_map distinct member' member (own'.trans own.symm)
      rw [same, Declaration.mergedProps_twice (tidy r member')]

theorem keys_of_dresses (dresses : Relation.ReflTransGen (Dresses sites x) a b) : a.2.keys <+: b.2.keys := by
  induction dresses with
  | refl => exact List.prefix_rfl
  | tail _ last ih =>
    obtain ⟨s, _, _, rfl⟩ := last
    exact ih.trans Declaration.prefix_keys_mergedMetadata

end Site

/-! States that agree -/

/-- Elements with states that agree say the same. -/
theorem Snapshot.Agrees.said {c d : Document α} {e e' : Element α} (agrees : (c.snapshot e').Agrees (d.snapshot e)) :
    e.content.Alike e'.content ∧ e'.isLabelled = e.isLabelled := by
  have content : (c.snapshot e').content = (d.snapshot e).content ∨
      (c.snapshot e').content.same (d.snapshot e).content = true := by
    rcases agrees with same | same
    · exact .inl (congrArg Snapshot.content same)
    · exact .inr (Snapshot.same_iff.1 same).2.2.2.2.2
  clear agrees
  obtain ⟨_, _, own, _, _, _, _⟩ := e
  obtain ⟨_, _, own', _, _, _, _⟩ := e'
  cases own with
  | node n =>
    cases own' with
    | node n' =>
      rcases content with same | same
      · cases same
        exact ⟨⟨rfl, rfl⟩, rfl⟩
      · simp only [Document.snapshot, ContentState.same, NodeContent.same, Bool.and_eq_true, beq_iff_eq, and_assoc] at same
        obtain ⟨type, _, text, label⟩ := same
        refine ⟨⟨type, text⟩, ?_⟩
        change n'.label.isSome = n.label.isSome
        revert label
        cases n.label <;> cases n'.label <;> simp
    | edge => rcases content with same | same <;> cases same
  | edge start stop =>
    cases own' with
    | node => rcases content with same | same <;> cases same
    | edge start' stop' =>
      refine ⟨?_, rfl⟩
      rcases content with same | same
      · simp only [Document.snapshot, ContentState.edge.injEq, Document.stateOfEnd, EndpointState.mk.injEq] at same
        exact ⟨congrArg (Option.map Prod.fst) same.1.2, congrArg (Option.map Prod.fst) same.2.2⟩
      · simp only [Document.snapshot, ContentState.same, EndpointState.same, Document.stateOfEnd, Bool.and_eq_true,
          beq_iff_eq] at same
        exact ⟨congrArg (Option.map Prod.fst) same.1.2, congrArg (Option.map Prod.fst) same.2.2⟩

/-- The entries of states that agree are the same. -/
theorem Snapshot.Agrees.entries {a b : Snapshot α} (tidy : b.Tidy) (agrees : a.Agrees b) :
    a.props.same b.props = true ∧ a.metadata.same b.metadata = true := by
  rcases agrees with rfl | same
  · exact ⟨Props.same_refl tidy.1, Props.same_refl tidy.2⟩
  · obtain ⟨_, _, _, props, metadata, _⟩ := Snapshot.same_iff.1 same
    exact ⟨props, metadata⟩

namespace Tracked
variable {sites : List Site} {ids : IdSupply} {d : Document α} {drawn : Nat} {t : Transaction α} {x : String}

/-- Where the same ids lead to elements in the same places as before, these are the elements from before. -/
theorem keeps_of_agrees (outset : Outset sites ids d) (tracked : Tracked sites ids d sites drawn t)
    (agrees : ∀ x, t.document.AgreesAt d x) (there : d.contains x = true) : d.keeps t.document x = true := by
  -- What has come in under an id from before is declared, and stands where its declaration does.
  have declared {y : String} (there : d.contains y = true) (gone : d.keeps t.document y = false) :
      ∃ r ∈ sites, y = r.id ∧ d.parentOf y = r.around := by
    rw [← (agrees y).contains] at there
    obtain ⟨e, found⟩ := Document.contains_iff_find?.1 there
    rcases tracked.origin y e found with kept | ⟨_, ⟨r, member, same, _, parent⟩ | ⟨i, before, rfl, _⟩⟩
    · rw [gone] at kept
      cases kept
    · refine ⟨r, member, same, ?_⟩
      rw [← (agrees y).parentOf, ← parent, Document.parentOf, found]
      rfl
    · rw [(agrees _).contains, outset.unused i (Nat.lt_of_lt_of_le before tracked.few)] at there
      cases there
  refine eq_true_of_ne_false fun gone => ?_
  rcases tracked.lost x there gone with ⟨r, top, unknown, _, missing⟩ | ⟨s, member, l, drops, _, missing⟩
  · obtain ⟨s, member, rfl, _⟩ := declared ((outset.consistent.mem_top r).1 top).1 missing
    exact unknown (List.mem_map_of_mem member)
  · obtain ⟨e, found, _, parent⟩ := drops.label
    obtain ⟨r, member', rfl, around⟩ := declared (Document.contains_of_find? found) missing
    refine drops.unlisted (outset.below s member r member' ?_)
    rw [← around]
    exact Document.parentOf_eq_some.2 ⟨e, found, parent⟩

theorem top_of_agrees (outset : Outset sites ids d) (tracked : Tracked sites ids d sites drawn t)
    (agrees : ∀ x, t.document.AgreesAt d x) : t.document.top = d.top := by
  have stays {xs : List String} (there : ∀ x ∈ xs, d.contains x = true) : xs.filter (d.keeps t.document) = xs :=
    List.filter_eq_self.2 fun x member => keeps_of_agrees outset tracked agrees (there x member)
  have top := (tracked.framed outset).top
  rwa [stays fun x member => (agrees x).contains ▸ ((tracked.consistent.mem_top x).1 member).1,
    stays fun x member => ((outset.consistent.mem_top x).1 member).1] at top

/-- An element that agrees with the one from before is written as that one, where its declaration tells its scalars apart
from those of the props. -/
theorem reprints_of_agrees (outset : Outset sites ids d) (tracked : Tracked sites ids d sites drawn t)
    (agrees : ∀ x, t.document.AgreesAt d x) (tidy : ∀ s ∈ sites, s.head.Tidy) {e e' : Element α} (spoken : e.Spoken)
    (spoken' : e'.Spoken) (found : d.find? x = some e) (found' : t.document.find? x = some e')
    (discerns : ∀ s ∈ sites, s.id = x → ∀ q ∈ s.head.props, e.props.Discerns q) :
    e.Reprints e' ∧ e'.children = e.children := by
  obtain ⟨_, _, former, latter, birth⟩ := Document.keeps_iff.1
    (tracked.keeps_of_agrees outset agrees (Document.contains_of_find? found))
  cases found.symm.trans former
  cases found'.symm.trans latter
  have agreed : (t.document.snapshot e').Agrees (d.snapshot e) := by
    have agreed := agrees x
    unfold Document.AgreesAt Document.state? at agreed
    rw [found, found'] at agreed
    cases agreed with
    | some agreed => exact agreed
  obtain ⟨content, labelled⟩ := agreed.said
  obtain ⟨props, metadata⟩ := agreed.entries ⟨spoken.props.2, spoken.metadata.2⟩
  have named := Document.find?_eq_some_id found
  have dresses := ((tracked.framed outset).lasting x e e' found found' birth).entries
  rw [named] at dresses
  refine ⟨⟨(Document.find?_eq_some_id found').trans named.symm, content, ?_, ?_, labelled⟩, agreed.place.2.1⟩
  · rcases Site.props_of_dresses outset.distinct tidy dresses with same | ⟨s, member, own, merged⟩
    · exact same
    · refine merged.trans (Declaration.mergedProps_eq (tidy s member) spoken.props.2 (discerns s member own) ?_)
      exact merged ▸ props
  · exact Props.eq_of_same_texts spoken.metadata.2 spoken'.metadata.2 spoken.metadata.1.texts
      (Site.keys_of_dresses dresses) metadata

end Tracked

/-- A pass after which all states agree with those from before leaves the text as it is, where declarations tell their
scalars apart from those of the props. -/
theorem Document.Toured.text_eq {sites : List Site} {ids : IdSupply} {d c : Document α} (outset : Outset sites ids d)
    (toured : d.Toured sites ids c) (spoken : d.Spoken) (spoken' : c.Spoken) (tidy : ∀ s ∈ sites, s.head.Tidy)
    (discerns : ∀ s ∈ sites, ∀ e ∈ d.find? s.id, ∀ q ∈ s.head.props, e.props.Discerns q)
    (agrees : ∀ x, c.AgreesAt d x) : c.text = d.text := by
  obtain ⟨drawn, t, tracked, same, _⟩ := toured
  have found (x : String) : c.find? x = t.document.find? x := Document.find?_of_same same.elements x
  have agrees' (x : String) : t.document.AgreesAt d x := by
    unfold Document.AgreesAt
    rw [← Document.state?_of_same found]
    exact agrees x
  refine Document.text_eq_of_reprints (same.top.trans (tracked.top_of_agrees outset agrees')) ?_ fun x => ?_
  · have ids : (c.handles.map Handle.id).Perm (d.handles.map Handle.id) := by
      refine (List.perm_ext_iff_of_nodup (tracked.consistent.of_same same).ids_nodup outset.consistent.ids_nodup).2 fun x => ?_
      rw [← Document.contains_iff_mem, ← Document.contains_iff_mem, (agrees x).contains]
    simpa [Document.handles] using ids.length_eq
  · have there := (agrees x).contains
    unfold Document.contains at there
    cases former : d.find? x with
    | none =>
      rw [former, Option.isSome_none, Option.isSome_eq_false_iff, Option.isNone_iff_eq_none] at there
      rw [there]
      exact .none
    | some e =>
      rw [former] at there
      obtain ⟨e', latter⟩ := Option.isSome_iff_exists.1 there
      rw [latter]
      refine .some (tracked.reprints_of_agrees outset agrees' tidy (spoken e (Document.mem_of_find? former))
        (spoken' e' (Document.mem_of_find? latter)) former (found x ▸ latter) fun s member own => ?_)
      exact discerns s member e (own ▸ former)

namespace Work

/-- A pass that replaces a number by a truth value that counts as the same reports nothing and adds no step to the
history, and the text of the document is another one. -/
theorem OfTexts.apply_hides :
    ∃ (w w' : Workspace Quantity) (parsed : Parsed) (context : Context) (written written' : String), OfTexts w ∧
      Parsed.Clean "a: rect \x7b\n  props: \"x=true\"\n\x7d" w.context parsed context ∧
      Gives (Work.reconcile .standard parsed.forest) { w with context := context } ⟨[], [], []⟩ w' ∧
      w'.document.history.undoable.length = w.document.history.undoable.length ∧
      w.document.text = .ok written ∧ w'.document.text = .ok written' ∧ written' ≠ written := by
  let w := Workspace.blank.taking "a: rect \x7b\n  props: \"x=1\"\n\x7d"
  let f : Forest := .cons ⟨"a", 0, .node "rect" none none, some (.leaf "x" (.bool true) .nil), none, none⟩ .nil .nil
  have texts : OfTexts w := .taking (.empty _ _) (by decide +kernel)
  obtain ⟨parsed, clean, same⟩ := Parsed.exists_clean "a: rect \x7b\n  props: \"x=true\"\n\x7d" w.context
    (fun g => decide (g = f)) (by decide +kernel)
  obtain same : parsed.forest = f := of_decide_eq_true same
  let context := (Parsed.ofText Parsed.standardRules "a: rect \x7b\n  props: \"x=true\"\n\x7d" w.context).2
  let w' := ((Work.reconcile .standard f).run { w with context := context }).2
  obtain ⟨outcome, given, empty⟩ := exists_gives (e := Work.reconcile .standard f) (t := { w with context := context })
    (fun o => decide (o = ⟨[], [], []⟩)) (by decide +kernel)
  obtain rfl : outcome = ⟨[], [], []⟩ := of_decide_eq_true empty
  exact ⟨w, w', parsed, _, "a: rect \x7b\n  props: \"x=1\"\n\x7d\n", "a: rect \x7b\n  props: \"x=true\"\n\x7d\n",
    texts, clean, same ▸ given, by decide +kernel, by decide +kernel, by decide +kernel, by decide⟩

end Work
end LiveDiagram
