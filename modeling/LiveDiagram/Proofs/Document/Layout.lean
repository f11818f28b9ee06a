import LiveDiagram.Proofs.Document.Formatting
import LiveDiagram.Proofs.Document.Mirroring

/-! The outline of a document that a forest with distinct ids built. Its elements come in the order of the forest, each
with its label and the elements of the declarations right below it. Where its text is read, what comes first in the
forest comes first in what is read. -/
namespace LiveDiagram

variable {α : Type}

/-- The nodes at the ends of an edge. -/
def Element.linked (e : Element α) : List String :=
  match e.content with
  | .node _ => []
  | .edge start stop => start.node?.toList ++ stop.node?.toList

theorem Element.ends_restated {config : Config α} (e : Element α) (children : Outline α) (echo : Option Props) (line : Nat) :
    (e.restated config children echo line).ends = e.linked := by
  unfold Declaration.ends restated linked
  cases e.content <;> rfl

/-- Where the sites of a part of a forest are, the first of them is, then those nested in it, then the others. -/
theorem Forest.split_cons {d : Declaration} {children rest : Forest} {holder : Option Declaration}
    {all before after : List Site} (split : all = before ++ ((cons d children rest).sites holder ++ after)) :
    all = before ++ ⟨holder, d, children.roots.map Declaration.id⟩ ::
        (children.sites (some d) ++ (rest.sites holder ++ after)) ∧
      all = before ++ [⟨holder, d, children.roots.map Declaration.id⟩] ++
        (children.sites (some d) ++ (rest.sites holder ++ after)) ∧
      all = before ++ [⟨holder, d, children.roots.map Declaration.id⟩] ++ children.sites (some d) ++
        (rest.sites holder ++ after) := by
  rw [sites, List.cons_append, List.append_assoc] at split
  have inside := split.trans (List.append_cons ..)
  exact ⟨split, inside, inside.trans (List.append_assoc ..).symm⟩

/-- In lists without repetitions, what comes before something comes before it in a sublist. -/
theorem mem_front_of_sublist {x y : String} {early late before after : List String}
    (sub : (early ++ y :: late).Sublist (before ++ y :: after)) (distinct : (before ++ y :: after).Nodup)
    (front : x ∈ before) (member : x ∈ early ++ y :: late) : x ∈ early := by
  refine (List.mem_append.1 member).resolve_right fun behind => ?_
  obtain ⟨_, _, apart⟩ := List.nodup_append.1 distinct
  obtain ⟨first, rest, cut, prior, next⟩ := List.sublist_append_iff.1 ((List.sublist_append_right early _).trans sub)
  cases first with
  | nil =>
    rw [List.nil_append] at cut
    exact apart x front x (next.subset (cut ▸ behind)) rfl
  | cons z first =>
    obtain ⟨rfl, _⟩ := List.cons.inj cut
    exact apart y (prior.subset List.mem_cons_self) y List.mem_cons_self rfl

variable [Coordinate α]

namespace Site
variable {config : Config α} {ids : IdSupply} {before : List Site} {children : List String} {birth : Nat}
  {bounds : Bounds α} {s : Site} {text : String}

theorem id_element : (s.element config before children birth bounds).id = s.id :=
  rfl

theorem id_label : (s.label config ids before text birth bounds).id = labelId ids before :=
  rfl

/-- The edge of a site is linked with those nodes before it that its declaration names. -/
theorem linked_element : (s.element config before children birth bounds).linked =
    s.head.ends.filter (· ∈ nodeIds before) := by
  have one (name : Option String) : (name.filter (· ∈ nodeIds before)).toList = name.toList.filter (· ∈ nodeIds before) := by
    cases name with
    | none => rfl
    | some x => by_cases there : x ∈ nodeIds before <;> simp [there]
  unfold Element.linked element content Declaration.ends
  cases s.head.head with
  | node => rfl
  | edge source target label =>
    dsimp only
    rw [Endpoint.node?_resolve, Endpoint.node?_resolve, List.filter_append, one, one]

end Site

namespace Built
variable {config : Config α} {ids ids' : IdSupply} {f : Forest} {d : Document α} {before after : List Site} {s : Site}
  {o : Outline α} {rest : List String}

theorem top_eq (built : Built config ids (f.sites none) d ids') : d.top = f.roots.map Declaration.id := by
  have roots : Site.below ((none : Option Declaration).map Declaration.id) (f.sites none) = _ :=
    Forest.below_sites_holder (by simp)
  exact built.top.trans roots

/-- The tree of a site in the outline: its element, with its label in front of what it lists. -/
theorem unfolds_cons (built : Built config ids (f.sites none) d ids')
    (distinct : (f.preorder.map Declaration.id).Nodup) (split : f.sites none = before ++ s :: after)
    (unfolds : d.Unfolds (s.id :: rest) o) :
    ∃ birth bounds children kids more,
      o = .cons (s.element config before (s.labelIds ids before ++ s.listed) birth bounds) children more ∧
        d.Unfolds s.listed kids ∧ d.Unfolds rest more ∧
        (s.head.label? = none ∧ children = kids ∨ ∃ text birth bounds, s.head.label? = some text ∧
          children = .cons (s.label config ids before text birth bounds) .nil kids) := by
  have member : s ∈ f.sites none := split ▸ List.mem_append_right before List.mem_cons_self
  obtain ⟨birth, bounds, placed⟩ := built.placed before s after split
  rw [Forest.below_sites_id distinct (by simp) member] at placed
  cases unfolds with
  | @cons _ _ _ children more found inner later =>
    cases found.symm.trans placed
    have nested : d.Unfolds (s.labelIds ids before ++ s.listed) children := inner
    unfold Site.labelIds at nested
    cases carried : s.head.label? with
    | none =>
      rw [carried] at nested
      exact ⟨birth, bounds, children, children, more, rfl, nested, later, .inl ⟨rfl, rfl⟩⟩
    | some text =>
      rw [carried, Option.isSome_some, if_pos rfl] at nested
      obtain ⟨birth', bounds', labelled⟩ := built.labelled before s after text split carried
      cases nested with
      | cons found' below kids =>
        cases found'.symm.trans labelled
        cases below
        exact ⟨birth, bounds, _, _, more, rfl, kids, later, .inr ⟨text, birth', bounds', rfl, rfl⟩⟩

/-- No label has an id that is declared. -/
theorem labelId_not_mem (suits : ids.Suits f.preorder) (split : f.sites none = before ++ s :: after)
    (carried : s.head.label?.isSome = true) : Site.labelId ids before ∉ f.preorder.map Declaration.id := by
  rw [← f.heads_sites none, split] at suits
  rw [← f.ids_sites none, split]
  intro inside
  obtain ⟨s', member, named⟩ := List.mem_map.1 inside
  exact labelId_ne suits carried member id_mem_mentions named

/-- The declared elements of an outline come in the order of the forest. -/
theorem declared_preorder (built : Built config ids (f.sites none) d ids') (suits : ids.Suits f.preorder)
    (distinct : (f.preorder.map Declaration.id).Nodup) {part : Forest} {holder : Option Declaration}
    (split : f.sites none = before ++ (part.sites holder ++ after)) (unfolds : d.Unfolds (part.roots.map Declaration.id) o) :
    (o.preorder.map Element.id).filter (· ∈ f.preorder.map Declaration.id) = part.preorder.map Declaration.id := by
  induction part generalizing holder before after o with
  | nil =>
    cases unfolds
    rfl
  | cons p children others inner later =>
    let s : Site := ⟨holder, p, children.roots.map Declaration.id⟩
    obtain ⟨split, inside, onward⟩ := Forest.split_cons split
    have here : s.id ∈ f.preorder.map Declaration.id :=
      Forest.mem_ids_of_mem_sites (split ▸ List.mem_append_right before List.mem_cons_self)
    obtain ⟨birth, bounds, tree, kids, more, rfl, below, behind, label⟩ := built.unfolds_cons (s := s) distinct split unfolds
    have deeper := inner inside below
    have nested : (tree.preorder.map Element.id).filter (· ∈ f.preorder.map Declaration.id) =
        children.preorder.map Declaration.id := by
      rcases label with ⟨_, rfl⟩ | ⟨text, birth, bounds, carried, rfl⟩
      · exact deeper
      · -- A label comes in front of the children, but its id was drawn and is none of the declared ones.
        have drawn := labelId_not_mem (s := s) suits split (carried ▸ rfl)
        rw [Outline.preorder, List.map_cons, Site.id_label, List.filter_cons, if_neg (decide_eq_true_iff.not.2 drawn)]
        exact deeper
    rw [Outline.preorder, List.map_cons, Site.id_element, List.map_append, List.filter_cons, if_pos (decide_eq_true here),
      List.filter_append, nested, later onward behind, Forest.preorder, List.map_cons, List.map_append]
    rfl

/-- What is read of the text of a built document comes in the order of the forest. -/
theorem order_of_restates (built : Built config ids (f.sites none) d ids') (suits : ids.Suits f.preorder)
    (distinct : (f.preorder.map Declaration.id).Nodup) (brought : d.Brought) {again : Forest}
    (restates : (d.outline d.top).Restates config none again) :
    ((again.preorder.map Declaration.id).filter (· ∈ f.preorder.map Declaration.id)).Sublist
      (f.preorder.map Declaration.id) := by
  have whole : f.sites none = [] ++ (f.sites none ++ []) := (List.append_nil _).symm
  have unfolds := brought.unfolds
  rw [built.top_eq] at unfolds restates
  have listed := built.declared_preorder suits distinct whole unfolds
  have read := restates.ids ▸ Outline.shown_sublist.map Element.id
  have kept := read.filter (· ∈ f.preorder.map Declaration.id)
  rwa [listed] at kept

/-- What comes before a declaration in the forest is read before it, if it is read at all. -/
theorem earlier_of_restates (built : Built config ids (f.sites none) d ids') (suits : ids.Suits f.preorder)
    (distinct : (f.preorder.map Declaration.id).Nodup) (brought : d.Brought) {again : Forest}
    (restates : (d.outline d.top).Restates config none again) (split : f.sites none = before ++ s :: after)
    {early late : List Declaration} {g : Declaration} (parted : again.preorder = early ++ g :: late) (named : g.id = s.id)
    {s' : Site} (member : s' ∈ before) (read : s'.id ∈ again.preorder.map Declaration.id) :
    s'.id ∈ early.map Declaration.id := by
  have order := built.order_of_restates suits distinct brought restates
  rw [← f.ids_sites none] at order distinct
  have known (x : Site) (member : x ∈ f.sites none) : decide (x.id ∈ (f.sites none).map Site.id) = true :=
    decide_eq_true (List.mem_map_of_mem member)
  have here := known s (split ▸ List.mem_append_right before List.mem_cons_self)
  have there := known s' (split ▸ List.mem_append_left _ member)
  rw [parted, List.map_append, List.map_cons, named] at order read
  rw [List.filter_append, List.filter_cons, if_pos here] at order
  have kept := List.mem_filter (p := (decide <| · ∈ (f.sites none).map Site.id)).2 ⟨read, there⟩
  rw [List.filter_append, List.filter_cons, if_pos here] at kept
  rw [split, List.map_append, List.map_cons] at order distinct kept
  exact (List.mem_filter.1 (mem_front_of_sublist order distinct (List.mem_map_of_mem member) kept)).1

/-- Where the text of a built document is read, edges name nodes that come before them, if the nodes at their ends are
read at all. -/
theorem ends_of_restates (built : Built .standard ids (f.sites none) d ids') (suits : ids.Suits f.preorder)
    (distinct : (f.preorder.map Declaration.id).Nodup) (brought : d.Brought) {again : Forest}
    (restates : (d.outline d.top).Restates .standard none again)
    (there : ∀ e ∈ d.shown, ∀ x ∈ e.linked, x ∈ d.shown.map Element.id)
    {early late : List Declaration} {g : Declaration} (parted : again.preorder = early ++ g :: late) :
    ∀ x ∈ g.ends, x ∈ Declaration.nodeIds early := by
  intro x named
  obtain ⟨e, shown, children, echo, line, rfl⟩ :=
    restates.exists_of_mem (parted ▸ List.mem_append_right early List.mem_cons_self)
  rw [Element.ends_restated] at named
  have read : x ∈ again.preorder.map Declaration.id := restates.ids ▸ there e shown x named
  obtain ⟨before, s, after, split, ⟨_, birth, bounds, rfl⟩ | ⟨_, _, _, _, rfl⟩⟩ :=
    built.cases (brought.unfolds.find?_of_mem_shown shown)
  swap
  · cases named
  rw [Site.linked_element, List.mem_filter, decide_eq_true_iff] at named
  obtain ⟨s', member, rfl⟩ := List.mem_map.1 named.2
  obtain ⟨member, isNode⟩ := List.mem_filter.1 member
  have inside : s' ∈ f.sites none := split ▸ List.mem_append_left _ member
  have earlier := built.earlier_of_restates suits distinct brought restates split parted rfl member read
  obtain ⟨g', before', same⟩ := List.mem_map.1 earlier
  obtain ⟨front, back, split'⟩ := List.append_of_mem (Forest.mem_preorder_of_mem_sites inside)
  have kind := (built.kept_of_restates brought restates split' (parted ▸ List.mem_append_left _ before') same).1
  refine List.mem_map.2 ⟨g', List.mem_filter.2 ⟨before', ?_⟩, same⟩
  rw [kind]
  exact isNode

end Built
end LiveDiagram
