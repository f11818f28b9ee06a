import LiveDiagram.Reconcile
import LiveDiagram.Proofs.Edit.Leading
import LiveDiagram.Proofs.Source.Repeating

/-! The declarations of a forest one after the other, each with its place, and the walk of a pass through them. -/
namespace LiveDiagram

/-- The text of the label that an edge carries. -/
def Declaration.label? (d : Declaration) : Option String :=
  match d.head with
  | .node .. => none
  | .edge _ _ label => label

theorem Declaration.kind_node {d : Declaration} {shape : String} {name style : Option String}
    (head : d.head = .node shape name style) : d.kind = .node := by
  unfold kind
  rw [head]

theorem Declaration.kind_edge {d : Declaration} {source target label : Option String}
    (head : d.head = .edge source target label) : d.kind = .edge := by
  unfold kind
  rw [head]

theorem Declaration.label?_edge {d : Declaration} {source target label : Option String}
    (head : d.head = .edge source target label) : d.label? = label := by
  unfold label?
  rw [head]

/-- A declaration in its place: the one around it, unless it is topmost, and the ids of those right below it. -/
structure Site where
  holder : Option Declaration
  head : Declaration
  listed : List String

namespace Site

def id (s : Site) : String := s.head.id

def around (s : Site) : Option String := s.holder.map Declaration.id

/-- The ids that stand right below an id, or at the top. -/
def below (x : Option String) (sites : List Site) : List String :=
  (sites.filter (·.around = x)).map id

theorem below_append {x : Option String} {sites more : List Site} :
    below x (sites ++ more) = below x sites ++ below x more := by
  unfold below
  rw [List.filter_append, List.map_append]

theorem below_singleton {x : Option String} {s : Site} : below x [s] = if s.around = x then [s.id] else [] := by
  unfold below
  by_cases child : s.around = x <;> simp [child]

theorem below_concat {x : Option String} {sites : List Site} {s : Site} :
    below x (sites ++ [s]) = below x sites ++ if s.around = x then [s.id] else [] := by
  rw [below_append, below_singleton]

theorem below_eq_nil {x : Option String} {sites : List Site} (apart : ∀ s ∈ sites, s.around ≠ x) :
    below x sites = [] := by
  unfold below
  rw [List.map_eq_nil_iff, List.filter_eq_nil_iff]
  simpa using apart

end Site

/-- The labels of a site's edge that the site does not list. -/
def Document.inlineLabels {α : Type} (d : Document α) (s : Site) : List (Element α) :=
  (d.labelsOf s.id).filter (!s.listed.contains ·.id)

namespace Forest

/-- The declarations of a forest in their places, in preorder. -/
def sites (holder : Option Declaration) : Forest → List Site
  | nil => []
  | cons d children rest =>
    ⟨holder, d, children.roots.map Declaration.id⟩ :: (children.sites (some d) ++ rest.sites holder)

variable {f : Forest} {holder : Option Declaration} {s : Site} {x : String}

theorem heads_sites (f : Forest) (holder : Option Declaration) : (f.sites holder).map Site.head = f.preorder := by
  induction f generalizing holder with
  | nil => rfl
  | cons d children rest first second => simp only [sites, preorder, List.map_cons, List.map_append, first, second]

theorem ids_sites (f : Forest) (holder : Option Declaration) :
    (f.sites holder).map Site.id = f.preorder.map Declaration.id := by
  rw [← f.heads_sites holder, List.map_map]
  rfl

theorem mem_preorder_of_mem_sites (member : s ∈ f.sites holder) : s.head ∈ f.preorder :=
  f.heads_sites holder ▸ List.mem_map_of_mem member

theorem mem_ids_of_mem_sites (member : s ∈ f.sites holder) : s.id ∈ f.preorder.map Declaration.id :=
  f.ids_sites holder ▸ List.mem_map_of_mem member

theorem roots_subset (f : Forest) : f.roots ⊆ f.preorder := by
  induction f with
  | nil => exact List.Subset.refl _
  | cons d children rest _ second =>
    exact List.cons_subset_cons d (List.subset_append_of_subset_right children.preorder second)

/-- What a site lists are declarations of the same forest. -/
theorem listed_subset (member : s ∈ f.sites holder) : s.listed ⊆ f.preorder.map Declaration.id := by
  induction f generalizing holder with
  | nil => cases member
  | cons d children rest first second =>
    have inner : children.preorder ⊆ (cons d children rest).preorder := fun _ inside =>
      List.mem_cons_of_mem d (List.mem_append_left _ inside)
    have later : rest.preorder ⊆ (cons d children rest).preorder := fun _ inside =>
      List.mem_cons_of_mem d (List.mem_append_right _ inside)
    rcases List.mem_cons.1 member with rfl | member
    · exact List.map_subset _ (List.Subset.trans children.roots_subset inner)
    · rcases List.mem_append.1 member with child | other
      · exact List.Subset.trans (first child) (List.map_subset _ inner)
      · exact List.Subset.trans (second other) (List.map_subset _ later)

/-- The declaration around another one is of the same forest, or the one around the whole forest. -/
theorem holder_of_mem_sites (member : s ∈ f.sites holder) :
    s.holder = holder ∨ ∃ d ∈ f.preorder, s.holder = some d := by
  induction f generalizing holder with
  | nil => cases member
  | cons d children rest first second =>
    have inner {d' : Declaration} (inside : d' ∈ children.preorder) : d' ∈ (cons d children rest).preorder :=
      List.mem_cons_of_mem d (List.mem_append_left _ inside)
    have later {d' : Declaration} (inside : d' ∈ rest.preorder) : d' ∈ (cons d children rest).preorder :=
      List.mem_cons_of_mem d (List.mem_append_right _ inside)
    rcases List.mem_cons.1 member with rfl | member
    · exact .inl rfl
    · rcases List.mem_append.1 member with child | other
      · rcases first child with own | ⟨d', inside, same⟩
        · exact .inr ⟨d, List.mem_cons_self, own⟩
        · exact .inr ⟨d', inner inside, same⟩
      · exact (second other).imp_right fun ⟨d', inside, same⟩ => ⟨d', later inside, same⟩

/-- Nothing of a forest stands below an id that is neither of the forest nor around it. -/
theorem below_sites_eq_nil (outside : x ∉ f.preorder.map Declaration.id) (apart : holder.map Declaration.id ≠ some x) :
    Site.below (some x) (f.sites holder) = [] := by
  apply Site.below_eq_nil
  intro s member same
  unfold Site.around at same
  rcases holder_of_mem_sites member with own | ⟨d, inside, own⟩
  · exact apart (own ▸ same)
  · rw [own] at same
    cases same
    exact outside (List.mem_map_of_mem inside)

/-- Right below the declaration around a forest stand its roots. -/
theorem below_sites_holder (apart : ∀ h, holder = some h → h.id ∉ f.preorder.map Declaration.id) :
    Site.below (holder.map Declaration.id) (f.sites holder) = f.roots.map Declaration.id := by
  induction f generalizing holder with
  | nil => rfl
  | cons d children rest _ second =>
    have inner : Site.below (holder.map Declaration.id) (children.sites (some d)) = [] := by
      apply Site.below_eq_nil
      intro s member same
      obtain ⟨d', inside, own⟩ : ∃ d' ∈ (cons d children rest).preorder, s.holder = some d' := by
        rcases holder_of_mem_sites member with own | ⟨d', inside, own⟩
        · exact ⟨d, List.mem_cons_self, own⟩
        · exact ⟨d', List.mem_cons_of_mem d (List.mem_append_left _ inside), own⟩
      unfold Site.around at same
      rw [own] at same
      obtain ⟨h, around, named⟩ := Option.map_eq_some_iff.1 same.symm
      exact apart h around (named ▸ List.mem_map_of_mem inside)
    have others : Site.below (holder.map Declaration.id) (rest.sites holder) = rest.roots.map Declaration.id := by
      refine second fun h around inside => apart h around ?_
      exact List.mem_cons_of_mem d.id (List.map_append ▸ List.mem_append_right _ inside)
    change Site.below _ ([_] ++ (children.sites (some d) ++ rest.sites holder)) = _
    rw [Site.below_append, Site.below_append, inner, others]
    rw [Site.below_singleton]
    exact congrArg (· ++ _) (if_pos rfl)

/-- With distinct ids, the sites right below a declaration are those that it lists. -/
theorem below_sites_id (distinct : (f.preorder.map Declaration.id).Nodup)
    (apart : ∀ h, holder = some h → h.id ∉ f.preorder.map Declaration.id) (member : s ∈ f.sites holder) :
    Site.below (some s.id) (f.sites holder) = s.listed := by
  induction f generalizing holder with
  | nil => cases member
  | cons d children rest first second =>
    simp only [preorder, List.map_cons, List.map_append, List.nodup_cons, List.mem_append, not_or,
      List.nodup_append] at distinct
    obtain ⟨⟨outside, outside'⟩, distinctInner, distinctRest, disjoint⟩ := distinct
    simp only [preorder, List.map_cons, List.map_append, List.mem_cons, List.mem_append, not_or] at apart
    change Site.below _ ([_] ++ (children.sites (some d) ++ rest.sites holder)) = _
    rw [Site.below_append, Site.below_append]
    -- Neither the first declaration nor the rest stands below an id of the first tree, and the other way round.
    have top {x : String} (inside : x = d.id ∨ x ∈ children.preorder.map Declaration.id ∨
        x ∈ rest.preorder.map Declaration.id) (listed : List String) : Site.below (some x) [⟨holder, d, listed⟩] = [] := by
      apply Site.below_eq_nil
      intro s alone same
      cases List.mem_singleton.1 alone
      obtain ⟨h, around, named⟩ := Option.map_eq_some_iff.1 same
      have away := apart h around
      rw [named] at away
      exact (inside.elim away.1 fun inside => inside.elim away.2.1 away.2.2)
    have unheld {x : String} (inside : x = d.id ∨ x ∈ children.preorder.map Declaration.id ∨
        x ∈ rest.preorder.map Declaration.id) : holder.map Declaration.id ≠ some x := by
      intro same
      obtain ⟨h, around, named⟩ := Option.map_eq_some_iff.1 same
      have away := apart h around
      rw [named] at away
      exact (inside.elim away.1 fun inside => inside.elim away.2.1 away.2.2)
    rcases List.mem_cons.1 member with rfl | member
    · change Site.below (some d.id) _ ++ (Site.below (some d.id) _ ++ Site.below (some d.id) _) = _
      have inner : Site.below ((some d).map Declaration.id) (children.sites (some d)) =
          children.roots.map Declaration.id := below_sites_holder (by rintro _ ⟨⟩; exact outside)
      rw [top (.inl rfl), below_sites_eq_nil outside' (unheld (.inl rfl)), List.nil_append, List.append_nil]
      exact inner
    rcases List.mem_append.1 member with child | other
    · have inside := mem_ids_of_mem_sites child
      have away : s.id ∉ rest.preorder.map Declaration.id := fun there => disjoint _ inside _ there rfl
      rw [top (.inr (.inl inside)), below_sites_eq_nil away (unheld (.inr (.inl inside))), List.nil_append,
        List.append_nil]
      exact first distinctInner (by rintro _ ⟨⟩; exact outside) child
    · have inside := mem_ids_of_mem_sites other
      have away : s.id ∉ children.preorder.map Declaration.id := fun there => disjoint _ there _ inside rfl
      have own : (some d).map Declaration.id ≠ some s.id :=
        fun same => outside' (Option.some.inj same ▸ inside)
      rw [top (.inr (.inr inside)), below_sites_eq_nil away own, List.nil_append, List.nil_append]
      exact second distinctRest (fun h around => (apart h around).2.2) other

end Forest

namespace Reconcile
variable {α : Type} [Coordinate α]

/-- A handle of the element that a declaration of `done` was brought to, or none at the top. -/
structure Under (d : Document α) (done : List Site) (holder : Option Declaration) (parent : Option Handle) : Prop where
  named : parent.map Handle.id = holder.map Declaration.id
  live : ∀ h, parent = some h → d.isLive h = true
  met : ∀ p, holder = some p → p ∈ done.map Site.head

omit [Coordinate α] in
theorem Under.later {d d' : Document α} {done more : List Site} {holder : Option Declaration} {parent : Option Handle}
    (under : Under d done holder parent) (kept : d.handles ⊆ d'.handles) : Under d' (done ++ more) holder parent where
  named := under.named
  live h same := Document.isLive_iff.2 (kept (Document.isLive_iff.1 (under.live h same)))
  met p same := by
    rw [List.map_append]
    exact List.mem_append_left _ (under.met p same)

/-- A visit of one site that returns with the element of the site, keeps all elements, and keeps the invariant. -/
def Rounds (config : Config α) (inv : List Site → Document α → IdSupply → Prop) (done : List Site) (s : Site) : Prop :=
  ∀ parent reference d ids, inv done d ids → Under d done s.holder parent →
    ∃ h d' ids', Leads d ids (visitOne config parent reference s.head s.listed) (some h) d' ids' ∧
      h.id = s.id ∧ d'.isLive h = true ∧ d.handles ⊆ d'.handles ∧ inv (done ++ [s]) d' ids'

/-- A pass over a forest visits its sites in order: it returns if every visit does, and keeps what every visit keeps. -/
theorem leads_visit {config : Config α} (inv : List Site → Document α → IdSupply → Prop) {all : List Site}
    (round : ∀ done s rest, all = done ++ s :: rest → Rounds config inv done s) (f : Forest) {done rest : List Site}
    {holder : Option Declaration} {parent : Option Handle} (reference : Option (Bounds α)) {d : Document α}
    {ids : IdSupply} (split : all = done ++ (f.sites holder ++ rest)) (kept : inv done d ids)
    (under : Under d done holder parent) :
    ∃ reference' d' ids', Leads d ids (visit config parent reference f) reference' d' ids' ∧
      d.handles ⊆ d'.handles ∧ inv (done ++ f.sites holder) d' ids' := by
  -- A site is met before those in its body, and these before what comes after it; `done` grows in this order.
  induction f generalizing done rest holder parent reference d ids with
  | nil => exact ⟨reference, d, ids, .pure, List.Subset.refl _, by rwa [Forest.sites, List.append_nil]⟩
  | cons head children others first second =>
    let s : Site := ⟨holder, head, children.roots.map Declaration.id⟩
    simp only [Forest.sites, List.cons_append, List.append_assoc] at split
    obtain ⟨h, d₁, ids₁, visited, named, live, kept₁, inv₁⟩ := round done s _ split parent reference d ids kept under
    have below : Under d₁ (done ++ [s]) (some head) (some h) := by
      refine ⟨congrArg some named, ?_, ?_⟩
      · rintro _ ⟨⟩
        exact live
      · rintro _ ⟨⟩
        exact List.mem_map_of_mem (List.mem_append_right done (List.mem_singleton.2 rfl))
    obtain ⟨r₂, d₂, ids₂, inner, kept₂, inv₂⟩ := first (nextReference d₁ head.id reference)
      (split.trans (List.append_cons ..)) inv₁ below
    have kept₁₂ := List.Subset.trans kept₁ kept₂
    have under₂ : Under d₂ (done ++ [s] ++ children.sites (some head)) holder parent := by
      rw [List.append_assoc]
      exact under.later kept₁₂
    have onward : all = done ++ [s] ++ children.sites (some head) ++ (others.sites holder ++ rest) := by
      rw [split, List.append_assoc, List.append_assoc]
      rfl
    obtain ⟨r₃, d₃, ids₃, last, kept₃, inv₃⟩ := second r₂ onward inv₂ under₂
    refine ⟨r₃, d₃, ids₃, ?_, List.Subset.trans kept₁₂ kept₃, ?_⟩
    · unfold visit
      exact .bind visited (.document (.bind inner last))
    · rw [Forest.sites, List.append_cons, ← List.append_assoc]
      exact inv₃

end Reconcile
end LiveDiagram
