import LiveDiagram.Document.Links
import Mathlib.Data.List.Nodup
import Mathlib.Logic.Relation

/-! Arcs between elements, told apart by their ends and their relation. A walk from an element over its child
arcs meets exactly what the arcs lead to, each once; the links left to follow bound its length. -/
namespace LiveDiagram.Links

/-- One element holds another. -/
def Nests (links : List Link) (parent child : String) : Prop :=
  has links parent .child child = true

theorem has_iff {links : List Link} {source target : String} {relation : Relation} :
    has links source relation target = true ↔
      ∃ l ∈ links, l.source = source ∧ l.target = target ∧ relation ∈ l.relations := by
  simp only [has, List.any_eq_true, Bool.and_eq_true, decide_eq_true_eq, List.contains_iff_mem, and_assoc]

theorem has_cons {l : Link} {links : List Link} {source target : String} {relation : Relation} :
    has (l :: links) source relation target = true ↔
      (l.source = source ∧ l.target = target ∧ relation ∈ l.relations) ∨
        has links source relation target = true := by
  simp only [has_iff, List.mem_cons, exists_eq_or_imp]

theorem has_join {links : List Link} {source target s t : String} {relation r : Relation} :
    has (join source relation target links) s r t = true ↔
      (s = source ∧ r = relation ∧ t = target) ∨ has links s r t = true := by
  induction links with
  | nil =>
    simp only [join, has_iff, List.mem_cons, List.not_mem_nil, or_false, exists_eq_left, false_and,
      exists_false]
    grind
  | cons l rest ih =>
    simp only [join]
    split
    · next joined =>
      simp only [Bool.and_eq_true, decide_eq_true_eq] at joined
      split
      · next known =>
        simp only [List.contains_iff_mem] at known
        rw [has_cons]
        grind
      · simp only [has_cons, List.mem_append, List.mem_singleton]
        grind
    · rw [has_cons, has_cons, ih]
      grind

theorem without_relations {relation r : Relation} {l : Link} :
    (∃ k, without relation l = some k ∧ r ∈ k.relations) ↔ r ∈ l.relations ∧ r ≠ relation := by
  simp only [without]
  split
  · next empty =>
    simp only [List.isEmpty_iff, List.filter_eq_nil_iff, ne_eq, decide_eq_true_eq] at empty
    grind
  · simp only [Option.some.injEq, exists_eq_left', List.mem_filter, ne_eq, decide_eq_true_eq]

theorem without_ends {relation : Relation} {l k : Link} (kept : without relation l = some k) :
    k.source = l.source ∧ k.target = l.target := by
  simp only [without] at kept
  split at kept
  · cases kept
  · cases kept
    exact ⟨rfl, rfl⟩

/-- Dropping one relation from the links that `drops` picks out. -/
theorem has_filterMap_without {links : List Link} {relation : Relation} {s t : String} {r : Relation}
    (drops : Link → Bool) (byEnds : ∀ l, drops l = drops ⟨l.source, l.target, []⟩) :
    has (links.filterMap fun l => if drops l then without relation l else some l) s r t = true ↔
      has links s r t = true ∧ ¬(drops ⟨s, t, []⟩ = true ∧ r = relation) := by
  simp only [has_iff, List.mem_filterMap]
  constructor
  · rintro ⟨k, ⟨l, member, kept⟩, source, target, related⟩
    split at kept
    · next dropped =>
      have ends := without_ends kept
      have remains := without_relations.1 ⟨k, kept, related⟩
      exact ⟨⟨l, member, by grind, by grind, remains.1⟩, fun both => remains.2 both.2⟩
    · next whole =>
      cases kept
      have picked := byEnds k
      exact ⟨⟨k, member, source, target, related⟩, by grind⟩
  · rintro ⟨⟨l, member, source, target, related⟩, other⟩
    by_cases dropped : drops l = true
    · have picked := byEnds l
      obtain ⟨k, kept, remains⟩ := without_relations.2 ⟨related, (by grind : r ≠ relation)⟩
      have ends := without_ends kept
      exact ⟨k, ⟨l, member, by simp only [dropped, if_true, kept]⟩, by grind, by grind, remains⟩
    · exact ⟨l, ⟨l, member, by simp only [dropped]; rfl⟩, source, target, related⟩

theorem has_part {links : List Link} {source target s t : String} {relation r : Relation} :
    has (part source relation target links) s r t = true ↔
      has links s r t = true ∧ ¬(s = source ∧ r = relation ∧ t = target) := by
  unfold part
  rw [has_filterMap_without (fun l => l.source = source && l.target = target) (fun _ => rfl)]
  simp only [Bool.and_eq_true, decide_eq_true_eq]
  grind

theorem has_release {links : List Link} {source s t : String} {relation r : Relation} :
    has (release source relation links) s r t = true ↔
      has links s r t = true ∧ ¬(s = source ∧ r = relation) := by
  unfold release
  have dropped := @has_filterMap_without links relation s t r (fun l => l.source = source) (fun _ => rfl)
  simpa only [decide_eq_true_eq] using dropped

theorem has_forget {links : List Link} {ids : List String} {s t : String} {r : Relation} :
    has (forget ids links) s r t = true ↔ has links s r t = true ∧ s ∉ ids ∧ t ∉ ids := by
  simp only [forget, has_iff, List.mem_filter, Bool.and_eq_true, Bool.not_eq_true', ← Bool.not_eq_true,
    List.contains_iff_mem]
  grind

theorem mem_targets {links : List Link} {source target : String} {relation : Relation} :
    target ∈ targets links source relation ↔ has links source relation target = true := by
  simp only [targets, has_iff, List.mem_map, List.mem_filter, Bool.and_eq_true, decide_eq_true_eq,
    List.contains_iff_mem]
  grind

theorem mem_attached {links : List Link} {edge node : String} :
    edge ∈ attached links node ↔
      has links edge .start node = true ∨ has links edge .stop node = true := by
  simp only [attached, has_iff, List.mem_map, List.mem_filter, Bool.and_eq_true, Bool.or_eq_true,
    decide_eq_true_eq, List.contains_iff_mem]
  grind

/-! No link is left without a relation -/

/-- Every link stands for some arc. -/
def Proper (links : List Link) : Prop :=
  ∀ l ∈ links, l.relations ≠ []

theorem Proper.join {links : List Link} {source target : String} {relation : Relation} (proper : Proper links) :
    Proper (join source relation target links) := by
  induction links with
  | nil => simp [Links.join, Proper]
  | cons l rest ih =>
    have rest := ih fun k member => proper k (List.mem_cons_of_mem l member)
    have first := proper l List.mem_cons_self
    unfold Links.join
    split
    · split
      · exact proper
      · intro k member
        rcases List.mem_cons.1 member with rfl | old
        · simp
        · exact proper k (List.mem_cons_of_mem l old)
    · intro k member
      rcases List.mem_cons.1 member with rfl | old
      · exact first
      · exact rest k old

theorem Proper.filterMap {links : List Link} {relation : Relation} (proper : Proper links) (drops : Link → Bool) :
    Proper (links.filterMap fun l => if drops l then without relation l else some l) := by
  intro k member
  obtain ⟨l, old, kept⟩ := List.mem_filterMap.1 member
  split at kept
  · simp only [without] at kept
    split at kept
    · cases kept
    · next some =>
      cases kept
      simpa [List.isEmpty_iff] using some
  · cases kept
    exact proper k old

theorem Proper.part {links : List Link} {source target : String} {relation : Relation} (proper : Proper links) :
    Proper (part source relation target links) :=
  proper.filterMap fun l => l.source = source && l.target = target

theorem Proper.release {links : List Link} {source : String} {relation : Relation} (proper : Proper links) :
    Proper (release source relation links) := by
  have dropped := @Proper.filterMap links relation proper fun l => l.source = source
  simpa only [Links.release, decide_eq_true_eq] using dropped

theorem Proper.forget {links : List Link} {ids : List String} (proper : Proper links) : Proper (forget ids links) :=
  fun l member => proper l (List.mem_filter.1 member).1

/-! The walk over child arcs -/

/-- The links that a walk may still follow. -/
def unfollowed (links : List Link) (seen : List String) : List Link :=
  links.filter fun l => l.relations.contains .child && !seen.contains l.source

theorem length_unfollowed_cons {links : List Link} {id : String} {seen : List String} (unseen : id ∉ seen) :
    (targets links id .child).length + (unfollowed links (id :: seen)).length =
      (unfollowed links seen).length := by
  induction links with
  | nil => rfl
  | cons l rest ih =>
    simp only [targets, unfollowed, List.length_map, List.filter_cons] at ih ⊢
    by_cases nests : Relation.child ∈ l.relations
    · by_cases own : l.source = id
      · simp [own, nests, unseen] at ih ⊢
        omega
      · by_cases old : l.source ∈ seen
        · simpa [own, old, nests] using ih
        · simp [own, old, nests] at ih ⊢
          omega
    · simpa [nests] using ih

variable {links : List Link}

theorem mem_preorder_of_mem_seen {fuel : Nat} {waiting seen : List String} {id : String} (known : id ∈ seen) :
    id ∈ preorder links fuel waiting seen := by
  induction fuel generalizing waiting seen with
  | zero => simpa [preorder] using known
  | succ fuel ih =>
    cases waiting with
    | nil => simpa [preorder] using known
    | cons next waiting =>
      simp only [preorder]
      split
      · exact ih known
      · exact ih (List.mem_cons_of_mem _ known)

/-- What a walk keeps: a child of what it has seen was seen too, or is waiting. -/
def Closed (links : List Link) (seen waiting : List String) : Prop :=
  ∀ id ∈ seen, ∀ child, Nests links id child → child ∈ seen ∨ child ∈ waiting

namespace Closed
variable {seen waiting : List String} {next : String}

theorem skip (closed : Closed links seen (next :: waiting)) (known : next ∈ seen) : Closed links seen waiting := by
  intro id member child nests
  rcases closed id member child nests with old | waits
  · exact .inl old
  · rcases List.mem_cons.1 waits with same | waits
    · exact .inl (same ▸ known)
    · exact .inr waits

theorem follow (closed : Closed links seen (next :: waiting)) :
    Closed links (next :: seen) (targets links next .child ++ waiting) := by
  intro id member child nests
  rcases List.mem_cons.1 member with same | old
  · subst same
    exact .inr (List.mem_append_left _ (mem_targets.2 nests))
  · rcases closed id old child nests with old | waits
    · exact .inl (List.mem_cons_of_mem _ old)
    · rcases List.mem_cons.1 waits with same | waits
      · exact .inl (same ▸ List.mem_cons_self)
      · exact .inr (List.mem_append_right _ waits)

/-- A walk with nothing left to wait for has met all children of what it met. -/
theorem ended {fuel : Nat} (closed : Closed links seen []) :
    ∀ id ∈ preorder links fuel [] seen, ∀ child, Nests links id child → child ∈ preorder links fuel [] seen := by
  intro id member child nests
  have final : preorder links fuel [] seen = seen.reverse := by cases fuel <;> rfl
  rw [final] at member ⊢
  have next := closed id (List.mem_reverse.1 member) child nests
  simpa using next

end Closed

/-- A walk with fuel for what is left ends with everything that was waiting, and leaves out no child. -/
theorem preorder_complete {fuel : Nat} {waiting seen : List String}
    (enough : waiting.length + (unfollowed links seen).length ≤ fuel) (closed : Closed links seen waiting) :
    (∀ id ∈ waiting, id ∈ preorder links fuel waiting seen) ∧
      ∀ id ∈ preorder links fuel waiting seen, ∀ child, Nests links id child →
        child ∈ preorder links fuel waiting seen := by
  -- On the fuel. An id that was seen is dropped, which shortens what waits; another one is followed, which adds its
  -- children there but takes as many links off those that are not followed yet.
  induction fuel generalizing waiting seen with
  | zero =>
    have none : waiting = [] := List.length_eq_zero_iff.1 (by omega)
    subst none
    exact ⟨by simp, closed.ended⟩
  | succ fuel ih =>
    cases waiting with
    | nil => exact ⟨by simp, closed.ended⟩
    | cons next waiting =>
      simp only [preorder]
      split
      · next known =>
        simp only [List.contains_iff_mem] at known
        have shorter : waiting.length + (unfollowed links seen).length ≤ fuel := by
          simp only [List.length_cons] at enough
          omega
        have rest := ih shorter (closed.skip known)
        refine ⟨fun id member => ?_, rest.2⟩
        rcases List.mem_cons.1 member with same | waits
        · exact mem_preorder_of_mem_seen (same ▸ known)
        · exact rest.1 id waits
      · next unknown =>
        simp only [List.contains_iff_mem] at unknown
        have followed := @length_unfollowed_cons links next seen unknown
        have shorter :
            (targets links next .child ++ waiting).length + (unfollowed links (next :: seen)).length ≤ fuel := by
          simp only [List.length_cons, List.length_append] at enough ⊢
          omega
        have rest := ih shorter closed.follow
        refine ⟨fun id member => ?_, rest.2⟩
        rcases List.mem_cons.1 member with same | waits
        · exact mem_preorder_of_mem_seen (same ▸ List.mem_cons_self)
        · exact rest.1 id (List.mem_append_right _ waits)

/-- A walk meets only what was waiting and what lies below it. -/
theorem preorder_sound {fuel : Nat} {waiting seen : List String} {id : String}
    (met : id ∈ preorder links fuel waiting seen) :
    id ∈ seen ∨ ∃ start ∈ waiting, Relation.ReflTransGen (Nests links) start id := by
  induction fuel generalizing waiting seen with
  | zero => exact .inl (by simpa [preorder] using met)
  | succ fuel ih =>
    cases waiting with
    | nil => exact .inl (by simpa [preorder] using met)
    | cons next waiting =>
      simp only [preorder] at met
      split at met
      · rcases ih met with old | ⟨start, member, path⟩
        · exact .inl old
        · exact .inr ⟨start, List.mem_cons_of_mem _ member, path⟩
      · rcases ih met with old | ⟨start, member, path⟩
        · rcases List.mem_cons.1 old with same | old
          · exact .inr ⟨next, List.mem_cons_self, same ▸ .refl⟩
          · exact .inl old
        · rcases List.mem_append.1 member with child | waits
          · exact .inr ⟨next, List.mem_cons_self, .head (mem_targets.1 child) path⟩
          · exact .inr ⟨start, List.mem_cons_of_mem _ waits, path⟩

theorem nodup_preorder {fuel : Nat} {waiting seen : List String} (distinct : seen.Nodup) :
    (preorder links fuel waiting seen).Nodup := by
  induction fuel generalizing waiting seen with
  | zero => exact List.nodup_reverse.2 distinct
  | succ fuel ih =>
    cases waiting with
    | nil => exact List.nodup_reverse.2 distinct
    | cons next waiting =>
      simp only [preorder]
      split
      · exact ih distinct
      · next unknown => exact ih (List.nodup_cons.2 ⟨by simpa using unknown, distinct⟩)

/-- The subtree of an element is the element with all that child arcs lead to from it. -/
theorem mem_subtree {root id : String} :
    id ∈ subtree links root ↔ Relation.ReflTransGen (Nests links) root id := by
  have enough : [root].length + (unfollowed links []).length ≤ links.length + 1 := by
    have short : (unfollowed links []).length ≤ links.length := List.length_filter_le _ links
    simp only [List.length_singleton]
    omega
  have complete := preorder_complete enough (by simp [Closed])
  constructor
  · intro member
    rcases preorder_sound member with old | ⟨start, waits, path⟩
    · simp at old
    · rw [List.mem_singleton] at waits
      exact waits ▸ path
  · intro path
    induction path with
    | refl => exact complete.1 root (by simp)
    | tail _ nests ih => exact complete.2 _ ih _ nests

/-- No element stands twice in a subtree. -/
theorem nodup_subtree {root : String} : (subtree links root).Nodup :=
  nodup_preorder List.nodup_nil

end LiveDiagram.Links
