import LiveDiagram.Proofs.Assoc
import LiveDiagram.Source.Forest
import Mathlib.Data.List.Induction

/-! The rule against repeated ids. It goes through the ids in the order of their first definition, and of the repeated ids
that a line defines it reports the last one. -/
namespace LiveDiagram

namespace Forest
variable {f : Forest}

/-- The lines that define an id. -/
def linesOf (f : Forest) (x : String) : List Nat :=
  (f.preorder.filter (·.id = x)).map Declaration.line

theorem length_linesOf {x : String} : (f.linesOf x).length = (f.preorder.map Declaration.id).count x := by
  rw [linesOf, List.length_map, List.count, List.countP_map, List.countP_eq_length_filter]
  rfl

/-- Every declared id has the lines that define it. -/
theorem get?_linesById (x : String) : Assoc.get? f.linesById x =
    if x ∈ f.preorder.map Declaration.id then some (f.linesOf x) else none := by
  have folded (ds : List Declaration) (found : List (String × List Nat)) :
      Assoc.get? (ds.foldl (fun found d => Assoc.alter d.id (fun lines => lines.getD [] ++ [d.line]) found) found) x =
        if x ∈ ds.map Declaration.id then
          some ((Assoc.get? found x).getD [] ++ (ds.filter (·.id = x)).map Declaration.line)
        else Assoc.get? found x := by
    induction ds generalizing found with
    | nil => simp
    | cons d rest ih =>
      rw [List.foldl_cons, ih, Assoc.get?_alter]
      by_cases own : d.id = x
      · by_cases later : x ∈ rest.map Declaration.id
        · simp [own, later]
        · have none : rest.filter (·.id = x) = [] := by
            rw [List.filter_eq_nil_iff]
            exact fun r member same => later (of_decide_eq_true same ▸ List.mem_map_of_mem member)
          simp [own, later, none]
      · simp [own, Ne.symm own]
  exact (folded f.preorder []).trans (by simp [Assoc.get?, linesOf])

/-- The lines of each id, as declarations come. -/
def grouped (ds : List Declaration) : List (String × List Nat) :=
  ds.foldl (fun found d => Assoc.alter d.id (fun lines => lines.getD [] ++ [d.line]) found) []

theorem keys_grouped_append (ds : List Declaration) (d : Declaration) : (grouped (ds ++ [d])).map Prod.fst =
    if d.id ∈ (grouped ds).map Prod.fst then (grouped ds).map Prod.fst else (grouped ds).map Prod.fst ++ [d.id] := by
  rw [grouped, List.foldl_append]
  exact Assoc.keys_alter

theorem mem_grouped {ds : List Declaration} {x : String} :
    x ∈ (grouped ds).map Prod.fst ↔ x ∈ ds.map Declaration.id := by
  induction ds using List.reverseRecOn with
  | nil => simp [grouped]
  | append_singleton ds d ih =>
    rw [keys_grouped_append, List.map_append, List.mem_append, ← ih, List.map_singleton, List.mem_singleton]
    split
    · next met => exact ⟨.inl, fun either => either.elim id (· ▸ met)⟩
    · rw [List.mem_append, List.mem_singleton]

/-- The ids stand in the order of their first definition. -/
theorem grouped_ordered {ds : List Declaration} : ((grouped ds).map Prod.fst).Pairwise fun x y =>
    (ds.map Declaration.id).idxOf x < (ds.map Declaration.id).idxOf y := by
  induction ds using List.reverseRecOn with
  | nil => simp [grouped]
  | append_singleton ds d ih =>
    have rank {x : String} (member : x ∈ (grouped ds).map Prod.fst) :
        ((ds ++ [d]).map Declaration.id).idxOf x = (ds.map Declaration.id).idxOf x := by
      rw [List.map_append, List.idxOf_append_of_mem (mem_grouped.1 member)]
    have sorted := ih.imp_of_mem fun {x y} own own' before =>
      show ((ds ++ [d]).map Declaration.id).idxOf x < ((ds ++ [d]).map Declaration.id).idxOf y by
        rwa [rank own, rank own']
    rw [keys_grouped_append]
    split
    · exact sorted
    · next unmet =>
      refine List.pairwise_append.2 ⟨sorted, List.pairwise_singleton .., fun x member y own => ?_⟩
      cases List.mem_singleton.1 own
      rw [rank member, List.map_append, List.idxOf_append_of_notMem fun inside => unmet (mem_grouped.2 inside)]
      exact Nat.lt_of_lt_of_le (List.idxOf_lt_length_of_mem (mem_grouped.1 member)) (Nat.le_add_right ..)

theorem mem_linesById {x : String} : x ∈ f.linesById.map Prod.fst ↔ x ∈ f.preorder.map Declaration.id :=
  mem_grouped

theorem linesById_ordered : (f.linesById.map Prod.fst).Pairwise fun x y =>
    (f.preorder.map Declaration.id).idxOf x < (f.preorder.map Declaration.id).idxOf y :=
  grouped_ordered

theorem mem_linesById_iff {x : String} {lines : List Nat} :
    (x, lines) ∈ f.linesById ↔ x ∈ f.preorder.map Declaration.id ∧ lines = f.linesOf x := by
  have distinct : (f.linesById.map Prod.fst).Nodup := by
    refine linesById_ordered.imp fun before same => ?_
    rw [same] at before
    exact Nat.lt_irrefl _ before
  rw [← Assoc.get?_eq_some_iff distinct, get?_linesById]
  split
  · next declared => simp [declared, eq_comm]
  · next unknown => simp [unknown]

theorem repetition_injective : Function.Injective repetition := fun _ _ same =>
  (String.append_right_inj _).1 ((String.append_left_inj _).1 same)

/-- An id that is defined more than once, here on this line. -/
def Repeats (f : Forest) (line : Int) (x : String) : Prop :=
  1 < (f.preorder.map Declaration.id).count x ∧ ∃ d ∈ f.preorder, d.id = x ∧ (d.line : Int) = line

/-- Of the repeated ids of a line, the one that is first defined after all others. -/
def LastRepeated (f : Forest) (line : Int) (x : String) : Prop :=
  f.Repeats line x ∧ ∀ d ∈ f.preorder, f.Repeats line d.id →
    (f.preorder.map Declaration.id).idxOf d.id ≤ (f.preorder.map Declaration.id).idxOf x

instance {line : Int} {x : String} : Decidable (f.Repeats line x) :=
  inferInstanceAs (Decidable (_ ∧ _))

instance {line : Int} {x : String} : Decidable (f.LastRepeated line x) :=
  inferInstanceAs (Decidable (_ ∧ _))

variable {line : Int} {x : String}

theorem Repeats.declared (repeats : f.Repeats line x) : x ∈ f.preorder.map Declaration.id :=
  List.count_pos_iff.1 (Nat.zero_lt_of_lt repeats.1)

/-- Whether the entry is that of an id that is repeated on the line. -/
def repeatsAt (line : Int) (entry : String × List Nat) : Bool :=
  1 < entry.2.length ∧ line ∈ entry.2.map Nat.cast

theorem repeatsAt_iff {lines : List Nat} (member : (x, lines) ∈ f.linesById) :
    repeatsAt line (x, lines) = true ↔ f.Repeats line x := by
  rw [(mem_linesById_iff.1 member).2, repeatsAt, decide_eq_true_eq, length_linesOf]
  simp [Repeats, linesOf, and_assoc]

/-- What is reported of entries, one after the other. -/
def reported (entries : List (String × List Nat)) : List (Int × String) :=
  entries.foldl (fun found (entry : String × List Nat) => if entry.2.length > 1 then
    entry.2.foldl (fun found (line : Nat) => Assoc.put found (line : Int) (repetition entry.1)) found
    else found) []

theorem reported_append (entries : List (String × List Nat)) (entry : String × List Nat) :
    reported (entries ++ [entry]) = if entry.2.length > 1 then
      entry.2.foldl (fun found (line : Nat) => Assoc.put found (line : Int) (repetition entry.1)) (reported entries)
      else reported entries :=
  List.foldl_append

/-- The message of a line is that of the last entry that is repeated there. -/
theorem get?_reported {entries : List (String × List Nat)} :
    Assoc.get? (reported entries) line = (entries.reverse.find? (repeatsAt line)).map (repetition ·.1) := by
  induction entries using List.reverseRecOn with
  | nil => rfl
  | append_singleton entries entry ih =>
    rw [reported_append, List.reverse_append, List.reverse_singleton, List.singleton_append, List.find?_cons]
    by_cases more : entry.2.length > 1
    · rw [if_pos more, Assoc.get?_foldl_put, ih]
      by_cases here : line ∈ entry.2.map (Nat.cast : Nat → Int)
      · rw [if_pos here, show repeatsAt line entry = true from decide_eq_true ⟨more, here⟩]
        rfl
      · rw [if_neg here, show repeatsAt line entry = false from decide_eq_false fun both => here both.2]
    · rw [if_neg more, ih, show repeatsAt line entry = false from decide_eq_false fun both => more both.1]

theorem nodup_keys_reported {entries : List (String × List Nat)} : ((reported entries).map Prod.fst).Nodup := by
  induction entries using List.reverseRecOn with
  | nil => exact List.nodup_nil
  | append_singleton entries entry ih =>
    rw [reported_append]
    split
    · exact Assoc.nodup_keys_foldl_put ih
    · exact ih

theorem Repeats.entry (repeats : f.Repeats line x) :
    (x, f.linesOf x) ∈ f.linesById.reverse ∧ repeatsAt line (x, f.linesOf x) = true := by
  have member : (x, f.linesOf x) ∈ f.linesById := mem_linesById_iff.2 ⟨repeats.declared, rfl⟩
  exact ⟨List.mem_reverse.2 member, (repeatsAt_iff member).2 repeats⟩

/-- The last entry that is repeated on the line is that of the id which is first defined after all others there. -/
theorem lastRepeated_of_find? {entry : String × List Nat}
    (found : f.linesById.reverse.find? (repeatsAt line) = some entry) : f.LastRepeated line entry.1 := by
  have member : entry ∈ f.linesById := List.mem_reverse.1 (List.mem_of_find?_eq_some found)
  obtain ⟨hit, before, after, split, none⟩ := List.find?_eq_some_iff_append.1 found
  refine ⟨(repeatsAt_iff member).1 hit, fun d _ repeats => ?_⟩
  obtain ⟨inside, hit'⟩ := repeats.entry
  have ordered := List.pairwise_reverse.2 (List.pairwise_map.1 f.linesById_ordered)
  rw [split] at inside ordered
  rcases List.mem_append.1 inside with early | late
  · have miss := none _ early
    rw [hit'] at miss
    cases miss
  · rcases List.mem_cons.1 late with rfl | later
    · exact Nat.le_refl _
    · exact Nat.le_of_lt ((List.pairwise_cons.1 (List.pairwise_append.1 ordered).2.1).1 _ later)

theorem Repeats.exists_find? (repeats : f.Repeats line x) :
    ∃ entry, f.linesById.reverse.find? (repeatsAt line) = some entry :=
  Option.isSome_iff_exists.1 (List.find?_isSome.2 ⟨_, repeats.entry⟩)

theorem Repeats.exists_last (repeats : f.Repeats line x) : ∃ y, f.LastRepeated line y := by
  obtain ⟨entry, found⟩ := repeats.exists_find?
  exact ⟨entry.1, lastRepeated_of_find? found⟩

/-- There is no more than one. -/
theorem LastRepeated.unique {y : String} (last : f.LastRepeated line x) (last' : f.LastRepeated line y) : x = y := by
  obtain ⟨d, member, rfl⟩ := List.mem_map.1 last.1.declared
  obtain ⟨d', member', rfl⟩ := List.mem_map.1 last'.1.declared
  exact (List.idxOf_inj last.1.declared).1 (Nat.le_antisymm (last'.2 d member last.1) (last.2 d' member' last'.1))

/-- A line with repeated ids has the message of the last of them, and no other line has one. -/
theorem mem_repeatedIds_iff {message : String} :
    (line, message) ∈ f.repeatedIds ↔ ∃ x, message = repetition x ∧ f.LastRepeated line x := by
  change (line, message) ∈ reported f.linesById ↔ _
  rw [← Assoc.get?_eq_some_iff nodup_keys_reported, get?_reported, Option.map_eq_some_iff]
  constructor
  · rintro ⟨entry, found, rfl⟩
    exact ⟨entry.1, rfl, lastRepeated_of_find? found⟩
  · rintro ⟨x, rfl, last⟩
    obtain ⟨entry, found⟩ := last.1.exists_find?
    exact ⟨entry, found, congrArg repetition ((lastRepeated_of_find? found).unique last)⟩

/-- Nothing is reported as repeated where all ids are distinct, and nowhere else. -/
theorem repeatedIds_eq_nil_iff : f.repeatedIds = [] ↔ (f.preorder.map Declaration.id).Nodup := by
  rw [List.nodup_iff_count_le_one]
  refine ⟨fun empty x => Nat.le_of_not_gt fun often => ?_, fun single => List.eq_nil_iff_forall_not_mem.2 ?_⟩
  · obtain ⟨d, member, rfl⟩ := List.mem_map.1 (List.count_pos_iff.1 (Nat.zero_lt_of_lt often))
    obtain ⟨y, last⟩ := Repeats.exists_last (show f.Repeats d.line d.id from ⟨often, d, member, rfl, rfl⟩)
    have report := mem_repeatedIds_iff.2 ⟨y, rfl, last⟩
    rw [empty] at report
    cases report
  · rintro ⟨line, message⟩ member
    obtain ⟨x, _, ⟨often, _⟩, _⟩ := mem_repeatedIds_iff.1 member
    exact Nat.not_lt_of_le (single x) often

end Forest
end LiveDiagram
