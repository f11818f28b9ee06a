import LiveDiagram.Proofs.Document.Restated

/-! Props and metadata whose line is read as exactly what they are. Of what can be read, these are the ones that have no
blank in front of paths and texts, and no number that its text does not stand for. -/
namespace LiveDiagram

open Codec

namespace Scalar

/-- Scalars that come back from what is written for them: binary numbers that their text is read as, and texts without
a blank in front. -/
def Exact : Scalar → Prop
  | .float x => scalarOf x.text.toList = .ok (.float x)
  | .text s => ∀ c ∈ s.toList.head?, Text.isBlank c = false
  | _ => True

instance (s : Scalar) : Decidable s.Exact :=
  match s with
  | .float x => inferInstanceAs (Decidable (scalarOf x.text.toList = .ok (.float x)))
  | .text s => inferInstanceAs (Decidable (∀ c ∈ s.toList.head?, Text.isBlank c = false))
  | .null | .bool _ | .int _ => .isTrue trivial

theorem Exact.denotes {s : Scalar} {value : List Char} (exact : s.Exact) (heard : s.Heard)
    (wrote : written true s = .ok value) : Denotes value s := by
  cases s with
  | null => exact heard.elim
  | bool b =>
    cases wrote
    exact denotes_bool b
  | int n =>
    cases wrote
    exact denotes_int heard
  | float x =>
    cases wrote
    exact denotes_inked x.inked_text.1 exact
  | text s => exact denotes_written ⟨exact, heard⟩ wrote

end Scalar

namespace Props
variable {p : Props} {echo : Option Props}

/-- Dictionaries with exact scalars. -/
def Exact : Props → Prop
  | nil => True
  | leaf _ value rest => value.Exact ∧ rest.Exact
  | node _ sub rest => sub.Exact ∧ rest.Exact

instance decidableExact : (p : Props) → Decidable p.Exact
  | nil => .isTrue trivial
  | leaf _ value rest => @instDecidableAnd value.Exact rest.Exact inferInstance (decidableExact rest)
  | node _ sub rest => @instDecidableAnd sub.Exact rest.Exact (decidableExact sub) (decidableExact rest)

/-- Dictionaries without a blank in front of their keys. Keys further in may have one, as they follow a dot. -/
def Flush (p : Props) : Prop :=
  ∀ key ∈ p.keys, ∀ c ∈ key.toList.head?, Text.isBlank c = false

instance (p : Props) : Decidable p.Flush :=
  inferInstanceAs (Decidable (∀ key ∈ p.keys, ∀ c ∈ key.toList.head?, Text.isBlank c = false))

theorem Heard.told {front : List Char} {parts : List (List Char)} (heard : p.Heard) (exact : p.Exact)
    (solid : ∀ key ∈ p.keys, ∀ c ∈ (front ++ key.toList).head?, Text.isBlank c = false)
    (wrote : p.assignments (escape front) = .ok parts) : p.Told front := by
  induction p generalizing front parts with
  | nil => trivial
  | leaf key s rest ih =>
    obtain ⟨⟨segment, ended, scalar⟩, others⟩ := heard
    have present : s ≠ .null := by
      rintro rfl
      exact scalar
    obtain ⟨value, later, wrote, wrote', _⟩ := exists_of_leaf present wrote
    have trimmed : Text.Trimmed (front ++ key.toList) := by
      refine ⟨solid key List.mem_cons_self, fun c last => ended c ?_⟩
      rwa [List.getLast?_append_of_ne_nil _ segment.toList_ne_nil] at last
    exact ⟨segment, Text.trim_eq_iff.2 trimmed, ⟨value, wrote, exact.1.denotes scalar wrote⟩,
      ih others exact.2 (fun k member => solid k (List.mem_cons_of_mem key member)) wrote'⟩
  | node key sub rest below ih =>
    obtain ⟨⟨segment, nonempty, inner⟩, others⟩ := heard
    obtain ⟨first, later, wrote, wrote', _⟩ := exists_of_node wrote
    refine ⟨segment, nonempty, below inner exact.1 (fun k _ c head => ?_) wrote,
      ih others exact.2 (fun k member => solid k (List.mem_cons_of_mem key member)) wrote'⟩
    refine solid key List.mem_cons_self c ?_
    rwa [List.append_assoc, List.head?_append_of_ne_nil] at head
    exact List.append_ne_nil_of_right_ne_nil _ segment.toList_ne_nil

/-- Exact props come back from their line, if it can be read. -/
theorem echo_eq (heard : p.Heard) (tidy : p.Tidy) (flush : p.Flush) (exact : p.Exact) (echoes : p.echo? = .ok echo) :
    echo = p.filled? := by
  obtain ⟨line, wrote, cases⟩ := echo?_cases echoes
  obtain ⟨parts, assigned, _⟩ := exists_of_write wrote
  obtain ⟨line', wrote', absent, there⟩ := read_write tidy (heard.told exact flush assigned)
  cases wrote.symm.trans wrote'
  unfold filled?
  split
  · next empty =>
    rcases cases with ⟨_, rfl⟩ | ⟨text, q, rfl, _, _⟩
    · rfl
    · cases absent empty
  · next nonempty =>
    obtain ⟨text, rfl, read⟩ := there nonempty
    rcases cases with ⟨none, _⟩ | ⟨text', q, same, rfl, read'⟩
    · cases none
    · cases same
      cases read.symm.trans read'
      rfl

theorem Worded.flat (worded : p.Worded) (flush : p.Flush) (exact : p.Exact) : p.Flat := by
  induction p with
  | nil => trivial
  | leaf key value rest ih =>
    obtain ⟨⟨nonempty, ended⟩, ⟨s, rfl, ended'⟩, others⟩ := worded
    exact ⟨⟨nonempty, Text.trim_eq_iff.2 ⟨flush key List.mem_cons_self, ended⟩⟩,
      ⟨s, rfl, Text.trim_eq_iff.2 ⟨exact.1, ended'⟩⟩,
      ih others (fun k member => flush k (List.mem_cons_of_mem key member)) exact.2⟩
  | node => exact worded.elim

/-- Exact metadata come back from their line. -/
theorem echoMetadata_eq (excluded : List String) (worded : p.Worded) (tidy : p.Tidy) (flush : p.Flush) (exact : p.Exact) :
    p.echoMetadata excluded = (p.without excluded).filled? := by
  obtain ⟨absent, there⟩ := readMetadata_write excluded tidy (worded.flat flush exact)
  unfold echoMetadata filled?
  split
  · next empty => rw [absent empty, Option.map_none]
  · next nonempty =>
    obtain ⟨text, written, read⟩ := there nonempty
    rw [written, Option.map_some, read]

end Props
end LiveDiagram
