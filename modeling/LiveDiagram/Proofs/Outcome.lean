import LiveDiagram.Fault

/-! What it takes for work to end without a fault, and what it leaves then. One lemma for each way of putting work together
turns work that ended into facts about its parts, and about the states before and after it where it is work on a state. -/
namespace LiveDiagram

/-- Work that ended has a result on the way. -/
theorem bind_eq_ok {β γ : Type} {e : Except Fault β} {f : β → Except Fault γ} {c : γ} :
    (e >>= f) = .ok c ↔ ∃ b, e = .ok b ∧ f b = .ok c := by
  cases e with
  | error fault => exact ⟨fun ended => (nomatch ended), fun ⟨_, ended, _⟩ => (nomatch ended)⟩
  | ok b => exact ⟨fun ended => ⟨b, rfl, ended⟩, fun ⟨_, same, ended⟩ => Except.ok.inj same ▸ ended⟩

/-- Work that goes on from a result ends without a fault where both parts do. -/
theorem exists_bind_iff {β γ : Type} {e : Except Fault β} {f : β → Except Fault γ} {goesOn : Prop}
    (rest : ∀ b, e = .ok b → ((∃ c, f b = .ok c) ↔ goesOn)) :
    (∃ c, (e >>= f) = .ok c) ↔ (∃ b, e = .ok b) ∧ goesOn := by
  cases e with
  | error fault => exact ⟨fun ⟨_, ended⟩ => (nomatch ended), fun ⟨⟨_, ended⟩, _⟩ => (nomatch ended)⟩
  | ok b => exact (rest b rfl).trans ⟨fun ended => ⟨⟨b, rfl⟩, ended⟩, And.right⟩

/-- Work on a state that may stop with a fault. -/
abbrev Stateful (σ β : Type) := ExceptT Fault (StateM σ) β

variable {σ β γ : Type} {t t' : σ}

/-- Work ends without a fault, with this result and this state. -/
def Gives (e : Stateful σ β) (t : σ) (b : β) (t' : σ) : Prop :=
  (e.run t : Except Fault β × σ) = (.ok b, t')

/-- Work ends in one way only. -/
theorem Gives.unique {e : Stateful σ β} {b b' : β} (given : Gives e t b t') {u : σ} (given' : Gives e t b' u) :
    b = b' ∧ t' = u := by
  cases given.symm.trans given'
  exact ⟨rfl, rfl⟩

/-- Work ends without a fault when running it has a result. -/
theorem exists_gives {e : Stateful σ β} (p : β → Bool)
    (ends : (e.run t : Except Fault β × σ).1.toOption.any p = true) :
    ∃ b, Gives e t b (e.run t : Except Fault β × σ).2 ∧ p b = true := by
  cases ran : (e.run t : Except Fault β × σ) with
  | mk result t' =>
    rw [ran] at ends
    cases result with
    | error fault => cases ends
    | ok b => exact ⟨b, ran, ends⟩

@[simp] theorem gives_pure {a b : β} : Gives (pure a : Stateful σ β) t b t' ↔ b = a ∧ t = t' := by
  change ((.ok a, t) : Except Fault β × σ) = (.ok b, t') ↔ _
  simp only [Prod.mk.injEq, Except.ok.injEq, eq_comm (a := a)]

@[simp] theorem gives_throw {fault : Fault} {b : β} : Gives (throw fault : Stateful σ β) t b t' ↔ False := by
  change ((.error fault, t) : Except Fault β × σ) = (.ok b, t') ↔ _
  simp only [Prod.mk.injEq, reduceCtorEq, false_and]

theorem run_bind (e : Stateful σ β) (f : β → Stateful σ γ) :
    ((e >>= f).run t : Except Fault γ × σ) =
      match (e.run t : Except Fault β × σ) with
      | (.ok b, u) => (f b).run u
      | (.error fault, u) => (.error fault, u) := by
  change ExceptT.bindCont f (e t).1 (e t).2 = (match e t with
    | (.ok b, u) => (f b).run u
    | (.error fault, u) => (.error fault, u) : Except Fault γ × σ)
  cases e t with
  | mk result u => cases result <;> rfl

@[simp] theorem gives_bind {e : Stateful σ β} {f : β → Stateful σ γ} {c : γ} :
    Gives (e >>= f) t c t' ↔ ∃ b u, Gives e t b u ∧ Gives (f b) u c t' := by
  unfold Gives
  rw [run_bind]
  generalize (e.run t : Except Fault β × σ) = ran
  rcases ran with ⟨fault | b, u⟩
  · constructor
    · intro failed
      cases failed
    · rintro ⟨b, u, failed, _⟩
      cases failed
  · constructor
    · intro rest
      exact ⟨b, u, rfl, rest⟩
    · rintro ⟨_, _, same, rest⟩
      cases same
      exact rest

@[simp] theorem gives_get {s : σ} : Gives (get : Stateful σ σ) t s t' ↔ s = t ∧ t = t' := by
  change ((.ok t, t) : Except Fault σ × σ) = (.ok s, t') ↔ _
  simp only [Prod.mk.injEq, Except.ok.injEq, eq_comm]

@[simp] theorem gives_modify {f : σ → σ} {b : PUnit} :
    Gives (modify f : Stateful σ PUnit) t b t' ↔ t' = f t := by
  change ((.ok ⟨⟩, f t) : Except Fault PUnit × σ) = (.ok b, t') ↔ _
  simp only [Prod.mk.injEq, true_and, eq_comm]

@[simp] theorem gives_set {s : σ} {b : PUnit} : Gives (set s : Stateful σ PUnit) t b t' ↔ t' = s := by
  change ((.ok ⟨⟩, s) : Except Fault PUnit × σ) = (.ok b, t') ↔ _
  simp only [Prod.mk.injEq, true_and, eq_comm]

@[simp] theorem gives_map {f : β → γ} {e : Stateful σ β} {c : γ} :
    Gives (f <$> e) t c t' ↔ ∃ b, Gives e t b t' ∧ c = f b := by
  change Gives (e >>= fun b => pure (f b)) t c t' ↔ _
  rw [gives_bind]
  simp only [gives_pure]
  grind

@[simp] theorem gives_discard {e : Stateful σ β} {b : PUnit} :
    Gives (discard e : Stateful σ PUnit) t b t' ↔ ∃ c, Gives e t c t' := by
  change Gives (Function.const β PUnit.unit <$> e) t b t' ↔ _
  simp only [gives_map, and_true]

/-- A guard that throws lets work go on only where it does not hold. -/
@[simp] theorem gives_guard {c : Prop} [Decidable c] {fault : Fault} {b : PUnit} :
    Gives (if c then throw fault else pure PUnit.unit : Stateful σ PUnit) t b t' ↔ ¬c ∧ t = t' := by
  split
  · next holds => simp [holds]
  · next fails => simp [fails]

/-- A step that is taken on a condition, and what comes after it either way. -/
theorem gives_when {c : Prop} [Decidable c] {e : Stateful σ PUnit} {f : Stateful σ β} {a : β} :
    Gives (if c then do { e; f } else f) t a t' ↔
      ∃ u, Gives (if c then e else pure PUnit.unit) t PUnit.unit u ∧ Gives f u a t' := by
  by_cases holds : c
  · simp only [holds, if_true, gives_bind]
    constructor
    · rintro ⟨_, u, both⟩
      exact ⟨u, both⟩
    · rintro ⟨u, both⟩
      exact ⟨_, u, both⟩
  · simp only [holds, if_false, gives_pure, true_and, exists_eq_left']

/-! Loops -/

@[simp] theorem gives_forM_nil {f : β → Stateful σ PUnit} {b : PUnit} : Gives ([].forM f) t b t' ↔ t = t' := by
  change Gives (pure PUnit.unit) t b t' ↔ _
  simp

@[simp] theorem gives_forM_cons {f : β → Stateful σ PUnit} {x : β} {rest : List β} {b : PUnit} :
    Gives ((x :: rest).forM f) t b t' ↔ ∃ u, Gives (f x) t PUnit.unit u ∧ Gives (rest.forM f) u PUnit.unit t' := by
  change Gives (f x >>= fun _ => rest.forM f) t b t' ↔ _
  rw [gives_bind]
  constructor
  · rintro ⟨_, u, both⟩
    exact ⟨u, both⟩
  · rintro ⟨u, both⟩
    exact ⟨_, u, both⟩

/-- A loop ends when each of its rounds ends and leaves what the next one needs. -/
theorem exists_gives_forM {f : β → Stateful σ PUnit} {xs : List β} (inv : σ → Prop) (start : inv t)
    (round : ∀ x ∈ xs, ∀ u, inv u → ∃ u', Gives (f x) u PUnit.unit u' ∧ inv u') :
    ∃ t', Gives (xs.forM f) t PUnit.unit t' ∧ inv t' := by
  induction xs generalizing t with
  | nil => exact ⟨t, gives_forM_nil.2 rfl, start⟩
  | cons x rest ih =>
    obtain ⟨u, first, kept⟩ := round x List.mem_cons_self t start
    obtain ⟨t', others, last⟩ := ih kept fun y member => round y (List.mem_cons_of_mem x member)
    exact ⟨t', gives_forM_cons.2 ⟨u, first, others⟩, last⟩

/-- The same work several times. -/
def times (e : Stateful σ β) : Nat → Stateful σ Unit
  | 0 => pure ()
  | n + 1 => do
    discard e
    times e n

/-- A loop changes nothing when none of its rounds does. -/
theorem gives_forM_still {f : β → Stateful σ PUnit} {xs : List β}
    (round : ∀ x ∈ xs, Gives (f x) t PUnit.unit t) : Gives (xs.forM f) t PUnit.unit t := by
  obtain ⟨_, given, rfl⟩ :=
    exists_gives_forM (· = t) rfl fun x member u same => ⟨u, same ▸ round x member, same⟩
  exact given

/-- Repeated work ends when each time it ends and leaves what the next time needs. -/
theorem exists_gives_times {e : Stateful σ β} (inv : Nat → σ → Prop)
    (once : ∀ k u, inv k u → ∃ b u', Gives e u b u' ∧ inv (k + 1) u') (n k : Nat) (start : inv k t) :
    ∃ t', Gives (times e n) t () t' ∧ inv (k + n) t' := by
  induction n generalizing t k with
  | zero => exact ⟨t, gives_pure.2 ⟨rfl, rfl⟩, start⟩
  | succ n ih =>
    obtain ⟨b, u, first, kept⟩ := once k t start
    obtain ⟨t', others, last⟩ := ih (k + 1) kept
    have count : k + 1 + n = k + (n + 1) := by omega
    exact ⟨t', gives_bind.2 ⟨(), u, gives_discard.2 ⟨b, first⟩, others⟩, count ▸ last⟩

/-- A loop that ends keeps what each of its rounds keeps. -/
theorem Gives.forM {f : β → Stateful σ PUnit} {xs : List β} {b : PUnit} (given : Gives (xs.forM f) t b t')
    (inv : σ → Prop) (start : inv t)
    (round : ∀ x ∈ xs, ∀ u u', inv u → Gives (f x) u PUnit.unit u' → inv u') : inv t' := by
  induction xs generalizing t with
  | nil => exact (gives_forM_nil.1 given) ▸ start
  | cons x rest ih =>
    obtain ⟨u, first, others⟩ := gives_forM_cons.1 given
    exact ih others (round x List.mem_cons_self t u start first)
      fun y member => round y (List.mem_cons_of_mem x member)

end LiveDiagram
