import LiveDiagram.Proofs.Outcome

/-! Work that may stop with a fault, and what it leaves either way. What is said of both ends is put together as the work
is, so that a whole is known to return unless one of its parts stops. -/
namespace LiveDiagram

variable {σ β γ : Type} {t t' : σ}

/-- Work stops with this fault, and leaves this state. -/
def Stops (e : Stateful σ β) (t : σ) (fault : Fault) (t' : σ) : Prop :=
  (e.run t : Except Fault β × σ) = (.error fault, t')

/-- Work that returns does so as `returns` says, and work that stops as `stops` says. -/
def Ends (e : Stateful σ β) (t : σ) (returns : β → σ → Prop) (stops : Fault → σ → Prop) : Prop :=
  (∃ b t', Gives e t b t' ∧ returns b t') ∨ ∃ fault t', Stops e t fault t' ∧ stops fault t'

/-- Work stops with a fault when running it has one. -/
theorem exists_stops {e : Stateful σ β} {fault : Fault}
    (ends : (match (e.run t : Except Fault β × σ).1 with | .ok _ => none | .error f => some f) = some fault) :
    Stops e t fault (e.run t : Except Fault β × σ).2 := by
  unfold Stops
  generalize (e.run t : Except Fault β × σ) = ran at ends ⊢
  rcases ran with ⟨_ | _, t'⟩ <;> cases ends
  rfl

theorem stops_throw {fault : Fault} : Stops (throw fault : Stateful σ β) t fault t := rfl

/-- Work stops where its first part does, or where the rest does once that has returned. -/
theorem stops_bind {e : Stateful σ β} {f : β → Stateful σ γ} {fault : Fault} :
    Stops (e >>= f) t fault t' ↔ Stops e t fault t' ∨ ∃ b u, Gives e t b u ∧ Stops (f b) u fault t' := by
  unfold Stops Gives
  rw [run_bind]
  generalize (e.run t : Except Fault β × σ) = ran
  rcases ran with ⟨fault' | b, u⟩
  · constructor
    · intro same
      cases same
      exact .inl rfl
    · rintro (same | ⟨_, _, failed, _⟩)
      · cases same
        rfl
      · cases failed
  · constructor
    · exact fun rest => .inr ⟨b, u, rfl, rest⟩
    · rintro (same | ⟨_, _, same, rest⟩)
      · cases same
      · cases same
        exact rest

namespace Ends
variable {e : Stateful σ β} {f : β → Stateful σ γ} {returns returns' : β → σ → Prop} {after : γ → σ → Prop}
  {stops stops' : Fault → σ → Prop}

theorem of_gives {b : β} (given : Gives e t b t') (holds : returns b t') : Ends e t returns stops :=
  .inl ⟨b, t', given, holds⟩

theorem throw {fault : Fault} (holds : stops fault t) : Ends (throw fault : Stateful σ β) t returns stops :=
  .inr ⟨fault, t, stops_throw, holds⟩

theorem mono (ends : Ends e t returns stops) (weaker : ∀ b u, Gives e t b u → returns b u → returns' b u)
    (weaker' : ∀ fault u, stops fault u → stops' fault u) : Ends e t returns' stops' := by
  rcases ends with ⟨b, u, given, holds⟩ | ⟨fault, u, stopped, holds⟩
  · exact .inl ⟨b, u, given, weaker b u given holds⟩
  · exact .inr ⟨fault, u, stopped, weaker' fault u holds⟩

theorem bind {p : β → σ → Prop} (first : Ends e t p stops)
    (rest : ∀ b u, Gives e t b u → p b u → Ends (f b) u after stops) : Ends (e >>= f) t after stops := by
  rcases first with ⟨b, u, given, holds⟩ | ⟨fault, u, stopped, holds⟩
  · rcases rest b u given holds with ⟨c, v, given', holds'⟩ | ⟨fault, v, stopped, holds'⟩
    · exact .inl ⟨c, v, gives_bind.2 ⟨b, u, given, given'⟩, holds'⟩
    · exact .inr ⟨fault, v, stops_bind.2 (.inr ⟨b, u, given, stopped⟩), holds'⟩
  · exact .inr ⟨fault, u, stops_bind.2 (.inl stopped), holds⟩

/-- Work whose first part returns ends as the rest does. -/
theorem andThen {b : β} (given : Gives e t b t') (rest : Ends (f b) t' after stops) : Ends (e >>= f) t after stops := by
  refine .bind (p := fun c u => c = b ∧ u = t') (.of_gives given ⟨rfl, rfl⟩) fun c u _ same => ?_
  obtain ⟨rfl, rfl⟩ := same
  exact rest

theorem discard {after : σ → Prop} (ends : Ends e t (fun _ u => after u) stops) :
    Ends (Functor.discard e : Stateful σ PUnit) t (fun _ u => after u) stops := by
  have same : (Functor.discard e : Stateful σ PUnit) = e >>= fun _ => pure PUnit.unit := map_eq_pure_bind _ e
  rw [same]
  exact ends.bind fun _ u _ holds => .of_gives (gives_pure.2 ⟨rfl, rfl⟩) holds

/-- Work that returned ended as returning work does. -/
theorem of_ends {b : β} (ends : Ends e t returns stops) (given : Gives e t b t') : returns b t' := by
  rcases ends with ⟨_, _, given', holds⟩ | ⟨_, _, stopped, _⟩
  · obtain ⟨rfl, rfl⟩ := given'.unique given
    exact holds
  · cases given.symm.trans stopped

/-- Work that stopped ended as stopping work does. -/
theorem of_stops {fault : Fault} (ends : Ends e t returns stops) (stopped : Stops e t fault t') : stops fault t' := by
  rcases ends with ⟨_, _, given, _⟩ | ⟨_, _, stopped', holds⟩
  · cases given.symm.trans stopped
  · cases stopped'.symm.trans stopped
    exact holds

/-- What holds at either end holds of the state that is left. -/
theorem left (inv : σ → Prop) (ends : Ends e t (fun _ u => inv u) fun _ u => inv u) :
    inv (e.run t : Except Fault β × σ).2 := by
  rcases ends with ⟨_, _, same, holds⟩ | ⟨_, _, same, holds⟩
  · exact same.symm ▸ holds
  · exact same.symm ▸ holds

/-- A loop ends as its rounds do, each of which leaves what the next one needs. -/
theorem forM {f : β → Stateful σ PUnit} {xs : List β} (inv : σ → Prop) (start : inv t)
    (round : ∀ x ∈ xs, ∀ u, inv u → Ends (f x) u (fun _ u' => inv u') stops) :
    Ends (xs.forM f) t (fun _ t' => inv t') stops := by
  induction xs generalizing t with
  | nil => exact .of_gives (gives_forM_nil.2 rfl : Gives _ t PUnit.unit t) start
  | cons x rest ih =>
    exact .bind (round x List.mem_cons_self t start) fun _ u _ kept =>
      ih kept fun y member => round y (List.mem_cons_of_mem x member)

end Ends
end LiveDiagram
