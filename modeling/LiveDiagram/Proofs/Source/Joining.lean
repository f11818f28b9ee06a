import LiveDiagram.Proofs.Source.Reading

/-! Adding forests to what a reader has read, in several goes or in one. -/
namespace LiveDiagram

namespace Forest

theorem append_nil (f : Forest) : f ++ nil = f := by
  induction f with
  | nil => rfl
  | cons first children rest _ ih => exact congrArg (cons first children) ih

theorem append_assoc (f g h : Forest) : f ++ g ++ h = f ++ (g ++ h) := by
  induction f with
  | nil => rfl
  | cons first children rest _ ih => exact congrArg (cons first children) ih

end Forest

namespace Reader

theorem join_nil (r : Reader) : r.join .nil = r := by
  obtain ⟨cursor, context, opened, finished⟩ := r
  cases opened with
  | nil => simp only [join, Forest.append_nil]
  | cons e outer => simp only [join, Forest.append_nil]

theorem join_join (r : Reader) (f g : Forest) : (r.join f).join g = r.join (f ++ g) := by
  obtain ⟨cursor, context, opened, finished⟩ := r
  cases opened with
  | nil => simp only [join, Forest.append_assoc]
  | cons e outer => simp only [join, Forest.append_assoc]

variable {r : Reader} {tokens : List Token} {context context' : Context} {change change' : Body → Body} {f : Forest}

@[simp] theorem within_before : (r.before tokens).within context = (r.within context).before tokens := rfl

@[simp] theorem mapBody_within : (r.within context).mapBody change = (r.mapBody change).within context := by
  obtain ⟨_, _, opened, _⟩ := r
  cases opened <;> rfl

@[simp] theorem mapBody_before : (r.before tokens).mapBody change = (r.mapBody change).before tokens := by
  obtain ⟨_, _, opened, _⟩ := r
  cases opened <;> rfl

@[simp] theorem join_within : (r.within context).join f = (r.join f).within context := by
  obtain ⟨_, _, opened, _⟩ := r
  cases opened <;> rfl

@[simp] theorem join_before : (r.before tokens).join f = (r.join f).before tokens := by
  obtain ⟨_, _, opened, _⟩ := r
  cases opened <;> rfl

@[simp] theorem mapBody_mapBody : (r.mapBody change).mapBody change' = r.mapBody (change' ∘ change) := by
  obtain ⟨_, _, opened, _⟩ := r
  cases opened <;> rfl

/-- An element without a brace behind its header is finished. -/
theorem place_bare {e : OpenElement} {c : Cursor} (bare : ∀ t ∈ c.rest.head?, t.kind ≠ .leftBrace) :
    r.place e c = { r with cursor := c }.add e.declaration .nil := by
  unfold place
  split
  · next t rest next => exact if_neg (bare t (by rw [next]; rfl))
  · rfl

/-- What leaves the children alone may come before or after them. -/
theorem mapBody_join (apart : ∀ b children, change { b with children } = { change b with children }) :
    (r.join f).mapBody change = (r.mapBody change).join f := by
  obtain ⟨cursor, context, opened, finished⟩ := r
  cases opened with
  | nil => rfl
  | cons e outer =>
    have same : (change e.body).children = e.body.children := by
      conv_lhs => rw [show e.body = { e.body with children := e.body.children } from rfl, apart]
    unfold mapBody join
    dsimp only
    rw [apart, same]

theorem mapBody_id (r : Reader) : r.mapBody id = r := by
  obtain ⟨_, _, _ | ⟨_, _⟩, _⟩ := r <;> rfl

/-- An entry changes what the innermost open body says, but not its children, or it changes nothing. -/
theorem exists_of_entry {next : Reader} {t : Token} {rest : List Token} {c : Cursor} (entered : r.entry t rest c = .ok next) :
    ∃ (cursor : Cursor) (context : Context) (change : Body → Body), (∀ b, (change b).children = b.children) ∧
      next = mapBody { r with cursor, context } change := by
  have given (cursor : Cursor) : ∃ (cursor' : Cursor) (context : Context) (change : Body → Body),
      (∀ b, (change b).children = b.children) ∧
        ({ r with cursor } : Reader) = mapBody { r with cursor := cursor', context } change :=
    ⟨cursor, r.context, id, fun _ => rfl, (mapBody_id _).symm⟩
  unfold Reader.entry at entered
  split at entered
  · unfold propsEntry at entered
    split at entered
    · cases entered
      exact given _
    · dsimp only at entered
      split at entered
      · cases entered
      · cases entered
        refine ⟨_, _, _, ?_, rfl⟩
        exact fun _ => rfl
  split at entered
  · cases entered
    unfold metadataEntry
    split
    · exact given _
    · refine ⟨_, _, _, ?_, rfl⟩
      exact fun _ => rfl
  split at entered
  · cases entered
    unfold stylesheetEntry
    split
    · exact given _
    · refine ⟨_, r.context, _, ?_, rfl⟩
      exact fun _ => rfl
  · cases entered
    exact given _

end Reader
end LiveDiagram
