import Mathlib.Logic.Function.Basic

/-!
# Actions on a state that keep the state they reached when they fail

* `Action ε σ α` : a function on states that returns a value or an error, and in both cases the
  state it reached (nothing is undone by an error);
* `Respects R m` : `m` moves every state along `R`, on success and on failure;
* `Raises P m` : every error of `m` satisfies `P`.
-/

namespace ZkOs

/-- A computation on a state `σ` that may fail with `ε`. -/
def Action (ε σ α : Type) := σ → Except ε α × σ

namespace Action

variable {ε σ α β : Type}

protected def bind (m : Action ε σ α) (f : α → Action ε σ β) : Action ε σ β := fun s =>
  match m s with
  | (.ok a, s') => f a s'
  | (.error e, s') => (.error e, s')

instance : Monad (Action ε σ) where
  pure a := fun s => (.ok a, s)
  bind := Action.bind

def throw (e : ε) : Action ε σ α := fun s => (.error e, s)

def get : Action ε σ σ := fun s => (.ok s, s)

def modify (f : σ → σ) : Action ε σ Unit := fun s => (.ok (), f s)

def require (c : Prop) [Decidable c] (e : ε) : Action ε σ Unit := if c then pure () else throw e

def ofOption (e : ε) : Option α → Action ε σ α
  | some a => pure a
  | none => throw e

@[simp] theorem pure_apply (a : α) (s : σ) : (pure a : Action ε σ α) s = (.ok a, s) := rfl
@[simp] theorem throw_apply (e : ε) (s : σ) : (throw e : Action ε σ α) s = (.error e, s) := rfl
@[simp] theorem get_apply (s : σ) : (get : Action ε σ σ) s = (.ok s, s) := rfl
@[simp] theorem modify_apply (f : σ → σ) (s : σ) : (modify f : Action ε σ Unit) s = (.ok (), f s) := rfl

theorem bind_apply (m : Action ε σ α) (f : α → Action ε σ β) (s : σ) :
    (m >>= f) s = match m s with
      | (.ok a, s') => f a s'
      | (.error e, s') => (.error e, s') := rfl

variable {m : Action ε σ α} {f : α → Action ε σ β} {s s' s'' : σ} {e : ε}

theorem bind_of_ok {a : α} (h : m s = (.ok a, s')) :
    (m >>= f) s = f a s' := by
  rw [bind_apply, h]

theorem bind_of_error (h : m s = (.error e, s')) : (m >>= f) s = (.error e, s') := by
  rw [bind_apply, h]

theorem bind_ok {b : β} :
    (m >>= f) s = (.ok b, s'') ↔ ∃ a s', m s = (.ok a, s') ∧ f a s' = (.ok b, s'') := by
  rw [bind_apply]
  rcases h : m s with ⟨_ | a, s'⟩
  · simp
  · constructor
    · intro hf
      exact ⟨a, s', rfl, hf⟩
    · rintro ⟨a', s₁, ha, hf⟩
      cases ha
      exact hf

theorem bind_error (h : (m >>= f) s = (.error e, s'')) :
    m s = (.error e, s'') ∨ ∃ a s', m s = (.ok a, s') ∧ f a s' = (.error e, s'') := by
  rw [bind_apply] at h
  rcases hm : m s with ⟨e' | a, s'⟩ <;> rw [hm] at h
  · cases h
    exact .inl rfl
  · exact .inr ⟨a, s', rfl, h⟩

theorem exists_ok_of_any {x : Except ε α × σ} {f : α → σ → Bool} (h : x.1.toOption.any (f · x.2) = true) :
    ∃ a s, x = (.ok a, s) ∧ f a s = true := by
  rcases x with ⟨_ | a, s⟩
  · cases h
  · exact ⟨a, s, rfl, h⟩

/-! ## States and errors of a run -/

/-- `m` moves along `R`, whether it succeeds or fails. -/
def Respects (R : σ → σ → Prop) (m : Action ε σ α) : Prop := ∀ s, R s (m s).2

/-- All errors of `m` are among those of `P`. -/
def Raises (P : ε → Prop) (m : Action ε σ α) : Prop := ∀ s e, (m s).1 = .error e → P e

theorem Respects.bind {R : σ → σ → Prop} (htrans : ∀ a b c, R a b → R b c → R a c) (hm : Respects R m)
    (hf : ∀ a, Respects R (f a)) : Respects R (m >>= f) := by
  intro s
  have hs := hm s
  rw [bind_apply]
  rcases h : m s with ⟨_ | a, s'⟩ <;> rw [h] at hs
  · exact hs
  · exact htrans _ _ _ hs (hf a s')

theorem Raises.bind {P : ε → Prop} (hm : Raises P m) (hf : ∀ a, Raises P (f a)) : Raises P (m >>= f) := by
  intro s e h
  rw [bind_apply] at h
  have hs := hm s
  rcases hms : m s with ⟨e' | a, s'⟩ <;> rw [hms] at h hs
  · cases h
    exact hs e rfl
  · exact hf a s' e h

end Action

end ZkOs
