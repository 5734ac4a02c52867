import ZkOs.Lib.Action

/-!
# Postconditions of actions

* `Meets m s P Q` : from the state `s`, the action `m` ends in `Q` with its value when it succeeds, and in `P` with its
  error when it fails;
* one rule for each way of composing actions (`Meets.bind`, `meets_get_bind`, `Meets.require_bind`, ...), and
  `Meets.mono`.
-/

namespace ZkOs

namespace Action

variable {ε σ α β : Type} {m : Action ε σ α} {f : α → Action ε σ β} {s : σ} {P P' : ε → σ → Prop} {Q Q' : α → σ → Prop}
  {R : β → σ → Prop}

/-- From `s`, `m` ends in `Q` when it succeeds and in `P` when it fails. -/
def Meets (m : Action ε σ α) (s : σ) (P : ε → σ → Prop) (Q : α → σ → Prop) : Prop :=
  match m s with
  | (.ok a, s') => Q a s'
  | (.error e, s') => P e s'

namespace Meets

theorem mono (h : Meets m s P Q) (hP : ∀ e s', P e s' → P' e s') (hQ : ∀ a s', Q a s' → Q' a s') :
    Meets m s P' Q' := by
  rw [Meets] at h ⊢
  rcases hms : m s with ⟨e | a, s'⟩ <;> rw [hms] at h
  · exact hP e s' h
  · exact hQ a s' h

theorem bind (hm : Meets m s P Q) (hf : ∀ a s', Q a s' → Meets (f a) s' P R) : Meets (m >>= f) s P R := by
  rw [Meets] at hm
  rw [Meets, bind_apply]
  rcases hms : m s with ⟨e | a, s'⟩ <;> rw [hms] at hm
  · exact hm
  · exact hf a s' hm

theorem require_bind {c : Prop} [Decidable c] {e : ε} {f : Unit → Action ε σ β} (hP : ¬ c → P e s)
    (hf : c → Meets (f ()) s P R) : Meets (require c e >>= f) s P R := by
  by_cases hc : c
  · rw [require, if_pos hc]
    exact hf hc
  · rw [require, if_neg hc]
    exact hP hc

theorem ofOption_bind {e : ε} {o : Option α} (hP : o = none → P e s) (hf : ∀ a, o = some a → Meets (f a) s P R) :
    Meets (ofOption e o >>= f) s P R := by
  cases o with
  | none => exact hP rfl
  | some a => exact hf a rfl

theorem after_ok {a : α} {s' : σ} (hm : m s = (.ok a, s')) (hf : Meets (f a) s' P R) : Meets (m >>= f) s P R := by
  rw [Meets, bind_of_ok hm]
  exact hf

theorem of_ok (h : Meets m s P Q) {a : α} {s' : σ} (hrun : m s = (.ok a, s')) : Q a s' := by
  rw [Meets, hrun] at h
  exact h

theorem of_error (h : Meets m s P Q) {e : ε} {s' : σ} (hrun : m s = (.error e, s')) : P e s' := by
  rw [Meets, hrun] at h
  exact h

end Meets

theorem meets_get_bind {f : σ → Action ε σ β} : Meets (Action.get >>= f) s P R ↔ Meets (f s) s P R := Iff.rfl

theorem meets_modify_bind {g : σ → σ} {f : Unit → Action ε σ β} :
    Meets (Action.modify g >>= f) s P R ↔ Meets (f ()) (g s) P R := Iff.rfl

end Action

end ZkOs
