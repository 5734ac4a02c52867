import Mathlib.Data.List.Basic
import Mathlib.Data.Option.Basic

/-!
# Programs that query an untrusted oracle

A program asks an oracle questions and goes on with whatever it answers; a failed assertion stops
it.  Two readings of a program are related here:

* `run o p s` : execution against a stateful oracle `o`, with the transcript of the answers given;
* `Runs p t a` : `p` can return `a` when the answers are those of the transcript `t`, whoever gave
  them.  Soundness against every oracle is a statement about `Runs`; `runs_of_run` brings it back
  to a concrete oracle, and `runs_bind` takes a program apart.
-/

namespace ZkOs

@[simp] theorem guard_eq_some {c : Prop} [Decidable c] {u : Unit} :
    (guard c : Option Unit) = some u ↔ c := by
  by_cases h : c <;> simp [guard, h, failure]

theorem guard_bind_eq_some {α : Type} {c : Prop} [Decidable c] {x : Option α} {a : α} :
    ((guard c : Option Unit) >>= fun _ => x) = some a ↔ c ∧ x = some a := by
  simp [Option.bind_eq_some_iff]

/-- A program that may stop on a failed assertion and may ask a query `q`, answered in `A q`. -/
inductive OracleM (Q : Type) (A : Q → Type) (α : Type) where
  | ret (a : α)
  | stop
  | ask (q : Q) (k : A q → OracleM Q A α)

abbrev Exchange (Q : Type) (A : Q → Type) := (q : Q) × A q

/-- A stateful oracle; it may also fail to answer. -/
abbrev Oracle (Q : Type) (A : Q → Type) (σ : Type) := σ → (q : Q) → Option (A q × σ)

namespace OracleM

variable {Q : Type} {A : Q → Type} {α β σ : Type}

protected def bind : OracleM Q A α → (α → OracleM Q A β) → OracleM Q A β
  | ret a, f => f a
  | stop, _ => stop
  | ask q k, f => ask q fun r => (k r).bind f

instance : Monad (OracleM Q A) where
  pure := ret
  bind := OracleM.bind

def query (q : Q) : OracleM Q A (A q) := ask q ret

def require (c : Prop) [Decidable c] : OracleM Q A Unit := if c then ret () else stop

/-- A computation that asks nothing; `none` is a failed assertion. -/
def ofOption : Option α → OracleM Q A α
  | some a => ret a
  | none => stop

/-! ## Execution against an oracle -/

/-- Run against the oracle `o` from state `s`, collecting the transcript. -/
def run (o : Oracle Q A σ) : OracleM Q A α → σ → Option (α × List (Exchange Q A) × σ)
  | ret a, s => some (a, [], s)
  | stop, _ => none
  | ask q k, s =>
    match o s q with
    | none => none
    | some (r, s') => (run o (k r) s').map fun x => (x.1, ⟨q, r⟩ :: x.2.1, x.2.2)

/-! ## Execution by transcript -/

/-- `p` returns `b` on the answers of the transcript `t`. -/
def Runs : OracleM Q A α → List (Exchange Q A) → α → Prop
  | ret a, t, b => t = [] ∧ a = b
  | stop, _, _ => False
  | ask q k, t, b => ∃ r t', t = ⟨q, r⟩ :: t' ∧ (k r).Runs t' b

variable {p : OracleM Q A α} {a : α} {t : List (Exchange Q A)} {f : α → OracleM Q A β} {b : β}

theorem runs_of_run {o : Oracle Q A σ} {s s' : σ} (h : run o p s = some (a, t, s')) : p.Runs t a := by
  induction p generalizing s t with
  | ret b =>
    simp only [run, Option.some.injEq, Prod.mk.injEq] at h
    exact ⟨h.2.1.symm, h.1⟩
  | stop => simp [run] at h
  | ask q k ih =>
    simp only [run] at h
    split at h
    · cases h
    · rename_i r s₁ _
      rw [Option.map_eq_some_iff] at h
      obtain ⟨⟨b, t', s₂⟩, hk, he⟩ := h
      simp only [Prod.mk.injEq] at he
      obtain ⟨rfl, rfl, rfl⟩ := he
      exact ⟨r, t', rfl, ih r hk⟩

/-- Oracles that answer alike in related states. -/
theorem run_eq_of_rel {τ γ : Type} {o : Oracle Q A σ} {o' : Oracle Q A τ} {R : σ → τ → Prop} {f : σ → γ} {g : τ → γ}
    (hstep : ∀ s t q, R s t → Option.Rel (fun x y => x.1 = y.1 ∧ R x.2 y.2) (o s q) (o' t q))
    (hfg : ∀ s t, R s t → f s = g t) {s : σ} {t : τ} (h : R s t) :
    (run o p s).map (fun x => (x.1, x.2.1, f x.2.2)) = (run o' p t).map fun x => (x.1, x.2.1, g x.2.2) := by
  induction p generalizing s t with
  | ret a => exact congrArg (fun c => some (a, [], c)) (hfg s t h)
  | stop => rfl
  | ask q k ih =>
    have hq := hstep s t q h
    simp only [run]
    rcases hx : o s q with _ | ⟨r, s'⟩ <;> rcases hy : o' t q with _ | ⟨r', t'⟩ <;> rw [hx, hy] at hq
    · rfl
    · cases hq
    · cases hq
    · obtain ⟨rfl, hr⟩ := hq
      simpa [Function.comp_def] using congrArg (Option.map fun y => (y.1, Sigma.mk q r :: y.2.1, y.2.2)) (ih r hr)

@[simp] theorem runs_pure {b : α} :
    (pure a : OracleM Q A α).Runs t b ↔ t = [] ∧ a = b := Iff.rfl

@[simp] theorem runs_stop {b : α} :
    (stop : OracleM Q A α).Runs t b ↔ False := Iff.rfl

theorem runs_bind :
    (p >>= f).Runs t b ↔ ∃ a t₁ t₂, t = t₁ ++ t₂ ∧ p.Runs t₁ a ∧ (f a).Runs t₂ b := by
  change (p.bind f).Runs t b ↔ _
  induction p generalizing t with
  | ret a => simp [OracleM.bind, Runs]
  | stop => simp [OracleM.bind, Runs]
  | ask q k ih =>
    simp only [OracleM.bind, Runs, ih]
    constructor
    · rintro ⟨r, t', rfl, a, t₁, t₂, rfl, hk, hf⟩
      exact ⟨a, ⟨q, r⟩ :: t₁, t₂, rfl, ⟨r, t₁, rfl, hk⟩, hf⟩
    · rintro ⟨a, t₁, t₂, rfl, ⟨r, t', rfl, hk⟩, hf⟩
      exact ⟨r, t' ++ t₂, rfl, a, t', t₂, rfl, hk, hf⟩

theorem runs_require_bind {c : Prop} [Decidable c] {f : Unit → OracleM Q A β} :
    (require c >>= f).Runs t b ↔ c ∧ (f ()).Runs t b := by
  unfold require
  by_cases h : c
  · simp only [h, if_true, true_and]
    exact Iff.rfl
  · simp only [h, if_false, false_and]
    exact Iff.rfl

theorem runs_ofOption_bind {x : Option α} : (ofOption x >>= f).Runs t b ↔ ∃ a, x = some a ∧ (f a).Runs t b := by
  cases x with
  | none => exact ⟨False.elim, fun h => by simp at h⟩
  | some a => exact ⟨fun h => ⟨a, rfl, h⟩, fun ⟨_, he, h⟩ => Option.some.inj he ▸ h⟩

theorem runs_query_bind {q : Q} {f : A q → OracleM Q A β} :
    (query q >>= f).Runs t b ↔ ∃ r t', t = ⟨q, r⟩ :: t' ∧ (f r).Runs t' b := Iff.rfl

end OracleM

end ZkOs
