import Mathlib.Data.List.Basic

/-!
# Decoders that read a prefix

A decoder takes the remaining input and returns a value with what is left.

* `Reads p pre a` : on every input that starts with `pre`, `p` returns `a` and leaves the rest;
* `Local p` : whatever `p` accepts it has read as a prefix, without looking at what follows;
* `Canonical p` : the value determines the bytes read.

`Local` and `Canonical` are closed under the monad operations, `Reads.pre_eq` says that a local
decoder cannot read two different prefixes of one input.
-/

namespace ZkOs

/-- A decoder over symbols `β` with errors `ε`. -/
def Decoder (β ε α : Type) : Type := List β → Except ε (α × List β)

namespace Decoder

variable {β ε α γ : Type}

instance : Monad (Decoder β ε) where
  pure a := fun xs => .ok (a, xs)
  bind p f := fun xs =>
    match p xs with
    | .error e => .error e
    | .ok (a, ys) => f a ys

def fail (e : ε) : Decoder β ε α := fun _ => .error e

/-- A result that does not depend on the input. -/
def lift (r : Except ε α) : Decoder β ε α := fun xs =>
  match r with
  | .error e => .error e
  | .ok a => .ok (a, xs)

/-- Parse a whole string; `e` is the error for input left over. -/
def runAll (p : Decoder β ε α) (e : ε) (xs : List β) : Except ε α :=
  match p xs with
  | .error e' => .error e'
  | .ok (a, []) => .ok a
  | .ok (_, _ :: _) => .error e

def ensure (c : Prop) [Decidable c] (e : ε) : Decoder β ε Unit := if c then pure () else fail e

variable {p : Decoder β ε α} {f : α → Decoder β ε γ} {xs pre pre' : List β} {c : γ} {a : α}

theorem bind_apply (p : Decoder β ε α) (f : α → Decoder β ε γ) (xs : List β) :
    (p >>= f) xs = p xs >>= fun s => f s.1 s.2 := by
  show (match p xs with
    | Except.error e => Except.error e
    | Except.ok (a, ys) => f a ys) = _
  cases p xs <;> rfl

theorem bind_ok {zs : List β} :
    (p >>= f) xs = .ok (c, zs) ↔ ∃ a ys, p xs = .ok (a, ys) ∧ f a ys = .ok (c, zs) := by
  rw [bind_apply]
  rcases p xs with e | ⟨a, ys⟩ <;> simp [bind, Except.bind]

/-- `p` reads exactly `pre`, returning `a`, whatever follows. -/
def Reads (p : Decoder β ε α) (pre : List β) (a : α) : Prop :=
  ∀ rest, p (pre ++ rest) = .ok (a, rest)

/-- What `p` accepts it has read as a prefix of its input. -/
def Local (p : Decoder β ε α) : Prop :=
  ∀ xs a rest, p xs = .ok (a, rest) → ∃ pre, xs = pre ++ rest ∧ p.Reads pre a

/-- The value read determines the bytes read. -/
def Canonical (p : Decoder β ε α) : Prop :=
  ∀ pre pre' a, p.Reads pre a → p.Reads pre' a → pre = pre'

/-! ## Closure -/

theorem reads_bind (hp : p.Reads pre a) (hf : (f a).Reads pre' c) : (p >>= f).Reads (pre ++ pre') c := by
  intro rest
  rw [List.append_assoc]
  exact bind_ok.mpr ⟨a, pre' ++ rest, hp _, hf rest⟩

theorem reads_ensure {c : Prop} [Decidable c] (hc : c) (e : ε) : (ensure c e : Decoder β ε Unit).Reads [] () := by
  intro rest
  unfold ensure
  rw [if_pos hc]
  rfl

theorem ensure_comm (p q : Prop) [Decidable p] [Decidable q] (e : ε) (d : Decoder β ε α) :
    (ensure p e >>= fun _ => ensure q e >>= fun _ => d) = ensure q e >>= fun _ => ensure p e >>= fun _ => d := by
  unfold ensure
  by_cases hp : p <;> by_cases hq : q
  · rw [if_pos hp, if_pos hq]
  · rw [if_pos hp, if_neg hq]
    rfl
  · rw [if_neg hp, if_pos hq]
    rfl
  · rw [if_neg hp, if_neg hq]

theorem Reads.bind_apply (h : p.Reads pre a) (f : α → Decoder β ε γ) (rest : List β)
    : (p >>= f) (pre ++ rest) = f a rest := by
  rw [Decoder.bind_apply, h rest]
  rfl

theorem local_pure (a : α) : (pure a : Decoder β ε α).Local := by
  intro xs b rest h
  obtain ⟨rfl, rfl⟩ := Prod.mk.inj (Except.ok.inj h)
  exact ⟨[], rfl, fun _ => rfl⟩

theorem local_fail (e : ε) : (fail e : Decoder β ε α).Local := by
  intro xs b rest h
  cases h

theorem local_lift (r : Except ε α) : (lift r : Decoder β ε α).Local := by
  cases r with
  | error e => exact local_fail e
  | ok a => exact local_pure a

theorem runAll_ok {e : ε} :
    p.runAll e xs = .ok a ↔ p xs = .ok (a, []) := by
  unfold runAll
  split <;> simp_all

theorem local_ensure (c : Prop) [Decidable c] (e : ε) : (ensure c e : Decoder β ε Unit).Local := by
  unfold ensure
  split
  · exact local_pure ()
  · exact local_fail e

theorem Local.bind (hp : p.Local) (hf : ∀ a, (f a).Local) : (p >>= f).Local := by
  intro xs c rest h
  obtain ⟨a, ys, hpa, hfa⟩ := bind_ok.mp h
  obtain ⟨pre, rfl, hread⟩ := hp xs a ys hpa
  obtain ⟨pre', rfl, hread'⟩ := hf a ys c rest hfa
  exact ⟨pre ++ pre', by rw [List.append_assoc], reads_bind hread hread'⟩

theorem Local.ite {c : Prop} [Decidable c] {q : Decoder β ε α} (hp : p.Local) (hq : q.Local) :
    (if c then p else q).Local := by
  split
  · exact hp
  · exact hq

theorem Reads.pre_eq {rest rest' : List β} {a' : α} (h : p.Reads pre a) (h' : p.Reads pre' a')
    (he : pre ++ rest = pre' ++ rest') :
    pre = pre' ∧ a = a' := by
  have h1 := h rest
  rw [he, h' rest'] at h1
  obtain ⟨rfl, rfl⟩ := Prod.mk.inj (Except.ok.inj h1)
  exact ⟨(List.append_left_inj _).mp he, rfl⟩

theorem Reads.of_bind (hp : p.Local) (hf : ∀ a, (f a).Local) (h : (p >>= f).Reads pre c) :
    ∃ a pre₁ pre₂, pre = pre₁ ++ pre₂ ∧ p.Reads pre₁ a ∧ (f a).Reads pre₂ c := by
  obtain ⟨a, ys, hpa, hfa⟩ := bind_ok.mp (h [])
  obtain ⟨pre₁, he, hread⟩ := hp _ a ys hpa
  obtain ⟨pre₂, he', hread'⟩ := hf a ys c [] hfa
  refine ⟨a, pre₁, pre₂, ?_, hread, hread'⟩
  simpa [he'] using he

end Decoder

end ZkOs
