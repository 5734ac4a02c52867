import ZkOs.Lib.Decoder
import Mathlib.Algebra.Group.Nat.Defs

/-!
# Calls that can panic, and cursors over a slice

A decoder (`Lib.Decoder`) is a total function on the bytes that remain.  Code that reads through a
position in a slice can also index out of bounds, underflow or unwrap an error.

* `Stop`, `Fallible` : a call returns a value, returns an error, panics or does not end;
* `sub`, `add`, `mul`, `slice`, `index`, `expect`, `attempt` : the operations that can panic;
* `Fallible.Matches R m r` : `m` ends as `r` does, with values related by `R`, and never panics;
* `Cursor`, `CursorM` : a slice with a position, and functions that move it;
* `CursorM.Follows n R m d` : on slices shorter than `n`, `m` reads what the decoder `d` reads.
-/

namespace ZkOs

/-- How a call ends that returns no value. -/
inductive Stop (ε : Type) where
  /-- The error it returns. -/
  | err (e : ε)
  | panic
  /-- A loop that does not end. -/
  | hang
  deriving DecidableEq, Repr

abbrev Fallible (ε α : Type) : Type := Except (Stop ε) α

namespace Fallible

variable {β ε ε' α γ α' γ' : Type}

def sub (a b : Nat) : Fallible ε Nat := if b ≤ a then .ok (a - b) else .error .panic

/-- `a + b` in `bits` bits, which panics on overflow. -/
def add (bits a b : Nat) : Fallible ε Nat := if a + b < 2 ^ bits then .ok (a + b) else .error .panic

/-- `a * b` in `bits` bits, which panics on overflow. -/
def mul (bits a b : Nat) : Fallible ε Nat := if a * b < 2 ^ bits then .ok (a * b) else .error .panic

def slice (xs : List β) (start stop : Nat) : Fallible ε (List β) :=
  if start ≤ stop ∧ stop ≤ xs.length then .ok ((xs.take stop).drop start) else .error .panic

def index (xs : List β) (i : Nat) : Fallible ε β :=
  match xs[i]? with
  | some b => .ok b
  | none => .error .panic

/-- A slice turned into an array of `n` elements and unwrapped. -/
def unwrapArray (n : Nat) (xs : List β) : Fallible ε (List β) :=
  if xs.length = n then .ok xs else .error .panic

/-- An error becomes a panic. -/
def expect : Fallible ε α → Fallible ε α
  | .error (.err _) => .error .panic
  | m => m

def attempt : Fallible ε α → Fallible ε' (Except ε α)
  | .ok a => .ok (.ok a)
  | .error (.err e) => .ok (.error e)
  | .error .panic => .error .panic
  | .error .hang => .error .hang

variable {a b bits start : Nat} {xs : List β} {R : α → γ → Prop} {m : Fallible ε α} {r : Except ε γ}

theorem sub_of_le (h : b ≤ a) : (sub a b : Fallible ε Nat) = .ok (a - b) := if_pos h

theorem add_of_lt (h : a + b < 2 ^ bits) : (add bits a b : Fallible ε Nat) = .ok (a + b) := if_pos h

theorem mul_of_lt (h : a * b < 2 ^ bits) : (mul bits a b : Fallible ε Nat) = .ok (a * b) := if_pos h

theorem slice_of_le {stop : Nat} (h : start ≤ stop) (h' : stop ≤ xs.length) :
    (slice xs start stop : Fallible ε (List β)) = .ok ((xs.take stop).drop start) := if_pos ⟨h, h'⟩

theorem slice_to_end (h : start ≤ xs.length) :
    (slice xs start xs.length : Fallible ε (List β)) = .ok (xs.drop start) := by
  rw [slice_of_le h (Nat.le_refl _), List.take_length]

theorem index_of_lt {i : Nat} (h : i < xs.length) : (index xs i : Fallible ε β) = .ok xs[i] := by
  unfold index
  rw [List.getElem?_eq_getElem h]

theorem unwrapArray_of_length {n : Nat} (h : xs.length = n) :
    (unwrapArray n xs : Fallible ε (List β)) = .ok xs := if_pos h

/-! ## Ending the same way -/

/-- `m` ends as `r`, with values related by `R`. -/
def Matches (R : α → γ → Prop) : Fallible ε α → Except ε γ → Prop
  | .ok a, .ok b => R a b
  | .error (.err e), .error e' => e = e'
  | _, _ => False

theorem Matches.bind {S : α' → γ' → Prop} {f : α → Fallible ε α'} {g : γ → Except ε γ'} (h : Matches R m r)
    (hf : ∀ a b, R a b → Matches S (f a) (g b)) : Matches S (m >>= f) (r >>= g) := by
  rcases m with (e | - | -) | a <;> rcases r with e' | b
  · exact h
  · exact h.elim
  · exact h.elim
  · exact h.elim
  · exact h.elim
  · exact h.elim
  · exact h.elim
  · exact hf a b h

theorem Matches.cases (h : Matches R m r) :
    (∃ e, m = .error (.err e) ∧ r = .error e) ∨ ∃ a b, m = .ok a ∧ r = .ok b ∧ R a b := by
  rcases m with (e | - | -) | a <;> rcases r with e' | b
  · exact .inl ⟨e, rfl, congrArg Except.error (Eq.symm h)⟩
  · exact h.elim
  · exact h.elim
  · exact h.elim
  · exact h.elim
  · exact h.elim
  · exact h.elim
  · exact .inr ⟨a, b, rfl, rfl, h⟩

end Fallible

structure Cursor (β : Type) where
  bytes : List β
  pos : Nat
  deriving DecidableEq, Repr

namespace Cursor

variable {β : Type}

def new (bytes : List β) : Cursor β := ⟨bytes, 0⟩

def isEmpty (c : Cursor β) : Bool := c.pos == c.bytes.length

/-- The position is in the slice, and the slice is shorter than `n`. -/
structure Within (n : Nat) (c : Cursor β) : Prop where
  pos_le : c.pos ≤ c.bytes.length
  length_lt : c.bytes.length < n

/-- The cursor stands in the slice `bytes`, where `rest` remains. -/
structure At (c : Cursor β) (bytes rest : List β) : Prop where
  bytes_eq : c.bytes = bytes
  pos_le : c.pos ≤ bytes.length
  drop_eq : bytes.drop c.pos = rest

variable {n : Nat} {bytes rest : List β} {c : Cursor β}

theorem within_new (h : bytes.length < n) : (new bytes).Within n := ⟨Nat.zero_le _, h⟩

theorem At.within (h : c.At bytes rest) (hn : bytes.length < n) :
    c.Within n := by
  obtain ⟨rfl, hpos, -⟩ := h
  exact ⟨hpos, hn⟩

theorem At.isEmpty_iff (h : c.At bytes rest) : c.isEmpty = true ↔ rest = [] := by
  obtain ⟨rfl, hpos, rfl⟩ := h
  rw [isEmpty, beq_iff_eq, List.drop_eq_nil_iff]
  omega

theorem At.pos_eq (h : c.At bytes rest) :
    c.pos = bytes.length - rest.length := by
  obtain ⟨rfl, hpos, rfl⟩ := h
  rw [List.length_drop]
  omega

end Cursor

def CursorM (β ε α : Type) : Type := Cursor β → Fallible ε (α × Cursor β)

namespace CursorM

variable {β ε α γ α' γ' : Type}

instance : Monad (CursorM β ε) where
  pure a := fun c => .ok (a, c)
  bind m f := fun c => m c >>= fun r => f r.1 r.2

/-- A call that does not touch the cursor. -/
def lift (m : Fallible ε α) : CursorM β ε α := fun c => m >>= fun a => .ok (a, c)

def get : CursorM β ε (Cursor β) := fun c => .ok (c, c)

def fail (e : ε) : CursorM β ε α := fun _ => .error (.err e)

def ensure (p : Prop) [Decidable p] (e : ε) : CursorM β ε Unit := if p then pure () else fail e

/-- Run `m` and return an error unless it consumed the whole slice. -/
def runFull (m : CursorM β ε α) (e : ε) (c : Cursor β) : Fallible ε α := do
  let (a, c) ← m c
  if c.isEmpty then return a else throw (.err e)

@[simp] theorem lift_ok_bind (a : α) (f : α → CursorM β ε γ) : lift (.ok a) >>= f = f a := rfl

/-- On slices shorter than `n`, `m` reads what `d` reads, with values related by `R`. -/
def Follows (n : Nat) (R : α → γ → Prop) (m : CursorM β ε α) (d : Decoder β ε γ) : Prop :=
  ∀ c : Cursor β, c.Within n →
    Fallible.Matches (fun r s => R r.1 s.1 ∧ r.2.At c.bytes s.2) (m c) (d (c.bytes.drop c.pos))

namespace Follows

variable {n : Nat} {R : α → γ → Prop} {S : α' → γ' → Prop}

variable {m : CursorM β ε α} {d : Decoder β ε γ} {f : α → CursorM β ε α'} {p : Prop}

theorem bind {g : γ → Decoder β ε γ'} (h : Follows n R m d) (hf : ∀ a b, R a b → Follows n S (f a) (g b))
    : Follows n S (m >>= f) (d >>= g) := by
  intro c hc
  rw [Decoder.bind_apply]
  apply Fallible.Matches.bind (h c hc)
  rintro ⟨a, c'⟩ ⟨b, rest⟩ ⟨hR, hat⟩
  have hnext := hf a b hR c' (hat.within hc.length_lt)
  rwa [hat.bytes_eq, hat.drop_eq] at hnext

theorem bind_eq {d : Decoder β ε α} {g : α → Decoder β ε γ'} (h : Follows n Eq m d) (hf : ∀ a, Follows n S (f a) (g a))
    : Follows n S (m >>= f) (d >>= g) :=
  h.bind fun a _ hab => hab ▸ hf a

theorem mono {T : α → γ → Prop} (h : Follows n R m d) (hRT : ∀ a b, R a b → T a b) : Follows n T m d := by
  intro c hc
  rcases (h c hc).cases with ⟨e, hm, hd⟩ | ⟨r, s, hm, hd, hR, hat⟩
  · rw [hm, hd]
    rfl
  · rw [hm, hd]
    exact ⟨hRT _ _ hR, hat⟩

theorem map {S : α' → γ → Prop} (f : α → α') (h : Follows n R m d) (hRS : ∀ a b, R a b → S (f a) b)
    : Follows n S (m >>= fun a => Pure.pure (f a)) d := by
  intro c hc
  show Fallible.Matches _ (m c >>= fun r => .ok (f r.1, r.2)) _
  rcases (h c hc).cases with ⟨e, hm, hd⟩ | ⟨r, s, hm, hd, hR, hat⟩
  · rw [hm, hd]
    rfl
  · rw [hm, hd]
    exact ⟨hRS _ _ hR, hat⟩

theorem pure {a : α} {b : γ} (h : R a b) : Follows n R (Pure.pure a : CursorM β ε α) (Pure.pure b) :=
  fun _ hc => ⟨h, rfl, hc.pos_le, rfl⟩

theorem fail (e : ε) : Follows n R (CursorM.fail e : CursorM β ε α) (Decoder.fail e) := fun _ _ => rfl

theorem ensure {q : Prop} [Decidable p] [Decidable q] (h : p ↔ q) (e : ε) :
    Follows n (fun _ _ => p) (CursorM.ensure p e : CursorM β ε Unit) (Decoder.ensure q e) := by
  unfold CursorM.ensure Decoder.ensure
  by_cases hp : p
  · rw [if_pos hp, if_pos (h.mp hp)]
    exact pure hp
  · rw [if_neg hp, if_neg fun hq => hp (h.mpr hq)]
    exact fail e

theorem lift {m : Fallible ε α} {r : Except ε γ} (h : Fallible.Matches R m r) :
    Follows n R (CursorM.lift m : CursorM β ε α) (Decoder.lift r) := by
  intro c hc
  rcases h.cases with ⟨e, rfl, rfl⟩ | ⟨a, b, rfl, rfl, hR⟩
  · exact rfl
  · exact ⟨hR, rfl, hc.pos_le, rfl⟩

theorem ite [Decidable p] {m' : CursorM β ε α} {d' : Decoder β ε γ} (h : p → Follows n R m d)
    (h' : ¬p → Follows n R m' d') : Follows n R (if p then m else m') (if p then d else d') := by
  split
  · exact h ‹_›
  · exact h' ‹_›

theorem runFull (h : Follows n R m d) (e : ε) {c : Cursor β} (hc : c.Within n) :
    Fallible.Matches R (m.runFull e c) (d.runAll e (c.bytes.drop c.pos)) := by
  unfold CursorM.runFull Decoder.runAll
  rcases (h c hc).cases with ⟨e, hm, hd⟩ | ⟨⟨a, c'⟩, ⟨b, rest⟩, hm, hd, hR, hat⟩
  · rw [hm, hd]
    rfl
  · rw [hm, hd]
    show Fallible.Matches R (if c'.isEmpty then _ else _) _
    rcases rest with - | ⟨x, rest⟩
    · rw [if_pos (hat.isEmpty_iff.mpr rfl)]
      exact hR
    · rw [if_neg fun hc => List.cons_ne_nil _ _ (hat.isEmpty_iff.mp hc)]
      rfl

end Follows

end CursorM

end ZkOs
