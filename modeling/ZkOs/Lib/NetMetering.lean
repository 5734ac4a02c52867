import Mathlib.Algebra.BigOperators.Group.Finset.Basic
import Mathlib.Algebra.Order.BigOperators.Group.Finset
import Mathlib.Tactic.Ring

/-!
# Refunds of net gas metering

EIP-3529: a store may earn a refund or take one back, depending on the value that the key had at the start of
the transaction (`original`), the value it has now (`current`) and the value it is given (`new`).

* `storeRefund`, `refund` : the refund of one store and of a list of stores and grants;
* `refund_eq` : the same as a sum over keys: 4800 for every key that is cleared now, and what was granted for
  every time that a key was restored to its original value;
* `cleared_le_refund` : so the refund of a cleared key can always be taken back.
-/

namespace ZkOs.NetMetering

open Finset

inductive Event (K V : Type) where
  | store (key : K) (value : V)
  | grant (amount : Nat)

section Value

variable {V : Type} [DecidableEq V] [Zero V]

def storeRefund (original current new : V) : Int :=
  if current = new then 0
  else if current = original then (if original ≠ 0 ∧ new = 0 then 4800 else 0)
  else
    (if original ≠ 0 then (if current = 0 then -4800 else if new = 0 then 4800 else 0) else 0) +
      if new = original then (if original = 0 then 19900 else 2800) else 0

/-- What is outstanding for a key with this value. -/
def cleared (original current : V) : Int := if original ≠ 0 ∧ current = 0 then 4800 else 0

/-- What a store earns that restores the original value. -/
def restored (original current new : V) : Int :=
  if current ≠ original ∧ new = original then (if original = 0 then 19900 else 2800) else 0

theorem cleared_self (v : V) : cleared v v = 0 := if_neg fun h => h.1 h.2

theorem cleared_nonneg (original current : V) : 0 ≤ cleared original current := by
  unfold cleared
  split <;> decide

theorem restored_nonneg (original current new : V) : 0 ≤ restored original current new := by
  unfold restored
  split
  · split <;> decide
  · exact le_rfl

theorem storeRefund_eq (original current new : V) : storeRefund original current new =
    cleared original new - cleared original current + restored original current new := by
  unfold storeRefund cleared restored
  by_cases hcn : current = new
  · subst hcn
    by_cases hco : current = original <;> simp [hco]
  · by_cases hco : current = original
    · subst hco
      by_cases hc : current = 0 <;> by_cases hn : new = 0 <;> simp [hcn, hc, hn]
    · by_cases ho : original = 0
      · subst ho
        by_cases hn : new = 0 <;> simp [hcn, hco, hn]
      · by_cases hc : current = 0
        · have hn : new ≠ 0 := fun hn => hcn (hc.trans hn.symm)
          simp [ho, hc, hn, Ne.symm hn, Ne.symm ho]
        · by_cases hn : new = 0 <;> simp [hcn, hco, ho, hc, hn, Ne.symm ho]

end Value

section Lists

variable {K V : Type} [DecidableEq K]

def values (current : K → V) : List (Event K V) → K → V
  | [] => current
  | .store k v :: es => values (Function.update current k v) es
  | .grant _ :: es => values current es

theorem values_append (current : K → V) (es es' : List (Event K V)) :
    values current (es ++ es') = values (values current es) es' := by
  induction es generalizing current with
  | nil => rfl
  | cons e es ih => cases e <;> exact ih _

def keys : List (Event K V) → Finset K
  | [] => ∅
  | .store k _ :: es => insert k (keys es)
  | .grant _ :: es => keys es

theorem mem_keys {k : K} {v : V} {es : List (Event K V)} (h : .store k v ∈ es) : k ∈ keys es := by
  induction es with
  | nil => cases h
  | cons e es ih =>
    rcases List.mem_cons.mp h with rfl | hes
    · exact Finset.mem_insert_self k _
    · cases e with
      | store k' v' => exact Finset.mem_insert_of_mem (ih hes)
      | grant n => exact ih hes

variable [DecidableEq V] [Zero V]

def refund (original current : K → V) : List (Event K V) → Int
  | [] => 0
  | .store k v :: es => storeRefund (original k) (current k) v + refund original (Function.update current k v) es
  | .grant n :: es => n + refund original current es

theorem refund_append (original current : K → V) (es es' : List (Event K V)) :
    refund original current (es ++ es') =
      refund original current es + refund original (values current es) es' := by
  induction es generalizing current with
  | nil => exact (zero_add _).symm
  | cons e es ih =>
    cases e <;>
      · simp only [List.cons_append, refund, values]
        rw [ih, add_assoc]

/-- What was earned by restoring values, and the grants. -/
def bonus (original current : K → V) : List (Event K V) → Int
  | [] => 0
  | .store k v :: es => restored (original k) (current k) v + bonus original (Function.update current k v) es
  | .grant n :: es => n + bonus original current es

theorem bonus_nonneg (original current : K → V) (es : List (Event K V)) : 0 ≤ bonus original current es := by
  induction es generalizing current with
  | nil => exact le_rfl
  | cons e es ih =>
    cases e with
    | store k v => exact add_nonneg (restored_nonneg _ _ _) (ih _)
    | grant n => exact add_nonneg (Int.natCast_nonneg n) (ih _)

theorem sum_cleared_update (original current : K → V) {S : Finset K} {k : K} (hk : k ∈ S) (v : V) :
    ∑ x ∈ S, cleared (original x) (Function.update current k v x) =
      ∑ x ∈ S, cleared (original x) (current x) + (cleared (original k) v - cleared (original k) (current k)) := by
  rw [← Finset.add_sum_erase S _ hk, ← Finset.add_sum_erase S (fun x => cleared (original x) (current x)) hk,
    Function.update_self]
  have hrest : ∑ x ∈ S.erase k, cleared (original x) (Function.update current k v x) =
      ∑ x ∈ S.erase k, cleared (original x) (current x) :=
    Finset.sum_congr rfl fun x hx => by rw [Function.update_of_ne (Finset.ne_of_mem_erase hx)]
  rw [hrest]
  ring

/-- By induction on the events; the sum over the keys telescopes. -/
theorem refund_eq (original current : K → V) (es : List (Event K V)) (S : Finset K)
    (hS : ∀ k v, .store k v ∈ es → k ∈ S) : refund original current es =
      ∑ k ∈ S, cleared (original k) (values current es k) - ∑ k ∈ S, cleared (original k) (current k) +
        bonus original current es := by
  induction es generalizing current with
  | nil => exact (add_eq_right.mpr (sub_self _)).symm
  | cons e es ih =>
    cases e with
    | store k v =>
      have hk := hS k v List.mem_cons_self
      show storeRefund _ _ _ + refund _ _ es = ∑ x ∈ S, cleared _ (values _ es x) - _ + (_ + _)
      rw [ih _ fun k' v' h => hS k' v' (List.mem_cons_of_mem _ h), storeRefund_eq, sum_cleared_update _ _ hk]
      ring
    | grant n =>
      show _ + refund _ _ es = ∑ x ∈ S, cleared _ (values _ es x) - _ + (_ + _)
      rw [ih _ fun k' v' h => hS k' v' (List.mem_cons_of_mem _ h)]
      ring

theorem cleared_le_refund (original : K → V) (es : List (Event K V)) (k : K) :
    cleared (original k) (values original es k) ≤ refund original original es := by
  rw [refund_eq original original es (insert k (keys es)) fun k' v h => Finset.mem_insert_of_mem (mem_keys h)]
  have hstart : ∑ x ∈ insert k (keys es), cleared (original x) (original x) = 0 :=
    Finset.sum_eq_zero fun x _ => cleared_self _
  have hk := Finset.single_le_sum (f := fun x => cleared (original x) (values original es x))
    (fun x _ => cleared_nonneg _ _) (Finset.mem_insert_self k (keys es))
  have hbonus := bonus_nonneg original original es
  omega

theorem refund_nonneg [Inhabited K] (original : K → V) (es : List (Event K V)) : 0 ≤ refund original original es :=
  (cleared_nonneg _ _).trans (cleared_le_refund original es default)

end Lists

end ZkOs.NetMetering
