import Mathlib.LinearAlgebra.Lagrange

/-!
# Evaluation from values at roots of unity

* `prefixProducts`, `backwardPass` : inversion of many elements with one inverse, `backwardPass_prefixProducts`;
* `bitReverse` : reversal of the low bits of a number, injective on its range;
* `nodal_eq`, `eval_eq_sum` : the barycentric formula over the roots of unity, in any order.
-/

namespace ZkOs.Barycentric

open Polynomial Finset

variable {F : Type} [Field F]

/-- The products of what comes before each element, starting with `acc`, and the product of everything. -/
def prefixProducts (acc : F) : List F → List F × F
  | [] => ([], acc)
  | a :: as => (acc :: (prefixProducts (acc * a) as).1, (prefixProducts (acc * a) as).2)

/-- From the last element to the first: multiply the product by `acc`, then `acc` by the element. -/
def backwardPass : List F → List F → F → List F × F
  | p :: ps, a :: as, acc => (p * (backwardPass ps as acc).2 :: (backwardPass ps as acc).1, (backwardPass ps as acc).2 * a)
  | _, _, acc => ([], acc)

theorem prefixProducts_snd (acc : F) (as : List F) : (prefixProducts acc as).2 = acc * as.prod := by
  induction as generalizing acc with
  | nil => simp [prefixProducts]
  | cons a as ih => rw [prefixProducts, ih, List.prod_cons, mul_assoc]

/-- The two passes invert every element. -/
theorem backwardPass_prefixProducts {acc : F} (hacc : acc ≠ 0) {l : List F} (hl : ∀ a ∈ l, a ≠ 0) :
    backwardPass (prefixProducts acc l).1 l (prefixProducts acc l).2⁻¹ = (l.map (·⁻¹), acc⁻¹) := by
  induction l generalizing acc with
  | nil => rfl
  | cons a l ih =>
    have ha : a ≠ 0 := hl a (by simp)
    rw [prefixProducts]
    simp only [backwardPass]
    rw [ih (mul_ne_zero hacc ha) fun b hb => hl b (by simp [hb])]
    simp only [List.map_cons, Prod.mk.injEq, List.cons.injEq, and_true]
    constructor <;> field_simp

/-- The low `k` bits in reverse order. -/
def bitReverse : Nat → Nat → Nat
  | 0, _ => 0
  | k + 1, i => i % 2 * 2 ^ k + bitReverse k (i / 2)

theorem bitReverse_lt (k i : Nat) : bitReverse k i < 2 ^ k := by
  induction k generalizing i with
  | zero => simp [bitReverse]
  | succ k ih =>
    have := ih (i / 2)
    rw [bitReverse, pow_succ]
    rcases Nat.mod_two_eq_zero_or_one i with h | h <;> rw [h] <;> omega

theorem bitReverse_inj {k i j : Nat} (hi : i < 2 ^ k) (hj : j < 2 ^ k) (h : bitReverse k i = bitReverse k j) :
    i = j := by
  induction k generalizing i j with
  | zero => omega
  | succ k ih =>
    rw [bitReverse, bitReverse] at h
    have hi' := bitReverse_lt k (i / 2)
    have hj' := bitReverse_lt k (j / 2)
    have hmod : i % 2 = j % 2 := by
      rcases Nat.mod_two_eq_zero_or_one i with h₁ | h₁ <;> rcases Nat.mod_two_eq_zero_or_one j with h₂ | h₂ <;>
        rw [h₁, h₂] at h ⊢ <;> omega
    have hdiv := ih (i := i / 2) (j := j / 2) (by omega) (by omega) (by rw [hmod] at h; omega)
    omega

section Roots

variable {n : Nat} {v : Nat → F} (hv : Set.InjOn v (range n)) (hroot : ∀ i < n, v i ^ n = 1)
include hv hroot

theorem nodal_eq (hn : 0 < n) : Lagrange.nodal (range n) v = X ^ n - 1 := by
  have hmonic : (X ^ n - 1 : F[X]).Monic := monic_X_pow_sub_C 1 hn.ne'
  apply eq_of_degree_sub_lt_of_eval_index_eq _ hv
  · have hdeg : (Lagrange.nodal (range n) v).degree = (X ^ n - 1 : F[X]).degree := by
      rw [Lagrange.degree_nodal, card_range]
      exact (degree_X_pow_sub_C hn 1).symm
    have hlt := degree_sub_lt_left hdeg Lagrange.nodal_ne_zero (by rw [Lagrange.nodal_monic, hmonic])
    rwa [Lagrange.degree_nodal] at hlt
  · intro i hi
    rw [Lagrange.eval_nodal_at_node hi]
    simp [hroot i (mem_range.1 hi)]

/-- The barycentric formula, at a point that is not one of the roots. -/
theorem eval_eq_sum (hn : (n : F) ≠ 0) {P : F[X]} (hP : P.degree < n) {x : F} (hx : ∀ i < n, x ≠ v i) :
    (∑ i ∈ range n, (x - v i)⁻¹ * v i * P.eval (v i)) / n * (x ^ n - 1) = P.eval x := by
  have hpos : 0 < n := Nat.pos_of_ne_zero fun h => hn (by rw [h, Nat.cast_zero])
  have hweight : ∀ i ∈ range n, Lagrange.nodalWeight (range n) v i = v i / n := by
    intro i hi
    have hpow : v i ^ (n - 1) * v i = 1 := by
      rw [← pow_succ, Nat.sub_add_cancel hpos, hroot i (mem_range.1 hi)]
    rw [Lagrange.nodalWeight_eq_eval_derivative_nodal hi, nodal_eq hv hroot hpos]
    simp only [derivative_sub, derivative_X_pow, derivative_one, sub_zero, eval_mul, eval_pow, eval_X, eval_natCast,
      map_natCast]
    rw [inv_eq_iff_eq_inv, inv_div, eq_div_iff (right_ne_zero_of_mul_eq_one hpow), mul_assoc, hpow, mul_one]
  conv_rhs => rw [Lagrange.eq_interpolate hv (by rwa [card_range] : P.degree < #(range n)),
    Lagrange.eval_interpolate_not_at_node _ fun i hi => hx i (mem_range.1 hi), nodal_eq hv hroot hpos]
  rw [mul_comm, div_eq_mul_inv, sum_mul]
  congr 1
  · simp
  · apply sum_congr rfl
    intro i hi
    rw [hweight i hi]
    ring

end Roots

end ZkOs.Barycentric
