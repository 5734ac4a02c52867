import Mathlib.Data.Nat.Dist
import Mathlib.Data.Nat.Log
import Mathlib.Order.Monotone.Basic

/-!
# Lengths of differences

A new value is described to a reader who knows an old one, either by their difference or by itself.

* `Length` : a monotone and subadditive length of numbers, `bytes` : the number of bytes, which is one;
* `shortest` : the length of the shorter description;
* `shortest_triangle` : a description in two steps is not shorter than one in a single step.
-/

namespace ZkOs.DiffLength

structure Length where
  len : Nat → Nat
  mono : Monotone len
  len_add_le : ∀ m n, len (m + n) ≤ len m + len n

/-! ## Bytes -/

/-- The bytes of a number without leading zeros. -/
def byteCount (n : Nat) : Nat := if n = 0 then 0 else n.log2 / 8 + 1

theorem byteCount_le_iff {n k : Nat} : byteCount n ≤ k ↔ n < 2 ^ (8 * k) := by
  unfold byteCount
  split
  · rename_i h
    rw [h]
    exact iff_of_true (Nat.zero_le _) (Nat.two_pow_pos _)
  · rename_i h
    rw [← Nat.log2_lt h]
    omega

theorem lt_pow_byteCount (n : Nat) : n < 2 ^ (8 * byteCount n) := byteCount_le_iff.mp (Nat.le_refl _)

theorem byteCount_mono : Monotone byteCount := fun _ n h => byteCount_le_iff.mpr (Nat.lt_of_le_of_lt h (lt_pow_byteCount n))

/-- A carry needs one more byte, which the shorter of the two has. -/
theorem byteCount_add_le (m n : Nat) : byteCount (m + n) ≤ byteCount m + byteCount n := by
  by_cases hm : m = 0
  · rw [hm, Nat.zero_add]
    exact Nat.le_add_left _ _
  by_cases hn : n = 0
  · rw [hn, Nat.add_zero]
    exact Nat.le_add_right _ _
  have one_le : ∀ {x}, x ≠ 0 → 1 ≤ byteCount x := by
    intro x hx
    unfold byteCount
    rw [if_neg hx]
    omega
  have wider : ∀ {x y k}, 1 ≤ byteCount y → k = byteCount x + byteCount y → x < 2 ^ (8 * k - 8) := by
    intro x y k hy hk
    exact Nat.lt_of_lt_of_le (lt_pow_byteCount x) (Nat.pow_le_pow_right (by decide) (by omega))
  have h₁ := wider (one_le hn) (rfl : byteCount m + byteCount n = _)
  have h₂ := wider (one_le hm) (Nat.add_comm (byteCount m) (byteCount n))
  apply byteCount_le_iff.mpr
  have hpow : 2 ^ (8 * (byteCount m + byteCount n)) = 2 ^ (8 * (byteCount m + byteCount n) - 8) * 2 ^ 8 := by
    rw [← Nat.pow_add, Nat.sub_add_cancel]
    have := one_le hm
    omega
  omega

def bytes : Length := ⟨byteCount, byteCount_mono, byteCount_add_le⟩

/-! ## Descriptions -/

section Descriptions

variable (ℓ : Length)

/-- The shorter of the difference and the new value. -/
def shortest (old new : Nat) : Nat := min (ℓ.len (Nat.dist old new)) (ℓ.len new)

theorem shortest_triangle (a b c : Nat) : shortest ℓ a c ≤ shortest ℓ a b + shortest ℓ b c := by
  unfold shortest
  rcases Nat.le_total (ℓ.len (Nat.dist b c)) (ℓ.len c) with hc | hc
  · rw [Nat.min_eq_left hc]
    rcases Nat.le_total (ℓ.len (Nat.dist a b)) (ℓ.len b) with hb | hb
    · rw [Nat.min_eq_left hb]
      calc _ ≤ ℓ.len (Nat.dist a c) := Nat.min_le_left _ _
        _ ≤ ℓ.len (Nat.dist a b + Nat.dist b c) := ℓ.mono (Nat.dist.triangle_inequality a b c)
        _ ≤ _ := ℓ.len_add_le _ _
    · -- the value in between was given as it is, so the new value is at most that and the difference
      rw [Nat.min_eq_right hb]
      have hle : c ≤ b + Nat.dist b c := by
        unfold Nat.dist
        omega
      calc _ ≤ ℓ.len c := Nat.min_le_right _ _
        _ ≤ ℓ.len (b + Nat.dist b c) := ℓ.mono hle
        _ ≤ _ := ℓ.len_add_le _ _
  · rw [Nat.min_eq_right hc]
    exact (Nat.min_le_right _ _).trans (Nat.le_add_left _ _)

end Descriptions

end ZkOs.DiffLength
