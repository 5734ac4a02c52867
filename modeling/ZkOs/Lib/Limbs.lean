import Mathlib.Data.BitVec
import Mathlib.Tactic.Ring

/-!
# 256-bit words in four limbs

* `Limbs` : four 64-bit limbs, the least significant first; `Limbs.value` : the word they stand for;
* `asLimbs` : the limbs of a word; the two are inverse (`value_asLimbs`, `asLimbs_value`);
* `getLsbD_value`, `toNat_value` : bits and number of a word by its limbs.
-/

namespace ZkOs

@[ext] structure Limbs where
  l₀ : BitVec 64
  l₁ : BitVec 64
  l₂ : BitVec 64
  l₃ : BitVec 64
  deriving DecidableEq

namespace Limbs

def value (x : Limbs) : BitVec 256 := x.l₃ ++ x.l₂ ++ x.l₁ ++ x.l₀

end Limbs

def asLimbs (v : BitVec 256) : Limbs :=
  ⟨v.extractLsb' 0 64, v.extractLsb' 64 64, v.extractLsb' 128 64, v.extractLsb' 192 64⟩

namespace Limbs

theorem getLsbD_value (x : Limbs) (i : Nat) :
    x.value.getLsbD i =
      if i < 64 then x.l₀.getLsbD i else if i < 128 then x.l₁.getLsbD (i - 64)
        else if i < 192 then x.l₂.getLsbD (i - 128) else x.l₃.getLsbD (i - 192) := by
  unfold value
  have h₁ : i - 64 < 64 ↔ i < 128 := by omega
  have h₂ : i - 128 < 64 ↔ i < 192 := by omega
  rw [BitVec.getLsbD_append, BitVec.getLsbD_append, BitVec.getLsbD_append]
  simp only [h₁, h₂, Nat.sub_sub, Nat.reduceAdd]

theorem toNat_value (x : Limbs) :
    x.value.toNat = x.l₀.toNat + 2 ^ 64 * x.l₁.toNat + 2 ^ 128 * x.l₂.toNat + 2 ^ 192 * x.l₃.toNat := by
  have h₀ := x.l₀.isLt
  have h₁ := x.l₁.isLt
  have h₂ := x.l₂.isLt
  unfold value
  simp only [BitVec.toNat_append, Nat.shiftLeft_eq, mul_comm _ (2 ^ 64)]
  rw [← Nat.two_pow_add_eq_or_of_lt h₂, ← Nat.two_pow_add_eq_or_of_lt h₁, ← Nat.two_pow_add_eq_or_of_lt h₀]
  ring

theorem value_asLimbs (v : BitVec 256) : (asLimbs v).value = v := by
  apply BitVec.eq_of_getLsbD_eq
  intro i hi
  rw [getLsbD_value]
  unfold asLimbs
  simp only [BitVec.getLsbD_extractLsb']
  split_ifs with h₀ h₁ h₂
  · simp [h₀]
  · simp [show i - 64 < 64 by omega, show 64 + (i - 64) = i by omega]
  · simp [show i - 128 < 64 by omega, show 128 + (i - 128) = i by omega]
  · simp [show i - 192 < 64 by omega, show 192 + (i - 192) = i by omega]

end Limbs

end ZkOs
