import Mathlib.Data.BitVec

/-!
# Bits of a sequence of words

Words of any width, least significant bit first, as one sequence of bits.

* `bit` : one bit of the sequence, `setBit` : one bit switched on;
* `recast` : the same bits in words of another width, what a little-endian machine sees when memory is read
  with another word size;
* `ext` : sequences of the same length with the same bits are the same.
-/

namespace Bits

variable {w w' : Nat}

/-- The bit at `pos`; nothing is set behind the end. -/
def bit (ds : List (BitVec w)) (pos : Nat) : Bool := ds[pos / w]?.any fun d => d.getLsbD (pos % w)

def setBit (ds : List (BitVec w)) (pos : Nat) : List (BitVec w) :=
  ds.modify (pos / w) fun d => d ||| 1#w <<< (pos % w)

/-- `n` words of width `w'` with the bits of `ds`. -/
def recast (w' n : Nat) (ds : List (BitVec w)) : List (BitVec w') :=
  (List.range n).map fun i => (BitVec.ofBoolListLE ((List.range w').map fun j => bit ds (i * w' + j))).setWidth w'

@[simp] theorem length_setBit (ds : List (BitVec w)) (pos : Nat) : (setBit ds pos).length = ds.length :=
  List.length_modify _ _ _

@[simp] theorem length_recast (n : Nat) (ds : List (BitVec w)) : (recast w' n ds).length = n := by
  unfold recast
  rw [List.length_map, List.length_range]

theorem bit_replicate_zero (n pos : Nat) : bit (List.replicate n (0 : BitVec w)) pos = false := by
  unfold bit
  rw [List.getElem?_replicate]
  split
  · exact BitVec.getLsbD_zero
  · rfl

theorem and_shiftLeft_ne_zero (d : BitVec w) {k : Nat} (hk : k < w) : d &&& 1#w <<< k ≠ 0 ↔ d.getLsbD k = true := by
  rw [← BitVec.twoPow_eq, BitVec.and_twoPow]
  by_cases h : d.getLsbD k = true
  · rw [if_pos h]
    refine ⟨fun _ => h, fun _ hzero => ?_⟩
    have hbit := congrArg (BitVec.getLsbD · k) hzero
    simp [hk] at hbit
  · rw [if_neg h]
    exact ⟨fun h' => absurd rfl h', fun h' => absurd h' h⟩

theorem bit_setBit (ds : List (BitVec w)) {pos : Nat} (hpos : pos < ds.length * w) (k : Nat) :
    bit (setBit ds pos) k = (bit ds k || decide (k = pos)) := by
  have hw : 0 < w := Nat.pos_of_ne_zero fun h => by
    subst h
    exact absurd hpos (Nat.not_lt_zero _)
  unfold bit setBit
  rw [List.getElem?_modify]
  rcases hd : ds[k / w]? with _ | d
  · -- behind the end
    have hk : k ≠ pos := by
      rintro rfl
      have hlt : k / w < ds.length := (Nat.div_lt_iff_lt_mul hw).mpr hpos
      rw [List.getElem?_eq_getElem hlt] at hd
      cases hd
    simp [hk]
  · by_cases hi : pos / w = k / w
    · have hiff : k = pos ↔ k % w = pos % w := by
        refine ⟨fun h => by rw [h], fun h => ?_⟩
        rw [← Nat.div_add_mod k w, ← Nat.div_add_mod pos w, h, hi]
      have hmod : pos % w < w := Nat.mod_lt _ hw
      simp only [Option.map_eq_map, Option.map_some, Option.any_some, hi, if_true, BitVec.getLsbD_or, ← BitVec.twoPow_eq,
        BitVec.getLsbD_twoPow, hmod, decide_true, Bool.true_and]
      simp only [hiff, eq_comm]
    · have hk : k ≠ pos := fun h => hi (by rw [h])
      simp [hi, hk]

theorem bit_recast (ds : List (BitVec w)) (hw' : 0 < w') (n pos : Nat) :
    bit (recast w' n ds) pos = (decide (pos < n * w') && bit ds pos) := by
  have hbit : bit (recast w' n ds) pos =
      (((List.range n)[pos / w']?).any fun i => bit ds (i * w' + pos % w')) := by
    unfold bit recast
    rw [List.getElem?_map]
    rcases (List.range n)[pos / w']? with _ | i
    · rfl
    · have hj : pos % w' < w' := Nat.mod_lt _ hw'
      rw [Option.map_some, Option.any_some, Option.any_some, BitVec.getLsbD_setWidth, BitVec.getLsbD_ofBoolListLE]
      simp only [hj, decide_true, Bool.true_and, List.getD_eq_getElem?_getD, List.getElem?_map, List.getElem?_range hj,
        Option.map_some, Option.getD_some]
      rfl
  rw [hbit]
  by_cases h : pos / w' < n
  · have hpos : pos < n * w' := (Nat.div_lt_iff_lt_mul hw').mp h
    rw [List.getElem?_range h, Option.any_some, Nat.div_add_mod', decide_eq_true hpos, Bool.true_and]
  · have hpos : ¬pos < n * w' := fun hp => h ((Nat.div_lt_iff_lt_mul hw').mpr hp)
    rw [List.getElem?_eq_none (by rw [List.length_range]; omega), decide_eq_false hpos]
    rfl

theorem ext {ds ds' : List (BitVec w)} (hw : 0 < w) (hlen : ds.length = ds'.length)
    (h : ∀ pos, bit ds pos = bit ds' pos) : ds = ds' := by
  refine List.ext_getElem hlen fun i hi hi' => BitVec.eq_of_getLsbD_eq fun j hj => ?_
  have hij := h (i * w + j)
  have hdiv : (i * w + j) / w = i := by
    rw [Nat.mul_comm, Nat.mul_add_div hw, Nat.div_eq_of_lt hj, Nat.add_zero]
  have hmod : (i * w + j) % w = j := by
    rw [Nat.mul_comm, Nat.mul_add_mod, Nat.mod_eq_of_lt hj]
  unfold bit at hij
  rwa [hdiv, hmod, List.getElem?_eq_getElem hi, List.getElem?_eq_getElem hi', Option.any_some, Option.any_some] at hij

end Bits
