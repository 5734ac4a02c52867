import ZkOs.Modexp.Bigint

/-!
# What the fused multiply-add computes

`fma` keeps only the digits below `max_product_digits` and drops every carry above them without a
check.  When it returns, it has therefore stored `a * b + c` modulo `radix ^ max_product_digits`
(`fma_spec`), which is `a * b + c` itself only if that fits.

The rows of the schoolbook multiplication are exact (`fmaDigit_spec`, `fmaRow_spec`); digits are
lost only in the final carry of a row (`fmaPropagate_modEq`, `fmaFinishRow_modEq`).
-/

namespace ZkOs.Modexp.BigintRepr

open Digits

/-! ## The carry-propagation buffer -/

/-- Only the lowest limb of the carry-propagation buffer is ever used. -/
def FmaState.PropOk (s : FmaState) : Prop := s.carryPropagation.toNat < 2 ^ 64

theorem toNat_setLimb0 {c : DelegatedU256} {v : Nat} (hc : c.toNat < 2 ^ 64) (hv : v < 2 ^ 64) :
    (c.setLimb0 v).toNat = v := by
  have hB : 2 ^ 64 < 2 ^ 256 := by decide
  rw [DelegatedU256.setLimb0, BitVec.toNat_ofNat, Nat.div_eq_of_lt hc, Nat.mod_eq_of_lt hv,
    Nat.mod_eq_of_lt (by omega)]
  omega

variable {s s' : FmaState} {of x y aIdx pos capacity bIdx n maxDigits : Nat} {a b : DelegatedU256}

theorem FmaState.addToHigh_spec (hs : s.PropOk) (hof : of < 2 ^ 64) (hlt : s.high.toNat + of < radix 256) :
    (s.addToHigh of).high.toNat = s.high.toNat + of ∧ (s.addToHigh of).PropOk ∧
      (s.addToHigh of).dst = s.dst ∧ (s.addToHigh of).carry = s.carry := by
  unfold addToHigh
  split
  · have hc := toNat_setLimb0 hs hof
    refine ⟨?_, ?_, rfl, rfl⟩
    · rw [toNat_addLow_of_lt (by rw [hc]; exact hlt), hc]
    · change (s.carryPropagation.setLimb0 of).toNat < 2 ^ 64
      rw [hc]
      exact hof
  · exact ⟨by omega, hs, rfl, rfl⟩

/-! ## Rows -/

/-- The carry read by the step at position `i` of a row: none at the start of the row. -/
def FmaState.carryIn (s : FmaState) (i : Nat) : Nat := if 0 < i then s.carry.toNat else 0

/-- What one step of a row leaves behind: the digit it fixed, and the carry into the next one. -/
structure DigitStep (s s' : FmaState) (product aIdx pos : Nat) : Prop where
  propOk : s'.PropOk
  length_le : s.dst.length ≤ s'.dst.length
  pos_lt : pos < s'.dst.length
  value : val s'.dst + radix 256 ^ (pos + 1) * s'.carry.toNat =
    val s.dst + radix 256 ^ pos * (product + s.carryIn aIdx)

theorem add_carry_room {p lo hi : Nat} (hp : lo + radix 256 * hi = p) (hsum : p + x + y < radix 256 * radix 256)
    (hof : radix 256 * of ≤ lo + x + y) : hi + of < radix 256 := by
  have h : radix 256 * (hi + of) < radix 256 * radix 256 := by
    calc radix 256 * (hi + of) = radix 256 * hi + radix 256 * of := by ring
      _ ≤ radix 256 * hi + (lo + x + y) := by omega
      _ < radix 256 * radix 256 := by omega
  exact lt_of_mul_lt_mul_left h (Nat.zero_le _)

theorem fmaDigit_append (a b : DelegatedU256) (aIdx : Nat) (hs : s.PropOk) :
    let low := mulLow a b
    let s₁ := { s with high := mulHigh a b }
    let s' := if 0 < aIdx then
        (({ s₁ with dst := s.dst ++ [addLow low s.carry] } : FmaState).addToHigh
          (addCarry low s.carry)).rotate
      else ({ s₁ with dst := s.dst ++ [low] } : FmaState).rotate
    DigitStep s s' (a.toNat * b.toNat) aIdx s.dst.length := by
  intro low s₁ s'
  have hprod : low.toNat + radix 256 * (mulHigh a b).toNat = a.toNat * b.toNat :=
    mulLow_add_mulHigh a b
  by_cases hi : 0 < aIdx
  · have hadd := toNat_addLow low s.carry
    have hc := addCarry_le_one low s.carry
    have hroom : (mulHigh a b).toNat + addCarry low s.carry < radix 256 := by
      have hlt := mul_add_add_lt a b s.carry 0
      exact add_carry_room hprod (y := 0) (by simpa using hlt) (by omega)
    obtain ⟨hhigh, hprop, hdst, -⟩ := FmaState.addToHigh_spec
      (s := { s₁ with dst := s.dst ++ [addLow low s.carry] }) hs (by omega) hroom
    have hs' : s' = (({ s₁ with dst := s.dst ++ [addLow low s.carry] } : FmaState).addToHigh
        (addCarry low s.carry)).rotate := if_pos hi
    rw [hs']
    refine ⟨hprop, ?_, ?_, ?_⟩
    · simp [FmaState.rotate, hdst]
    · simp [FmaState.rotate, hdst]
    · simp only [FmaState.rotate, hdst, hhigh, val_concat, FmaState.carryIn, if_pos hi, pow_succ]
      have key : (addLow low s.carry).toNat + radix 256 * ((mulHigh a b).toNat + addCarry low s.carry) =
          a.toNat * b.toNat + s.carry.toNat := by
        rw [mul_add]
        omega
      rw [← key]
      ring
  · have hs' : s' = ({ s₁ with dst := s.dst ++ [low] } : FmaState).rotate := if_neg hi
    rw [hs']
    refine ⟨hs, ?_, ?_, ?_⟩
    · simp [FmaState.rotate]
    · simp [FmaState.rotate]
    · simp only [FmaState.rotate, val_concat, FmaState.carryIn, if_neg hi, pow_succ]
      rw [← hprod]
      ring

theorem fmaDigit_update {d : DelegatedU256} (hs : s.PropOk) (hd : s.dst[pos]? = some d) :
    let low := mulLow a b
    let d0 := addLow d low
    let d1 := if 0 < aIdx then addLow d0 s.carry else d0
    let of1 := if 0 < aIdx then addCarry d0 s.carry else 0
    let s₁ : FmaState := { s with low := low, high := mulHigh a b, dst := s.dst.set pos d1 }
    DigitStep s (s₁.addToHigh (addCarry d low + of1)).rotate (a.toNat * b.toNat) aIdx pos := by
  intro low d0 d1 of1 s₁
  obtain ⟨hpos, hget⟩ := List.getElem?_eq_some_iff.mp hd
  have hprod : low.toNat + radix 256 * (mulHigh a b).toNat = a.toNat * b.toNat :=
    mulLow_add_mulHigh a b
  have hadd0 : d0.toNat + radix 256 * addCarry d low = d.toNat + low.toNat := toNat_addLow d low
  have hof0 := addCarry_le_one d low
  have hof1 : of1 ≤ 1 := by
    simp only [of1]
    split
    · exact addCarry_le_one _ _
    · omega
  have hadd1 : d1.toNat + radix 256 * of1 = d0.toNat + s.carryIn aIdx := by
    simp only [d1, of1, FmaState.carryIn]
    split
    · exact toNat_addLow _ _
    · simp
  have hroom : (mulHigh a b).toNat + (addCarry d low + of1) < radix 256 := by
    refine add_carry_room (x := d.toNat) (y := s.carryIn aIdx) hprod ?_ ?_
    · have h := mul_add_add_lt a b d s.carry
      have hle : s.carryIn aIdx ≤ s.carry.toNat := by
        unfold FmaState.carryIn
        split <;> omega
      omega
    · rw [mul_add]
      omega
  obtain ⟨hhigh, hprop, hdst, -⟩ := FmaState.addToHigh_spec (s := s₁) hs (by omega) hroom
  refine ⟨hprop, ?_, ?_, ?_⟩
  · simp [FmaState.rotate, hdst, s₁]
  · simpa [FmaState.rotate, hdst, s₁] using hpos
  · simp only [FmaState.rotate, hdst, hhigh, s₁]
    have hset := val_set s.dst pos d1 hpos
    rw [hget] at hset
    have key : d1.toNat + radix 256 * ((mulHigh a b).toNat + (addCarry d low + of1)) =
        d.toNat + (a.toNat * b.toNat + s.carryIn aIdx) := by
      rw [mul_add, mul_add]
      omega
    have hkey := congrArg (radix 256 ^ pos * ·) key
    simp only [mul_add] at hkey ⊢
    rw [pow_succ]
    have e : ∀ x, radix 256 ^ pos * radix 256 * x = radix 256 ^ pos * (radix 256 * x) := fun x => mul_assoc _ _ _
    simp only [e]
    omega

theorem fmaDigit_spec (hs : s.PropOk) (h : fmaDigit capacity a b aIdx bIdx s = some s') :
    DigitStep s s' (a.toNat * b.toNat) aIdx (aIdx + bIdx) := by
  unfold fmaDigit at h
  simp only [guard_bind_eq_some] at h
  obtain ⟨hle, h⟩ := h
  split at h
  · rename_i heq
    simp only [guard_bind_eq_some] at h
    have happ := fmaDigit_append a b aIdx hs
    rw [heq]
    split at h <;> rename_i hi <;> simp only [hi, if_true, if_false] at happ <;>
      obtain rfl := Option.some.inj h.2 <;> exact happ
  · cases hd : s.dst[aIdx + bIdx]? with
    | none => simp [hd] at h
    | some d =>
      rw [hd] at h
      obtain rfl := Option.some.inj h
      exact fmaDigit_update hs hd

/-- A whole row adds `as * b` at its position, up to the carry that is still to be stored. -/
theorem fmaRow_spec (as : List DelegatedU256) (hs : s.PropOk) (h : fmaRow capacity b bIdx as aIdx s = some s') :
    s'.PropOk ∧ (as ≠ [] → aIdx + as.length + bIdx ≤ s'.dst.length) ∧
      val s'.dst + radix 256 ^ (aIdx + as.length + bIdx) * s'.carryIn (aIdx + as.length) =
        val s.dst + radix 256 ^ (aIdx + bIdx) * (s.carryIn aIdx + val as * b.toNat) := by
  induction as generalizing aIdx s with
  | nil =>
    obtain rfl := Option.some.inj h
    exact ⟨hs, fun hne => absurd rfl hne, by simp⟩
  | cons a as ih =>
    simp only [fmaRow, Option.bind_eq_bind, Option.bind_eq_some_iff] at h
    obtain ⟨s₁, hstep, h⟩ := h
    have hd := fmaDigit_spec hs hstep
    obtain ⟨hprop, hlen, hval⟩ := ih hd.propOk h
    have hlen_eq : aIdx + 1 + as.length = aIdx + (a :: as).length := by
      rw [List.length_cons]; omega
    have hcarry : s₁.carryIn (aIdx + 1) = s₁.carry.toNat := if_pos (Nat.succ_pos _)
    rw [hlen_eq, hcarry] at hval
    refine ⟨hprop, fun _ => ?_, ?_⟩
    · by_cases hnil : as = []
      · subst hnil
        obtain rfl := Option.some.inj h
        have := hd.pos_lt
        simp only [List.length_singleton]
        omega
      · have := hlen hnil
        omega
    · have hv := hd.value
      rw [hval, val_cons]
      rw [show aIdx + 1 + bIdx = aIdx + bIdx + 1 by omega]
      calc val s₁.dst + radix 256 ^ (aIdx + bIdx + 1) * (s₁.carry.toNat + val as * b.toNat)
          = (val s₁.dst + radix 256 ^ (aIdx + bIdx + 1) * s₁.carry.toNat) +
              radix 256 ^ (aIdx + bIdx + 1) * (val as * b.toNat) := by ring
        _ = _ := by rw [hv, pow_succ]; ring

/-! ## Final carries -/

theorem modEq_of_eq (h : x = y) : x ≡ y [MOD n] := congrArg (· % n) h

theorem modEq_add_pow_mul {k : Nat} (h : n ≤ k) :
    x ≡ x + radix 256 ^ k * y [MOD radix 256 ^ n] := by
  have hdvd : radix 256 ^ n ∣ radix 256 ^ k * y := Dvd.dvd.mul_right (pow_dvd_pow _ h) _
  simpa using (Nat.ModEq.refl x).add ((Nat.modEq_zero_iff_dvd.mpr hdvd).symm)

theorem fmaPropagate_modEq (n pos of : Nat) (hs : s.PropOk) (hof : of ≤ 1) (hpos : pos < s.dst.length)
    (hn : maxDigits ≤ n + pos + 1) :
    (fmaPropagate maxDigits n pos of s).PropOk ∧
      val (fmaPropagate maxDigits n pos of s).dst ≡ val s.dst + radix 256 ^ (pos + 1) * of
        [MOD radix 256 ^ maxDigits] := by
  induction n generalizing pos of s with
  | zero => exact ⟨hs, modEq_add_pow_mul (by omega)⟩
  | succ n ih =>
    unfold fmaPropagate
    split
    · -- the carry goes into the digit at `pos + 1`
      have hc : (s.carryPropagation.setLimb0 of).toNat = of := toNat_setLimb0 hs (by omega)
      have hs₁ : FmaState.PropOk
          { s with carryPropagation := s.carryPropagation.setLimb0 of } := by
        change (s.carryPropagation.setLimb0 of).toNat < 2 ^ 64
        omega
      dsimp only
      split
      · exact ⟨hs, modEq_add_pow_mul ‹_›⟩
      split
      · rename_i heq
        refine ⟨hs₁, ?_⟩
        rw [val_concat, hc, heq]
      · rename_i hmax hne
        have hlt : pos + 1 < s.dst.length := by omega
        rw [List.getElem?_eq_getElem hlt]
        dsimp only
        have hadd := toNat_addLow s.dst[pos + 1] (s.carryPropagation.setLimb0 of)
        have hset := val_set s.dst (pos + 1)
          (addLow s.dst[pos + 1] (s.carryPropagation.setLimb0 of)) hlt
        obtain ⟨hprop, hval⟩ := ih (pos + 1)
          (addCarry s.dst[pos + 1] (s.carryPropagation.setLimb0 of))
          (s := { s with
            carryPropagation := s.carryPropagation.setLimb0 of
            dst := s.dst.set (pos + 1)
              (addLow s.dst[pos + 1] (s.carryPropagation.setLimb0 of)) })
          hs₁ (addCarry_le_one _ _) (by simpa using hlt) (by omega)
        refine ⟨hprop, hval.trans (modEq_of_eq ?_)⟩
        have hkey := congrArg (radix 256 ^ (pos + 1) * ·) hadd
        simp only [mul_add, hc] at hkey
        dsimp only
        rw [pow_succ _ (pos + 1), mul_assoc]
        omega
    · have : of = 0 := by omega
      subst this
      exact ⟨hs, modEq_of_eq (by simp)⟩

theorem fmaFinishRow_modEq (hs : s.PropOk) (h : fmaFinishRow capacity maxDigits pos s = some s') :
    s'.PropOk ∧
      val s'.dst ≡ val s.dst + radix 256 ^ pos * s.carry.toNat [MOD radix 256 ^ maxDigits] := by
  unfold fmaFinishRow at h
  split at h
  · obtain rfl := Option.some.inj h
    exact ⟨hs, modEq_add_pow_mul ‹_›⟩
  · simp only [guard_bind_eq_some] at h
    obtain ⟨-, h⟩ := h
    split at h
    · rename_i heq
      simp only [guard_bind_eq_some] at h
      obtain rfl := Option.some.inj h.2
      refine ⟨hs, ?_⟩
      rw [val_concat, heq]
    · cases hd : s.dst[pos]? with
      | none => simp [hd] at h
      | some d =>
        rw [hd] at h
        obtain rfl := Option.some.inj h
        obtain ⟨hpos, hget⟩ := List.getElem?_eq_some_iff.mp hd
        have hset := val_set s.dst pos (addLow d s.carry) hpos
        rw [hget] at hset
        have hadd := congrArg (radix 256 ^ pos * ·) (toNat_addLow d s.carry)
        simp only [mul_add] at hadd
        obtain ⟨hprop, hval⟩ := fmaPropagate_modEq (n := maxDigits) pos
          (addCarry d s.carry) (s := { s with dst := s.dst.set pos (addLow d s.carry) }) hs
          (addCarry_le_one d s.carry) (by simpa using hpos) (show maxDigits ≤ _ by omega)
        refine ⟨hprop, hval.trans (modEq_of_eq ?_)⟩
        dsimp only
        rw [pow_succ, mul_assoc]
        omega

/-! ## The whole product -/

/-- A row with its final carry adds `as * b` at `bIdx`, modulo what the carry drops. -/
theorem fmaRow_finish_modEq {as : List DelegatedU256} {s₁ : FmaState} (has : as ≠ []) (hs : s.PropOk)
    (hrow : fmaRow capacity b bIdx as 0 s = some s₁)
    (hfin : fmaFinishRow capacity maxDigits (as.length + bIdx) s₁ = some s') :
    s'.PropOk ∧ val s'.dst ≡ val s.dst + radix 256 ^ bIdx * (val as * b.toNat) [MOD radix 256 ^ maxDigits] := by
  obtain ⟨hp₁, -, hv₁⟩ := fmaRow_spec as hs hrow
  obtain ⟨hp₂, hv₂⟩ := fmaFinishRow_modEq hp₁ hfin
  refine ⟨hp₂, hv₂.trans (modEq_of_eq ?_)⟩
  simpa only [Nat.zero_add, FmaState.carryIn, lt_irrefl, if_false, if_pos (List.length_pos_of_ne_nil has)] using hv₁

theorem fmaRows_modEq {a : List DelegatedU256} (bs : List DelegatedU256) (hs : s.PropOk)
    (h : fmaRows capacity maxDigits a bs bIdx s = some s') :
    s'.PropOk ∧ val s'.dst ≡ val s.dst + radix 256 ^ bIdx * (val a * val bs)
      [MOD radix 256 ^ maxDigits] := by
  induction bs generalizing bIdx s with
  | nil =>
    obtain rfl := Option.some.inj h
    exact ⟨hs, modEq_of_eq (by simp)⟩
  | cons b bs ih =>
    simp only [fmaRows, Option.bind_eq_bind, Option.bind_eq_some_iff] at h
    obtain ⟨s₁, hrow, s₂, hfin, h⟩ := h
    have hstep : s₂.PropOk ∧ val s₂.dst ≡ val s.dst + radix 256 ^ bIdx * (val a * b.toNat)
        [MOD radix 256 ^ maxDigits] := by
      split at hfin
      · rename_i hnil
        obtain rfl := List.length_eq_zero_iff.mp hnil
        obtain rfl := Option.some.inj hrow
        obtain rfl := Option.some.inj hfin
        exact ⟨hs, modEq_of_eq (by simp)⟩
      · rename_i hne
        exact fmaRow_finish_modEq (by simpa using hne) hs hrow hfin
    obtain ⟨hp, hv⟩ := ih hstep.1 h
    refine ⟨hp, hv.trans ((hstep.2.add_right _).trans (modEq_of_eq ?_))⟩
    rw [val_cons, pow_succ]
    ring

/-- `dst_scratch` after a call of `fma`: the product modulo the digits kept. -/
theorem fma_spec {dst a b res : BigintRepr} {c : Option BigintRepr} {sc sc' : DigitScratch}
    (hs : sc.carryPropagation.toNat < 2 ^ 64) (h : fma dst a b c sc maxDigits = some (res, sc')) :
    sc'.carryPropagation.toNat < 2 ^ 64 ∧ res.digits ≤ maxDigits ∧
      res.capacity = dst.capacity ∧
      res.toNat = (a.toNat * b.toNat + (c.map toNat).getD 0) % radix 256 ^ maxDigits := by
  unfold fma at h
  simp only [guard_bind_eq_some] at h
  obtain ⟨hcap, h⟩ := h
  split at h
  · rename_i hzero
    simp only [guard_bind_eq_some] at h
    obtain ⟨rfl, rfl⟩ := Prod.mk.inj (Option.some.inj h.2)
    exact ⟨hs, Nat.zero_le _, rfl, by simp [hzero, toNat, withCapacity, Nat.mod_one]⟩
  · simp only [Option.bind_eq_bind, Option.bind_eq_some_iff, guard_eq_some, exists_const] at h
    obtain ⟨-, s', hrows, hlen, dst', hstore, h⟩ := h
    obtain ⟨rfl, rfl⟩ := Prod.mk.inj (Option.some.inj h)
    obtain ⟨hp, hv⟩ := fmaRows_modEq b.backing (by exact hs) hrows
    unfold store at hstore
    split at hstore
    · obtain rfl := Option.some.inj hstore
      refine ⟨hp, hlen, rfl, ?_⟩
      have hlt : val s'.dst < radix 256 ^ maxDigits :=
        (val_lt s'.dst).trans_le (Nat.pow_le_pow_right (radix_pos 256) hlen)
      have hc : val ((c.map backing).getD []) = (c.map toNat).getD 0 := by cases c <;> rfl
      change val s'.dst = _
      rw [← Nat.mod_eq_of_lt hlt]
      refine hv.trans (modEq_of_eq ?_)
      dsimp only
      rw [hc, pow_zero, one_mul, add_comm]
      rfl
    · cases hstore

end ZkOs.Modexp.BigintRepr
