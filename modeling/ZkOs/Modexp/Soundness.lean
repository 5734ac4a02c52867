import ZkOs.Modexp.Fma

/-!
# Soundness of the delegated modular exponentiation

The check of a quotient and remainder is made on the digits of the dividend only, so an advisor
may give a quotient whose product with the modulus overflows them: the overflow is dropped
(`droppedCarry`).  A step is right exactly when the dropped amount is a multiple of the modulus
(`reductionStep_modEq_iff`), and a run all of whose answers are of that kind returns
`base ^ exponent mod modulus` (`modpow_eq_of_dvd_dropped`).
-/

namespace ZkOs.Modexp

open Digits BigintRepr OracleM

/-! ## Checks -/

variable {a b x m r current modulus other : BigintRepr} {t : List (Exchange ReductionQuery fun _ => ReductionAdvice)}
    {pool pool' : ScratchPool} {bytes : List UInt8} {n : Nat}

theorem assertEq_toNat (h : assertEq a b = true) : a.toNat = b.toNat := by
  obtain ⟨xs, capx, hx⟩ := a
  obtain ⟨ys, capy, hy⟩ := b
  simp only [assertEq, digits, Bool.and_eq_true] at h
  simp only [BigintRepr.toNat]
  clear hx hy
  induction xs generalizing ys with
  | nil =>
    have hz : ∀ d ∈ ys, d = 0 := by simpa using h.2
    rw [val_eq_zero_of_forall hz, val_nil]
  | cons x xs ih =>
    cases ys with
    | nil =>
      have hz : ∀ d ∈ x :: xs, d = 0 := by simpa using h.1.2
      rw [val_eq_zero_of_forall hz, val_nil]
    | cons y ys =>
      simp only [List.zip_cons_cons, List.all_cons, Bool.and_eq_true, beq_iff_eq,
        List.length_cons, Nat.succ_min_succ, List.drop_succ_cons] at h
      rw [val_cons, val_cons, h.1.1.1, ih ys ⟨⟨h.1.1.2, h.1.2⟩, h.2⟩]

theorem borrowChain_iff (ms xs : List DelegatedU256) (borrow : Bool)
    (h : ms.length = xs.length) :
    borrowChain ms xs borrow = true ↔ val xs < val ms + borrow.toNat := by
  induction ms generalizing xs borrow with
  | nil =>
    obtain rfl : xs = [] := List.length_eq_zero_iff.mp h.symm
    cases borrow <;> simp [borrowChain]
  | cons m ms ih =>
    cases xs with
    | nil => simp at h
    | cons x xs =>
      rw [borrowChain, ih _ _ (by simpa using h), val_cons, val_cons,
        DelegatedU256.subAndNegateBorrow]
      have hx := toNat_lt_radix x
      have hm := toNat_lt_radix m
      have hb : borrow.toNat ≤ 1 := by cases borrow <;> simp
      have hmul : ∀ n k : Nat, n < k → radix 256 * n + radix 256 ≤ radix 256 * k :=
        fun n k hnk => by rw [← Nat.mul_succ]; exact Nat.mul_le_mul_left _ hnk
      by_cases hlt : x.toNat < m.toNat + borrow.toNat
      · simp only [hlt, decide_true, Bool.toNat_true]
        constructor
        · intro hv
          have := Nat.mul_le_mul_left (radix 256) (Nat.lt_succ_iff.mp hv)
          omega
        · intro hv
          by_contra hc
          have := hmul _ _ (Nat.lt_of_succ_le (Nat.not_lt.mp hc))
          omega
      · simp only [hlt, decide_false, Bool.toNat_false, Nat.add_zero]
        constructor
        · intro hv
          have := hmul _ _ hv
          omega
        · intro hv
          by_contra hc
          have := Nat.mul_le_mul_left (radix 256) (Nat.not_lt.mp hc)
          omega

/-- The top digit in use is not zero. -/
def BigintRepr.Normalised (x : BigintRepr) : Prop := ∀ h : x.backing ≠ [], x.backing.getLast h ≠ 0

theorem assertFullyReduced_lt (hm : m.Normalised) (h : assertFullyReduced x m = true) : x.toNat < m.toNat := by
  simp only [assertFullyReduced, Bool.and_eq_true, Bool.or_eq_true, decide_eq_true_eq] at h
  simp only [digits] at h
  obtain ⟨hle, h⟩ := h
  rcases Nat.lt_or_eq_of_le hle with hlt | heq
  · have hne : m.backing ≠ [] := by
      intro hnil
      simp [hnil] at hlt
    calc x.toNat < radix 256 ^ x.backing.length := val_lt _
      _ ≤ radix 256 ^ (m.backing.length - 1) :=
          Nat.pow_le_pow_right (radix_pos 256) (by omega)
      _ ≤ m.toNat := le_val_of_getLast_ne_zero hne (hm hne)
  · have hb := h.resolve_left (by omega)
    exact (borrowChain_iff _ _ _ heq.symm).mp hb

/-! ## One reduction -/

/-- The part of `q * m + r` that lies above the digits of the dividend and is not checked. -/
def droppedCarry (e : Exchange ReductionQuery fun _ => ReductionAdvice) : Nat :=
  (val e.2.quotient * val e.1.m + val e.2.remainder) / radix 256 ^ e.1.a.length *
    radix 256 ^ e.1.a.length

theorem getReductionOpAdvice_runs {qDst rDst q : BigintRepr} (h : (getReductionOpAdvice a m qDst rDst).Runs t (q, r)) :
    ∃ e : Exchange ReductionQuery fun _ => ReductionAdvice, t = [e] ∧
      e.1.a = a.backing ∧ e.1.m = m.backing ∧
      e.2.quotient = q.backing ∧ e.2.remainder = r.backing := by
  simp only [getReductionOpAdvice, runs_query_bind, runs_ofOption_bind, runs_pure] at h
  obtain ⟨advice, t', rfl, q', hq, r', hr, rfl, he⟩ := h
  obtain ⟨rfl, rfl⟩ := Prod.mk.inj he
  refine ⟨_, rfl, rfl, rfl, ?_, ?_⟩
  · simp only [store] at hq
    split at hq
    · rw [← Option.some.inj hq]
    · cases hq
  · simp only [store] at hr
    split at hr
    · rw [← Option.some.inj hr]
    · cases hr

/-- The invariant on the digit buffers between two steps. -/
def ScratchPool.Ok (pool : ScratchPool) : Prop := pool.digit.carryPropagation.toNat < 2 ^ 64

theorem ScratchPool.ok_of_zero {s0 s1 s2 s3 : BigintRepr} :
    ScratchPool.Ok ⟨s0, s1, s2, s3, ⟨0, 0, 0, 0⟩⟩ :=
  (by decide : (0 : DelegatedU256).toNat < 2 ^ 64)

theorem reduceInitially_runs (hp : pool.Ok) (h : (reduceInitially current modulus pool).Runs t (r, pool')) :
    pool'.Ok ∧ current.toNat ≡ r.toNat [MOD modulus.toNat] := by
  rw [reduceInitially, runs_bind] at h
  obtain ⟨⟨q, r'⟩, t₁, t₂, -, -, h⟩ := h
  simp only [runs_require_bind, runs_ofOption_bind, runs_pure] at h
  obtain ⟨hr, -, ⟨product, digit⟩, hfma, heq, -, he⟩ := h
  obtain ⟨rfl, rfl⟩ := Prod.mk.inj he
  obtain ⟨hprop, -, -, hval⟩ := fma_spec hp hfma
  refine ⟨hprop, ?_⟩
  simp only [Option.map_some, Option.getD_some] at hval
  -- nothing is dropped: `r` has at most as many digits as the modulus
  have hfits : q.toNat * modulus.toNat + r'.toNat <
      radix 256 ^ (q.digits + modulus.digits) := by
    have hq : q.toNat + 1 ≤ radix 256 ^ q.digits := val_lt q.backing
    have hm : modulus.toNat ≤ radix 256 ^ modulus.digits := (val_lt modulus.backing).le
    have hr' : r'.toNat < radix 256 ^ modulus.digits :=
      (val_lt r'.backing).trans_le (Nat.pow_le_pow_right (radix_pos 256) hr)
    calc q.toNat * modulus.toNat + r'.toNat
        < q.toNat * radix 256 ^ modulus.digits + radix 256 ^ modulus.digits :=
          Nat.add_lt_add_of_le_of_lt (Nat.mul_le_mul_left _ hm) hr'
      _ = (q.toNat + 1) * radix 256 ^ modulus.digits := by ring
      _ ≤ radix 256 ^ q.digits * radix 256 ^ modulus.digits := Nat.mul_le_mul_right _ hq
      _ = radix 256 ^ (q.digits + modulus.digits) := (pow_add _ _ _).symm
  rw [Nat.mod_eq_of_lt hfits] at hval
  rw [assertEq_toNat heq, hval]
  exact Nat.modEq_iff_dvd' (Nat.le_add_left _ _) |>.mpr (by simp) |>.symm

theorem reductionStep_runs (hp : pool.Ok)
    (h : (reductionStep current other modulus (current.digits + other.digits) pool).Runs t
      (r, pool')) :
    pool'.Ok ∧ ∃ e q, t = [e] ∧
      current.toNat * other.toNat + droppedCarry e = q * modulus.toNat + r.toNat := by
  simp only [reductionStep, runs_require_bind, runs_ofOption_bind] at h
  obtain ⟨-, -, -, -, -, ⟨product, digit⟩, hmul, h⟩ := h
  rw [runs_bind] at h
  obtain ⟨⟨q, r'⟩, t₁, t₂, rfl, hadv, h⟩ := h
  simp only [runs_require_bind, runs_ofOption_bind, runs_pure] at h
  obtain ⟨-, -, ⟨check, digit'⟩, hcheck, heq, rfl, he⟩ := h
  obtain ⟨rfl, rfl⟩ := Prod.mk.inj he
  obtain ⟨hprop, -, -, hprod⟩ := fma_spec hp hmul
  obtain ⟨hprop', -, -, hsum⟩ := fma_spec hprop hcheck
  obtain ⟨e, rfl, ha, hm, hq, hr⟩ := getReductionOpAdvice_runs hadv
  refine ⟨hprop', e, q.toNat, by simp, ?_⟩
  simp only [Option.map_none, Option.getD_none, Nat.add_zero] at hprod
  simp only [Option.map_some, Option.getD_some] at hsum
  have hfits : current.toNat * other.toNat < radix 256 ^ (current.digits + other.digits) := by
    rw [pow_add]
    exact Nat.mul_lt_mul_of_lt_of_lt (val_lt _) (val_lt _)
  rw [Nat.mod_eq_of_lt hfits] at hprod
  have hdrop : droppedCarry e = (q.toNat * modulus.toNat + r'.toNat) /
      radix 256 ^ product.digits * radix 256 ^ product.digits := by
    rw [droppedCarry, ha, hm, hq, hr]
    rfl
  rw [hdrop, ← hprod, assertEq_toNat heq, hsum, Nat.mod_add_div']

theorem reductionStep_modEq_iff (hp : pool.Ok)
    (h : (reductionStep current other modulus (current.digits + other.digits) pool).Runs t
      (r, pool')) :
    current.toNat * other.toNat ≡ r.toNat [MOD modulus.toNat] ↔
      ∀ e ∈ t, modulus.toNat ∣ droppedCarry e := by
  obtain ⟨-, e, q, rfl, hval⟩ := reductionStep_runs hp h
  have hr : q * modulus.toNat + r.toNat ≡ r.toNat [MOD modulus.toNat] := by
    simp [Nat.ModEq]
  rw [← hval] at hr
  simp only [List.mem_singleton, forall_eq]
  rw [← Nat.modEq_zero_iff_dvd]
  constructor
  · intro hc
    have h2 : current.toNat * other.toNat + droppedCarry e ≡
        current.toNat * other.toNat + 0 [MOD modulus.toNat] := hr.trans hc.symm
    exact Nat.ModEq.add_left_cancel' _ h2
  · intro hd
    exact ((Nat.ModEq.refl (current.toNat * other.toNat)).add hd).symm.trans hr

/-! ## Parsing -/

theorem toNat_fromBeBytes (h : bytes.length ≤ 32) :
    (DelegatedU256.fromBeBytes bytes).toNat = beNat bytes := by
  rw [DelegatedU256.fromBeBytes, BitVec.toNat_ofNat]
  apply Nat.mod_eq_of_lt
  calc beNat bytes < 256 ^ bytes.length := beNat_lt bytes
    _ ≤ 256 ^ 32 := Nat.pow_le_pow_right (by decide) h
    _ = 2 ^ 256 := by decide

theorem radix_256_pow (k : Nat) : radix 256 ^ k = 256 ^ (32 * k) := by
  rw [radix, pow_mul]
  norm_num

theorem length_chunks32 (k : Nat) (bytes : List UInt8) : (chunks32 k bytes).length = k := by
  induction k generalizing bytes with
  | zero => rfl
  | succ k ih => rw [chunks32, List.length_cons, ih]

theorem val_chunks32 (k : Nat) (bytes : List UInt8) (h : bytes.length = 32 * k) :
    val ((chunks32 k bytes).reverse.map DelegatedU256.fromBeBytes) = beNat bytes := by
  induction k generalizing bytes with
  | zero =>
    obtain rfl : bytes = [] := List.length_eq_zero_iff.mp (by omega)
    rfl
  | succ k ih =>
    have hdrop : (bytes.drop 32).length = 32 * k := by rw [List.length_drop]; omega
    rw [chunks32, List.reverse_cons, List.map_append, List.map_singleton, val_concat, ih _ hdrop,
      List.length_map, List.length_reverse, length_chunks32, toNat_fromBeBytes (by simp),
      radix_256_pow, ← hdrop]
    conv_rhs => rw [← List.take_append_drop 32 bytes, beNat_append]
    ring

theorem val_rawDigits {rem : List UInt8} (h : rem.length ≤ 32) (chunks : List (List UInt8)) :
    val (rawDigits rem chunks) = val (chunks.reverse.map DelegatedU256.fromBeBytes) +
      radix 256 ^ chunks.length * beNat rem := by
  unfold rawDigits
  rw [val_append, List.length_map, List.length_reverse]
  cases rem with
  | nil => rfl
  | cons b bs =>
    rw [List.isEmpty_cons, if_neg Bool.false_ne_true, val_cons, val_nil, toNat_fromBeBytes h,
      mul_zero, add_zero]

theorem val_rawDigits_asRchunks32 (bytes : List UInt8) :
    val (rawDigits (asRchunks32 bytes).1 (asRchunks32 bytes).2) = beNat bytes := by
  have hlen : (bytes.drop (bytes.length % 32)).length = 32 * (bytes.length / 32) := by
    rw [List.length_drop]; omega
  have hrem : (bytes.take (bytes.length % 32)).length ≤ 32 := by rw [List.length_take]; omega
  simp only [asRchunks32]
  rw [val_rawDigits hrem]
  simp only [val_chunks32 _ _ hlen, length_chunks32, radix_256_pow, ← hlen]
  conv_rhs => rw [← List.take_append_drop (bytes.length % 32) bytes, beNat_append]
  ring

theorem fromBigEndian_spec {capacity : Nat}
    (h : fromBigEndian (asRchunks32 bytes).1 (asRchunks32 bytes).2 capacity = some x) :
    x.toNat = beNat bytes ∧ x.Normalised := by
  simp only [fromBigEndian, store] at h
  split at h
  · obtain rfl := Option.some.inj h
    refine ⟨(val_rdropWhile_zero _).trans (val_rawDigits_asRchunks32 bytes), fun hne => ?_⟩
    simpa using List.rdropWhile_last_not (· == 0) _ hne
  · cases h

theorem withCapacity_spec (capacity : Nat) :
    (withCapacity capacity).toNat = beNat [] ∧ (withCapacity capacity).Normalised :=
  ⟨rfl, fun h => absurd rfl h⟩

theorem fromBigEndianWithDoubleCapacity_spec (h : fromBigEndianWithDoubleCapacity bytes = some x) :
    x.toNat = beNat bytes ∧ x.Normalised := by
  unfold fromBigEndianWithDoubleCapacity at h
  split at h
  · rename_i hnil
    rw [List.isEmpty_iff.mp hnil, ← Option.some.inj h]
    exact withCapacity_spec 0
  · exact fromBigEndian_spec h

theorem fromBigEndianWithDoubleCapacityOrMinCapacity_spec {minCapacity : Nat}
    (h : fromBigEndianWithDoubleCapacityOrMinCapacity bytes minCapacity = some x) :
    x.toNat = beNat bytes ∧ x.Normalised := by
  unfold fromBigEndianWithDoubleCapacityOrMinCapacity at h
  split at h
  · rename_i hnil
    rw [List.isEmpty_iff.mp hnil, ← Option.some.inj h]
    exact withCapacity_spec minCapacity
  · exact fromBigEndian_spec h

/-! ## The exponent -/

/-- Append bits, most significant first, to a number. -/
def appendBits (n : Nat) (bits : List Bool) : Nat := bits.foldl (fun n b => 2 * n + b.toNat) n

theorem le_appendBits (n : Nat) (bits : List Bool) : n ≤ appendBits n bits := by
  induction bits generalizing n with
  | nil => exact le_rfl
  | cons b bits ih =>
    have := ih (2 * n + b.toNat)
    simp only [appendBits, List.foldl_cons] at this ⊢
    omega

theorem appendBits_testBit (n x k : Nat) :
    appendBits n ((List.range k).reverse.map x.testBit) = n * 2 ^ k + x % 2 ^ k := by
  induction k generalizing n with
  | zero => simp [appendBits, Nat.mod_one]
  | succ k ih =>
    have hstep := ih (2 * n + (x.testBit k).toNat)
    simp only [appendBits] at hstep ⊢
    rw [List.range_succ, List.reverse_append, List.reverse_singleton, List.singleton_append,
      List.map_cons, List.foldl_cons, hstep, Nat.mod_pow_succ, Nat.toNat_testBit, pow_succ]
    ring

theorem appendBits_bitsBE (n : Nat) (byte : UInt8) :
    appendBits n (bitsBE byte) = n * 256 + byte.toNat := by
  have h := appendBits_testBit n byte.toNat 8
  rwa [Nat.mod_eq_of_lt (show byte.toNat < 2 ^ 8 from byte.toNat_lt)] at h

theorem appendBits_flatMap (n : Nat) (exp : List UInt8) :
    appendBits n (exp.flatMap bitsBE) = exp.foldl (fun n b => n * 256 + b.toNat) n := by
  induction exp generalizing n with
  | nil => rfl
  | cons byte exp ih =>
    have hstep := appendBits_bitsBE n byte
    simp only [appendBits] at ih hstep ⊢
    rw [List.flatMap_cons, List.foldl_append, hstep, ih]
    rfl

/-! ## Square and multiply -/

/-- Every answer of the transcript drops a multiple of the modulus. -/
def DropsMultiples (m : Nat) (t : List (Exchange ReductionQuery fun _ => ReductionAdvice)) : Prop :=
  ∀ e ∈ t, m ∣ droppedCarry e

theorem squareStep_modEq (hp : pool.Ok) (h : (squareStep a modulus pool).Runs t (r, pool'))
    (ht : DropsMultiples modulus.toNat t) :
    pool'.Ok ∧ a.toNat * a.toNat ≡ r.toNat [MOD modulus.toNat] := by
  rw [squareStep, Nat.mul_two] at h
  exact ⟨(reductionStep_runs hp h).1, (reductionStep_modEq_iff hp h).mpr ht⟩

theorem mulStep_modEq (hp : pool.Ok) (h : (mulStep a b modulus pool).Runs t (r, pool'))
    (ht : DropsMultiples modulus.toNat t) :
    pool'.Ok ∧ a.toNat * b.toNat ≡ r.toNat [MOD modulus.toNat] :=
  ⟨(reductionStep_runs hp h).1, (reductionStep_modEq_iff hp h).mpr ht⟩

theorem pow_modEq_zero {b m k : Nat} (h : 0 ≡ b ^ n [MOD m]) (hk : n ≤ k) :
    0 ≡ b ^ k [MOD m] := by
  have h1 := h.mul_right (b ^ (k - n))
  rwa [Nat.zero_mul, ← pow_add, Nat.add_sub_cancel' hk] at h1

theorem toNat_eq_zero_of_digits (h : x.digits = 0) : x.toNat = 0 := by
  rw [BigintRepr.toNat, List.length_eq_zero_iff.mp h, val_nil]

/-- The accumulator is the power for the exponent bits read so far; before the first set bit it
already holds the base. -/
theorem exponentLoop_modEq {base : BigintRepr} (bits : List Bool) {found found' : Bool} {current' : BigintRepr}
    (hp : pool.Ok) (hfound : found = decide (0 < n)) (hcur : current.toNat ≡ base.toNat ^ max n 1 [MOD modulus.toNat])
    (h : (exponentLoop base modulus bits found current pool).Runs t (found', current'))
    (ht : DropsMultiples modulus.toNat t) :
    found' = decide (0 < appendBits n bits) ∧
      current'.toNat ≡ base.toNat ^ max (appendBits n bits) 1 [MOD modulus.toNat] := by
  induction bits generalizing found current pool n t with
  | nil =>
    obtain ⟨-, he⟩ := h
    obtain ⟨rfl, rfl⟩ := Prod.mk.inj he
    exact ⟨hfound, hcur⟩
  | cons bit bits ih =>
    change found' = decide (0 < appendBits (2 * n + bit.toNat) bits) ∧ _ ≡
      base.toNat ^ max (appendBits (2 * n + bit.toNat) bits) 1 [MOD _]
    have hgrow := le_appendBits (2 * n + bit.toNat) bits
    cases found with
    | false =>
      have hn : n = 0 := by simpa using hfound.symm
      subst hn
      refine ih hp ?_ ?_ h ht
      · cases bit <;> rfl
      · cases bit <;> exact hcur
    | true =>
      have hn : 0 < n := by simpa using hfound.symm
      have hone : 1 ≤ appendBits (2 * n + bit.toNat) bits := by omega
      have hfound' : true = decide (0 < appendBits (2 * n + bit.toNat) bits) := by
        rw [true_eq_decide_iff]; exact hone
      rw [max_eq_left (by omega)] at hcur
      rw [max_eq_left hone]
      rw [exponentLoop] at h
      split at h
      · -- the accumulator has no digits: leave the loop with zero
        rename_i hzero
        obtain ⟨-, he⟩ := h
        obtain ⟨rfl, rfl⟩ := Prod.mk.inj he
        rw [toNat_eq_zero_of_digits hzero] at hcur ⊢
        exact ⟨hfound', pow_modEq_zero hcur (by omega)⟩
      · rw [runs_bind] at h
        obtain ⟨⟨sq, pool₁⟩, t₁, t₂, rfl, hsq, h⟩ := h
        obtain ⟨hp₁, hsqm⟩ := squareStep_modEq hp hsq fun e he => ht e (by simp [he])
        have hsq' : sq.toNat ≡ base.toNat ^ (2 * n) [MOD modulus.toNat] := by
          rw [two_mul, pow_add]
          exact hsqm.symm.trans (hcur.mul hcur)
        have ht₂ : DropsMultiples modulus.toNat t₂ := fun e he => ht e (by simp [he])
        dsimp only at h
        split at h
        · rename_i hbit
          subst hbit
          split at h
          · rename_i hzero
            obtain ⟨-, he⟩ := h
            obtain ⟨rfl, rfl⟩ := Prod.mk.inj he
            rw [toNat_eq_zero_of_digits hzero] at hsq' ⊢
            exact ⟨hfound', pow_modEq_zero hsq' (by omega)⟩
          · rw [runs_bind] at h
            obtain ⟨⟨pr, pool₂⟩, t₃, t₄, rfl, hmul, h⟩ := h
            obtain ⟨hp₂, hmulm⟩ := mulStep_modEq hp₁ hmul fun e he => ht₂ e (by simp [he])
            have hres := ih (n := 2 * n + true.toNat) hp₂ (by simp) (by
              rw [Bool.toNat_true, max_eq_left (by omega), pow_succ]
              exact hmulm.symm.trans (hsq'.mul_right _)) h fun e he => ht₂ e (by simp [he])
            rwa [max_eq_left hone] at hres
        · rename_i hbit
          obtain rfl : bit = false := by simpa using hbit
          have hres := ih (n := 2 * n + false.toNat) hp₁ (by simp [hn]) (by
            rw [Bool.toNat_false, Nat.add_zero, max_eq_left (by omega)]
            exact hsq') h ht₂
          rwa [max_eq_left hone] at hres

/-- Both ways into the loop leave a representative of the base with at most the digits of the
modulus. -/
theorem initialCurrent_modEq (hp : pool.Ok)
    (h : (if m.digits ≤ x.digits then reduceInitially x m pool else OracleM.ret (x, pool)).Runs t
      (current, pool')) :
    pool'.Ok ∧ x.toNat ≡ current.toNat [MOD m.toNat] := by
  split at h
  · exact reduceInitially_runs hp h
  · obtain ⟨-, he⟩ := h
    obtain ⟨rfl, rfl⟩ := Prod.mk.inj he
    exact ⟨hp, Nat.ModEq.refl _⟩

theorem modpow_runs {exp : List UInt8} (hm : m.Normalised) (h : (modpow x exp m).Runs t r)
    (ht : DropsMultiples m.toNat t) (hone : beNat exp = 0 → m.toNat ≠ 1) : r.toNat = x.toNat ^ beNat exp % m.toNat := by
  simp only [modpow, runs_require_bind] at h
  obtain ⟨hpos, h⟩ := h
  rw [runs_bind] at h
  obtain ⟨⟨current, pool⟩, t₁, t₂, rfl, hred, h⟩ := h
  simp only [runs_require_bind, runs_ofOption_bind] at h
  obtain ⟨-, base, hbase, h⟩ := h
  rw [runs_bind] at h
  obtain ⟨⟨found, acc⟩, t₃, t₄, rfl, hloop, h⟩ := h
  obtain ⟨hpool, hx⟩ := initialCurrent_modEq ScratchPool.ok_of_zero hred
  have hbase' : base.toNat = current.toNat := by
    unfold duplicateWithCapacity at hbase
    split at hbase
    · rw [← Option.some.inj hbase]; rfl
    · cases hbase
  have hstart : current.toNat ≡ base.toNat ^ max 0 1 [MOD m.toNat] :=
    modEq_of_eq (by simp [hbase'])
  obtain ⟨hfound, hacc⟩ := exponentLoop_modEq _ hpool (by simp) hstart hloop
    fun e he => ht e (by simp [he])
  have hexp : appendBits 0 (exp.flatMap bitsBE) = beNat exp := appendBits_flatMap 0 exp
  rw [hexp, hbase'] at hacc
  rw [hexp] at hfound
  dsimp only at h
  split at h
  · rename_i hf
    rw [hf, true_eq_decide_iff] at hfound
    rw [max_eq_left hfound] at hacc
    rw [runs_require_bind] at h
    obtain ⟨hreduced, -, rfl⟩ := h
    rw [← Nat.mod_eq_of_lt (assertFullyReduced_lt hm hreduced)]
    exact hacc.trans (hx.pow _).symm
  · rename_i hf
    obtain ⟨-, rfl⟩ := h
    have hzero : beNat exp = 0 := by simpa [hfound] using hf
    have hmpos : 0 < m.toNat := by
      have hne : m.backing ≠ [] := List.ne_nil_of_length_pos hpos
      exact (Nat.pow_pos (radix_pos 256)).trans_le (le_val_of_getLast_ne_zero hne (hm hne))
    have hm1 := hone hzero
    rw [hzero, pow_zero, Nat.mod_eq_of_lt (by omega)]
    rfl

/-- A run of the delegated exponentiation against any advisor, none of whose answers drops
anything but a multiple of the modulus, returns the modular power. -/
theorem modpow_eq_of_drops_multiples {σ : Type} (advisor : ModexpAdvisor σ)
    (base exp modulus : List UInt8) {x m r : BigintRepr} {s s' : σ}
    {t : List (Exchange ReductionQuery fun _ => ReductionAdvice)}
    (hx : fromBigEndianWithDoubleCapacityOrMinCapacity base m.capacity = some x)
    (hm : fromBigEndianWithDoubleCapacity modulus = some m)
    (hrun : (modpow x exp m).run advisor s = some (r, t, s'))
    (hdrop : DropsMultiples (beNat modulus) t)
    (hone : beNat exp = 0 → beNat modulus ≠ 1) :
    r.toNat = beNat base ^ beNat exp % beNat modulus := by
  obtain ⟨hmv, hmn⟩ := fromBigEndianWithDoubleCapacity_spec hm
  obtain ⟨hxv, -⟩ := fromBigEndianWithDoubleCapacityOrMinCapacity_spec hx
  rw [← hmv, ← hxv]
  rw [← hmv] at hdrop hone
  exact modpow_runs hmn (runs_of_run hrun) hdrop hone

/-- An oracle that answers the queries with the given word streams, in order. -/
def OracleAdvisor.replay : ModexpAdvisor (List (List (BitVec 32))) :=
  OracleAdvisor.respond fun answers _ =>
    match answers with
    | [] => none
    | words :: answers => some (words, answers)

theorem modpow_two_squared_mod_five :
    ∃ r t, (modpow ⟨[2], 2, by decide⟩ [2] ⟨[5], 2, by decide⟩).run OracleAdvisor.replay
        [[0, 1, 2], [0, 1, 4]] = some (r, t, []) ∧
      r.toNat = beNat [2] ^ beNat [2] % beNat [5] := by
  have hrun : (modpow ⟨[2], 2, by decide⟩ [2] ⟨[5], 2, by decide⟩).run OracleAdvisor.replay
      [[0, 1, 2], [0, 1, 4]] = some (⟨[4], 2, by decide⟩,
        [⟨⟨[2], [5], 2, 2⟩, ⟨[], [2]⟩⟩, ⟨⟨[4, 0], [5], 2, 2⟩, ⟨[], [4]⟩⟩], []) := by
    rfl
  refine ⟨_, _, hrun, modpow_eq_of_drops_multiples OracleAdvisor.replay [2] [2] [5] rfl rfl hrun
    ?_ (by decide)⟩
  intro e he
  simp only [List.mem_cons, List.not_mem_nil, or_false] at he
  rcases he with rfl | rfl <;> decide

/-- The quotient `(4 * 2^512 + 1) / 5 = 0xcc...cd` has two digits and passes the digit bound; the overflow of
its product with the modulus `5` is dropped, and the wrong remainder `3` of `2 * 2` is accepted. -/
theorem modpow_accepts_wrong_remainder :
    ∃ r t, (modpow ⟨[2], 2, by decide⟩ [2] ⟨[5], 2, by decide⟩).run OracleAdvisor.replay
        [[0, 1, 2], [16, 1, 0xcccccccd] ++ List.replicate 15 0xcccccccc ++ [3]] =
          some (r, t, []) ∧
      fromBigEndianWithDoubleCapacityOrMinCapacity [2] 2 = some ⟨[2], 2, by decide⟩ ∧
      fromBigEndianWithDoubleCapacity [5] = some ⟨[5], 2, by decide⟩ ∧
      r.toNat ≠ beNat [2] ^ beNat [2] % beNat [5] := by
  refine ⟨⟨[3], 2, by decide⟩, _, rfl, rfl, rfl, by decide⟩

end ZkOs.Modexp
