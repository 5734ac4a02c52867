import ZkOs.Bootloader.NativeUsed

/-!
# The gas that a transaction is charged for

`compute_gas_refund` works with machine integers: it subtracts without checks and compares the two notions of gas
as `i64`. None of these operations overflows for the resources that a transaction can have left.

* `checkedRefund` : the computation with every subtraction, addition and cast checked;
* `computeGasRefund_run` : the code computes the same whenever all checks pass;
* `gasLimit_of_resources` : gas limits that are handed out as ergs fit in an `i64`;
* `gas_used_eq` : gas used is the larger of the gas spent without the capped refund and the gas value of the native used.
-/

namespace ZkOs.Bootloader

open SysM ZkOs.Action

variable {env : Env}

/-! ## Checked arithmetic -/

variable {w nativeUsed : Nat} {a b c : BitVec w} {gasUsed gasLimit : U64} {delta : Int} {npg : U256}

theorem checkedSub_of_le (h : b.toNat ≤ a.toNat) : checkedSub a b = some (a - b) :=
  if_pos (BitVec.le_def.mpr h)

theorem checkedSub_eq (h : checkedSub a b = some c) : a - b = c := by
  unfold checkedSub at h
  split at h <;> cases h
  rfl

theorem checkedAdd_eq (h : checkedAdd a b = some c) : a + b = c := by
  unfold checkedAdd at h
  split at h <;> cases h
  rfl

/-- `as i64` for a value that the cast keeps. -/
def toI64 (n : Nat) : Option Int := if n < 2 ^ 63 then some n else none

def checkedSubI64 (a b : Int) : Option Int := if -2 ^ 63 ≤ a - b ∧ a - b < 2 ^ 63 then some (a - b) else none

/-- The gas value of the native used beyond the gas used: zero if native has no price. -/
def deltaGas (nativeUsed gasUsed npg : Nat) : Option Int :=
  if npg = 0 then some 0
  else do checkedSubI64 (← toI64 (nativeUsed / npg)) (← toI64 gasUsed)

theorem checkedSubI64_of_lt {a b : Nat} (ha : a < 2 ^ 63) (hb : b < 2 ^ 63) :
    checkedSubI64 a b = some ((a : Int) - b) := by
  apply if_pos
  omega

theorem deltaGas_of_lt {gasUsed npg : Nat} (hn : nativeUsed / npg < 2 ^ 63) (hg : gasUsed < 2 ^ 63) :
    deltaGas nativeUsed gasUsed npg = some (if npg = 0 then 0 else ((nativeUsed / npg : Nat) : Int) - gasUsed) := by
  unfold deltaGas
  split
  · rfl
  · simp only [toI64, if_pos hn, if_pos hg]
    exact checkedSubI64_of_lt hn hg

theorem toInt_deltaGas {npg : Nat} (h : deltaGas nativeUsed gasUsed.toNat npg = some delta) :
    (if npg = 0 then 0 else BitVec.ofNat 64 (nativeUsed / npg) - gasUsed : U64).toInt = delta := by
  unfold deltaGas at h
  split at h
  · cases h
    simp only [if_pos ‹npg = 0›]
    rfl
  · simp only [toI64, checkedSubI64, Option.bind_eq_bind, Option.bind_eq_some_iff, Option.ite_none_right_eq_some,
      Option.some.injEq] at h
    obtain ⟨_, ⟨hq, rfl⟩, _, ⟨hg, rfl⟩, -, rfl⟩ := h
    generalize nativeUsed / npg = q at hq ⊢
    have hqi : (BitVec.ofNat 64 q).toInt = q := by
      rw [BitVec.toInt_eq_toNat_of_lt (by rw [BitVec.toNat_ofNat]; omega), BitVec.toNat_ofNat]
      omega
    rw [if_neg ‹_›, BitVec.toInt_sub, hqi, BitVec.toInt_eq_toNat_of_lt (by omega)]
    apply Int.bmod_eq_of_le <;> omega

/-- The extra gas is consumed if there is any. -/
def addDelta (gasUsed : U64) (delta : Int) : Option U64 :=
  if 0 < delta then checkedAdd gasUsed (BitVec.ofNat 64 delta.toNat) else some gasUsed

theorem addDelta_eq {total : U64} (h : addDelta gasUsed delta = some total) :
    (if 0 < delta then gasUsed + BitVec.ofInt 64 delta else gasUsed) = total := by
  unfold addDelta at h
  split at h
  · rw [if_pos ‹_›, ← checkedAdd_eq h, ← BitVec.ofInt_natCast, Int.toNat_of_nonneg (by omega)]
  · rw [if_neg ‹_›]
    exact Option.some.inj h

/-- `compute_gas_refund` with all operations on machine integers checked: `left` are the resources before pubdata is
charged, `counter` is the refund counter. -/
def checkedRefund (left toCharge : Resources) (counter : BitVec 32) (gasLimit : U64) (nativePerGas : U256) :
    Option RefundInfo := do
  let ergs ← checkedSub left.ergs toCharge.ergs
  let native ← checkedSub left.native toCharge.native
  let spent ← checkedSub gasLimit (BitVec.ofNat 64 (ergs.toNat / ergsPerGas))
  let evmRefund := BitVec.ofNat 64 (min counter.toNat (spent.toNat / 5))
  let gasUsed ← checkedSub spent evmRefund
  let nativeUsed := BitVec.ofNat 64 (saturatingSub (fullNativeLimit gasLimit nativePerGas).toNat native.toNat)
  let delta ← deltaGas nativeUsed.toNat gasUsed.toNat (u256ToU64Saturated nativePerGas).toNat
  let gasUsed ← addDelta gasUsed delta
  let gasRefund ← checkedSub gasLimit gasUsed
  some ⟨gasRefund, gasUsed, evmRefund, nativeUsed⟩

section Run

variable {toCharge : Resources} {gasLimit : U64} {npg : U256} {info : RefundInfo} {s : Sys}

theorem run_refundCounter :
    (perform .refundCounter).run env s = (.ok s.io.storage.evmRefunds.value, s) := rfl

theorem computeGasRefund_run
    (h : checkedRefund s.res toCharge s.io.storage.evmRefunds.value gasLimit npg = some info) :
    (computeGasRefund toCharge gasLimit npg).run env s =
      (.ok info, { s with res := (s.res.chargeUnchecked toCharge).exhaustErgs }) := by
  simp only [checkedRefund, Option.bind_eq_bind, Option.bind_eq_some_iff, Option.some.injEq] at h
  obtain ⟨ergs, hergs, native, hnative, spent, hspent, gas, hgas, delta, hdelta, total, htotal, refund, hrefund, rfl⟩ := h
  have hle : refund ≤ gasLimit := BitVec.le_def.mpr (by have := checkedSub_eq_some hrefund; omega)
  have hadd := addDelta_eq htotal
  unfold computeGasRefund
  simp only [run_bind, bind_apply, run_modifyResources, run_resources, run_refundCounter, run_require, run_pure,
    Resources.chargeUnchecked, checkedSub_eq hergs, checkedSub_eq hnative, checkedSub_eq hspent, checkedSub_eq hgas]
  rw [← toInt_deltaGas hdelta, BitVec.ofInt_toInt] at hadd
  rw [hadd, checkedSub_eq hrefund, Action.require, if_pos hle]
  rfl

end Run

/-! ## Bounds -/

theorem toNat_saturate (n : Nat) : (saturate n).toNat = min n (2 ^ 64 - 1) := by
  unfold saturate
  rw [BitVec.toNat_ofNat]
  omega

theorem fullNativeLimit_div_le (h : npg ≠ 0) :
    (fullNativeLimit gasLimit npg).toNat / (u256ToU64Saturated npg).toNat ≤ gasLimit.toNat := by
  unfold fullNativeLimit
  rw [if_neg h, toNat_saturate]
  apply Nat.div_le_of_le_mul
  rw [Nat.mul_comm]
  exact Nat.min_le_left _ _

theorem u256ToU64Saturated_eq_zero : (u256ToU64Saturated npg).toNat = 0 ↔ npg = 0 := by
  unfold u256ToU64Saturated
  rw [toNat_saturate]
  constructor
  · intro h
    apply BitVec.eq_of_toNat_eq
    show npg.toNat = 0
    omega
  · rintro rfl
    rfl

theorem costForCalldata_le {calldata : List UInt8} {cost : U64 × U64} (h : costForCalldata calldata = some cost) :
    cost.1.toNat ≤ 16 * calldata.length := by
  unfold costForCalldata at h
  have hzero : calldata.countP (fun b => decide (b = 0)) ≤ calldata.length := List.countP_le_length
  simp only at h
  split at h <;> cases h
  rename_i hlt
  simp only [BitVec.toNat_ofNat]
  rw [Nat.mod_eq_of_lt hlt]
  omega

/-- The largest transaction that `try_begin_next_tx` lets through. -/
def maxNextTxLen : Nat := 2 ^ 32 - 4

/-- `L1_TX_INTRINSIC_L2_GAS`, `L2_TX_INTRINSIC_GAS` -/
def intrinsicGas (isL1Tx : Bool) : U64 := if isL1Tx then 21000 else 18000

section Accepted

variable {gasLimit : U64} {npp npg : U256} {calldata : List UInt8} {intrinsicPubdata intrinsicNative : U64}
  {isL1Tx : Bool} {given : ResourcesForTx}

theorem gas_handed_out
    (h : getResourcesForTx gasLimit npp npg calldata (intrinsicGas isL1Tx) intrinsicPubdata intrinsicNative isL1Tx =
      .ok given) :
    given.mainResources.ergs.toNat / ergsPerGas ≤ gasLimit.toNat ∧
      (given.mainResources.ergs.toNat / ergsPerGas = gasLimit.toNat → gasLimit.toNat = 0) := by
  obtain ⟨_, _, cost, gasToCharge, -, -, -, -, -, hgas, -, hergs⟩ := getResourcesForTx_ok h
  have hcharge := checkedAdd_eq_some hgas
  have hpos : 0 < (intrinsicGas isL1Tx).toNat := by cases isL1Tx <;> decide
  have hmul := checkedMul_eq_some hergs
  have hlt := gasLimit.isLt
  rw [BitVec.toNat_ofNat, Nat.mod_eq_of_lt (by unfold saturatingSub; omega)] at hmul
  simp only [saturatingSub, ergsPerGas, BitVec.toNat_ofNat] at hmul ⊢
  omega

theorem gasLimit_of_resources (hlen : calldata.length ≤ maxNextTxLen)
    (h : getResourcesForTx gasLimit npp npg calldata (intrinsicGas isL1Tx) intrinsicPubdata intrinsicNative isL1Tx =
      .ok given) :
    gasLimit.toNat < 2 ^ 63 := by
  obtain ⟨_, _, cost, gasToCharge, -, -, -, hcost, -, hgas, -, hergs⟩ := getResourcesForTx_ok h
  have hcharge := checkedAdd_eq_some hgas
  have hcalldata := costForCalldata_le hcost
  have hintrinsic : (intrinsicGas isL1Tx).toNat ≤ 21000 := by cases isL1Tx <;> decide
  have hmul := checkedMul_eq_some hergs
  have hlt := gasLimit.isLt
  have hfit := given.mainResources.ergs.isLt
  rw [BitVec.toNat_ofNat, Nat.mod_eq_of_lt (by unfold saturatingSub; omega)] at hmul
  simp only [saturatingSub, ergsPerGas, BitVec.toNat_ofNat] at hmul
  unfold maxNextTxLen at hlen
  omega

end Accepted

/-! ## Gas used -/

theorem addDelta_of_lt (gasUsed : U64) (npg : Nat) {q : Nat} (hq : q < 2 ^ 63) :
    ∃ total, addDelta gasUsed (if npg = 0 then 0 else (q : Int) - gasUsed.toNat) = some total ∧
      total.toNat = if npg = 0 then gasUsed.toNat else max gasUsed.toNat q := by
  unfold addDelta
  by_cases hnpg : npg = 0
  · simp [hnpg]
  · simp only [if_neg hnpg]
    by_cases hlt : 0 < (q : Int) - gasUsed.toNat
    · have hfit : gasUsed.toNat + (BitVec.ofNat 64 ((q : Int) - gasUsed.toNat).toNat).toNat = q := by
        rw [BitVec.toNat_ofNat]
        omega
      refine ⟨_, by rw [if_pos hlt, checkedAdd, if_pos (by omega)], ?_⟩
      rw [BitVec.toNat_add, hfit]
      omega
    · refine ⟨gasUsed, if_neg hlt, ?_⟩
      omega

/-- Gas spent without the refund, which is capped at a fifth. -/
def spentAfterRefund (spent counter : Nat) : Nat := spent - min counter (spent / 5)

/-- The native used, as `compute_gas_refund` counts it. -/
def nativeSpent (gasLimit : U64) (npg : U256) (native : Nat) : Nat :=
  saturatingSub (fullNativeLimit gasLimit npg).toNat native

theorem nativeSpent_lt (gasLimit : U64) (npg : U256) (native : Nat) : nativeSpent gasLimit npg native < 2 ^ 64 :=
  Nat.lt_of_le_of_lt (Nat.sub_le _ _) (BitVec.isLt _)

theorem nativeSpent_div_le (gasLimit : U64) (npg : U256) (native : Nat) :
    nativeSpent gasLimit npg native / (u256ToU64Saturated npg).toNat ≤ gasLimit.toNat := by
  by_cases hnpg : npg = 0
  · rw [u256ToU64Saturated_eq_zero.mpr hnpg, Nat.div_zero]
    exact Nat.zero_le _
  · exact Nat.le_trans (Nat.div_le_div_right (Nat.sub_le _ _)) (fullNativeLimit_div_le hnpg)

/-- No check fails if the gas limit fits in an `i64` and covers the gas that is left, and the native that is left
covers the charge. -/
theorem checkedRefund_of_lt {left : Resources} {charge : U64} (npg : U256) (counter : BitVec 32)
    (hlimit : gasLimit.toNat < 2 ^ 63) (hleft : left.ergs.toNat / ergsPerGas ≤ gasLimit.toNat)
    (hcharge : charge ≤ left.native) :
    ∃ info, checkedRefund left (.fromNative charge) counter gasLimit npg = some info ∧
      info.nativeUsed.toNat = nativeSpent gasLimit npg (left.native.toNat - charge.toNat) ∧
      info.gasUsed.toNat =
        (let used := spentAfterRefund (gasLimit.toNat - left.ergs.toNat / ergsPerGas) counter.toNat
        if npg = 0 then used else max used (info.nativeUsed.toNat / (u256ToU64Saturated npg).toNat)) ∧
      info.gasUsed.toNat ≤ gasLimit.toNat := by
  have hergs : checkedSub left.ergs 0 = some left.ergs := by
    rw [checkedSub_of_le (Nat.zero_le _)]
    simp
  have hnative := checkedSub_of_le (BitVec.le_def.mp hcharge)
  have hnativeNat := BitVec.toNat_sub_of_le hcharge
  generalize hrem : left.ergs.toNat / ergsPerGas = remaining at hleft ⊢
  -- the gas spent
  obtain ⟨spent, hspent⟩ : ∃ spent, checkedSub gasLimit (BitVec.ofNat 64 remaining) = some spent :=
    ⟨_, checkedSub_of_le (by rw [BitVec.toNat_ofNat]; omega)⟩
  have hspentNat := checkedSub_eq_some hspent
  rw [BitVec.toNat_ofNat, Nat.mod_eq_of_lt (by omega)] at hspentNat
  -- the refund
  have hrefund : (BitVec.ofNat 64 (min counter.toNat (spent.toNat / 5))).toNat = min counter.toNat (spent.toNat / 5) := by
    rw [BitVec.toNat_ofNat]
    omega
  obtain ⟨used, hused⟩ : ∃ used, checkedSub spent (BitVec.ofNat 64 (min counter.toNat (spent.toNat / 5))) = some used :=
    ⟨_, checkedSub_of_le (by omega)⟩
  have husedNat := checkedSub_eq_some hused
  have husedEq : spentAfterRefund (gasLimit.toNat - remaining) counter.toNat = used.toNat := by
    unfold spentAfterRefund
    rw [← hspentNat, Nat.add_sub_cancel]
    omega
  -- the gas value of native
  generalize hn : nativeSpent gasLimit npg (left.native.toNat - charge.toNat) = nativeUsed
  have hquot : nativeUsed / (u256ToU64Saturated npg).toNat ≤ gasLimit.toNat := hn ▸ nativeSpent_div_le _ _ _
  have hn64 : (BitVec.ofNat 64 nativeUsed).toNat = nativeUsed := by
    rw [BitVec.toNat_ofNat, Nat.mod_eq_of_lt (hn ▸ nativeSpent_lt _ _ _)]
  have hdelta : deltaGas nativeUsed used.toNat (u256ToU64Saturated npg).toNat = _ :=
    deltaGas_of_lt (by omega) (by omega)
  obtain ⟨total, htotal, htotalNat⟩ := addDelta_of_lt used (u256ToU64Saturated npg).toNat
    (q := nativeUsed / (u256ToU64Saturated npg).toNat) (by omega)
  have hle : total.toNat ≤ gasLimit.toNat := by
    rw [htotalNat]
    split <;> omega
  refine ⟨⟨gasLimit - total, total, BitVec.ofNat 64 (min counter.toNat (spent.toNat / 5)), BitVec.ofNat 64 nativeUsed⟩,
    ?_, hn64, ?_, hle⟩
  · rw [nativeSpent, ← hnativeNat] at hn
    simp only [checkedRefund, Resources.fromNative, hergs, hnative, hspent, hused, hrem, hn, hn64, hdelta, htotal,
      checkedSub_of_le hle, Option.bind_eq_bind, Option.bind_some]
  · simp only [hn64, husedEq, htotalNat, u256ToU64Saturated_eq_zero]

/-- A price that does not fit in 64 bits makes no difference, because some gas is always used. -/
theorem max_div_saturated {used : Nat} (hn : nativeUsed < 2 ^ 64) (hused : used = 0 → nativeUsed = 0) :
    max used (nativeUsed / (u256ToU64Saturated npg).toNat) = max used (nativeUsed / npg.toNat) := by
  unfold u256ToU64Saturated
  rw [toNat_saturate]
  by_cases hfit : npg.toNat ≤ 2 ^ 64 - 1
  · rw [Nat.min_eq_left hfit]
  · rw [Nat.min_eq_right (by omega), Nat.div_eq_of_lt (b := npg.toNat) (by omega)]
    have hle : nativeUsed / (2 ^ 64 - 1) ≤ 1 := Nat.div_le_of_le_mul (by omega)
    rcases Nat.eq_zero_or_pos used with hzero | hpos
    · rw [hused hzero, Nat.zero_div]
    · omega

/-- For every gas limit that resources are handed out for and all resources that are left of them, the refund is
computed without an overflow, and gas used is the larger of the gas spent without the capped refund and the gas value
of the native used. -/
theorem gas_used_eq {gasLimit : U64} {npp npg : U256} {calldata : List UInt8} {intrinsicPubdata intrinsicNative : U64}
    {isL1Tx : Bool} {given : ResourcesForTx} (hlen : calldata.length ≤ maxNextTxLen)
    (hgiven : getResourcesForTx gasLimit npp npg calldata (intrinsicGas isL1Tx) intrinsicPubdata intrinsicNative isL1Tx =
      .ok given)
    {s : Sys} (hleft : s.res.ergs ≤ given.mainResources.ergs) {charge : U64} (hcharge : charge ≤ s.res.native) :
    ∃ info, checkedRefund s.res (.fromNative charge) s.io.storage.evmRefunds.value gasLimit npg = some info ∧
      (computeGasRefund (.fromNative charge) gasLimit npg).run env s =
        (.ok info, { s with res := ⟨0, s.res.native - charge⟩ }) ∧
      info.nativeUsed.toNat = (fullNativeLimit gasLimit npg).toNat - (s.res.native.toNat - charge.toNat) ∧
      info.gasUsed.toNat =
        (let used := spentAfterRefund (gasLimit.toNat - s.res.ergs.toNat / ergsPerGas) s.io.storage.evmRefunds.value.toNat
        if npg = 0 then used else max used (info.nativeUsed.toNat / npg.toNat)) ∧
      info.gasUsed.toNat ≤ gasLimit.toNat := by
  obtain ⟨hgas, hsome⟩ := gas_handed_out hgiven
  have hdiv := Nat.div_le_div_right (c := ergsPerGas) (BitVec.le_def.mp hleft)
  obtain ⟨info, hchecked, hnative, hused, hle⟩ := checkedRefund_of_lt npg s.io.storage.evmRefunds.value
    (gasLimit_of_resources hlen hgiven) (Nat.le_trans hdiv hgas) hcharge
  refine ⟨info, hchecked, ?_, hnative, ?_, hle⟩
  · rw [computeGasRefund_run hchecked]
    rfl
  · rw [hused]
    by_cases hnpg : npg = 0
    · simp only [if_pos hnpg]
    · simp only [if_neg hnpg]
      apply max_div_saturated info.nativeUsed.isLt
      intro hzero
      -- no gas was used, so there was none, and no native either
      have hnone : gasLimit.toNat = 0 := by
        by_contra hpos
        have := mt hsome hpos
        unfold spentAfterRefund at hzero
        omega
      rw [hnative, nativeSpent, fullNativeLimit, if_neg hnpg, toNat_saturate, hnone, Nat.zero_mul]
      exact Nat.zero_sub _

/-- A transaction with one byte of calldata that has half of its gas left. -/
def halfLeft : Sys := ⟨Io.new, ⟨BitVec.ofNat 64 (50000 * ergsPerGas), 99000000⟩⟩

def oneByteResources : Except TxError ResourcesForTx := getResourcesForTx 100000 1 1000 [1] (intrinsicGas false) 65 30000 false

theorem gas_used_eq_halfLeft : ∃ given info, oneByteResources = .ok given ∧
    halfLeft.res.ergs ≤ given.mainResources.ergs ∧ (500 : U64) ≤ halfLeft.res.native ∧
    checkedRefund halfLeft.res (.fromNative 500) halfLeft.io.storage.evmRefunds.value 100000 1000 = some info ∧
    info.gasUsed.toNat = 50000 := by
  obtain ⟨given, hgiven, hleft⟩ : ∃ given, oneByteResources = .ok given ∧ halfLeft.res.ergs ≤ given.mainResources.ergs :=
    ⟨_, rfl, by decide⟩
  obtain ⟨info, hchecked, -, hnative, hused, -⟩ := @gas_used_eq emptyChain _ _ _ _ _ _ _ _ (by decide)
    hgiven halfLeft hleft 500 (by decide)
  have hspent : info.nativeUsed.toNat = 1000500 := by
    rw [hnative]
    decide
  refine ⟨given, info, hgiven, hleft, by decide, hchecked, ?_⟩
  rw [hused, hspent]
  decide

end ZkOs.Bootloader
