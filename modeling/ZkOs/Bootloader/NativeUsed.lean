import ZkOs.Bootloader.Native

/-!
# Where the native of an L2 transaction goes

The native limit is split into the overhead for intrinsic pubdata, a withheld part, the intrinsic costs and the main
part. Validation pays for its pubdata from the withheld part first; what is left of both is joined again for the
refund.

* `l2Resources_split` : the parts of the limit;
* `chargeForValidationPubdataUsingWithheld_split` : who pays for the pubdata of validation;
* `native_used_split` : native used is what computation used and the price of all pubdata.
-/

namespace ZkOs.Bootloader

open SysM ZkOs.Action

variable {env : Env} {cfg : Config} {machine : Machine} {block : BlockMetadata} {tx : L2Transaction}

/-! ## The parts of the limit -/

theorem u256ToU64Saturated_of_lt {x : U256} (h : (u256ToU64Saturated x).toNat < 2 ^ 64 - 1) :
    (u256ToU64Saturated x).toNat = x.toNat := by
  unfold u256ToU64Saturated saturate at h ⊢
  rw [BitVec.toNat_ofNat] at h ⊢
  omega

variable {p : Prices} {withheld : Resources} {s s' : Sys} {npp : U256} {c : Nat × Resources} {v : ValidationResult}
    {nonce : U64} {x : AtRefund}

/-- The overhead for intrinsic pubdata, the withheld part, the intrinsic costs and the main part make up the native
limit. A price of pubdata for which this is possible fits in 64 bits. -/
theorem l2Resources_split {given : ResourcesForTx} (h : l2Resources p tx = .ok given) :
    (u256ToU64Saturated p.nativePerPubdata).toNat = p.nativePerPubdata.toNat ∧ given.withheld.ergs = 0 ∧
      p.nativePerPubdata.toNat * l2TxIntrinsicPubdata + given.withheld.native.toNat +
        given.intrinsicComputationalNativeCharged.toNat + given.mainResources.native.toNat =
          (fullNativeLimit tx.gasLimit p.nativePerGas).toNat := by
  obtain ⟨overhead, limit, _, _, hoverhead, hlimit, hwithheld, -, hmain, -⟩ := getResourcesForTx_ok h
  have hprice := checkedMul_eq_some hoverhead
  have hsplit := chargeIntrinsic_ok hlimit
  have hmainNat := chargeIntrinsic_ok hmain
  have hlt := overhead.isLt
  have hpubdata : (BitVec.ofNat 64 l2TxIntrinsicPubdata).toNat = l2TxIntrinsicPubdata := by decide
  rw [hpubdata] at hprice
  have hfit := u256ToU64Saturated_of_lt (x := p.nativePerPubdata) (by unfold l2TxIntrinsicPubdata at hprice; omega)
  rw [hfit] at hprice
  refine ⟨hfit, by rw [hwithheld]; rfl, ?_⟩
  have hparts : given.withheld.native.toNat +
      (if limit ≤ maxNativeComputational then limit else maxNativeComputational).toNat = limit.toNat := by
    rw [hwithheld]
    show (if _ then (0 : U64) else _).toNat + _ = _
    split
    · simp
    · rename_i hle
      have hge : maxNativeComputational ≤ limit := BitVec.le_of_lt (BitVec.not_le.mp hle)
      rw [BitVec.toNat_sub_of_le hge, Nat.sub_add_cancel (BitVec.le_def.mp hge)]
  omega

/-! ## Pubdata of validation -/

theorem toNat_absDiff {a b : U64} (h : b ≤ a) : (Resources.absDiff a b).toNat = a.toNat - b.toNat := by
  unfold Resources.absDiff
  rw [if_neg (BitVec.not_lt.mpr h), BitVec.toNat_sub_of_le h]

theorem toNat_chargeOne (r c : U64) : (Resources.chargeOne r c).toNat = r.toNat - c.toNat := by
  unfold Resources.chargeOne
  split
  · rename_i hlt
    have := BitVec.lt_def.mp hlt
    show 0 = _
    omega
  · exact BitVec.toNat_sub_of_le (BitVec.not_lt.mp ‹_›)

theorem charge_snd (r c : Resources) :
    (r.charge c).2 = ⟨Resources.chargeOne r.ergs c.ergs, Resources.chargeOne r.native c.native⟩ := by
  unfold Resources.charge
  split
  · rfl
  · split <;> rfl

theorem chargeForValidationPubdataUsingWithheld_split {toCharge : U64} {y : U64 × Resources} (hw : withheld.ergs = 0)
    (h : (chargeForValidationPubdataUsingWithheld withheld (.fromNative toCharge)).run env s = (.ok y, s')) :
    y.1.toNat = toCharge.toNat - withheld.native.toNat ∧ y.2.ergs = 0 ∧
      y.2.native.toNat = withheld.native.toNat - toCharge.toNat := by
  have hleft : (withheld.charge (.fromNative toCharge)).2.ergs = 0 ∧
      (withheld.charge (.fromNative toCharge)).2.native.toNat = withheld.native.toNat - toCharge.toNat := by
    rw [charge_snd]
    refine ⟨BitVec.eq_of_toNat_eq ?_, toNat_chargeOne _ _⟩
    show (Resources.chargeOne withheld.ergs 0).toNat = 0
    rw [toNat_chargeOne, hw]
    rfl
  unfold chargeForValidationPubdataUsingWithheld at h
  split at h
  · rename_i henough
    simp only [Resources.hasEnough, Bool.and_eq_true, decide_eq_true_eq] at henough
    have hle : toCharge.toNat ≤ withheld.native.toNat := BitVec.le_def.mp henough.2
    cases h
    refine ⟨?_, hleft⟩
    rw [Nat.sub_eq_zero_of_le hle]
    rfl
  · rename_i hless
    have hlt : withheld.native ≤ toCharge := by
      by_contra hle
      apply hless
      simp only [Resources.hasEnough, Bool.and_eq_true, decide_eq_true_eq]
      exact ⟨BitVec.le_def.mpr (Nat.zero_le _), BitVec.le_of_lt (BitVec.not_le.mp hle)⟩
    split at h
    · rename_i hempty
      simp only [Resources.isEmpty, Bool.and_eq_true, beq_iff_eq] at hempty
      rw [run_bind] at h
      obtain ⟨_, s₁, -, h₁⟩ := bind_ok.mp h
      cases h₁
      simp only [hempty.2, Resources.fromNative]
      exact ⟨by simp, hw, by simp⟩
    · simp only [run_bind, run_pure] at h
      obtain ⟨_, s₁, -, h₁⟩ := bind_ok.mp h
      cases h₁
      exact ⟨toNat_absDiff hlt, hleft⟩

theorem getResourcesToChargeForPubdata_native {base : Nat}
    (h : (getResourcesToChargeForPubdata npp base).run env s = (.ok c, s')) :
    c.2 = .fromNative c.2.native ∧ c.2.native.toNat = c.1 * (u256ToU64Saturated npp).toNat := by
  obtain ⟨-, n, -, hn, hnative⟩ := getResourcesToChargeForPubdata_ok h
  refine ⟨?_, by rw [hn, hnative]⟩
  unfold getResourcesToChargeForPubdata at h
  simp only [run_bind, run_pure] at h
  obtain ⟨_, s₁, -, h₁⟩ := bind_ok.mp h
  obtain ⟨_, s₂, -, h₂⟩ := bind_ok.mp h₁
  cases h₂
  rfl

/-- Validation pays the price of the pubdata it is charged for, from the withheld resources first. -/
structure ValidationResult.Paid (v : ValidationResult) (withheld : Resources) (price : Nat) : Prop where
  main : v.mainNativeUsedForPubdata.toNat = price - withheld.native.toNat
  noErgs : v.withheld.ergs = 0
  left : v.withheld.native.toNat = withheld.native.toNat - price

theorem transactionValidation_paid {gasPrice : U256} {caller : Caller} (hw : withheld.ergs = 0)
    (h : (transactionValidation env cfg tx gasPrice npp caller withheld).run env s = (.ok v, s')) :
    v.Paid withheld (v.validationPubdata * (u256ToU64Saturated npp).toNat) := by
  unfold transactionValidation at h
  simp only [run_bind, run_pure] at h
  iterate 3 obtain ⟨_, _, -, h⟩ := bind_ok.mp h
  obtain ⟨x, s₄, hx, t₄⟩ := bind_ok.mp h
  obtain ⟨y, s₅, hy, t₅⟩ := bind_ok.mp t₄
  cases t₅
  obtain ⟨hform, hprice⟩ := getResourcesToChargeForPubdata_native (mapError_ok.mp hx)
  rw [hform] at hy
  obtain ⟨hmain, hergs, hleft⟩ := chargeForValidationPubdataUsingWithheld_split hw (mapError_ok.mp hy)
  rw [hprice] at hmain hleft
  exact ⟨hmain, hergs, hleft⟩

theorem l2Validation_paid {y : Caller × ValidationResult} (hw : withheld.ergs = 0)
    (h : (l2Validation env cfg block tx p withheld).run env s = (.ok y, s')) :
    y.2.Paid withheld (y.2.validationPubdata * (u256ToU64Saturated p.nativePerPubdata).toNat) := by
  unfold l2Validation at h
  simp only [run_bind, run_pure] at h
  iterate 6 obtain ⟨_, _, -, h⟩ := bind_ok.mp h
  obtain ⟨v, s₇, hv, t₇⟩ := bind_ok.mp h
  obtain ⟨_, s₈, -, t₈⟩ := bind_ok.mp t₇
  cases t₈
  exact transactionValidation_paid hw hv

/-! ## The refund -/

theorem transactionExecution_price {i : ExecutionInfo}
    (h : (transactionExecution env machine tx nonce npp v).run env s = (.ok i, s')) :
    i.toChargeForPubdata.native.toNat = i.pubdataUsed * (u256ToU64Saturated npp).toNat := by
  unfold transactionExecution checkEnoughResourcesForPubdata at h
  simp only [run_bind, run_pure] at h
  obtain ⟨_, s₁, -, t₁⟩ := bind_ok.mp h
  obtain ⟨_, s₂, -, t₂⟩ := bind_ok.mp t₁
  obtain ⟨c, s₃, hc, t₃⟩ := bind_ok.mp t₂
  cases t₃
  obtain ⟨x, s₄, hx, t₄⟩ := bind_ok.mp hc
  cases t₄
  exact (getResourcesToChargeForPubdata_native hx).2

theorem executeInFrame_price {e : ExecutionResult × Option (Nat × Resources)}
    (h : (executeInFrame env machine tx nonce npp v).run env s = (.ok e, s')) (hc : e.2 = some c) :
    c.2.native.toNat = c.1 * (u256ToU64Saturated npp).toNat := by
  unfold executeInFrame at h
  simp only [run_bind] at h
  obtain ⟨r, s₁, hr, h₁⟩ := bind_ok.mp h
  rw [run_attempt, run_frame] at hr
  rcases hx : (transactionExecution env machine tx nonce npp v).run env ⟨s.io.startFrame.2, s.res⟩ with ⟨x, t⟩
  rw [hx] at hr
  cases hr
  rcases x with (_ | _ | _ | _ | _ | _) | i
  case error.fatal =>
    simp only [run_bind, run_pure] at h₁
    obtain ⟨_, s₂, -, h₂⟩ := bind_ok.mp h₁
    cases h₂
    cases hc
  case ok =>
    cases h₁
    simp only at hc
    split at hc <;> cases hc
    exact transactionExecution_price hx
  all_goals cases h₁

theorem pubdataCharge_price (h : (l2UntilRefund env cfg machine block tx).run env s = (.ok x, s')) :
    x.toChargeForPubdata.native.toNat = x.pubdata * (u256ToU64Saturated x.prices.nativePerPubdata).toNat := by
  obtain ⟨-, -, y, sv, e, se, -, he, -, hc⟩ := l2UntilRefund_ok h
  rcases hinfo : e.2 with _ | c <;> rw [hinfo] at hc
  · exact (getResourcesToChargeForPubdata_native hc).2
  · cases hc
    exact executeInFrame_price he hinfo

theorem computeGasRefund_native {toCharge : Resources} {gasLimit : U64} {npg : U256} {info : RefundInfo}
    (h : (computeGasRefund toCharge gasLimit npg).run env s = (.ok info, s')) :
    info.nativeUsed.toNat = (fullNativeLimit gasLimit npg).toNat - (s.res.native - toCharge.native).toNat := by
  unfold computeGasRefund at h
  simp only [run_bind, run_pure] at h
  obtain ⟨_, s₁, hcharge, t₁⟩ := bind_ok.mp h
  rw [run_modifyResources] at hcharge
  cases hcharge
  obtain ⟨r, s₂, hr, t₂⟩ := bind_ok.mp t₁
  rw [run_resources] at hr
  cases hr
  iterate 3 obtain ⟨_, _, -, t₂⟩ := bind_ok.mp t₂
  cases t₂
  show (BitVec.ofNat 64 _).toNat = _
  rw [BitVec.toNat_ofNat]
  apply Nat.mod_eq_of_lt
  exact Nat.lt_of_le_of_lt (Nat.sub_le _ _) (BitVec.isLt _)

theorem l2UntilRefund_native (h : (l2UntilRefund env cfg machine block tx).run env s = (.ok x, s')) :
    s'.res.native = x.executed.beforeRefund.native + x.executed.validation.withheld.native ∧
      x.executed.beforeRefund.native.toNat + x.executed.validation.mainNativeUsedForPubdata.toNat ≤
        x.given.mainResources.native.toNat ∧
      x.executed.validation.Paid x.given.withheld
        (x.executed.validation.validationPubdata * (u256ToU64Saturated x.prices.nativePerPubdata).toNat) := by
  obtain ⟨-, hg, y, sv, e, se, hy, he, hx, hc⟩ := l2UntilRefund_ok h
  have hvalid := l2Validation_native hy
  have hexec := native_le (executeInFrame_within Scope.thrifty_hasCalls trivial _ _ _) he
  have hcharge : s' = ⟨se.io, se.res.reclaimWithheld y.2.withheld⟩ := by
    rcases hinfo : e.2 with _ | c <;> rw [hinfo] at hc
    · exact (getResourcesToChargeForPubdata_ok hc).1
    · cases hc
      rfl
  simp only [hx]
  refine ⟨by rw [hcharge]; rfl, Nat.le_trans (Nat.add_le_add_right hexec _) hvalid, ?_⟩
  exact l2Validation_paid (l2Resources_split hg).2.1 hy

/-- Native used is what computation used and the price of all pubdata, intrinsic, of validation and of execution.
Withheld native pays for the pubdata of validation first. -/
theorem native_used_split {result : TxProcessingResult} {s s' : Sys} (htx : tx.authorizationList.getD [] = [])
    (h : (processL2Transaction env cfg machine block tx).run env s = (.ok result, s')) :
    ∃ p given y sv, l2Prices block tx = .ok p ∧ l2Resources p tx = .ok given ∧
      (l2Validation env cfg block tx p given.withheld).run env ⟨s.io, given.mainResources⟩ = (.ok y, sv) ∧
      y.2.Paid given.withheld (p.nativePerPubdata.toNat * y.2.validationPubdata) ∧
      result.nativeUsed.toNat =
        result.computationalNativeUsed.toNat + p.nativePerPubdata.toNat * result.pubdataUsed := by
  unfold processL2Transaction at h
  simp only [run_bind, run_pure] at h
  obtain ⟨x, s₁, hx, h₁⟩ := bind_ok.mp h
  obtain ⟨info, s₂, hinfo, h₂⟩ := bind_ok.mp h₁
  obtain ⟨_, s₃, -, h₃⟩ := bind_ok.mp h₂
  cases h₃
  obtain ⟨hp, hg, y, sv, e, se, hy, -, hex, -⟩ := l2UntilRefund_ok hx
  obtain ⟨hfit, hergs, hsplit⟩ := l2Resources_split hg
  obtain ⟨hleft, hmain, hpaid⟩ := l2UntilRefund_native hx
  have hcovered := BitVec.le_def.mp (pubdata_charge_covered htx hx)
  have hprice := pubdataCharge_price hx
  have hused := computeGasRefund_native (mapError_ok.mp hinfo)
  have hcomp := used_toNat hmain (l2Resources_ok hg)
  refine ⟨x.prices, x.given, y, sv, hp, hg, hy, ?_, ?_⟩
  · rw [Nat.mul_comm, ← hfit]
    exact l2Validation_paid hergs hy
  · rw [hfit] at hprice hpaid
    show info.nativeUsed.toNat = x.computationalNativeUsed.toNat + x.prices.nativePerPubdata.toNat *
      (x.pubdata + x.executed.validation.validationPubdata + l2TxIntrinsicPubdata)
    rw [AtRefund.computationalNativeUsed, Resources.diff, hcomp, hused, Nat.mul_add, Nat.mul_add]
    have hlimit := (fullNativeLimit tx.gasLimit x.prices.nativePerGas).isLt
    have hpaidMain := hpaid.main
    have hpaidLeft := hpaid.left
    rw [Nat.mul_comm] at hprice hpaidMain hpaidLeft
    have hsum : s₁.res.native.toNat =
        x.executed.beforeRefund.native.toNat + x.executed.validation.withheld.native.toNat := by
      rw [hleft, BitVec.toNat_add, Nat.mod_eq_of_lt (by omega)]
    rw [BitVec.toNat_sub_of_le (BitVec.le_def.mpr hcovered)]
    omega

set_option maxRecDepth 100000 in
theorem native_used_split_deploymentTx : ∃ result s' p, deploymentRun = (.ok result, s') ∧
    l2Prices freeBlock deploymentTx = .ok p ∧
    result.nativeUsed.toNat = result.computationalNativeUsed.toNat + p.nativePerPubdata.toNat * result.pubdataUsed := by
  obtain ⟨result, s', hrun, -⟩ := exists_ok_of_any (x := deploymentRun) (f := fun _ _ => true) (by decide +kernel)
  obtain ⟨p, _, _, _, hp, -, -, -, hused⟩ := native_used_split rfl hrun
  exact ⟨result, s', p, hrun, hp, hused⟩

end ZkOs.Bootloader
