import ZkOs.Bootloader.Pubdata
import ZkOs.Bootloader.Within

/-!
# The native that a transaction reports

`computational_native_used` is read off the resources that are left before the refund. Execution works
on a clone of the resources, and the clone is dropped when execution ends with a fatal error: what it
consumed is then not reported.

* `computationalNativeUsed_eq` : what is reported;
* `computational_native_covered_iff` : when it is at least what validation and execution consumed;
* `computational_native_undercounted` : a deployment that runs out of native.
-/

namespace ZkOs.Bootloader

open SysM ZkOs.Action FrameProgram

variable {env : Env} {cfg : Config} {machine : Machine} {block : BlockMetadata} {tx : L2Transaction}

/-! ## Native at the borders of the phases -/

structure NativeTrace where
  /-- Charged before the resources are handed out. -/
  intrinsic : U64
  given : U64
  afterValidation : U64
  /-- Taken by validation for its pubdata. -/
  forPubdata : U64
  /-- Left on the clone that execution works on. -/
  afterExecution : U64
  fatal : Bool

namespace NativeTrace

/-- Consumed by validation, without pubdata. -/
def validation (t : NativeTrace) : Nat := t.given.toNat - t.afterValidation.toNat - t.forPubdata.toNat

def execution (t : NativeTrace) : Nat := t.afterValidation.toNat - t.afterExecution.toNat

end NativeTrace

def endedFatally {α : Type} : Except Err α → Bool
  | .error .fatal => true
  | _ => false

/-- The phases of a transaction that starts in `io`, up to the end of its execution. -/
def nativeTrace (env : Env) (cfg : Config) (machine : Machine) (block : BlockMetadata) (tx : L2Transaction)
    (io : Io) : Option NativeTrace :=
  match l2Prices block tx with
  | .error _ => none
  | .ok p =>
    match l2Resources p tx with
    | .error _ => none
    | .ok given =>
      match (l2Validation env cfg block tx p given.withheld).run env ⟨io, given.mainResources⟩ with
      | (.error _, _) => none
      | (.ok y, s) =>
        let e := (executeOnClone env machine tx y.1.nonce).run env ⟨s.io.startFrame.2, s.res⟩
        some
          { intrinsic := given.intrinsicComputationalNativeCharged
            given := given.mainResources.native
            afterValidation := s.res.native
            forPubdata := y.2.mainNativeUsedForPubdata
            afterExecution := e.2.res.native
            fatal := endedFatally e.1 }

/-! ## Native never increases -/

/-- Every operation, but no refills. -/
def Scope.thrifty : Scope := ⟨fun _ => True, fun _ => True, True, True, True, fun _ => True, False, True, True, True, True⟩

theorem Scope.thrifty_hasCalls : Scope.thrifty.HasCalls :=
  ⟨⟨⟨⟨trivial, trivial⟩, fun _ => trivial⟩, fun _ _ _ => trivial, fun _ _ => trivial, trivial, trivial, trivial⟩, trivial⟩

variable {ε α : Type} {s s' : Sys} {x : Except ε α} {npp : U256} {given : ResourcesForTx} {p : Prices}
    {withheld : Resources} {v : ValidationResult} {nonce : U64}

theorem native_le {m : SysM ε α} {Q : α → Prop} (h : Within Scope.thrifty m Q) (hrun : m.run env s = (x, s'))
    : s'.res.native.toNat ≤ s.res.native.toNat := by
  have hle := (@Within.spends _ _ _ _ _ env id h s).native
  rw [hrun] at hle
  exact hle

/-! ## The resources at the start -/

section Checked

variable {w : Nat} {a b c : BitVec w}

theorem checkedMul_eq_some (h : checkedMul a b = some c) : c.toNat = a.toNat * b.toNat := by
  unfold checkedMul at h
  split at h
  · cases h
    rw [BitVec.toNat_mul, Nat.mod_eq_of_lt ‹_›]
  · cases h

theorem checkedAdd_eq_some (h : checkedAdd a b = some c) : c.toNat = a.toNat + b.toNat := by
  unfold checkedAdd at h
  split at h
  · cases h
    rw [BitVec.toNat_add, Nat.mod_eq_of_lt ‹_›]
  · cases h

theorem checkedSub_eq_some (h : checkedSub a b = some c) : c.toNat + b.toNat = a.toNat := by
  unfold checkedSub at h
  split at h
  · rename_i hle
    cases h
    rw [BitVec.toNat_sub_of_le hle]
    exact Nat.sub_add_cancel (BitVec.le_def.mp hle)
  · cases h

end Checked

theorem chargeIntrinsic_ok {limit cost r : U64} (h : chargeIntrinsic false limit cost = .ok r) :
    r.toNat + cost.toNat = limit.toNat := by
  unfold chargeIntrinsic at h
  split at h
  · rename_i hsub
    cases h
    exact checkedSub_eq_some hsub
  · cases h

theorem except_bind_ok {β : Type} {f : α → Except ε β} {b : β} (h : (x >>= f) = .ok b) :
    ∃ a, x = .ok a ∧ f a = .ok b := by
  cases x with
  | error e => cases h
  | ok a => exact ⟨a, rfl, h⟩

theorem internalIfNone_ok {x : Option α} {a : α} (h : internalIfNone x = .ok a) : x = some a := by
  cases x <;> cases h
  rfl

/-- How the resources of a transaction come about: what is left of the native limit after the pubdata overhead is
split into a withheld and a main part, and the intrinsic costs are taken from the main part. -/
theorem getResourcesForTx_ok {gasLimit : U64} {npg : U256} {calldata : List UInt8}
    {intrinsicGas intrinsicPubdata intrinsicNative : U64} {isL1Tx : Bool}
    (h : getResourcesForTx gasLimit npp npg calldata intrinsicGas intrinsicPubdata intrinsicNative isL1Tx = .ok given) :
    ∃ overhead limit cost gasToCharge,
      checkedMul (u256ToU64Saturated npp) intrinsicPubdata = some overhead ∧
      chargeIntrinsic isL1Tx (fullNativeLimit gasLimit npg) overhead = .ok limit ∧
      given.withheld = .fromNative (if limit ≤ maxNativeComputational then 0 else limit - maxNativeComputational) ∧
      costForCalldata calldata = some cost ∧
      chargeIntrinsic isL1Tx (if limit ≤ maxNativeComputational then limit else maxNativeComputational)
        given.intrinsicComputationalNativeCharged = .ok given.mainResources.native ∧
      checkedAdd cost.1 intrinsicGas = some gasToCharge ∧ (isL1Tx = false → gasToCharge ≤ gasLimit) ∧
      checkedMul (BitVec.ofNat 64 (saturatingSub gasLimit.toNat gasToCharge.toNat)) (BitVec.ofNat 64 ergsPerGas) =
        some given.mainResources.ergs := by
  obtain ⟨overhead, hoverhead, h₁⟩ := except_bind_ok h
  obtain ⟨limit, hlimit, h₂⟩ := except_bind_ok h₁
  obtain ⟨cost, hcost, h₃⟩ := except_bind_ok h₂
  obtain ⟨intrinsic, -, h₄⟩ := except_bind_ok h₃
  obtain ⟨native, hnative, h₅⟩ := except_bind_ok h₄
  obtain ⟨gasToCharge, hgas, h₆⟩ := except_bind_ok h₅
  split at h₆
  · cases h₆
  · rename_i henough
    obtain ⟨ergs, hergs, h₇⟩ := except_bind_ok h₆
    cases h₇
    refine ⟨overhead, limit, cost, gasToCharge, internalIfNone_ok hoverhead, hlimit, rfl, internalIfNone_ok hcost,
      hnative, internalIfNone_ok hgas, fun hl2 => ?_, internalIfNone_ok hergs⟩
    exact BitVec.not_lt.mp fun hlt => henough ⟨hlt, hl2⟩

theorem l2Resources_ok (h : l2Resources p tx = .ok given) :
    given.mainResources.native.toNat + given.intrinsicComputationalNativeCharged.toNat < 2 ^ 64 := by
  obtain ⟨_, _, _, _, -, -, -, -, hnative, -⟩ := getResourcesForTx_ok h
  rw [chargeIntrinsic_ok hnative]
  exact BitVec.isLt _

/-! ## Validation -/

theorem chargeForValidationPubdataUsingWithheld_ok {toCharge : Resources} {y : U64 × Resources}
    (h : (chargeForValidationPubdataUsingWithheld withheld toCharge).run env s = (.ok y, s')) :
    s'.res.native.toNat + y.1.toNat = s.res.native.toNat := by
  have hpay : ∀ (c w : Resources), (do pay c; pure (c.native, w) : SysM Err (U64 × Resources)).run env s = (.ok y, s') →
      s'.res.native.toNat + y.1.toNat = s.res.native.toNat := by
    intro c w hrun
    rw [run_bind] at hrun
    obtain ⟨_, s₁, hc, h₁⟩ := bind_ok.mp hrun
    cases h₁
    rcases hcharge : s.res.charge c with ⟨_ | _, r⟩
    · rw [run_pay, ZkOs.charge, hcharge] at hc
      cases hc
    · rw [run_pay, ZkOs.charge, hcharge] at hc
      cases hc
      obtain ⟨-, hle, rfl⟩ := Resources.charge_ok hcharge
      show (s.res.native - c.native).toNat + c.native.toNat = _
      rw [BitVec.toNat_sub_of_le hle]
      have := BitVec.le_def.mp hle
      omega
  unfold chargeForValidationPubdataUsingWithheld at h
  split at h
  · cases h
    rfl
  · split at h
    · exact hpay _ _ h
    · exact hpay _ _ h

theorem transactionValidation_native {gasPrice : U256} {caller : Caller}
    (h : (transactionValidation env cfg tx gasPrice npp caller withheld).run env s = (.ok v, s')) :
    s'.res.native.toNat + v.mainNativeUsedForPubdata.toNat ≤ s.res.native.toNat := by
  unfold transactionValidation at h
  simp only [run_bind, run_pure] at h
  obtain ⟨_, s₁, h₁, t₁⟩ := bind_ok.mp h
  obtain ⟨_, s₂, h₂, t₂⟩ := bind_ok.mp t₁
  obtain ⟨_, s₃, h₃, t₃⟩ := bind_ok.mp t₂
  obtain ⟨x, s₄, h₄, t₄⟩ := bind_ok.mp t₃
  obtain ⟨y, s₅, h₅, t₅⟩ := bind_ok.mp t₄
  cases t₅
  have hcharge := chargeForValidationPubdataUsingWithheld_ok (mapError_ok.mp h₅)
  calc s'.res.native.toNat + y.1.toNat = s₄.res.native.toNat := hcharge
    _ ≤ s₃.res.native.toNat := native_le (.mapError _ (getResourcesToChargeForPubdata_within _ _)) h₄
    _ ≤ s₂.res.native.toNat := native_le (payForTransaction_within trivial trivial _) h₃
    _ ≤ s₁.res.native.toNat := native_le (validate_within Scope.thrifty_hasCalls.toOpen trivial) h₂
    _ ≤ s.res.native.toNat := native_le (checkNonceIsNotUsed_within _ _) h₁

theorem l2Validation_native {y : Caller × ValidationResult}
    (h : (l2Validation env cfg block tx p withheld).run env s = (.ok y, s')) :
    s'.res.native.toNat + y.2.mainNativeUsedForPubdata.toNat ≤ s.res.native.toNat := by
  have hw := Scope.thrifty_hasCalls.toHasWords
  unfold l2Validation at h
  simp only [run_bind, run_pure] at h
  obtain ⟨account, s₁, h₁, t₁⟩ := bind_ok.mp h
  obtain ⟨caller, s₂, h₂, t₂⟩ := bind_ok.mp t₁
  obtain ⟨_, s₃, h₃, t₃⟩ := bind_ok.mp t₂
  obtain ⟨_, s₄, h₄, t₄⟩ := bind_ok.mp t₃
  obtain ⟨_, s₅, h₅, t₅⟩ := bind_ok.mp t₄
  obtain ⟨_, s₆, h₆, t₆⟩ := bind_ok.mp t₅
  obtain ⟨v, s₇, hv, t₇⟩ := bind_ok.mp t₆
  obtain ⟨_, s₈, h₈, t₈⟩ := bind_ok.mp t₇
  cases t₈
  have hcaller : s₂ = s₁ := by
    split at h₂ <;> cases h₂
    rfl
  have hdelegations := native_le (applyDelegations_within hw _ _) h₈
  calc s'.res.native.toNat + v.mainNativeUsedForPubdata.toNat
    _ ≤ s₇.res.native.toNat + v.mainNativeUsedForPubdata.toNat := Nat.add_le_add_right hdelegations _
    _ ≤ s₆.res.native.toNat := transactionValidation_native hv
    _ ≤ s₅.res.native.toNat := native_le (chargeKeccak_within _) h₆
    _ ≤ s₄.res.native.toNat := native_le (chargeKeccak_within _) h₅
    _ ≤ s₃.res.native.toNat := native_le (warmUpAccessList_within hw _) h₄
    _ ≤ s₂.res.native.toNat := native_le chargeAdditionalIntrinsicGas_within h₃
    _ = s₁.res.native.toNat := by rw [hcaller]
    _ ≤ s.res.native.toNat := native_le (.mapError _ (.infiniteErgs (.readAccount _ trivial _ _))) h₁

/-! ## What is reported -/

theorem checkEnoughResourcesForPubdata_error {available : Resources} {base : Nat} {e : Err}
    (h : (checkEnoughResourcesForPubdata npp available base).run env s = (.error e, s')) : e = .defect := by
  unfold checkEnoughResourcesForPubdata getResourcesToChargeForPubdata at h
  simp only [run_bind, run_pure, run_perform, run_require] at h
  rcases bind_error h with h₁ | ⟨_, _, -, h₁⟩
  · rcases bind_error h₁ with h₂ | ⟨n, s₁, -, h₂⟩
    · change ((s.io.netPubdataUsed.elim (.error .defect) .ok : Except Err Nat), s) = _ at h₂
      rcases hn : s.io.netPubdataUsed with _ | n <;> rw [hn] at h₂ <;> cases h₂
      rfl
    · rcases bind_error h₂ with h₃ | ⟨_, _, -, h₃⟩
      · unfold Action.require at h₃
        split at h₃ <;> cases h₃
        rfl
      · cases h₃
  · cases h₁

theorem transactionExecution_res {x : Except Err ExecutionInfo}
    (h : (transactionExecution env machine tx nonce npp v).run env s = (x, s')) :
    (x = .error .fatal → ((executeOnClone env machine tx nonce).run env s).1 = .error .fatal ∧ s'.res = s.res) ∧
    (∀ i, x = .ok i → (∃ r, ((executeOnClone env machine tx nonce).run env s).1 = .ok r) ∧
      s'.res = ((executeOnClone env machine tx nonce).run env s).2.res) := by
  unfold transactionExecution execute at h
  rw [run_bind, bind_apply, run_onClone] at h
  rcases hx : (executeOnClone env machine tx nonce).run env s with ⟨e | r, t⟩
  · simp only [hx, Except.toOption, Option.isSome_none, Bool.false_eq_true, if_false] at h
    cases h
    refine ⟨fun he => ?_, nofun⟩
    cases he
    exact ⟨rfl, rfl⟩
  · simp only [hx, Except.toOption, Option.isSome_some, if_true] at h
    simp only [run_bind, run_pure, bind_apply, run_resources] at h
    rcases hc : (checkEnoughResourcesForPubdata npp (t.res.reclaimWithheld v.withheld) v.validationPubdata).run env
      ⟨t.io, t.res⟩ with ⟨e | c, t'⟩
    · rw [hc] at h
      cases h
      rw [checkEnoughResourcesForPubdata_error hc]
      exact ⟨nofun, nofun⟩
    · rw [hc] at h
      cases h
      obtain ⟨rfl, -⟩ := checkEnoughResourcesForPubdata_ok hc
      exact ⟨nofun, fun i _ => ⟨⟨r, rfl⟩, rfl⟩⟩

/-- The resources after execution: the clone's, or those before it after a fatal error. -/
theorem executeInFrame_native {e : ExecutionResult × Option (Nat × Resources)}
    (h : (executeInFrame env machine tx nonce npp v).run env s = (.ok e, s')) :
    let x := (executeOnClone env machine tx nonce).run env ⟨s.io.startFrame.2, s.res⟩
    s'.res.native = if endedFatally x.1 = true then s.res.native else x.2.res.native := by
  unfold executeInFrame at h
  simp only [run_bind] at h
  obtain ⟨r, s₁, hr, h₁⟩ := bind_ok.mp h
  rw [run_attempt, run_frame] at hr
  rcases hx : (transactionExecution env machine tx nonce npp v).run env ⟨s.io.startFrame.2, s.res⟩ with ⟨x, t⟩
  rw [hx] at hr
  cases hr
  obtain ⟨hfatal, hok⟩ := transactionExecution_res hx
  rcases x with (_ | _ | _ | _ | _ | _) | x
  case error.fatal =>
    simp only [run_bind, run_pure] at h₁
    obtain ⟨_, s₂, hm, h₂⟩ := bind_ok.mp h₁
    rw [run_modifyResources] at hm
    cases hm
    cases h₂
    obtain ⟨hx₁, ht⟩ := hfatal rfl
    simp [hx₁, endedFatally, Resources.exhaustErgs, ht]
  case ok =>
    cases h₁
    obtain ⟨⟨r, hr⟩, ht⟩ := hok x rfl
    simp only [hr, endedFatally, Bool.false_eq_true, if_false]
    exact congrArg Resources.native ht
  all_goals cases h₁

theorem used_toNat {before given intrinsic forPubdata : U64}
    (hbefore : before.toNat + forPubdata.toNat ≤ given.toNat) (hgiven : given.toNat + intrinsic.toNat < 2 ^ 64) :
    (Resources.absDiff before given + intrinsic - forPubdata).toNat =
      intrinsic.toNat + (given.toNat - before.toNat - forPubdata.toNat) := by
  have hle : before ≤ given := BitVec.le_def.mpr (by omega)
  have hdiff : (Resources.absDiff before given).toNat = given.toNat - before.toNat := by
    unfold Resources.absDiff
    split
    · exact BitVec.toNat_sub_of_le hle
    · rename_i h
      have := BitVec.le_antisymm hle (BitVec.not_lt.mp h)
      rw [this]
      simp
  have hsum : (Resources.absDiff before given + intrinsic).toNat = given.toNat - before.toNat + intrinsic.toNat := by
    rw [BitVec.toNat_add, hdiff, Nat.mod_eq_of_lt (by omega)]
  rw [BitVec.toNat_sub_of_le (BitVec.le_def.mpr (by omega)), hsum]
  omega

/-- A transaction that gets to its refund reports the native of its phases, except for an execution that
ended with a fatal error. -/
theorem computationalNativeUsed_eq {x : AtRefund} (h : (l2UntilRefund env cfg machine block tx).run env s = (.ok x, s'))
    :
    ∃ t, nativeTrace env cfg machine block tx s.io = some t ∧
      x.computationalNativeUsed.toNat = t.intrinsic.toNat + t.validation + if t.fatal then 0 else t.execution := by
  obtain ⟨hp, hg, y, sv, e, se, hy, he, hx, -⟩ := l2UntilRefund_ok h
  refine ⟨_, by simp only [nativeTrace, hp, hg, hy]; rfl, ?_⟩
  have hexec := executeInFrame_native he
  have hvalid := l2Validation_native hy
  have hle : ((executeOnClone env machine tx y.1.nonce).run env ⟨sv.io.startFrame.2, sv.res⟩).2.res.native.toNat ≤
      sv.res.native.toNat :=
    native_le (s := ⟨sv.io.startFrame.2, sv.res⟩) (executeOnClone_within Scope.thrifty_hasCalls trivial y.1.nonce)
      (Prod.mk.eta (p := (executeOnClone env machine tx y.1.nonce).run env ⟨sv.io.startFrame.2, sv.res⟩)).symm
  simp only at hexec
  have hbefore : se.res.native.toNat ≤ sv.res.native.toNat := by
    rw [hexec]
    split
    · exact Nat.le_refl _
    · exact hle
  simp only [AtRefund.computationalNativeUsed, hx, Resources.diff]
  rw [used_toNat (Nat.le_trans (Nat.add_le_add_right hbefore _) hvalid) (l2Resources_ok hg), hexec]
  simp only [NativeTrace.validation, NativeTrace.execution] at hvalid ⊢
  cases endedFatally ((executeOnClone env machine tx y.1.nonce).run env ⟨sv.io.startFrame.2, sv.res⟩).1
  · simp only [Bool.false_eq_true, if_false]
    omega
  · simp only [if_true]
    omega

/-! ## A deployment that runs out of native

Its init code asks for more native than a transaction can have. -/

/-- Every frame first charges `2 ^ 40` native. -/
def greedyMachine : Machine where
  interpreter _ := .charge ⟨0, 1 <<< 40⟩ fun _ => .exit (.success [])
  precompile _ _ := (.empty, none)

def freeBlock : BlockMetadata := { expensivePubdata with pubdataPrice := 1 }

def deploymentTx : L2Transaction :=
  { delegatingTx with
    gasLimit := 1000000000
    destination := none
    calldata := [0x00]
    authorizationList := none }

def deploymentRun : Except TxError TxProcessingResult × Sys :=
  (processL2Transaction emptyChain ⟨true, false⟩ greedyMachine freeBlock deploymentTx).run emptyChain
    ⟨Io.new.beginNextTx, .empty⟩

def deploymentTrace : Option NativeTrace :=
  nativeTrace emptyChain ⟨true, false⟩ greedyMachine freeBlock deploymentTx Io.new.beginNextTx

end ZkOs.Bootloader
