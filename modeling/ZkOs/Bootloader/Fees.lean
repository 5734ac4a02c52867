import ZkOs.Bootloader.Keys
import ZkOs.Bootloader.Native
import ZkOs.Bootloader.Payments

/-!
# The fee of an L2 transaction

The whole gas limit is paid before the execution. Afterwards the sender gets back what was not used,
and the operator gets the rest, without the base fee where this is burned.

* `computeGasRefund_within_sum` : gas used and gas refunded make up the gas limit;
* `l2UntilRefund_paying`, `refundAndPayOperator_paying` : the payments before and after the refund is
  known;
* `l2_fees_conserved` : what the sender paid is what was refunded, paid to the operator and burned.
-/

namespace ZkOs.Bootloader

open SysM ZkOs.Action

/-! ## Machine arithmetic -/

section Arithmetic

variable {w : Nat} {a b : BitVec w}

theorem toNat_add_sub_of_sub_le (h : a - b ≤ a) : b.toNat + (a - b).toNat = a.toNat := by
  by_cases hle : b ≤ a
  · rw [BitVec.toNat_sub_of_le hle]
    exact Nat.add_sub_cancel' (BitVec.le_def.mp hle)
  · have hlt := BitVec.lt_def.mp (BitVec.not_le.mp hle)
    have hb := b.isLt
    rw [BitVec.le_def, BitVec.toNat_sub, Nat.mod_eq_of_lt (by omega)] at h
    omega

theorem ite_le_right : (if a ≤ b then a else b) ≤ b := by
  split
  · assumption
  · exact BitVec.le_refl b

end Arithmetic

section Fees

variable {env : Env} {cfg : Config} {machine : Machine} {block : BlockMetadata} {tx : L2Transaction}
  {l : Option FrameLabel}

theorem getGasPrice_le {maxFee price : U256} {priority : Option U256}
    (h : getGasPrice block maxFee priority = .ok price) : price ≤ maxFee := by
  simp only [getGasPrice] at h
  split at h
  · cases h
  · split at h
    · cases h
    · cases h
      exact ite_le_right

theorem l2Prices_gasPrice {p : Prices} (h : l2Prices block tx = .ok p) :
    getGasPrice block tx.maxFeePerGas tx.maxPriorityFeePerGas = .ok p.gasPrice := by
  simp only [l2Prices] at h
  split at h
  · cases h
  · split at h
    · cases h
    · rcases hg : getGasPrice block tx.maxFeePerGas tx.maxPriorityFeePerGas with e | gasPrice
      · rw [hg] at h
        cases h
      · rw [hg] at h
        simp only [bind, Except.bind] at h
        split at h
        · cases h
        · cases h
          rfl

/-- The last check of the computation excludes that more gas is used than there was. -/
theorem computeGasRefund_within_sum (c : Resources) (gasLimit : U64) (npg : U256) :
    Within (.plain fun _ => True) (computeGasRefund c gasLimit npg) fun info =>
      info.gasUsed.toNat + info.gasRefund.toNat = gasLimit.toNat :=
  .bind (.modifyResources (.inl trivial)) fun _ _ => .bind .resources fun _ _ => .bind .exhaustErgs fun _ _ =>
    .bind (.reading _ rfl (List.forall_mem_nil _)) fun _ _ => .bind (.require _ _) fun _ h =>
      .pure _ (toNat_add_sub_of_sub_le h)

/-! ## Payments -/

theorem orInternal_within_some {α : Type} (x : Option α) :
    Within (.plain fun _ => True) (orInternal x) fun a => x = some a := by
  cases x
  · exact .throw _
  · exact .pure _ rfl

def FeeDebit (tx : L2Transaction) (gasPrice : U256) (ps : List Payment) : Prop :=
  ∃ fee : U256, fee.toNat = tx.gasLimit.toNat * gasPrice.toNat ∧ ps = [⟨tx.fromAddress, fee, true⟩]

theorem payForTransaction_paying (hl : l.any FrameLabel.isCall = false) (gasPrice : U256) (caller : Caller) :
    Paying env l (payForTransaction tx gasPrice caller) fun _ => FeeDebit tx gasPrice := by
  refine .bind_within (orInternal_within_some _) fun fee hfee => ?_
  refine .bind (.attempt (.updateBalance hl)) fun r ps hps => ?_
  rcases r with e | old
  · cases e <;> first
      | exact .throw _
      | exact .bind_within (.mapError _ (.readAccount _ trivial _ _)) fun _ _ => .throw _
  · refine .pure ⟨fee, ?_, ?_⟩
    · rw [checkedMul_eq_some hfee, BitVec.toNat_setWidth_of_le (by decide), Nat.mul_comm]
    · rw [hps old rfl, List.append_nil]

theorem transactionValidation_paying (hl : l.any FrameLabel.isCall = false) (gasPrice npp : U256) (caller : Caller)
    (withheld : Resources) : Paying env l (transactionValidation env cfg tx gasPrice npp caller withheld) fun _ =>
      FeeDebit tx gasPrice := by
  have ho : (Scope.plain fun _ => True).Open := (Scope.plain_hasWords _).toOpen
  refine .bind_within (checkNonceIsNotUsed_within _ _) fun _ _ => .bind_within (validate_within ho trivial) fun _ _ => ?_
  refine .then_within (payForTransaction_paying hl gasPrice caller) fun _ => ?_
  refine .bind (.mapError _ (getResourcesToChargeForPubdata_within npp 0)) fun x _ => ?_
  exact .bind (.mapError _ (chargeForValidationPubdataUsingWithheld_within withheld x.2)) fun _ _ => .pure _ fun _ h => h

theorem l2Validation_paying (hl : l.any FrameLabel.isCall = false) (p : Prices) (withheld : Resources) :
    Paying env l (l2Validation env cfg block tx p withheld) fun _ => FeeDebit tx p.gasPrice := by
  have hw := Scope.plain_hasWords fun _ => True
  refine .bind_within (.mapError _ (.infiniteErgs (.readAccount _ trivial _ _))) fun account _ =>
    .bind_within (Q := fun _ => True) ?_ fun caller _ => ?_
  · split
    · exact .throw _
    · exact .pure _ trivial
  · refine .bind_within chargeAdditionalIntrinsicGas_within fun _ _ => .bind_within (warmUpAccessList_within hw _)
      fun _ _ => .bind_within (chargeKeccak_within _) fun _ _ => .bind_within (chargeKeccak_within _) fun _ _ => ?_
    refine .then_within (transactionValidation_paying hl _ _ caller withheld) fun v => ?_
    exact .bind (applyDelegations_within hw _ _) fun _ _ => .pure _ fun _ h => h

theorem l2UntilRefund_paying (hl : l.any FrameLabel.isCall = false) :
    Paying env l (l2UntilRefund env cfg machine block tx) fun x ps =>
      l2Prices block tx = .ok x.prices ∧ FeeDebit tx x.prices.gasPrice ps := by
  unfold l2UntilRefund
  split
  · exact .throw _
  · rename_i p hp
    split
    · exact .throw _
    · refine .bind_within (setResources_within trivial _) fun _ _ => ?_
      refine .then_within (R := fun _ => FeeDebit tx p.gasPrice) ?_ fun x => ?_
      · refine .bind (l2Validation_paying hl p _) fun x ps hps => ?_
        refine .then_within (.of_keeps (executeInFrame_keeps payments_law (fun _ _ => trivial) trivial _ _ _)) fun _ => ?_
        refine .bind .resources fun _ _ => .bind (setResources_within trivial _) fun _ _ => .pure _ fun ps' hps' => ?_
        rwa [hps', List.append_nil]
      · refine .bind (.mapError _ (pubdataCharge_within _ _ _)) fun _ _ => .pure _ fun ps hps => ⟨hp, hps⟩

/-- What the operator does not get. -/
def burnedFee (cfg : Config) (block : BlockMetadata) (gasUsed : U64) : Nat :=
  if cfg.burnBaseFee then gasUsed.toNat * block.eip1559Basefee.toNat else 0

theorem gasPriceForOperator_add_burned {gasPrice price : U256} (gasUsed : U64)
    (h : gasPriceForOperator cfg block gasPrice = some price) :
    gasUsed.toNat * price.toNat + burnedFee cfg block gasUsed = gasUsed.toNat * gasPrice.toNat := by
  unfold gasPriceForOperator at h
  unfold burnedFee
  split at h
  · rw [if_pos ‹_›, ← Nat.mul_add, checkedSub_eq_some h]
  · cases h
    rw [if_neg ‹_›, Nat.add_zero]

theorem refundAndPayOperator_paying (hl : l.any FrameLabel.isCall = false) (gasPrice : U256)
    (ee : ExecutionEnvironmentType) (info : RefundInfo) :
    Paying env l (refundAndPayOperator cfg block tx gasPrice ee info) fun _ ps => ∃ refund operator : U256,
      refund.toNat = info.gasRefund.toNat * gasPrice.toNat ∧
      operator.toNat + burnedFee cfg block info.gasUsed = info.gasUsed.toNat * gasPrice.toNat ∧
      ps = [⟨tx.fromAddress, refund, false⟩, ⟨block.coinbase, operator, false⟩] := by
  refine .bind_within (orInternal_within_some _) fun refund hrefund => .bind_within (orInternal_within_some _)
    fun price hprice => .bind_within (orInternal_within_some _) fun operator hoperator => .paidFrom ?_
  refine .bind (.mapError (.updateBalance hl)) fun _ ps hps => ?_
  refine .then_within (.mapError (.updateBalance hl)) fun _ => .pure _ fun ps' hps' => ⟨refund, operator, ?_, ?_, ?_⟩
  · rw [checkedMul_eq_some hrefund, BitVec.toNat_setWidth_of_le (by decide)]
  · rw [checkedMul_eq_some hoperator, BitVec.toNat_setWidth_of_le (by decide), gasPriceForOperator_add_burned _ hprice]
  · rw [hps, hps']
    rfl

/-! ## Conservation -/

/-- Whatever the outcome of the execution: the sender pays for the whole gas limit and gets back what
was not used, and the rest is paid to the operator or burned. -/
theorem l2_fees_conserved {s s' : Sys} {r : TxProcessingResult} (hl : l.any FrameLabel.isCall = false)
    (h : (processL2Transaction env cfg machine block tx).run env s = (.ok r, s')) :
    ∃ (gasPrice fee refund operator : U256) (gasRefund : Nat),
      getGasPrice block tx.maxFeePerGas tx.maxPriorityFeePerGas = .ok gasPrice ∧ gasPrice ≤ tx.maxFeePerGas ∧
      r.gasUsed.toNat + gasRefund = tx.gasLimit.toNat ∧
      Pays env ((processL2Transaction env cfg machine block tx).kept env l s)
        [⟨tx.fromAddress, fee, true⟩, ⟨tx.fromAddress, refund, false⟩, ⟨block.coinbase, operator, false⟩] ∧
      fee.toNat = tx.gasLimit.toNat * gasPrice.toNat ∧ refund.toNat = gasRefund * gasPrice.toNat ∧
      fee.toNat = refund.toNat + operator.toNat + burnedFee cfg block r.gasUsed := by
  have hpaying : Paying env l (processL2Transaction env cfg machine block tx) fun r ps =>
      ∃ (gasPrice fee refund operator : U256) (gasRefund : Nat),
        getGasPrice block tx.maxFeePerGas tx.maxPriorityFeePerGas = .ok gasPrice ∧
        r.gasUsed.toNat + gasRefund = tx.gasLimit.toNat ∧
        ps = [⟨tx.fromAddress, fee, true⟩, ⟨tx.fromAddress, refund, false⟩, ⟨block.coinbase, operator, false⟩] ∧
        fee.toNat = tx.gasLimit.toNat * gasPrice.toNat ∧ refund.toNat = gasRefund * gasPrice.toNat ∧
        operator.toNat + burnedFee cfg block r.gasUsed = r.gasUsed.toNat * gasPrice.toNat := by
    refine .bind (l2UntilRefund_paying hl) fun x ps hps => ?_
    obtain ⟨hprices, fee, hfee, rfl⟩ := hps
    refine .bind_within (.mapError _ (computeGasRefund_within_sum _ _ _)) fun info hsum => ?_
    refine .then_within (refundAndPayOperator_paying hl _ _ info) fun _ => .pure _ fun ps' hps' => ?_
    obtain ⟨refund, operator, hrefund, hoperator, rfl⟩ := hps'
    exact ⟨_, fee, refund, operator, _, l2Prices_gasPrice hprices, hsum, rfl, hfee, hrefund, hoperator⟩
  obtain ⟨gasPrice, fee, refund, operator, gasRefund, hprice, hsum, hps, hfee, hrefund, hoperator⟩ := hpaying s r s' h
  refine ⟨gasPrice, fee, refund, operator, gasRefund, hprice, getGasPrice_le hprice, hsum, .of_payments hps, hfee,
    hrefund, ?_⟩
  calc fee.toNat = (r.gasUsed.toNat + gasRefund) * gasPrice.toNat := by rw [hfee, hsum]
    _ = refund.toNat + operator.toNat + burnedFee cfg block r.gasUsed := by
      rw [Nat.add_mul, hrefund, ← hoperator]
      omega

end Fees

def baseFeeBlock : BlockMetadata := { freeBlock with eip1559Basefee := 1 }

def feeTx : L2Transaction := { payingTx with maxFeePerGas := 3 }

/-- A transaction that runs out of gas, with the base fee burned. -/
def feeProgram : SysM TxError TxProcessingResult :=
  processL2Transaction fundedChain ⟨true, true⟩ failingMachine baseFeeBlock feeTx

set_option maxRecDepth 100000 in
theorem l2_fees_conserved_feeTx : ∃ r s' fee refund operator,
    feeProgram.run fundedChain ⟨Io.new.beginNextTx, .empty⟩ = (.ok r, s') ∧
    Pays fundedChain (feeProgram.kept fundedChain none ⟨Io.new.beginNextTx, .empty⟩)
      [⟨feeTx.fromAddress, fee, true⟩, ⟨feeTx.fromAddress, refund, false⟩, ⟨baseFeeBlock.coinbase, operator, false⟩] ∧
    fee.toNat = refund.toNat + operator.toNat + burnedFee ⟨true, true⟩ baseFeeBlock r.gasUsed := by
  obtain ⟨r, s', hrun, -⟩ := exists_ok_of_any (x := feeProgram.run fundedChain ⟨Io.new.beginNextTx, .empty⟩)
    (f := fun _ _ => true) (by decide +kernel)
  have h := l2_fees_conserved (l := none) rfl hrun
  obtain ⟨_, fee, refund, operator, _, -, -, -, hpays, -, -, hsum⟩ := h
  exact ⟨r, s', fee, refund, operator, hrun, hpays, hsum⟩

end ZkOs.Bootloader
