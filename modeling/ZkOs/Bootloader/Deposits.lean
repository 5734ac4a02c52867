import ZkOs.Bootloader.Fees

/-!
# The deposit of an L1 transaction

Nothing is taken from an account on L2: the value of the call, the operator's share and the refund are
minted, at three places and under different conditions.

* `executeL1InFrame_paying` : the value is minted if and only if the execution is kept;
* `l1PayAndLog_paying` : the operator's share and the refund;
* `l1_deposit_conserved` : all of it together is the deposit.
-/

namespace ZkOs.Bootloader

open SysM ZkOs.Action

variable {env : Env} {machine : Machine} {block : BlockMetadata} {tx : L1Transaction} {l : Option FrameLabel}

def mintIfNonzero (a : B160) (amount : U256) : List Payment := if amount ≠ 0 then [⟨a, amount, false⟩] else []

theorem sum_mintIfNonzero (a : B160) (amount : U256) :
    ((mintIfNonzero a amount).map fun p => p.amount.toNat).sum = amount.toNat := by
  unfold mintIfNonzero
  split
  · rfl
  · rename_i h
    rw [not_not.mp h]
    rfl

/-- The mint of the value, which is kept with the effects of the call. -/
def valueMint (tx : L1Transaction) (result : ExecutionResult) : List Payment :=
  if result.isRevert then [] else mintIfNonzero (.ofLow20 tx.fromAddress) tx.value

theorem sum_valueMint (tx : L1Transaction) (result : ExecutionResult) :
    ((valueMint tx result).map fun p => p.amount.toNat).sum = if result.isRevert then 0 else tx.value.toNat := by
  unfold valueMint
  split
  · rfl
  · exact sum_mintIfNonzero _ _

theorem mintToken_paying (hl : l.any FrameLabel.isCall = false) (value : U256) (a : B160) :
    Paying env l (mintToken value a) fun _ ps => ps = [⟨a, value, false⟩] :=
  .then_within (.updateBalance hl) fun _ => .pure _ fun _ h => h

theorem mintAndCall_paying (hl : l.any FrameLabel.isCall = false) :
    Paying env l (mintAndCall machine tx) fun _ ps => ps = mintIfNonzero (.ofLow20 tx.fromAddress) tx.value := by
  have hcall : Paying env l (onClone (runSingleInteraction machine tx.calldata (.ofLow20 tx.fromAddress)
      (.ofLow20 tx.toAddress) tx.value false)) fun _ ps => ps = [] :=
    .of_keeps (.onClone (payments_law.runSingleInteraction_keeps (fun _ _ => trivial) _ _ _ _ trivial))
  refine .bind (R := fun _ ps => ps = mintIfNonzero (.ofLow20 tx.fromAddress) tx.value)
    (.ite (fun hv => ?_) fun hv => .pure (if_neg hv).symm) fun _ ps hps s r s' hrun => ?_
  · rw [mintIfNonzero, if_pos hv]
    exact .infiniteErgs (mintToken_paying hl _ _)
  · show ps ++ _ = _
    rw [hcall s r s' hrun, List.append_nil, hps]

theorem executeL1Transaction_paying (npp : U256) (withheld : Resources) :
    Paying env l (executeL1Transaction machine tx npp withheld) fun x ps =>
      x.result.isRevert = false → ps = valueMint tx x.result := by
  refine .then_within (.frame (mintAndCall_paying rfl)) fun call => ?_
  refine .bind .resources fun _ _ => .bind (setResources_within trivial _) fun _ _ => .bind .resources fun _ _ => ?_
  refine .bind (Q := fun _ => True) (.bind (getResourcesToChargeForPubdata_within _ _) fun _ _ => .pure _ trivial)
    fun x _ => .pure _ fun ps hps hkept => ?_
  rw [valueMint, if_neg (Bool.eq_false_iff.mp hkept)]
  have hrevert : ∀ d, (if x.1 then .revert d else ExecutionResult.reverted (.revert d)).isRevert = true := by
    intro d
    split <;> rfl
  cases call with
  | successful d => exact hps
  | failed d => exact absurd (hkept.symm.trans (hrevert d)) Bool.false_ne_true
  | preparationStepFailed => exact absurd (hkept.symm.trans (hrevert [])) Bool.false_ne_true

theorem executeL1InFrame_paying (npp : U256) (withheld : Resources) :
    Paying env l (executeL1InFrame machine tx npp withheld) fun x ps => ps = valueMint tx x.1 := by
  refine .bind (.attempt_frame (executeL1Transaction_paying npp withheld)) fun r ps hps => ?_
  rcases r with e | x
  · cases e <;> first
      | exact .throw _
      | exact .bind_within .exhaustErgs fun _ _ => .pure ((List.append_nil ps).trans hps)
  · refine .pure ((List.append_nil ps).trans ?_)
    show ps = valueMint tx x.result
    by_cases hx : x.result.isRevert = true
    · rw [valueMint, if_pos hx]
      exact (if_pos (c := l1ExecutionFailed (.ok x) = true) hx).mp hps
    · exact (if_neg (c := l1ExecutionFailed (.ok x) = true) hx).mp hps x rfl (Bool.eq_false_iff.mpr hx)

def L1EndPayments (block : BlockMetadata) (tx : L1Transaction) (result : ExecutionResult) (gasUsed : U64)
    (ps : List Payment) : Prop :=
  ∃ operator refund : U256,
    operator.toNat = gasUsed.toNat * tx.maxFeePerGas.toNat ∧ toRefundRecipient tx operator result = some refund ∧
    ps = ⟨block.coinbase, operator, false⟩ :: mintIfNonzero (u256ToB160 tx.refundRecipient) refund

theorem l1PayAndLog_paying (hl : l.any FrameLabel.isCall = false) (txHash : Bytes32) (result : ExecutionResult)
    (gasUsed : U64) : Paying env l (l1PayAndLog block tx txHash result gasUsed) fun _ =>
      L1EndPayments block tx result gasUsed := by
  refine .bind_within (orInternal_within_some _) fun operator hoperator => ?_
  refine .then_within (R := fun _ => L1EndPayments block tx result gasUsed) (.paidFrom ?_) fun _ => ?_
  · refine .bind (.mapError (mintToken_paying hl _ _)) fun _ ps hps =>
      .bind_within (orInternal_within_some _) fun refund hrefund => ?_
    have hend : ∀ ps', ps' = mintIfNonzero (u256ToB160 tx.refundRecipient) refund →
        L1EndPayments block tx result gasUsed (ps ++ ps') := by
      rintro _ rfl
      refine ⟨operator, refund, ?_, hrefund, congrArg (· ++ _) hps⟩
      rw [checkedMul_eq_some hoperator, BitVec.toNat_setWidth_of_le (by decide)]
    refine .ite (fun hne => .bind_within (.require _ _) fun _ _ => ?_) fun heq => .pure (hend _ (if_neg heq).symm)
    intro s a s' h
    refine hend _ ?_
    rw [mintIfNonzero, if_pos hne]
    exact Paying.mapError (mintToken_paying hl _ _) s a s' h
  · exact .weaken (fun _ _ _ h => h) (.mapError _ (emitL1L2TxLog_within trivial trivial _ _ _))

theorem toRefundRecipient_sum {operator refund : U256} {result : ExecutionResult} (hpriority : tx.isPriorityOp = true)
    (h : toRefundRecipient tx operator result = some refund) :
    operator.toNat + (if result.isRevert then 0 else tx.value.toNat) + refund.toNat = tx.totalDeposited.toNat := by
  cases result with
  | revert d =>
    rw [toRefundRecipient, if_pos hpriority] at h
    have := checkedSub_eq_some h
    simp only [ExecutionResult.isRevert, if_true]
    omega
  | success d a =>
    obtain ⟨spent, hspent, h⟩ := Option.bind_eq_some_iff.mp h
    have := checkedAdd_eq_some hspent
    have := checkedSub_eq_some h
    simp only [ExecutionResult.isRevert, Bool.false_eq_true, if_false]
    omega

/-- Whatever the outcome: the operator's share, the value that was delivered and the refund are the
deposit. -/
theorem l1_deposit_conserved {s s' : Sys} {r : TxProcessingResult} (hl : l.any FrameLabel.isCall = false)
    (hpriority : tx.isPriorityOp = true) (h : (processL1Transaction env machine block tx).run env s = (.ok r, s')) :
    ∃ operator refund : U256,
      Pays env ((processL1Transaction env machine block tx).kept env l s) (valueMint tx r.result ++
        ⟨block.coinbase, operator, false⟩ :: mintIfNonzero (u256ToB160 tx.refundRecipient) refund) ∧
      operator.toNat = r.gasUsed.toNat * tx.maxFeePerGas.toNat ∧
      operator.toNat + (if r.result.isRevert then 0 else tx.value.toNat) + refund.toNat = tx.totalDeposited.toNat ∧
      ((payments env ((processL1Transaction env machine block tx).kept env l s)).map fun p => p.amount.toNat).sum =
        tx.totalDeposited.toNat := by
  have hpaying : Paying env l (processL1Transaction env machine block tx) fun r ps => ∃ ps',
      ps = valueMint tx r.result ++ ps' ∧ L1EndPayments block tx r.result r.gasUsed ps' := by
    refine .bind_within (orInternal_within_some _) fun prices _ => ?_
    split
    · exact .throw _
    · refine .bind_within (setResources_within trivial _) fun _ _ => ?_
      refine .bind_within (orInternal_within_some _) fun _ _ => .bind_within (orInternal_within_some _) fun _ _ =>
        .bind_within (.require _ _) fun _ _ => .bind_within (.attempt (.pay _)) fun hashed _ => ?_
      refine .bind (R := fun x ps => ps = valueMint tx x.1) ?_ fun x ps hps => ?_
      · rcases hashed with e | _
        · exact .bind_within .exhaustErgs fun _ _ => .pure rfl
        · exact executeL1InFrame_paying _ _
      · refine .bind_within (.mapError _ (pubdataCharge_within _ _ _)) fun charge _ => ?_
        refine .bind_within (.mapError _ (computeGasRefund_within trivial _ _ _)) fun info _ => ?_
        refine .then_within (l1PayAndLog_paying hl _ _ _) fun _ => .pure _ fun ps' hps' => ?_
        exact ⟨ps', congrArg (· ++ ps') hps, hps'⟩
  obtain ⟨_, hps, operator, refund, hoperator, hrefund, rfl⟩ := hpaying s r s' h
  have hsum := toRefundRecipient_sum hpriority hrefund
  refine ⟨operator, refund, .of_payments hps, hoperator, hsum, ?_⟩
  rw [hps, List.map_append, List.sum_append, List.map_cons, List.sum_cons, sum_valueMint, sum_mintIfNonzero, ← hsum,
    Nat.add_right_comm]
  exact Nat.add_comm _ _

def depositTx : L1Transaction where
  isPriorityOp := true
  fromAddress := 0x1111
  toAddress := 0x2222
  gasLimit := 1000000
  gasPerPubdataLimit := 1
  maxFeePerGas := 10
  value := 5
  totalDeposited := 20000000
  refundRecipient := 0x3333
  calldata := []
  buffer := []

def depositProgram : SysM TxError TxProcessingResult := processL1Transaction emptyChain failingMachine freeBlock depositTx

set_option maxRecDepth 100000 in
theorem l1_deposit_conserved_depositTx : ∃ r s' operator refund,
    depositProgram.run emptyChain ⟨Io.new.beginNextTx, .empty⟩ = (.ok r, s') ∧ r.result.isRevert = false ∧
    Pays emptyChain (depositProgram.kept emptyChain none ⟨Io.new.beginNextTx, .empty⟩)
      [⟨0x1111, 5, false⟩, ⟨freeBlock.coinbase, operator, false⟩, ⟨0x3333, refund, false⟩] ∧
    operator.toNat + 5 + refund.toNat = 20000000 := by
  obtain ⟨r, s', hrun, hok⟩ := exists_ok_of_any (x := depositProgram.run emptyChain ⟨Io.new.beginNextTx, .empty⟩)
    (f := fun r _ => !r.result.isRevert && decide (r.gasUsed.toNat < 1000000)) (by decide +kernel)
  simp only [Bool.and_eq_true, Bool.not_eq_true', decide_eq_true_eq] at hok
  have h := l1_deposit_conserved (l := none) rfl rfl hrun
  obtain ⟨operator, refund, hpays, hoperator, hsum, -⟩ := h
  rw [hok.1] at hsum
  have hne : refund ≠ 0 := by
    rintro rfl
    have : operator.toNat + 5 + 0 = 20000000 := hsum
    have : operator.toNat = r.gasUsed.toNat * 10 := hoperator
    omega
  rw [valueMint, hok.1, mintIfNonzero, mintIfNonzero, if_pos hne] at hpays
  exact ⟨r, s', operator, refund, hrun, hok.1, hpays, hsum⟩

end ZkOs.Bootloader
