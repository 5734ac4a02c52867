import ZkOs.Bootloader.Block
import ZkOs.Exec.Within

/-!
# What the processing of a transaction can do

The phases of a transaction as programs of a scope. Besides the accounts that words stand for the scope
needs the claimed sender of an L2 transaction and the coinbase.

* `txProgram_within` : a whole round of the block loop.
-/

namespace ZkOs.Bootloader

open SysM

section Validation

variable {env : Env} {cfg : Config} {sc : Scope} {tx : L2Transaction} {caller : Caller}

theorem chargeKeccak_within (len : Nat) : Within sc (chargeKeccak len) fun _ => True := .mapError _ (.pay _)

theorem chargeAdditionalIntrinsicGas_within : Within sc (chargeAdditionalIntrinsicGas tx) fun _ => True := by
  refine .bind (Q := fun _ => True) (.ite (fun _ => ?_) fun _ => .pure _ trivial) fun _ _ => .mapError _ (.pay _)
  exact .bind (.require _ _) fun _ _ => .mapError _ (.pay _)

theorem forM_within {ε α : Type} {f : α → SysM ε Unit} (hf : ∀ a, Within sc (f a) fun _ => True) (l : List α) :
    Within sc (l.forM f) fun _ => True := by
  induction l with
  | nil => exact .pure _ trivial
  | cons a l ih => exact .bind (hf a) fun _ _ => ih

theorem warmUpAccessList_within (hw : sc.HasWords) (l : List (BitVec 160 × List Bytes32)) :
    Within sc (warmUpAccessList l) fun _ => True := by
  induction l with
  | nil => exact .pure _ trivial
  | cons x l ih =>
    refine .bind (.mapError _ (.reading _ rfl (List.forall_mem_singleton.mpr (hw.words _)))) fun _ _ => ?_
    refine .bind (forM_within (fun k => ?_) _) fun _ _ => ih
    exact .mapError _ (.reading _ rfl (List.forall_mem_nil _))

theorem checkNonceIsNotUsed_within (state nonce : U64) :
    Within sc (checkNonceIsNotUsed state nonce) fun _ => True :=
  .bind (.require _ _) fun _ _ => (Within.require _ _).any

theorem checkSignature_within : Within sc (checkSignature env cfg tx) fun _ =>
    cfg.validateEoaSignature = true → tx.fromAddress.Canonical := by
  refine .ite (fun hoff => .weaken (fun _ _ hon => ?_) (.mapError _ (.pay _))) fun _ => ?_
  · rw [hoff] at hon
    cases hon
  · refine .bind (.require _ _) fun _ _ => .bind (.mapError _ (.pay _)) fun _ _ => ?_
    split
    · exact .throw _
    · refine .weaken (fun _ h _ => ?_) (.require _ _)
      rw [← h]
      exact B160.ofLow20_canonical _

theorem validate_within (ho : sc.Open) (hfrom : sc.accounts tx.fromAddress) :
    Within sc (validate env cfg tx caller) fun _ =>
      cfg.validateEoaSignature = true → tx.fromAddress.Canonical := by
  refine .bind (.require _ _) fun _ _ => ?_
  split
  · exact .throw _
  · refine .bind (.mapError _ (.readAccount _ hfrom _ _)) fun _ _ => .bind (.require _ _) fun _ _ => ?_
    refine .bind checkSignature_within fun _ hsig => .bind (.mapError _ (.incrementNonce ho _ hfrom _)) fun _ _ => ?_
    exact .weaken (fun _ _ => hsig) (.require _ _)

theorem orInternal_within {α : Type} (x : Option α) : Within sc (orInternal x) fun _ => True := by
  cases x
  · exact .throw _
  · exact .pure _ trivial

theorem updateBalance_within (hp : sc.pays) (ee : ExecutionEnvironmentType) {a : B160} (ha : sc.accounts a) (d : U256)
    (s f : Bool) : Within sc (perform (.updateBalance ee a d s f)) fun _ => True :=
  .perform _ ⟨List.forall_mem_singleton.mpr ha, nofun, fun _ => hp, nofun, nofun, nofun, nofun, nofun, nofun, nofun⟩

theorem payForTransaction_within (hfrom : sc.accounts tx.fromAddress) (hp : sc.pays) (gasPrice : U256) :
    Within sc (payForTransaction tx gasPrice caller) fun _ => True := by
  refine .bind (orInternal_within _) fun amount _ => .bind (.attempt (updateBalance_within hp _ hfrom _ _ _)) fun r _ => ?_
  have hread : Within sc (do
      let account ← mapError TxError.ofErr (perform (.readAccount caller.ee tx.fromAddress false false))
      throw (.validation (.lackOfFundForMaxFee amount account.1.balance)) : SysM TxError Unit) fun _ => True :=
    .bind (.mapError _ (.readAccount _ hfrom _ _)) fun _ _ => .throw _
  rcases r with e | _
  · cases e <;> first | exact hread | exact .throw _
  · exact .pure _ trivial

theorem getResourcesToChargeForPubdata_within (npp : U256) (base : Nat) :
    Within sc (getResourcesToChargeForPubdata npp base) fun _ => True :=
  .bind (.reading _ rfl (List.forall_mem_nil _)) fun _ _ => .bind (.require _ _) fun _ _ => .pure _ trivial

theorem chargeForValidationPubdataUsingWithheld_within (withheld toCharge : Resources) :
    Within sc (chargeForValidationPubdataUsingWithheld withheld toCharge) fun _ => True :=
  .ite (fun _ => .pure _ trivial) fun _ => .ite (fun _ => .bind (.pay _) fun _ _ => .pure _ trivial)
    fun _ => .bind (.pay _) fun _ _ => .pure _ trivial

theorem recoverAuthority_within (chainId : U64) (a : AuthorizationEntry) :
    Within sc (recoverAuthority env chainId a) fun x => ∀ authority, x = some authority →
      ∃ b : BitVec 160, authority = .ofLow20 b := by
  have hnone : Within sc (pure none : SysM TxError (Option B160)) fun x => ∀ authority, x = some authority →
      ∃ b : BitVec 160, authority = .ofLow20 b := .pure _ nofun
  refine .ite (fun _ => hnone) fun _ => .ite (fun _ => hnone) fun _ => .ite (fun _ => hnone) fun _ => ?_
  refine .bind (chargeKeccak_within _) fun _ _ => .ite (fun _ => hnone) fun _ => ?_
  refine .bind (.infiniteErgs (.mapError _ (.pay _))) fun _ _ => .pure _ fun authority h => ?_
  obtain ⟨b, -, hb⟩ := Option.map_eq_some_iff.mp h
  exact ⟨b, hb.symm⟩

theorem validateAndApplyDelegation_within (hw : sc.HasWords) (chainId : U64) (a : AuthorizationEntry) :
    Within sc (validateAndApplyDelegation env chainId a) fun _ => True := by
  refine .bind (recoverAuthority_within chainId a) fun x hx => ?_
  rcases x with _ | authority
  · exact .pure _ trivial
  · obtain ⟨b, rfl⟩ := hx _ rfl
    refine .bind (.infiniteErgs (.mapError _ (.readAccount _ (hw.words b) _ _))) fun account _ =>
      .ite (fun _ => .pure _ trivial) fun _ => ?_
    refine .bind (Q := fun _ => True) (.ite (fun _ => .pure _ trivial) fun _ => ?_) fun _ _ => ?_
    · exact .mapError _ (.quiet _ rfl hw.toOpen (List.forall_mem_nil _))
    · have hb := hw.words b
      refine .bind (.infiniteErgs (.mapError _ (.quiet _ rfl hw.toOpen (List.forall_mem_singleton.mpr hb)))) fun _ _ => ?_
      exact .bind (.infiniteErgs (.mapError _ (.incrementNonce hw.toOpen _ hb _))) fun _ _ => .pure _ trivial

theorem applyDelegations_within (hw : sc.HasWords) (chainId : U64) (l : List AuthorizationEntry) :
    Within sc (applyDelegations env chainId l) fun _ => True := by
  induction l with
  | nil => exact .pure _ trivial
  | cons a l ih => exact .bind (validateAndApplyDelegation_within hw chainId a) fun _ _ => ih

theorem transactionValidation_within (ho : sc.Open) (hfrom : sc.accounts tx.fromAddress) (hp : sc.pays)
    (gasPrice npp : U256) (withheld : Resources) : Within sc (transactionValidation env cfg tx gasPrice npp caller withheld) fun _ =>
      cfg.validateEoaSignature = true → tx.fromAddress.Canonical := by
  refine .bind (checkNonceIsNotUsed_within _ _) fun _ _ => .bind (validate_within ho hfrom) fun _ hsig => ?_
  refine .bind (payForTransaction_within hfrom hp gasPrice) fun _ _ => ?_
  refine .bind (.mapError _ (getResourcesToChargeForPubdata_within npp 0)) fun x _ => ?_
  exact .bind (.mapError _ (chargeForValidationPubdataUsingWithheld_within withheld x.2)) fun _ _ => .pure _ hsig

theorem l2Validation_within (hw : sc.HasWords) (hfrom : sc.accounts tx.fromAddress) (hp : sc.pays)
    (block : BlockMetadata) (p : Prices) (withheld : Resources) :
    Within sc (l2Validation env cfg block tx p withheld) fun _ =>
      cfg.validateEoaSignature = true → tx.fromAddress.Canonical := by
  refine .bind (.mapError _ (.infiniteErgs (.readAccount _ hfrom _ _))) fun account _ =>
    .bind (Q := fun _ => True) ?_ fun caller _ => ?_
  · split
    · exact .throw _
    · exact .pure _ trivial
  · refine .bind chargeAdditionalIntrinsicGas_within fun _ _ => .bind (warmUpAccessList_within hw _) fun _ _ => ?_
    refine .bind (chargeKeccak_within _) fun _ _ => .bind (chargeKeccak_within _) fun _ _ => ?_
    refine .bind (transactionValidation_within hw.toOpen hfrom hp _ _ withheld) fun v hsig => ?_
    exact .bind (applyDelegations_within hw _ _) fun _ _ => .pure _ hsig

end Validation

section Execution

variable {env : Env} {machine : Machine} {sc : Scope} {tx : L2Transaction}

theorem processDeployment_within (hsc : sc.HasCalls) (hfrom : sc.accounts tx.fromAddress) (nonce : U64) :
    Within sc (processDeployment env machine tx nonce) fun _ => True := by
  refine .ite (fun _ => .pure _ trivial) fun _ => .bind .resources fun r _ => .frame _ _ ?_
  refine .bind (runTillCompletion_within hsc ⟨hfrom, hsc.words _⟩ _) fun result _ => ?_
  cases result with
  | successful d => exact .bind (.infiniteErgs (.readAccount _ (hsc.words _) _ _)) fun _ _ => .pure _ trivial
  | failed d => exact .pure _ trivial
  | preparationStepFailed => exact .throw _

theorem processCall_within (hsc : sc.HasCalls) (hfrom : sc.accounts tx.fromAddress) (destination : BitVec 160) :
    Within sc (processCall machine tx destination) fun _ => True := by
  refine .bind (runSingleInteraction_within hsc hfrom (hsc.words _) _ _ _) fun result _ => ?_
  cases result <;> exact .pure _ trivial

theorem executeOnClone_within (hsc : sc.HasCalls) (hfrom : sc.accounts tx.fromAddress) (nonce : U64) :
    Within sc (executeOnClone env machine tx nonce) fun _ => True := by
  unfold executeOnClone
  split
  · exact processDeployment_within hsc hfrom nonce
  · exact processCall_within hsc hfrom _

end Execution

section Refund

variable {env : Env} {cfg : Config} {machine : Machine} {sc : Scope} {block : BlockMetadata} {tx : L2Transaction}

theorem setResources_within {ε : Type} (hr : sc.refills) (r : Resources) :
    Within sc (setResources r : SysM ε Unit) fun _ => True := .modifyResources (.inl hr)

theorem transactionExecution_within (hsc : sc.HasCalls) (hfrom : sc.accounts tx.fromAddress) (nonce : U64) (npp : U256)
    (v : ValidationResult) : Within sc (transactionExecution env machine tx nonce npp v) fun _ => True :=
  .bind (.onClone (executeOnClone_within hsc hfrom nonce)) fun _ _ => .bind .resources fun _ _ =>
    .bind (Q := fun _ => True) (.bind (getResourcesToChargeForPubdata_within _ _) fun _ _ => .pure _ trivial)
      fun _ _ => .pure _ trivial

theorem executeInFrame_within (hsc : sc.HasCalls) (hfrom : sc.accounts tx.fromAddress) (nonce : U64) (npp : U256)
    (v : ValidationResult) : Within sc (executeInFrame env machine tx nonce npp v) fun _ => True := by
  refine .bind (.attempt (.frame _ _ (transactionExecution_within hsc hfrom nonce npp v))) fun r _ => ?_
  rcases r with e | _
  · cases e <;> first | exact .throw _ | exact .bind .exhaustErgs fun _ _ => .pure _ trivial
  · exact .pure _ trivial

theorem pubdataCharge_within (npp : U256) (v : Nat) (i : Option (Nat × Resources)) :
    Within sc (pubdataCharge npp v i) fun _ => True := by
  cases i
  · exact getResourcesToChargeForPubdata_within _ _
  · exact .pure _ trivial

theorem computeGasRefund_within (hr : sc.refills) (c : Resources) (gasLimit : U64) (npg : U256) :
    Within sc (computeGasRefund c gasLimit npg) fun _ => True :=
  .bind (.modifyResources (.inl hr)) fun _ _ => .bind .resources fun _ _ => .bind .exhaustErgs fun _ _ =>
    .bind (.reading _ rfl (List.forall_mem_nil _)) fun _ _ => .bind (.require _ _) fun _ _ => .pure _ trivial

theorem refundAndPayOperator_within (hp : sc.pays) (hfrom : sc.accounts tx.fromAddress)
    (hcoinbase : sc.accounts block.coinbase) (gasPrice : U256) (ee : ExecutionEnvironmentType) (info : RefundInfo) :
    Within sc (refundAndPayOperator cfg block tx gasPrice ee info) fun _ => True :=
  .bind (orInternal_within _) fun _ _ => .bind (orInternal_within _) fun _ _ => .bind (orInternal_within _) fun _ _ =>
    .paidFrom _ (.bind (.mapError _ (updateBalance_within hp _ hfrom _ _ _)) fun _ _ =>
      .bind (.mapError _ (updateBalance_within hp _ hcoinbase _ _ _)) fun _ _ => .pure _ trivial)

theorem l2ValidateAndExecute_within (hsc : sc.HasCalls) (hr : sc.refills) (hfrom : sc.accounts tx.fromAddress)
    (p : Prices) (withheld : Resources) :
    Within sc (l2ValidateAndExecute env cfg machine block tx p withheld) fun _ => True :=
  .bind (l2Validation_within hsc.toHasWords hfrom hsc.pays block p withheld) fun _ _ =>
    .bind (executeInFrame_within hsc hfrom _ _ _) fun _ _ => .bind .resources fun _ _ =>
      .bind (setResources_within hr _) fun _ _ => .pure _ trivial

theorem l2UntilRefund_within (hsc : sc.HasCalls) (hr : sc.refills) (hfrom : sc.accounts tx.fromAddress) :
    Within sc (l2UntilRefund env cfg machine block tx) fun _ => True := by
  unfold l2UntilRefund
  split
  · exact .throw _
  · split
    · exact .throw _
    · exact .bind (setResources_within hr _) fun _ _ => .bind (l2ValidateAndExecute_within hsc hr hfrom _ _) fun _ _ =>
        .bind (.mapError _ (pubdataCharge_within _ _ _)) fun _ _ => .pure _ trivial

theorem processL2Transaction_within (hsc : sc.HasCalls) (hr : sc.refills) (hfrom : sc.accounts tx.fromAddress)
    (hcoinbase : sc.accounts block.coinbase) :
    Within sc (processL2Transaction env cfg machine block tx) fun _ => True :=
  .bind (l2UntilRefund_within hsc hr hfrom) fun _ _ => .bind (.mapError _ (computeGasRefund_within hr _ _ _)) fun _ _ =>
    .bind (refundAndPayOperator_within hsc.pays hfrom hcoinbase _ _ _) fun _ _ => .pure _ trivial

end Refund

section L1

variable {env : Env} {machine : Machine} {sc : Scope} {block : BlockMetadata} {tx : L1Transaction}

theorem mintToken_within (hp : sc.pays) {a : B160} (ha : sc.accounts a) (v : U256) :
    Within sc (mintToken v a) fun _ => True :=
  .bind (updateBalance_within hp _ ha _ _ _) fun _ _ => .pure _ trivial

theorem mintAndCall_within (hsc : sc.HasCalls) : Within sc (mintAndCall machine tx) fun _ => True :=
  .bind (Q := fun _ => True)
    (.ite (fun _ => .infiniteErgs (mintToken_within hsc.pays (hsc.words _) _)) fun _ => .pure _ trivial)
    fun _ _ => .onClone (runSingleInteraction_within hsc (hsc.words _) (hsc.words _) _ _ _)

theorem executeL1Transaction_within (hsc : sc.HasCalls) (hr : sc.refills) (npp : U256) (withheld : Resources) :
    Within sc (executeL1Transaction machine tx npp withheld) fun _ => True :=
  .bind (.frame _ _ (mintAndCall_within hsc)) fun _ _ => .bind .resources fun _ _ =>
    .bind (setResources_within hr _) fun _ _ => .bind .resources fun _ _ =>
      .bind (Q := fun _ => True) (.bind (getResourcesToChargeForPubdata_within _ _) fun _ _ => .pure _ trivial)
        fun _ _ => .pure _ trivial

theorem executeL1InFrame_within (hsc : sc.HasCalls) (hr : sc.refills) (npp : U256) (withheld : Resources) :
    Within sc (executeL1InFrame machine tx npp withheld) fun _ => True := by
  refine .bind (.attempt (.frame _ _ (executeL1Transaction_within hsc hr npp withheld))) fun r _ => ?_
  rcases r with e | _
  · cases e <;> first | exact .throw _ | exact .bind .exhaustErgs fun _ _ => .pure _ trivial
  · exact .pure _ trivial

theorem emitL1L2TxLog_within (he : sc.edits) (hout : sc.outcomes) (txHash : Bytes32) (success isPriority : Bool) :
    Within sc (perform (.emitL1L2TxLog txHash success isPriority)) fun _ => True :=
  .perform _ ⟨List.forall_mem_nil _, nofun, nofun, nofun, nofun, nofun, nofun, fun _ => he, nofun, fun _ => hout⟩

theorem l1PayAndLog_within (hw : sc.HasWords) (hp : sc.pays) (hout : sc.outcomes) (hcoinbase : sc.accounts block.coinbase)
    (txHash : Bytes32) (result : ExecutionResult) (gasUsed : U64) :
    Within sc (l1PayAndLog block tx txHash result gasUsed) fun _ => True := by
  refine .bind (orInternal_within _) fun _ _ => .bind (Q := fun _ => True) (.paidFrom _ ?_) fun _ _ =>
    .mapError _ (emitL1L2TxLog_within hw.edits hout _ _ _)
  refine .bind (.mapError _ (mintToken_within hp hcoinbase _)) fun _ _ => .bind (orInternal_within _) fun _ _ => ?_
  refine .ite (fun _ => .bind (.require _ _) fun _ _ => ?_) fun _ => .pure _ trivial
  exact .mapError _ (mintToken_within hp (hw.words _) _)

theorem processL1Transaction_within (hsc : sc.HasCalls) (hr : sc.refills) (hout : sc.outcomes)
    (hcoinbase : sc.accounts block.coinbase) :
    Within sc (processL1Transaction env machine block tx) fun _ => True := by
  refine .bind (orInternal_within _) fun prices _ => ?_
  split
  · exact .throw _
  · refine .bind (setResources_within hr _) fun _ _ => .bind (orInternal_within _) fun _ _ =>
      .bind (orInternal_within _) fun _ _ => .bind (.require _ _) fun _ _ => .bind (.attempt (.pay _)) fun hashed _ => ?_
    refine .bind (Q := fun _ => True) ?_ fun x _ => ?_
    · rcases hashed with e | _
      · exact .bind .exhaustErgs fun _ _ => .pure _ trivial
      · exact executeL1InFrame_within hsc hr _ _
    · refine .bind (.mapError _ (pubdataCharge_within _ _ _)) fun _ _ => ?_
      refine .bind (.mapError _ (computeGasRefund_within hr _ _ _)) fun _ _ => ?_
      exact .bind (l1PayAndLog_within hsc.toHasWords hsc.pays hout hcoinbase _ _ _) fun _ _ => .pure _ trivial

end L1

section Block

variable {env : Env} {cfg : Config} {machine : Machine} {sc : Scope} {block : BlockMetadata}

/-- The claimed sender of an L2 transaction is in the scope; other addresses are read from bytes. -/
def IncomingTx.SenderIn (sc : Scope) : IncomingTx → Prop
  | .l2 tx => sc.accounts tx.fromAddress
  | _ => True

theorem processTransaction_within (hsc : sc.HasCalls) (hr : sc.refills) (hout : sc.outcomes)
    (hcoinbase : sc.accounts block.coinbase) (isFirstTx : Bool) {tx : IncomingTx} (htx : tx.SenderIn sc) :
    Within sc (processTransaction env cfg machine block isFirstTx tx) fun _ => True := by
  cases tx with
  | unreadable => exact .throw _
  | undecodable => exact .throw _
  | l2 tx => exact processL2Transaction_within hsc hr htx hcoinbase
  | l1 tx => exact .ite (fun _ => .throw _) fun _ => processL1Transaction_within hsc hr hout hcoinbase

theorem txBody_within (hsc : sc.HasCalls) (hr : sc.refills) (hout : sc.outcomes)
    (hcoinbase : sc.accounts block.coinbase) (b : BlockData) {tx : IncomingTx} (htx : tx.SenderIn sc) : Within sc (txBody env cfg machine block b tx) fun _ => True := by
  refine .bind (.attempt (processTransaction_within hsc hr hout hcoinbase _ htx)) fun r _ => ?_
  rcases r with e | r
  · cases e <;> exact .pure _ trivial
  · refine .bind (.attempt (.reading _ rfl (List.forall_mem_nil _))) fun logs _ => ?_
    simp only
    split <;> exact .pure _ trivial

theorem txProgram_within (hsc : sc.HasCalls) (hr : sc.refills) (hout : sc.outcomes)
    (hcoinbase : sc.accounts block.coinbase) (b : BlockData) {tx : IncomingTx} (htx : tx.SenderIn sc) : Within sc (txProgram env cfg machine block b tx) fun _ => True := by
  refine .bind (.attempt (.paidFrom _ (.readAccount _ hcoinbase _ _))) fun r _ => ?_
  rcases r with e | _
  · exact .pure _ trivial
  · exact .frame _ _ (txBody_within hsc hr hout hcoinbase b htx)

end Block

end ZkOs.Bootloader
