import ZkOs.Bootloader.L2

/-!
# L1 transactions and the block loop

* `processL1Transaction` : L1 to L2 and upgrade transactions; fees and value are minted;
* `processTransaction` : the choice between the kinds of transactions;
* `runTx`, `runTxs` : the loop of `run_prepared` over the transactions of a block, which undoes
  transactions that are invalid or exceed a limit of the block.
-/

namespace ZkOs.Bootloader

open SysM Digits

/-! ## L1 transactions -/

def mintToken (value : U256) (to_ : B160) : SysM Err Unit := do
  let _ ← perform (.updateBalance .evm to_ value false false)

/-- An execution of an L1 transaction with the price of its pubdata and `resources_before_refund`. -/
structure L1ExecutionInfo where
  result : ExecutionResult
  pubdataUsed : Nat
  toChargeForPubdata : Resources
  beforeRefund : Resources

/-- The mint of the value and the call, in the inner frame of an L1 transaction. An overflow of the
mint is an interface error and ends the block. -/
def mintAndCall (machine : Machine) (tx : L1Transaction) : SysM Err CallResult := do
  (if tx.value ≠ 0 then infiniteErgs (mintToken tx.value (.ofLow20 tx.fromAddress)) else pure ())
  onClone (runSingleInteraction machine tx.calldata (.ofLow20 tx.fromAddress) (.ofLow20 tx.toAddress) tx.value
    false)

/-- `execute_l1_transaction_and_notify_result` -/
def executeL1Transaction (machine : Machine) (tx : L1Transaction) (nativePerPubdata : U256)
    (withheld : Resources) : SysM Err L1ExecutionInfo := do
  let call ← SysM.frame .interaction callFailed (mintAndCall machine tx)
  let result : ExecutionResult := match call with
    | .successful d => .success d none
    | .failed d => .revert d
    | .preparationStepFailed => .revert []
  let before ← resources
  setResources (before.reclaimWithheld withheld)
  let r ← resources
  let x ← checkEnoughResourcesForPubdata nativePerPubdata r 0
  pure ⟨if x.1 then result else result.reverted, x.2.2, x.2.1, before⟩

def l1ExecutionFailed : Except Err L1ExecutionInfo → Bool
  | .ok x => x.result.isRevert
  | .error e => decide (e = .fatal)

/-- Execution of an L1 transaction and the end of its frame. -/
def executeL1InFrame (machine : Machine) (tx : L1Transaction) (nativePerPubdata : U256) (withheld : Resources) :
    SysM TxError (ExecutionResult × Option (Nat × Resources) × Resources) := do
  let r ← attempt
    (SysM.frame .transaction l1ExecutionFailed (executeL1Transaction machine tx nativePerPubdata withheld))
  match r with
  | .ok x =>
    pure (x.result, (if x.result.isRevert then none else some (x.pubdataUsed, x.toChargeForPubdata)),
      x.beforeRefund)
  | .error .fatal => do
    modifyResources Resources.exhaustErgs
    pure (.revert [], none, .empty)
  | .error _ => throw .internal

/-- The prices of an L1 transaction: native per gas and native per pubdata. -/
def l1Prices (tx : L1Transaction) : Option (U256 × U256) := do
  let nativePerGas := if tx.isPriorityOp then divCeil tx.maxFeePerGas 10 else 10000
  let nativePerPubdata ← checkedMul (tx.gasPerPubdataLimit.setWidth 256) nativePerGas
  some (nativePerGas, nativePerPubdata)

def l1TxIntrinsicPubdata : Nat := 88 + 65

/-- What the refund recipient gets: the deposit without the operator's share and, after a success,
without the value. -/
def toRefundRecipient (tx : L1Transaction) (payToOperator : U256) : ExecutionResult → Option U256
  | .revert _ => if tx.isPriorityOp then checkedSub tx.totalDeposited payToOperator else none
  | .success .. => do checkedSub tx.totalDeposited (← checkedAdd tx.value payToOperator)

def l1PayAndLog (block : BlockMetadata) (tx : L1Transaction) (txHash : Bytes32) (result : ExecutionResult)
    (gasUsed : U64) : SysM TxError Unit := do
  let payToOperator ← orInternal (checkedMul (gasUsed.setWidth 256) tx.maxFeePerGas)
  paidFrom .infinite do
    mapError (fun _ => .internal) (mintToken payToOperator block.coinbase)
    let refund ← orInternal (toRefundRecipient tx payToOperator result)
    (if refund ≠ 0 then do
      -- `u256_to_b160_checked`
      require (tx.refundRecipient.toNat < 2 ^ 160) .assertion
      mapError (fun _ => .internal) (mintToken refund (u256ToB160 tx.refundRecipient))
    else pure ())
  mapError (fun _ => .internal) (perform (.emitL1L2TxLog txHash (!result.isRevert) tx.isPriorityOp))

def processL1Transaction (env : Env) (machine : Machine) (block : BlockMetadata) (tx : L1Transaction) :
    SysM TxError TxProcessingResult := do
  let prices ← orInternal (l1Prices tx)
  match getResourcesForTx tx.gasLimit prices.2 prices.1 tx.calldata 21000 (BitVec.ofNat 64 l1TxIntrinsicPubdata)
      130000 true with
  | .error e => throw e
  | .ok rs => do
    setResources rs.mainResources
    let cost ← orInternal (checkedMul tx.maxFeePerGas (tx.gasLimit.setWidth 256))
    let needed ← orInternal (checkedAdd tx.value cost)
    require (needed ≤ tx.totalDeposited) .internal
    let txHash := env.keccak (beBytes 32 0x20 ++ tx.buffer)
    let hashed ← attempt (pay (.fromNative (keccak256NativeCost (32 + tx.buffer.length))))
    let x ← (match hashed with
      | .ok _ => executeL1InFrame machine tx prices.2 rs.withheld
      -- out of native already
      | .error _ => do
        modifyResources Resources.exhaustErgs
        pure (.revert [], none, .empty))
    let charge ← mapError (fun _ => .internal) (pubdataCharge prices.2 0 x.2.1)
    let info ← mapError (fun _ => .internal) (computeGasRefund charge.2 tx.gasLimit prices.1)
    l1PayAndLog block tx txHash x.1 info.gasUsed
    pure
      { result := x.1
        txHash := txHash
        isL1Tx := tx.isPriorityOp
        isUpgradeTx := !tx.isPriorityOp
        gasUsed := info.gasUsed
        gasRefunded := info.evmRefund
        computationalNativeUsed := (x.2.2.diff rs.mainResources).native + rs.intrinsicComputationalNativeCharged
        nativeUsed := info.nativeUsed
        pubdataUsed := charge.1 + l1TxIntrinsicPubdata }

/-! ## The block loop -/

/-- A transaction as it arrives: not even readable, not decodable, or one of the kinds. -/
inductive IncomingTx where
  | unreadable
  | undecodable
  | l2 (tx : L2Transaction)
  | l1 (tx : L1Transaction)

def processTransaction (env : Env) (cfg : Config) (machine : Machine) (block : BlockMetadata) (isFirstTx : Bool) :
    IncomingTx → SysM TxError TxProcessingResult
  | .unreadable | .undecodable => throw (.validation .invalidEncoding)
  | .l2 tx => processL2Transaction env cfg machine block tx
  | .l1 tx =>
    if tx.isPriorityOp = false ∧ isFirstTx = false then throw (.validation .upgradeTxNotFirst)
    else processL1Transaction env machine block tx

def maxNumberOfLogs : Nat := 16384

structure BlockData where
  firstTx : Bool
  gasUsed : Nat
  computationalNativeUsed : Nat
  pubdataUsed : Nat
  txRollingHash : Bytes32
  /-- What the hasher of L1 transactions was fed, newest first. -/
  l1ToL2Txs : List Bytes32
  upgradeTxHash : Bytes32
  deriving DecidableEq

def BlockData.new : BlockData := ⟨true, 0, 0, 0, 0, [], 0⟩

def BlockData.add (env : Env) (b : BlockData) (r : TxProcessingResult) : BlockData where
  firstTx := false
  gasUsed := b.gasUsed + r.gasUsed.toNat
  computationalNativeUsed := b.computationalNativeUsed + r.computationalNativeUsed.toNat
  pubdataUsed := b.pubdataUsed + r.pubdataUsed
  txRollingHash := env.keccak (beBytes 32 b.txRollingHash.toNat ++ beBytes 32 r.txHash.toNat)
  l1ToL2Txs := if r.isL1Tx then r.txHash :: b.l1ToL2Txs else b.l1ToL2Txs
  upgradeTxHash := if r.isUpgradeTx then r.txHash else b.upgradeTxHash

/-- The limit that is exceeded. -/
def checkForBlockLimits (block : BlockMetadata) (b : BlockData) (logsUsed : Nat) : Option InvalidTransaction :=
  if block.gasLimit.toNat < b.gasUsed then some .blockGasLimitReached
  else if maxNativeComputational.toNat < b.computationalNativeUsed then some .blockNativeLimitReached
  else if block.pubdataLimit.toNat < b.pubdataUsed then some .blockPubdataLimitReached
  else if maxNumberOfLogs < logsUsed then some .blockL2ToL1LogsLimitReached
  else none

/-- What the loop does with a transaction: the new accumulators, or why it was rejected, or the end
of the block with an internal error or a failed assertion. -/
inductive TxOutcome where
  | included (r : TxProcessingResult) (b : BlockData)
  | rejected (e : InvalidTransaction)
  | aborted

def TxOutcome.isRejected : TxOutcome → Bool
  | rejected _ => true
  | _ => false

/-- The body of the pre-transaction frame: the transaction and the check of the block's limits. -/
def txBody (env : Env) (cfg : Config) (machine : Machine) (block : BlockMetadata) (b : BlockData)
    (tx : IncomingTx) : SysM Empty TxOutcome := do
  let r ← attempt (processTransaction env cfg machine block b.firstTx tx)
  match r with
  | .error .internal | .error .assertion => pure .aborted
  | .error (.validation e) => pure (.rejected e)
  | .ok r => do
    let logs ← attempt (perform .logsLen)
    let next := b.add env r
    match checkForBlockLimits block next (logs.toOption.getD (0 : Nat)) with
    | some e => pure (.rejected e)
    | none => pure (.included r next)

/-- The program of one round of the loop, after `begin_next_tx`: the coinbase is heated before the
frame, so this is never undone. -/
def txProgram (env : Env) (cfg : Config) (machine : Machine) (block : BlockMetadata) (b : BlockData)
    (tx : IncomingTx) : SysM Empty TxOutcome := do
  let heated ← attempt (free (perform (.readAccount .noEE block.coinbase false false)))
  match heated with
  | .error _ => pure .aborted
  | .ok _ =>
    SysM.frame .transaction (fun x => x.toOption.any TxOutcome.isRejected)
      (txBody env cfg machine block b tx)

/-- One round of the loop. A transaction that cannot be read from the oracle changes nothing. -/
def runTx (env : Env) (cfg : Config) (machine : Machine) (block : BlockMetadata) (b : BlockData) (io : Io)
    (tx : IncomingTx) : TxOutcome × Io :=
  match tx with
  | .unreadable => (.rejected .invalidEncoding, io)
  | tx =>
    let x := (txProgram env cfg machine block b tx).run env ⟨io.beginNextTx, .empty⟩
    match x.1 with
    | .ok (.included r b') => (.included r b', x.2.io.finishTx)
    | .ok outcome => (outcome, x.2.io)
    | .error e => e.elim

/-- What a block has come to: the results of its transactions so far, oldest first. -/
structure BlockRun where
  io : Io
  data : BlockData
  results : List (Except InvalidTransaction TxProcessingResult)

def BlockRun.new : BlockRun := ⟨.new, .new, []⟩

/-- The loop over all transactions; nothing if the block is aborted. -/
def runTxs (env : Env) (cfg : Config) (machine : Machine) (block : BlockMetadata) :
    BlockRun → List IncomingTx → Option BlockRun
  | s, [] => some s
  | s, tx :: txs =>
    match runTx env cfg machine block s.data s.io tx with
    | (.included r b, io) => runTxs env cfg machine block ⟨io, b, s.results ++ [.ok r]⟩ txs
    | (.rejected e, io) => runTxs env cfg machine block ⟨io, s.data, s.results ++ [.error e]⟩ txs
    | (.aborted, _) => none

/-! ## Rounds -/

section Rounds

variable {env : Env} {cfg : Config} {machine : Machine} {block : BlockMetadata} {b b' : BlockData} {io io' : Io}
  {tx : IncomingTx} {r : TxProcessingResult}

theorem runTx_eq (htx : tx ≠ .unreadable) : runTx env cfg machine block b io tx =
    match (txProgram env cfg machine block b tx).run env ⟨io.beginNextTx, .empty⟩ with
    | (.ok (.included r b'), s) => (.included r b', s.io.finishTx)
    | (.ok outcome, s) => (outcome, s.io)
    | (.error e, _) => e.elim := by
  rcases hx : (txProgram env cfg machine block b tx).run env ⟨io.beginNextTx, .empty⟩ with ⟨e | o, s⟩
  · exact e.elim
  · cases tx with
    | unreadable => exact absurd rfl htx
    | undecodable =>
      unfold runTx
      simp only [hx]
      cases o <;> rfl
    | l2 tx =>
      unfold runTx
      simp only [hx]
      cases o <;> rfl
    | l1 tx =>
      unfold runTx
      simp only [hx]
      cases o <;> rfl

theorem runTx_included (h : runTx env cfg machine block b io tx = (.included r b', io')) :
    ∃ s, (txProgram env cfg machine block b tx).run env ⟨io.beginNextTx, .empty⟩ = (.ok (.included r b'), s) ∧
      io' = s.io.finishTx := by
  have htx : tx ≠ .unreadable := by
    rintro rfl
    cases h
  rw [runTx_eq htx] at h
  rcases hx : (txProgram env cfg machine block b tx).run env ⟨io.beginNextTx, .empty⟩ with ⟨e | o, s⟩
  · exact e.elim
  · rw [hx] at h
    cases o with
    | included r₀ b₀ =>
      cases h
      exact ⟨s, rfl, rfl⟩
    | rejected e => cases h
    | aborted => cases h

end Rounds

end ZkOs.Bootloader
