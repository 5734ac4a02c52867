import ZkOs.Exec.Runner

/-!
# Transactions, prices and resources

* `BlockMetadata`, `L2Transaction`, `L1Transaction` : what the bootloader reads from a block and its
  transactions, after decoding;
* `TxError` : a transaction is invalid, or the block cannot be built, or the program stops;
* `getGasPrice`, `getResourcesForTx` : the resources that a transaction starts with;
* `getResourcesToChargeForPubdata`, `checkEnoughResourcesForPubdata` : the price of pubdata;
* `computeGasRefund` : gas and native used in the end.
-/

namespace ZkOs.Bootloader

open SysM Digits

/-! ## Inputs -/

structure BlockMetadata where
  eip1559Basefee : U256
  pubdataPrice : U256
  nativePrice : U256
  chainId : U64
  gasLimit : U64
  pubdataLimit : U64
  coinbase : B160

/-- `BasicBootloaderExecutionConfig` without simulation, and the `burn_base_fee` feature. -/
structure Config where
  validateEoaSignature : Bool
  burnBaseFee : Bool

structure AuthorizationEntry where
  chainId : U256
  address : BitVec 160
  nonce : U64
  yParity : Nat
  r : U256
  s : U256

/-- An RLP encoded transaction after parsing. The sender is claimed by the oracle. -/
structure L2Transaction where
  fromAddress : B160
  nonce : U64
  gasLimit : U64
  maxFeePerGas : U256
  maxPriorityFeePerGas : Option U256
  /-- No destination: a deployment. -/
  destination : Option (BitVec 160)
  value : U256
  calldata : List UInt8
  accessList : List (BitVec 160 × List Bytes32)
  authorizationList : Option (List AuthorizationEntry)
  yParity : Bool
  r : U256
  s : U256
  buffer : List UInt8
  hashForSignatureVerification : Bytes32

/-- An ABI encoded L1 to L2 or upgrade transaction after parsing. -/
structure L1Transaction where
  isPriorityOp : Bool
  fromAddress : BitVec 160
  toAddress : BitVec 160
  gasLimit : U64
  gasPerPubdataLimit : BitVec 32
  maxFeePerGas : U256
  value : U256
  /-- `reserved[0]` -/
  totalDeposited : U256
  /-- `reserved[1]` -/
  refundRecipient : U256
  calldata : List UInt8
  buffer : List UInt8

inductive InvalidTransaction where
  | invalidEncoding
  | blockGasLimitTooHigh
  | callerGasLimitMoreThanBlock
  | priorityFeeGreaterThanMaxFee
  | baseFeeGreaterThanMaxFee
  | outOfNativeResourcesDuringValidation
  | outOfGasDuringValidation
  | createInitCodeSizeLimit
  | nonceTooHigh (tx state : U64)
  | nonceTooLow (tx state : U64)
  | rejectCallerWithCode
  | overflowPaymentInTransaction
  | lackOfFundForMaxFee (fee balance : U256)
  | malleableSignature
  | incorrectFrom (recovered tx : B160)
  | nonceOverflowInTransaction
  | upgradeTxNotFirst
  | blockGasLimitReached
  | blockNativeLimitReached
  | blockPubdataLimitReached
  | blockL2ToL1LogsLimitReached
  deriving DecidableEq

inductive TxError where
  | validation (e : InvalidTransaction)
  | internal
  /-- A failed assertion: the program stops. -/
  | assertion
  deriving DecidableEq

/-- `From<SystemError> for TxError`. Balance and nonce errors do not get here. -/
def TxError.ofErr : Err → TxError
  | .outOfErgs => .validation .outOfGasDuringValidation
  | .fatal => .validation .outOfNativeResourcesDuringValidation
  | _ => .internal

/-! ## Arithmetic -/

def checkedAdd {w : Nat} (a b : BitVec w) : Option (BitVec w) :=
  if a.toNat + b.toNat < 2 ^ w then some (a + b) else none

def checkedSub {w : Nat} (a b : BitVec w) : Option (BitVec w) := if b ≤ a then some (a - b) else none

def checkedMul {w : Nat} (a b : BitVec w) : Option (BitVec w) :=
  if a.toNat * b.toNat < 2 ^ w then some (a * b) else none

def saturatingSub (a b : Nat) : Nat := a - b

def u256ToU64Saturated (x : U256) : U64 := saturate x.toNat

def divCeil (a b : U256) : U256 := BitVec.ofNat 256 ((a.toNat + b.toNat - 1) / b.toNat)

/-- The value of a checked computation, or an internal error. -/
def orInternal {α : Type} (x : Option α) : SysM TxError α :=
  match x with
  | some a => pure a
  | none => throw .internal

/-! ## Prices and resources -/

def getGasPrice (block : BlockMetadata) (maxFeePerGas : U256) (maxPriorityFeePerGas : Option U256) :
    Except TxError U256 :=
  let priority := maxPriorityFeePerGas.getD maxFeePerGas
  if maxFeePerGas < priority then .error (.validation .priorityFeeGreaterThanMaxFee)
  else if maxFeePerGas < block.eip1559Basefee then .error (.validation .baseFeeGreaterThanMaxFee)
  else
    let room := maxFeePerGas - block.eip1559Basefee
    let priority := if priority ≤ room then priority else room
    let price := if block.eip1559Basefee.toNat + priority.toNat < 2 ^ 256 then block.eip1559Basefee + priority
      else BitVec.allOnes 256
    .ok (if price ≤ maxFeePerGas then price else maxFeePerGas)

def maxNativeComputational : U64 := 1 <<< 35

structure ResourcesForTx where
  mainResources : Resources
  withheld : Resources
  intrinsicComputationalNativeCharged : U64

/-- Gas and native. -/
def costForCalldata (calldata : List UInt8) : Option (U64 × U64) :=
  let zeroBytes := calldata.countP (· = 0)
  let gasCost := 4 * zeroBytes + 16 * (calldata.length - zeroBytes)
  if gasCost < 2 ^ 64 then some (BitVec.ofNat 64 gasCost, BitVec.ofNat 64 calldata.length) else none

/-- The native limit of a transaction; a price of zero means unlimited native. -/
def fullNativeLimit (gasLimit : U64) (nativePerGas : U256) : U64 :=
  if nativePerGas = 0 then BitVec.allOnes 64
  else saturate (gasLimit.toNat * (u256ToU64Saturated nativePerGas).toNat)

/-- A checked subtraction that is zero for L1 transactions when it fails. -/
def chargeIntrinsic (isL1Tx : Bool) (limit cost : U64) : Except TxError U64 :=
  match checkedSub limit cost with
  | some r => .ok r
  | none => if isL1Tx then .ok 0 else .error (.validation .outOfNativeResourcesDuringValidation)

/-- An option as a result, an internal error if it is empty. -/
def internalIfNone {α : Type} (x : Option α) : Except TxError α := x.elim (.error .internal) .ok

def getResourcesForTx (gasLimit : U64) (nativePerPubdata nativePerGas : U256) (calldata : List UInt8)
    (intrinsicGas intrinsicPubdata intrinsicNative : U64) (isL1Tx : Bool) : Except TxError ResourcesForTx := do
  let overhead ← internalIfNone (checkedMul (u256ToU64Saturated nativePerPubdata) intrinsicPubdata)
  let limit ← chargeIntrinsic isL1Tx (fullNativeLimit gasLimit nativePerGas) overhead
  -- what exceeds the bound on computation can only be used for pubdata
  let withheld : U64 := if limit ≤ maxNativeComputational then 0 else limit - maxNativeComputational
  let limit := if limit ≤ maxNativeComputational then limit else maxNativeComputational
  let cost ← internalIfNone (costForCalldata calldata)
  let intrinsic ← (checkedAdd cost.2 intrinsicNative).elim
    (.error (.validation .outOfNativeResourcesDuringValidation)) .ok
  let native ← chargeIntrinsic isL1Tx limit intrinsic
  let gasToCharge ← internalIfNone (checkedAdd cost.1 intrinsicGas)
  if gasLimit < gasToCharge ∧ isL1Tx = false then .error (.validation .outOfGasDuringValidation)
  else do
    let ergs ← internalIfNone
      (checkedMul (BitVec.ofNat 64 (saturatingSub gasLimit.toNat gasToCharge.toNat)) (BitVec.ofNat 64 ergsPerGas))
    pure ⟨⟨ergs, native⟩, .fromNative withheld, intrinsic⟩

/-- The pubdata beyond `basePubdata` and its native price. -/
def getResourcesToChargeForPubdata (nativePerPubdata : U256) (basePubdata : Nat) :
    SysM Err (Nat × Resources) := do
  let used ← perform .netPubdataUsed
  let spent := saturatingSub used basePubdata
  let native := spent * (u256ToU64Saturated nativePerPubdata).toNat
  require (native < 2 ^ 64) .defect
  pure (spent, .fromNative (BitVec.ofNat 64 native))

def checkEnoughResourcesForPubdata (nativePerPubdata : U256) (available : Resources) (basePubdata : Nat) :
    SysM Err (Bool × Resources × Nat) := do
  let x ← getResourcesToChargeForPubdata nativePerPubdata basePubdata
  pure (available.hasEnough x.2, x.2, x.1)

/-! ## Results -/

inductive ExecutionResult where
  | success (output : List UInt8) (deployedAt : Option B160)
  | revert (output : List UInt8)
  deriving DecidableEq

namespace ExecutionResult

def reverted : ExecutionResult → ExecutionResult
  | success output _ => revert output
  | r => r

def isRevert : ExecutionResult → Bool
  | revert _ => true
  | _ => false

end ExecutionResult

structure TxProcessingResult where
  result : ExecutionResult
  txHash : Bytes32
  isL1Tx : Bool
  isUpgradeTx : Bool
  gasUsed : U64
  gasRefunded : U64
  computationalNativeUsed : U64
  nativeUsed : U64
  pubdataUsed : Nat
  deriving DecidableEq

structure RefundInfo where
  gasRefund : U64
  gasUsed : U64
  evmRefund : U64
  nativeUsed : U64

/-- Pubdata is charged without a check; gas used is raised to the gas value of
the native used. -/
def computeGasRefund (toChargeForPubdata : Resources) (gasLimit : U64) (nativePerGas : U256) :
    SysM Err RefundInfo := do
  modifyResources fun r => r.chargeUnchecked toChargeForPubdata
  let r ← resources
  let gasUsed := gasLimit - BitVec.ofNat 64 (r.ergs.toNat / ergsPerGas)
  modifyResources Resources.exhaustErgs
  let counter ← perform .refundCounter
  let evmRefund := BitVec.ofNat 64 (min counter.toNat (gasUsed.toNat / 5))
  let gasUsed := gasUsed - evmRefund
  let nativeUsed := BitVec.ofNat 64
    (saturatingSub (fullNativeLimit gasLimit nativePerGas).toNat r.native.toNat)
  let npg := (u256ToU64Saturated nativePerGas).toNat
  let deltaGas : U64 := if npg = 0 then 0 else BitVec.ofNat 64 (nativeUsed.toNat / npg) - gasUsed
  -- the difference counts as `i64`
  let gasUsed := if 0 < deltaGas.toInt then gasUsed + deltaGas else gasUsed
  let totalGasRefund := gasLimit - gasUsed
  require (totalGasRefund ≤ gasLimit) .defect
  pure ⟨totalGasRefund, gasUsed, evmRefund, nativeUsed⟩

end ZkOs.Bootloader
