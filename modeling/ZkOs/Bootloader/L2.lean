import ZkOs.Bootloader.Transaction

/-!
# L2 transactions

`process_l2_transaction` in its phases: resources and prices, validation with the fee and the charge
for the pubdata of validation, EIP-7702 delegations, execution in a frame that is undone on failure,
and the refund.
-/

namespace ZkOs.Bootloader

open SysM Digits

/-! ## RLP encodings that are hashed -/

def minimalBytes (n : Nat) : List UInt8 := (beBytes 32 n).dropWhile (· = 0)

/-- The length prefix of a string (`offset` 0x80) or a list (0xc0). -/
def rlpHeader (offset len : Nat) : List UInt8 :=
  if len < 56 then [UInt8.ofNat (offset + len)]
  else UInt8.ofNat (offset + 55 + (minimalBytes len).length) :: minimalBytes len

def rlpBytes (bs : List UInt8) : List UInt8 :=
  match bs with
  | [b] => if b < 128 then [b] else rlpHeader 0x80 1 ++ [b]
  | bs => rlpHeader 0x80 bs.length ++ bs

def rlpNumber (n : Nat) : List UInt8 := rlpBytes (minimalBytes n)

def rlpList (payload : List UInt8) : List UInt8 := rlpHeader 0xc0 payload.length ++ payload

def deriveAddressForDeploymentCreate (env : Env) (deployer : B160) (nonce : U64) : BitVec 160 :=
  (env.keccak (rlpList (rlpBytes (beBytes 20 deployer.low20.toNat) ++ rlpNumber nonce.toNat))).setWidth 160

/-! ## Validation -/

/-- The native cost of a hash (`charge_keccak`). -/
def chargeKeccak (len : Nat) : SysM TxError Unit :=
  mapError TxError.ofErr (pay (.fromNative (keccak256NativeCost len)))

def ecrecoverCost : Resources := ⟨gas 3000, nativeWithDelegations 350000 43000 0⟩

def secp256k1nHalf : Nat := 0x7fffffffffffffffffffffffffffffff5d576e7357a4501ddfe92f46681b20a0

def maxInitcodeSize : Nat := 2 * maxCodeSize

def chargeAdditionalIntrinsicGas (tx : L2Transaction) : SysM TxError Unit := do
  (if tx.destination.isNone then do
    let len := tx.calldata.length
    require (len ≤ maxInitcodeSize) (.validation .createInitCodeSizeLimit)
    mapError TxError.ofErr (pay (.fromErgs (gas (2 * ((len + 31) / 32) + 32000))))
  else pure ())
  let authorizations := (tx.authorizationList.getD []).length
  mapError TxError.ofErr (pay (.fromErgs (saturate (authorizations * 25000 * ergsPerGas))))

def warmUpAccessList : List (BitVec 160 × List Bytes32) → SysM TxError Unit
  | [] => pure ()
  | (address, keys) :: rest => do
    mapError TxError.ofErr (perform (.touchAccount .noEE (.ofLow20 address) true))
    keys.forM fun k => mapError TxError.ofErr (perform (.storageTouch .noEE (.ofLow20 address) k true))
    warmUpAccessList rest

def L2Transaction.requiredBalance (tx : L2Transaction) : Option U256 := do
  let fee ← checkedMul tx.maxFeePerGas (tx.gasLimit.setWidth 256)
  checkedAdd tx.value fee

def checkNonceIsNotUsed (state tx : U64) : SysM TxError Unit := do
  require (tx ≤ state) (.validation (.nonceTooHigh tx state))
  require (state ≤ tx) (.validation (.nonceTooLow tx state))

/-- The signature check of `validate`; without it only its cost is charged. -/
def checkSignature (env : Env) (cfg : Config) (tx : L2Transaction) : SysM TxError Unit :=
  if cfg.validateEoaSignature = false then mapError TxError.ofErr (pay ecrecoverCost)
  else do
    require (tx.s.toNat ≤ secp256k1nHalf) (.validation .malleableSignature)
    mapError TxError.ofErr (pay ecrecoverCost)
    match env.ecrecover tx.hashForSignatureVerification tx.yParity.toNat tx.r tx.s with
    | none => throw (.validation (.incorrectFrom 0 tx.fromAddress))
    | some recovered =>
      require (.ofLow20 recovered = tx.fromAddress)
        (.validation (.incorrectFrom (.ofLow20 recovered) tx.fromAddress))

/-- An error of a nonce increment during validation. -/
def nonceError : Err → TxError
  | .nonceOverflow => .validation .nonceOverflowInTransaction
  | e => .ofErr e

/-- What is known about the sender before validation. -/
structure Caller where
  isContract : Bool
  ee : ExecutionEnvironmentType
  nonce : U64

/-- `validate` of the EOA-only flow. -/
def validate (env : Env) (cfg : Config) (tx : L2Transaction) (caller : Caller) : SysM TxError Unit := do
  require (caller.isContract = false) (.validation .rejectCallerWithCode)
  match tx.requiredBalance with
  | none => throw (.validation .overflowPaymentInTransaction)
  | some required => do
    let account ← mapError TxError.ofErr (perform (.readAccount caller.ee tx.fromAddress false false))
    require (required ≤ account.1.balance) (.validation (.lackOfFundForMaxFee required account.1.balance))
    checkSignature env cfg tx
    let oldNonce : U64 ← mapError nonceError (perform (.incrementNonce caller.ee tx.fromAddress 1))
    require (caller.nonce = oldNonce) .internal

/-- The whole fee is taken before execution. -/
def payForTransaction (tx : L2Transaction) (gasPrice : U256) (caller : Caller) : SysM TxError Unit := do
  let amount ← orInternal (checkedMul gasPrice (tx.gasLimit.setWidth 256))
  let r ← attempt (perform (.updateBalance caller.ee tx.fromAddress amount true false))
  match r with
  | .ok _ => pure ()
  | .error .insufficientBalance | .error .balanceOverflow => do
    let account ← mapError TxError.ofErr (perform (.readAccount caller.ee tx.fromAddress false false))
    throw (.validation (.lackOfFundForMaxFee amount account.1.balance))
  | .error e => throw (.ofErr e)

/-- The native taken from the main resources, and
what is left of the withheld ones. -/
def chargeForValidationPubdataUsingWithheld (withheld toCharge : Resources) : SysM Err (U64 × Resources) :=
  if withheld.hasEnough toCharge then pure (0, (withheld.charge toCharge).2)
  else if withheld.isEmpty then do
    pay toCharge
    pure (toCharge.native, withheld)
  else do
    let toChargeFromMain := toCharge.diff withheld
    pay toChargeFromMain
    pure (toChargeFromMain.native, (withheld.charge toCharge).2)

structure ValidationResult where
  validationPubdata : Nat
  mainNativeUsedForPubdata : U64
  withheld : Resources

def transactionValidation (env : Env) (cfg : Config) (tx : L2Transaction) (gasPrice nativePerPubdata : U256)
    (caller : Caller) (withheld : Resources) : SysM TxError ValidationResult := do
  checkNonceIsNotUsed caller.nonce tx.nonce
  validate env cfg tx caller
  payForTransaction tx gasPrice caller
  let x ← mapError TxError.ofErr (getResourcesToChargeForPubdata nativePerPubdata 0)
  let y ← mapError TxError.ofErr (chargeForValidationPubdataUsingWithheld withheld x.2)
  pure ⟨x.1, y.1, y.2⟩

/-! ## Delegations -/

def authorizationMessage (a : AuthorizationEntry) : List UInt8 :=
  0x05 :: rlpList (rlpNumber a.chainId.toNat ++ rlpBytes (beBytes 20 a.address.toNat) ++ rlpNumber a.nonce.toNat)

/-- The authority of an entry: steps 1 to 3 of the EIP. -/
def recoverAuthority (env : Env) (chainId : U64) (a : AuthorizationEntry) : SysM TxError (Option B160) := do
  if a.chainId ≠ 0 ∧ a.chainId ≠ chainId.setWidth 256 then pure none
  else if a.nonce = BitVec.allOnes 64 then pure none
  else if secp256k1nHalf < a.s.toNat then pure none
  else do
    chargeKeccak (authorizationMessage a).length
    if 1 < a.yParity then pure none
    else do
      infiniteErgs (mapError TxError.ofErr (pay ecrecoverCost))
      pure ((env.ecrecover (env.keccak (authorizationMessage a)) a.yParity a.r a.s).map .ofLow20)

/-- An error of the last step is an internal error of the bootloader. -/
def delegationNonceError : Err → TxError := fun _ => .internal

def validateAndApplyDelegation (env : Env) (chainId : U64) (a : AuthorizationEntry) : SysM TxError Bool := do
  match ← recoverAuthority env chainId a with
  | none => pure false
  | some authority => do
    let account ← infiniteErgs (mapError TxError.ofErr (perform (.readAccount .noEE authority false true)))
    let p := account.1
    if p.isContract = true ∨ p.nonce ≠ a.nonce then pure false
    else do
      (if p.nonce = 0 ∧ p.unpaddedCodeLen = 0 ∧ p.balance = 0 then pure ()
        else mapError TxError.ofErr (perform (.addEvmRefund 12500)))
      infiniteErgs (mapError TxError.ofErr (perform (.setDelegation authority (.ofLow20 a.address))))
      let _ ← infiniteErgs (mapError delegationNonceError (perform (.incrementNonce .noEE authority 1)))
      pure true

/-- `parse_authorization_list_and_apply_delegations`: an entry that fails a check is skipped. -/
def applyDelegations (env : Env) (chainId : U64) : List AuthorizationEntry → SysM TxError Unit
  | [] => pure ()
  | a :: rest => do
    let _ ← validateAndApplyDelegation env chainId a
    applyDelegations env chainId rest

/-! ## Execution -/

def processDeployment (env : Env) (machine : Machine) (tx : L2Transaction) (nonce : U64) :
    SysM Err ExecutionResult := do
  if maxInitcodeSize < tx.calldata.length then pure (.revert [])
  else do
    let deployed : B160 := .ofLow20 (deriveAddressForDeploymentCreate env tx.fromAddress nonce)
    let r ← resources
    let q : ExternalCallRequest :=
      { ergsToPass := r.ergs, callersCaller := 0, caller := tx.fromAddress, callee := deployed
        modifier := .constructor, input := tx.calldata, nominalTokenValue := tx.value }
    SysM.frame .interaction (fun x => x.toOption.any ExecutionResult.isRevert) do
      let result ← runTillCompletion machine .evm q
      match result with
      | .successful _ => do
        let code ← infiniteErgs (perform (.readAccount .evm deployed true false))
        pure (.success (code.2.take code.1.unpaddedCodeLen.toNat) (some deployed))
      | .failed d => pure (.revert d)
      | .preparationStepFailed => throw .defect

def processCall (machine : Machine) (tx : L2Transaction) (destination : BitVec 160) :
    SysM Err ExecutionResult := do
  let result ← runSingleInteraction machine tx.calldata tx.fromAddress (.ofLow20 destination) tx.value true
  match result with
  | .successful d => pure (.success d none)
  | .failed d => pure (.revert d)
  | .preparationStepFailed => pure (.revert [])

/-- The body of `execute`, which works on a clone of the resources. -/
def executeOnClone (env : Env) (machine : Machine) (tx : L2Transaction) (nonce : U64) :
    SysM Err ExecutionResult :=
  match tx.destination with
  | none => processDeployment env machine tx nonce
  | some destination => processCall machine tx destination

/-- What is left of the clone is assigned back only if there was no error. -/
def execute (env : Env) (machine : Machine) (tx : L2Transaction) (nonce : U64) : SysM Err ExecutionResult :=
  onClone (executeOnClone env machine tx nonce)

structure ExecutionInfo where
  result : ExecutionResult
  pubdataUsed : Nat
  toChargeForPubdata : Resources

/-- Reverted if the pubdata cannot be paid for. -/
def transactionExecution (env : Env) (machine : Machine) (tx : L2Transaction) (nonce : U64)
    (nativePerPubdata : U256) (v : ValidationResult) : SysM Err ExecutionInfo := do
  let result ← execute env machine tx nonce
  let r ← resources
  let x ← checkEnoughResourcesForPubdata nativePerPubdata (r.reclaimWithheld v.withheld) v.validationPubdata
  pure ⟨if x.1 then result else result.reverted, x.2.2, x.2.1⟩

/-- The execution frame is undone on a revert and on a fatal error. -/
def executionFailed : Except Err ExecutionInfo → Bool
  | .ok x => x.result.isRevert
  | .error e => decide (e = .fatal)

/-- Execution and the end of its frame; the pubdata is only known if the execution is kept. -/
def executeInFrame (env : Env) (machine : Machine) (tx : L2Transaction) (nonce : U64)
    (nativePerPubdata : U256) (v : ValidationResult) :
    SysM TxError (ExecutionResult × Option (Nat × Resources)) := do
  let r ← attempt
    (SysM.frame .transaction executionFailed (transactionExecution env machine tx nonce nativePerPubdata v))
  match r with
  | .ok x => pure (x.result, if x.result.isRevert then none else some (x.pubdataUsed, x.toChargeForPubdata))
  | .error .fatal => do
    modifyResources Resources.exhaustErgs
    pure (.revert [], none)
  | .error _ => throw .internal

/-! ## Refund -/

/-- The charge for pubdata made after execution: the pubdata used and the resources. -/
def pubdataCharge (nativePerPubdata : U256) (validationPubdata : Nat) :
    Option (Nat × Resources) → SysM Err (Nat × Resources)
  | some x => pure x
  | none => getResourcesToChargeForPubdata nativePerPubdata validationPubdata

def gasPriceForOperator (cfg : Config) (block : BlockMetadata) (gasPrice : U256) : Option U256 :=
  if cfg.burnBaseFee then checkedSub gasPrice block.eip1559Basefee else some gasPrice

/-- `refund_transaction_and_pay_operator`, after the charge for pubdata is known. -/
def refundAndPayOperator (cfg : Config) (block : BlockMetadata) (tx : L2Transaction) (gasPrice : U256)
    (ee : ExecutionEnvironmentType) (info : RefundInfo) : SysM TxError Unit := do
  let tokenToRefund ← orInternal (checkedMul (info.gasRefund.setWidth 256) gasPrice)
  let operatorPrice ← orInternal (gasPriceForOperator cfg block gasPrice)
  let tokenToPayOperator ← orInternal (checkedMul (info.gasUsed.setWidth 256) operatorPrice)
  -- both payments are made from one infinite supply of resources
  paidFrom .infinite do
    let _ ← mapError (fun _ => .internal) (perform (.updateBalance ee tx.fromAddress tokenToRefund false false))
    let _ ← mapError (fun _ => .internal) (perform (.updateBalance ee block.coinbase tokenToPayOperator false false))

/-! ## The whole transaction -/

structure Prices where
  gasPrice : U256
  nativePerGas : U256
  nativePerPubdata : U256

def l2TxIntrinsicPubdata : Nat := 65

/-- Checks and prices before any resources exist. -/
def l2Prices (block : BlockMetadata) (tx : L2Transaction) : Except TxError Prices := do
  if (BitVec.ofNat 64 ((2 ^ 64 - 1) / ergsPerGas)) < block.gasLimit then
    .error (.validation .blockGasLimitTooHigh)
  else if block.gasLimit < tx.gasLimit then .error (.validation .callerGasLimitMoreThanBlock)
  else do
    let gasPrice ← getGasPrice block tx.maxFeePerGas tx.maxPriorityFeePerGas
    if block.nativePrice = 0 then .error .internal
    else pure ⟨gasPrice, divCeil gasPrice block.nativePrice, block.pubdataPrice / block.nativePrice⟩

def l2Resources (p : Prices) (tx : L2Transaction) : Except TxError ResourcesForTx :=
  getResourcesForTx tx.gasLimit p.nativePerPubdata p.nativePerGas tx.calldata 18000
    (BitVec.ofNat 64 l2TxIntrinsicPubdata) 30000 false

/-- The sender is read and everything up to the delegations is done. -/
def l2Validation (env : Env) (cfg : Config) (block : BlockMetadata) (tx : L2Transaction) (p : Prices)
    (withheld : Resources) : SysM TxError (Caller × ValidationResult) := do
  let account ← mapError TxError.ofErr (infiniteErgs (perform (.readAccount .noEE tx.fromAddress false true)))
  let caller ← (match parseEeVersionByte (VersioningData.eeVersion account.1.versioningData) with
    | none => throw TxError.internal
    | some ee => pure (Caller.mk account.1.isContract ee account.1.nonce))
  chargeAdditionalIntrinsicGas tx
  warmUpAccessList tx.accessList
  -- the hash of the transaction and the one that is signed
  chargeKeccak tx.buffer.length
  chargeKeccak tx.buffer.length
  let v ← transactionValidation env cfg tx p.gasPrice p.nativePerPubdata caller withheld
  applyDelegations env block.chainId (tx.authorizationList.getD [])
  pure (caller, v)

/-- The result of execution on its way to the refund. -/
structure Executed where
  caller : Caller
  validation : ValidationResult
  result : ExecutionResult
  pubdataInfo : Option (Nat × Resources)
  /-- `resources_before_refund` -/
  beforeRefund : Resources

/-- Validation and execution; the resources are then those of the refund, with the withheld part
added back. -/
def l2ValidateAndExecute (env : Env) (cfg : Config) (machine : Machine) (block : BlockMetadata)
    (tx : L2Transaction) (p : Prices) (withheld : Resources) : SysM TxError Executed := do
  let x ← l2Validation env cfg block tx p withheld
  let e ← executeInFrame env machine tx x.1.nonce p.nativePerPubdata x.2
  let r ← resources
  setResources (r.reclaimWithheld x.2.withheld)
  pure ⟨x.1, x.2, e.1, e.2, r⟩

/-- A transaction when its refund is computed: the resources it was given, what it did, and the
pubdata that is charged now. -/
structure AtRefund where
  prices : Prices
  given : ResourcesForTx
  executed : Executed
  pubdata : Nat
  toChargeForPubdata : Resources

/-- `process_l2_transaction` up to `compute_gas_refund`. -/
def l2UntilRefund (env : Env) (cfg : Config) (machine : Machine) (block : BlockMetadata) (tx : L2Transaction) :
    SysM TxError AtRefund :=
  match l2Prices block tx with
  | .error e => throw e
  | .ok p =>
    match l2Resources p tx with
    | .error e => throw e
    | .ok rs => do
      setResources rs.mainResources
      let x ← l2ValidateAndExecute env cfg machine block tx p rs.withheld
      let charge ← mapError (fun _ => .internal)
        (pubdataCharge p.nativePerPubdata x.validation.validationPubdata x.pubdataInfo)
      pure ⟨p, rs, x, charge.1, charge.2⟩

/-- The intrinsic part is added back, the part for pubdata taken out. -/
def AtRefund.computationalNativeUsed (x : AtRefund) : U64 :=
  (x.executed.beforeRefund.diff x.given.mainResources).native + x.given.intrinsicComputationalNativeCharged -
    x.executed.validation.mainNativeUsedForPubdata

def processL2Transaction (env : Env) (cfg : Config) (machine : Machine) (block : BlockMetadata)
    (tx : L2Transaction) : SysM TxError TxProcessingResult := do
  let x ← l2UntilRefund env cfg machine block tx
  let info ← mapError (fun _ => .internal) (computeGasRefund x.toChargeForPubdata tx.gasLimit x.prices.nativePerGas)
  refundAndPayOperator cfg block tx x.prices.gasPrice x.executed.caller.ee info
  pure
    { result := x.executed.result
      txHash := env.keccak tx.buffer
      isL1Tx := false
      isUpgradeTx := false
      gasUsed := info.gasUsed
      gasRefunded := info.evmRefund
      computationalNativeUsed := x.computationalNativeUsed
      nativeUsed := info.nativeUsed
      pubdataUsed := x.pubdata + x.executed.validation.validationPubdata + l2TxIntrinsicPubdata }

end ZkOs.Bootloader
