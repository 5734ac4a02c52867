import ZkOs.State.Storage

/-!
# The account cache

Account properties live in the preimage of a hash that is stored in a special slot of
`ACCOUNT_PROPERTIES_STORAGE_ADDRESS`; the cache holds the decoded properties.

* `AccountProperties.encoding`, `decode` : the 124-byte layout;
* `materializeAccount` : reads an account into the cache, with the charges for warm and cold access;
* `updateNominalTokenValue`, `transferNominalTokenValue`, `incrementNonce`, `deployCode`,
  `setBytecodeDetails`, `setDelegation`, `markForDeconstruction` : the operations on it;
* `AccountCache.finishTx` : the sweep at the end of a transaction.
-/

namespace ZkOs

open History ZkOs.Action Digits

/-! ## Account properties -/

namespace VersioningData

/-- The top byte is the deployment status; EE version and code version follow. -/
def setStatus (v : U64) (status : Nat) : U64 := (v &&& 0x00ffffffffffffff) ||| (BitVec.ofNat 64 status <<< 56)
def setAsDeployed (v : U64) : U64 := setStatus v 1
def setAsDelegated (v : U64) : U64 := setStatus v 2
def unsetDeploymentStatus (v : U64) : U64 := v &&& 0x00ffffffffffffff
def isDelegated (v : U64) : Bool := v >>> 56 == 2
def eeVersion (v : U64) : BitVec 8 := (v >>> 48).setWidth 8
def setEeVersion (v : U64) (b : Nat) : U64 := (v &&& 0xff00ffffffffffff) ||| (BitVec.ofNat 64 b <<< 48)
def setCodeVersion (v : U64) (b : Nat) : U64 := (v &&& 0xffff00ffffffffff) ||| (BitVec.ofNat 64 b <<< 40)

end VersioningData

def bytecodePaddingLen (deployedLen : Nat) : Nat := if deployedLen % 8 = 0 then 0 else 8 - deployedLen % 8

namespace AccountProperties

def trivial : AccountProperties := ⟨0, 0, 0, 0, 0, 0, 0, 0⟩

def encodedSize : Nat := 124

def fullBytecodeLen (p : AccountProperties) : Nat :=
  p.unpaddedCodeLen.toNat + bytecodePaddingLen p.unpaddedCodeLen.toNat + p.artifactsLen.toNat

def encoding (p : AccountProperties) : List UInt8 :=
  beBytes 8 p.versioningData.toNat ++ beBytes 8 p.nonce.toNat ++ beBytes 32 p.balance.toNat ++
    beBytes 32 p.bytecodeHash.toNat ++ beBytes 4 p.unpaddedCodeLen.toNat ++ beBytes 4 p.artifactsLen.toNat ++
    beBytes 32 p.observableBytecodeHash.toNat ++ beBytes 4 p.observableBytecodeLen.toNat

/-- The bytes `[i, i + n)` as a number. -/
def field (bs : List UInt8) (i n : Nat) : Nat := beNat ((bs.drop i).take n)

def decode (bs : List UInt8) : AccountProperties where
  versioningData := BitVec.ofNat 64 (field bs 0 8)
  nonce := BitVec.ofNat 64 (field bs 8 8)
  balance := BitVec.ofNat 256 (field bs 16 32)
  bytecodeHash := BitVec.ofNat 256 (field bs 48 32)
  unpaddedCodeLen := BitVec.ofNat 32 (field bs 80 4)
  artifactsLen := BitVec.ofNat 32 (field bs 84 4)
  observableBytecodeHash := BitVec.ofNat 256 (field bs 88 32)
  observableBytecodeLen := BitVec.ofNat 32 (field bs 120 4)

def hash (env : Env) (p : AccountProperties) : Bytes32 := env.blake p.encoding

def isContract (p : AccountProperties) : Bool :=
  !VersioningData.isDelegated p.versioningData && decide (p.unpaddedCodeLen ≠ 0)

end AccountProperties

def accountPropertiesStorageAddress : B160 := 0x8003

/-- `address_into_special_storage_key`: only the low 20 bytes of the address enter the key. -/
def addressIntoSpecialStorageKey (a : B160) : Bytes32 := a.low20.setWidth 256

def accountSlot (a : B160) : SlotKey := (accountPropertiesStorageAddress, addressIntoSpecialStorageKey a)

/-! ## Preimages -/

def decommitmentNativeCost (len : Nat) : Resources := .fromNative (saturate (500 + (blake2sNativeCost len).toNat))

/-- `expose_preimage`: the cached preimage, or the oracle's, which has to have the expected length
up to the padding to whole words and, in the proving environment, the right hash. -/
def getPreimage (env : Env) (hash : Bytes32) (expectedLen : Nat) : IoM (List UInt8) := do
  if hash = 0 then pure []
  else do
    charge (decommitmentNativeCost expectedLen)
    let s ← get
    match s.io.preimages.storage hash with
    | some cached => pure cached
    | none =>
      let words := env.preimage s.io.asked hash
      modifyIo fun io => { io with asked := io.asked + 1 }
      require (expectedLen ≤ words.length ∧ words.length ≤ expectedLen + bytecodePaddingLen expectedLen)
        .defect
      let buffered := words.take expectedLen
      require (env.proofEnv = true → env.blake buffered = hash) .defect
      modifyIo fun io =>
        { io with preimages :=
          { io.preimages with storage := Function.update io.preimages.storage hash (some buffered) } }
      pure buffered

/-- `add_preimage` of the publication storage. -/
def addPreimage (type : PreimageType) (hash : Bytes32) (len : Nat) (p : PreimagesStorage) : PreimagesStorage :=
  { p with publication :=
    (p.publication.getOrInsert hash ⟨.unset, ⟨type, 0, len⟩, ()⟩).update hash fun r =>
      r.update fun elem u => ({ elem with numUses := elem.numUses + 1 }, u) }

/-- A preimage that is known already keeps its bytes. -/
def recordPreimage (type : PreimageType) (hash : Bytes32) (expectedLen : Nat) (preimage : List UInt8) :
    IoM Unit := do
  charge (.fromNative 500)
  require (expectedLen = preimage.length) .defect
  let s ← get
  -- an element used more than once must have the same length
  require (∀ e ∈ s.io.preimages.publication.elems hash,
    1 < e.current.value.numUses → e.current.value.publicationNetBytes = preimage.length) .defect
  modifyIo fun io =>
    let p := addPreimage type hash preimage.length io.preimages
    { io with preimages :=
      { p with storage := Function.update p.storage hash (some ((p.storage hash).getD preimage)) } }

/-! ## Reading accounts into the cache -/

/-- Addresses 1 to 10. -/
def isPrecompile (a : B160) : Bool := decide (0 < a.toNat ∧ a.toNat ≤ 10)

def coldAccountErgs (ee : ExecutionEnvironmentType) (address : B160) (isSelfdestruct : Bool) : Resources :=
  match ee with
  | .noEE => .empty
  | .evm =>
    if isPrecompile address then .empty
    else .fromErgs (if isSelfdestruct then gas (2600 - 100) + gas 100 else gas (2600 - 100))

def chargeNativeForColdAccess (ee : ExecutionEnvironmentType) (emptyAccount : Bool) : IoM Unit := do
  withInfiniteErgs (charge (warmStorageRead ee false))
  withInfiniteErgs (charge (coldStorageReadExtra ee emptyAccount))
  if emptyAccount then pure () else charge (decommitmentNativeCost AccountProperties.encodedSize)

def accountItem (a : B160) : IoM (Element AccountRecord) := fun s =>
  match s.io.accounts.cache.elems a with
  | some e => (.ok e, s)
  | none => (.error .defect, s)

def updateAccount (a : B160) (f : AccountRecord → AccountRecord) : IoM Unit :=
  modifyIo fun io => { io with accounts := { io.accounts with cache := io.accounts.cache.update a f } }

def initialMetadata : AccountPropertiesMetadata := ⟨none, none, false, false⟩

/-- The properties stored under a hash; hash zero is the empty account. -/
def decommitAccount (env : Env) (hash : Bytes32) : IoM AccountRecord :=
  if hash = 0 then pure ⟨.unset, .trivial, initialMetadata⟩
  else do
    let preimage ← withInfiniteResources (getPreimage env hash AccountProperties.encodedSize)
    require (preimage.length = AccountProperties.encodedSize) .defect
    pure ⟨.retrieved, .decode preimage, initialMetadata⟩

/-- The `get_or_insert` part of `materialize_element`: true if the element was initialised. -/
def getOrInsertAccount (env : Env) (ee : ExecutionEnvironmentType) (a : B160) (isSelfdestruct : Bool) :
    IoM Bool := do
  let s ← get
  match s.io.accounts.cache.elems a with
  | some _ => pure false
  | none =>
    charge (coldAccountErgs ee a isSelfdestruct)
    let hash ← withInfiniteResources (applyRead env .noEE (accountSlot a) false)
    chargeNativeForColdAccess ee (hash = 0)
    let record ← decommitAccount env hash
    modifyIo fun io =>
      { io with accounts := { io.accounts with cache := io.accounts.cache.getOrInsert a record } }
    pure true

/-- Marks the account as touched in this transaction, with the charge for the cold access if it was
cached but not touched. -/
def warmUpAccount (ee : ExecutionEnvironmentType) (a : B160) (isSelfdestruct initialized : Bool) :
    IoM Unit := do
  let s ← get
  let e ← accountItem a
  let tx := s.io.accounts.currentTxId
  if e.current.metadata.lastTouchedInTx = some tx then pure ()
  else do
    (if initialized then pure ()
      else do
        charge (coldAccountErgs ee a isSelfdestruct)
        chargeNativeForColdAccess ee (e.current.appearance = .unset))
    updateAccount a fun r => r.updateMetadata fun m => { m with lastTouchedInTx := some tx }

def warmAccountAccess (ee : ExecutionEnvironmentType) (isSelfdestruct isAccessList : Bool) : Resources where
  ergs := match ee with
    | .noEE => if isAccessList then gas 2400 else 0
    | .evm => if isSelfdestruct then 0 else gas 100
  native := 4000

def materializeAccount (env : Env) (ee : ExecutionEnvironmentType) (a : B160)
    (isSelfdestruct isAccessList : Bool) : IoM Unit := do
  charge (warmAccountAccess ee isSelfdestruct isAccessList)
  let initialized ← getOrInsertAccount env ee a isSelfdestruct
  warmUpAccount ee a isSelfdestruct initialized

def accountWriteExtra : Resources := .fromNative 1000

/-! ## Balances and nonces -/

/-- The current properties of an account, after the charges for the access. -/
def accountProperties (env : Env) (ee : ExecutionEnvironmentType) (a : B160) : IoM AccountProperties := do
  materializeAccount env ee a false false
  let e ← accountItem a
  pure e.current.value

/-- `read_account_properties` with the bytecode and the delegation flag requested or not. -/
def readAccountProperties (env : Env) (ee : ExecutionEnvironmentType) (a : B160)
    (withBytecode withIsDelegated : Bool) : IoM (AccountProperties × List UInt8) := do
  let p ← accountProperties env ee a
  let bytecode ←
    (if withBytecode then
      (if p.bytecodeHash = 0 then do
        require (p.observableBytecodeHash = 0 ∧ p.unpaddedCodeLen = 0 ∧ p.artifactsLen = 0 ∧
          p.observableBytecodeLen = 0) .defect
        pure []
      else getPreimage env p.bytecodeHash p.fullBytecodeLen)
    else pure [])
  -- delegated accounts can only be of the EVM type
  require (withIsDelegated = true → VersioningData.isDelegated p.versioningData = true →
    VersioningData.eeVersion p.versioningData = 1) .defect
  pure (p, bytecode)

/-- The old balance is returned; `updateFn` may refuse. -/
def updateNominalTokenValue (env : Env) (ee : ExecutionEnvironmentType) (a : B160)
    (updateFn : U256 → Except Err U256) (isSelfdestruct feePaymentInSimulation : Bool) : IoM U256 := do
  materializeAccount env ee a isSelfdestruct false
  charge accountWriteExtra
  let e ← accountItem a
  match updateFn e.current.value.balance with
  | .error err => throw err
  | .ok new => do
    updateAccount a fun r => r.update fun v m =>
      ({ v with balance := new }, { m with notCompressBalance := m.notCompressBalance || feePaymentInSimulation })
    pure e.current.value.balance

def subBalance (amount old : U256) : Except Err U256 :=
  if old < amount then .error .insufficientBalance else .ok (old - amount)

def addBalance (amount old : U256) : Except Err U256 :=
  if 2 ^ 256 ≤ old.toNat + amount.toNat then .error .balanceOverflow else .ok (old + amount)

/-- `transfer_nominal_token_value_inner`: the debit comes first and stays if the credit fails. -/
def transferNominalTokenValue (env : Env) (ee : ExecutionEnvironmentType) (fromAddress toAddress : B160)
    (amount : U256) (isSelfdestruct : Bool) : IoM Unit := do
  let _ ← updateNominalTokenValue env ee fromAddress (subBalance amount) isSelfdestruct false
  let _ ← updateNominalTokenValue env ee toAddress (addBalance amount) isSelfdestruct false
  pure ()

def updateAccountNominalTokenBalance (env : Env) (ee : ExecutionEnvironmentType) (a : B160) (diff : U256)
    (shouldSubtract feePaymentInSimulation : Bool) : IoM U256 :=
  updateNominalTokenValue env ee a (if shouldSubtract then subBalance diff else addBalance diff) false
    feePaymentInSimulation

def incrementNonce (env : Env) (ee : ExecutionEnvironmentType) (a : B160) (incrementBy : U64) : IoM U64 := do
  materializeAccount env ee a false false
  charge accountWriteExtra
  let e ← accountItem a
  let nonce := e.current.value.nonce
  if 2 ^ 64 ≤ nonce.toNat + incrementBy.toNat then throw .nonceOverflow
  else do
    updateAccount a fun r => r.update fun v m => ({ v with nonce := nonce + incrementBy }, m)
    pure nonce

def readAccountBalanceAssumingWarm (ee : ExecutionEnvironmentType) (a : B160) : IoM U256 := do
  (match ee with
    | .noEE => pure ()
    | .evm => charge (.fromErgs (gas 5)))
  let e ← accountItem a
  pure e.current.value.balance

/-! ## Code -/

/-- One flag per byte of the code: `JUMPDEST` outside of push data (`analyze`). -/
def jumpdests : Nat → List UInt8 → List Bool
  | _, [] => []
  | 0, op :: rest =>
    if op = 0x5b then true :: jumpdests 0 rest
    else if 0x60 ≤ op ∧ op ≤ 0x7f then false :: jumpdests (op - 0x60 + 1).toNat rest
    else false :: jumpdests 0 rest
  | n + 1, _ :: rest => false :: jumpdests n rest

/-- The bitmap of the flags, padded to whole 64-bit words, least significant bit first. -/
def artifacts (code : List UInt8) : List UInt8 :=
  let bits := jumpdests 0 code
  (List.range ((code.length + 63) / 64 * 8)).map fun i =>
    UInt8.ofNat (((bits.drop (8 * i)).take 8).foldr (fun b n => 2 * n + b.toNat) 0)

/-- Code, padding and artifacts as they are stored. -/
def paddedBytecode (code arts : List UInt8) : List UInt8 :=
  code ++ List.replicate (bytecodePaddingLen code.length) 0 ++ arts

/-- The fields of an account that describe its code. -/
structure CodeFields where
  observableBytecodeHash : Bytes32
  observableBytecodeLen : BitVec 32
  bytecodeHash : Bytes32
  unpaddedCodeLen : BitVec 32
  artifactsLen : BitVec 32

def AccountProperties.setCode (p : AccountProperties) (c : CodeFields) (versioning : U64) :
    AccountProperties :=
  { p with
    versioningData := versioning
    observableBytecodeHash := c.observableBytecodeHash
    observableBytecodeLen := c.observableBytecodeLen
    bytecodeHash := c.bytecodeHash
    unpaddedCodeLen := c.unpaddedCodeLen
    artifactsLen := c.artifactsLen }

/-- Hash and preimage of the code, with the native charges; the length announced for the preimage
is computed from the observable length. -/
def storeBytecode (env : Env) (observableLen : Nat) (code arts : List UInt8) : IoM Bytes32 := do
  charge (.fromNative (blake2sNativeCost (paddedBytecode code arts).length))
  let bytecodeHash := env.blake (paddedBytecode code arts)
  recordPreimage .bytecode bytecodeHash (observableLen + bytecodePaddingLen code.length + arts.length)
    (paddedBytecode code arts)
  pure bytecodeHash

def chargeArtifacts (code : List UInt8) : IoM Unit := charge (.fromNative (saturate (6 * code.length)))

/-- Versioning data of deployed EVM code: status 1, EE version 1, code version 1. -/
def deployedVersioning (v : U64) : U64 :=
  VersioningData.setCodeVersion (VersioningData.setEeVersion (VersioningData.setAsDeployed v) 1) 1

/-- `deploy_code`. The caller has checked that the address may be deployed to. -/
def deployCode (env : Env) (ee : ExecutionEnvironmentType) (a : B160) (code : List UInt8) : IoM Unit := do
  (match ee with
    | .noEE => pure ()
    | .evm => charge (.fromErgs (saturate (min (200 * code.length) (2 ^ 64 - 1) * ergsPerGas))))
  let s ← get
  let curTx := s.io.accounts.currentTxId
  withInfiniteErgs (materializeAccount env ee a false false)
  require (ee = .evm) .defect
  charge (.fromNative (keccak256NativeCost code.length))
  chargeArtifacts code
  let bytecodeHash ← storeBytecode env code.length code (artifacts code)
  charge accountWriteExtra
  let len := BitVec.ofNat 32 code.length
  updateAccount a fun r => r.update fun v m =>
    (v.setCode ⟨env.keccak code, len, bytecodeHash, len, BitVec.ofNat 32 (artifacts code).length⟩
      (deployedVersioning v.versioningData),
      { m with deployedInTx := some curTx, notPublishBytecode := false })

/-- Forced deployment of known code, for protocol upgrades. -/
def setBytecodeDetails (env : Env) (ee : ExecutionEnvironmentType) (a : B160) (codeHash : Bytes32)
    (unpaddedBytecodeLen artifactsLen : BitVec 32) (observableBytecodeHash : Bytes32)
    (observableBytecodeLen : BitVec 32) : IoM Unit := do
  let s ← get
  let curTx := s.io.accounts.currentTxId
  materializeAccount env ee a false false
  let code ← getPreimage env codeHash unpaddedBytecodeLen.toNat
  require (ee = .evm ∧ artifactsLen = 0) .defect
  chargeArtifacts code
  let bytecodeHash ← storeBytecode env observableBytecodeLen.toNat code (artifacts code)
  charge accountWriteExtra
  updateAccount a fun r => r.update fun v m =>
    (v.setCode ⟨observableBytecodeHash, observableBytecodeLen, bytecodeHash, unpaddedBytecodeLen,
        BitVec.ofNat 32 (artifacts code).length⟩ (deployedVersioning v.versioningData),
      { m with deployedInTx := some curTx, notPublishBytecode := true })

/-- `0xef0100` followed by the delegate. -/
def delegationCode (delegate : B160) : List UInt8 := [0xef, 0x01, 0x00] ++ beBytes 20 delegate.low20.toNat

/-- The code of an account is a delegation marker, or nothing for delegate zero. -/
def setDelegation (env : Env) (a delegate : B160) : IoM Unit := do
  withInfiniteErgs (materializeAccount env .evm a false false)
  if delegate = 0 then do
    charge accountWriteExtra
    updateAccount a fun r => r.update fun v m =>
      (v.setCode ⟨0, 0, 0, 0, 0⟩ (VersioningData.setCodeVersion
        (VersioningData.setEeVersion (VersioningData.unsetDeploymentStatus v.versioningData) 0) 0),
        { m with notPublishBytecode := false })
  else do
    let code := delegationCode delegate
    charge (.fromNative (keccak256NativeCost code.length))
    let bytecodeHash ← storeBytecode env code.length code []
    charge accountWriteExtra
    updateAccount a fun r => r.update fun v m =>
      (v.setCode ⟨env.keccak code, 23, bytecodeHash, 23, 0⟩ (VersioningData.setCodeVersion
        (VersioningData.setEeVersion (VersioningData.setAsDelegated v.versioningData) 1) 1),
        { m with notPublishBytecode := false })

/-! ## Deconstruction -/

/-- The account is deconstructed if it was deployed in this transaction or
runs its constructor; its balance goes to the beneficiary. -/
def markForDeconstruction (env : Env) (ee : ExecutionEnvironmentType) (a beneficiary : B160)
    (inConstructor : Bool) : IoM U256 := do
  let s ← get
  let curTx := s.io.accounts.currentTxId
  materializeAccount env ee a true false
  charge accountWriteExtra
  let e ← accountItem a
  let transferAmount := e.current.value.balance
  let shouldBeDeconstructed := e.current.metadata.deployedInTx = some curTx ∨ inConstructor = true
  (if shouldBeDeconstructed then updateAccount a CacheRecord.deconstruct else pure ())
  (if a ≠ beneficiary then transferNominalTokenValue env ee a beneficiary transferAmount true
    else if shouldBeDeconstructed then
      updateAccount a fun r => r.update fun v m => ({ v with balance := 0 }, m)
    else pure ())
  -- extra gas for a positive value to a new account
  (if transferAmount ≠ 0 ∧ ee = .evm then do
      let b ← accountItem beneficiary
      let p := b.current.value
      (if p.nonce = 0 ∧ p.unpaddedCodeLen = 0 ∧ p.balance = transferAmount then
        charge (.fromErgs (gas 25000)) else pure ())
    else pure ())
  pure transferAmount

/-- What the sweep does to a deconstructed record: `finish_deconstruction`, then the trivial value. -/
def finishDeconstruction (r : AccountRecord) : AccountRecord :=
  if r.appearance = .deconstructed then
    ({ r with appearance := .updated } : AccountRecord).update fun _ m => (.trivial, m)
  else r

/-- One pending entry of the sweep. -/
def sweepAccount (a : B160) (accounts : HistoryMap B160 AccountRecord) (storage : StorageCache) :
    HistoryMap B160 AccountRecord × StorageCache :=
  match accounts.elems a with
  | some e =>
    if e.current.appearance = .deconstructed then (accounts.mutateHead a finishDeconstruction, clearState a storage)
    else (accounts, storage)
  | none => (accounts, storage)

/-- Every account marked in the transaction is deconstructed and its cached slots are
cleared. -/
def AccountCache.finishTx (c : AccountCache) (storage : StorageCache) : AccountCache × StorageCache :=
  let r := c.cache.pending.foldl (fun st p => sweepAccount p.1 st.1 st.2) (c.cache, storage)
  (⟨r.1, c.currentTxId + 1⟩, r.2)

end ZkOs
