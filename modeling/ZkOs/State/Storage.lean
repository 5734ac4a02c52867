import ZkOs.State.Basic
import ZkOs.State.HistoryMap

/-!
# The input/output state and its storage cache

* `Io` : the caches, logs and events of a block in progress, `Sys` : `Io` with the resources of
  the running frame;
* `Env` : the oracle and the hash functions. The oracle's answers may depend on how many queries
  were asked before (`Io.asked`), so nothing is assumed about its consistency;
* `materializeSlot`, `storageReadSlot`, `storageWriteSlot` : the storage cache, with its charges;
* `clearState` : all cached slots of an address set to zero.
-/

namespace ZkOs

open History

/-! ## Cache records -/

inductive Appearance where
  | unset
  | retrieved
  | updated
  | deconstructed
  deriving DecidableEq, Repr

structure CacheRecord (V M : Type) where
  appearance : Appearance
  value : V
  metadata : M
  deriving DecidableEq

namespace CacheRecord

variable {V M : Type}

/-- Changes value and metadata; a deconstructed record stays deconstructed. -/
def update (r : CacheRecord V M) (f : V → M → V × M) : CacheRecord V M where
  appearance := if r.appearance = .deconstructed then .deconstructed else .updated
  value := (f r.value r.metadata).1
  metadata := (f r.value r.metadata).2

def updateMetadata (r : CacheRecord V M) (f : M → M) : CacheRecord V M := { r with metadata := f r.metadata }

def deconstruct (r : CacheRecord V M) : CacheRecord V M := { r with appearance := .deconstructed }

def unset (r : CacheRecord V M) : CacheRecord V M := { r with appearance := .unset }

end CacheRecord

/-! ## State -/

structure StorageElementMetadata where
  lastTouchedInTx : Option Nat
  deriving DecidableEq

abbrev SlotKey := B160 × Bytes32
abbrev SlotRecord := CacheRecord Bytes32 StorageElementMetadata

/-- A counter with snapshots: the newest value first, and the length at the last snapshot. -/
structure HistoryCounter where
  history : List (BitVec 32)
  lastSnapshot : Nat
  deriving DecidableEq

namespace HistoryCounter

def new : HistoryCounter := ⟨[], 0⟩

def value (c : HistoryCounter) : BitVec 32 := c.history.head?.getD 0

/-- The last record is overwritten unless a snapshot was taken after it. -/
def update (c : HistoryCounter) (v : BitVec 32) : HistoryCounter :=
  if c.lastSnapshot < c.history.length then { c with history := v :: c.history.tail }
  else { c with history := v :: c.history }

def snapshot (c : HistoryCounter) : Nat × HistoryCounter :=
  (c.history.length, { c with lastSnapshot := c.history.length })

def rollback (c : HistoryCounter) (s : Nat) : HistoryCounter :=
  ⟨c.history.drop (c.history.length - s), s⟩

end HistoryCounter

structure StorageCache where
  cache : HistoryMap SlotKey SlotRecord
  currentTxId : Nat
  evmRefunds : HistoryCounter

/-- Account version information and code, as stored in the preimage of an account. -/
structure AccountProperties where
  versioningData : U64
  nonce : U64
  balance : U256
  bytecodeHash : Bytes32
  unpaddedCodeLen : BitVec 32
  artifactsLen : BitVec 32
  observableBytecodeHash : Bytes32
  observableBytecodeLen : BitVec 32
  deriving DecidableEq

structure AccountPropertiesMetadata where
  deployedInTx : Option Nat
  lastTouchedInTx : Option Nat
  notPublishBytecode : Bool
  notCompressBalance : Bool
  deriving DecidableEq

abbrev AccountRecord := CacheRecord AccountProperties AccountPropertiesMetadata

structure AccountCache where
  cache : HistoryMap B160 AccountRecord
  currentTxId : Nat

inductive PreimageType where
  | bytecode
  | accountData
  deriving DecidableEq

/-- A preimage recorded in the block: how often, and its length. -/
structure PublicationElem where
  preimageType : PreimageType
  numUses : Nat
  publicationNetBytes : Nat
  deriving DecidableEq

/-- Preimages by hash, and the history of the newly recorded ones. -/
structure PreimagesStorage where
  storage : Bytes32 → Option (List UInt8)
  publication : HistoryMap Bytes32 (CacheRecord PublicationElem Unit)

inductive LogData where
  | userMsg (address : B160) (data : List UInt8) (dataHash : Bytes32)
  | l1TxLog (txHash : Bytes32) (success isPriority : Bool)
  deriving DecidableEq

structure LogContent where
  txNumber : Nat
  data : LogData
  deriving DecidableEq

/-- Logs, newest first, each with the cumulative pubdata up to it. -/
structure LogsStorage where
  list : List (LogContent × Nat)
  pubdataUsedByCommittedLogs : Nat

structure Event where
  txNumber : Nat
  address : B160
  topics : List Bytes32
  data : List UInt8
  deriving DecidableEq

/-- `FullIO`, and the number of oracle queries asked so far. -/
structure Io where
  storage : StorageCache
  preimages : PreimagesStorage
  accounts : AccountCache
  transient : HistoryMap SlotKey Bytes32
  logs : LogsStorage
  events : List Event
  txNumber : Nat
  asked : Nat

/-- What lies outside: the oracle's answers to the `n`-th query, and the hash functions. -/
structure Env where
  /-- Initial value of a slot and whether the slot is new. -/
  slot : Nat → B160 → Bytes32 → Bytes32 × Bool
  preimage : Nat → Bytes32 → List UInt8
  blake : List UInt8 → Bytes32
  keccak : List UInt8 → Bytes32
  /-- Signature recovery: message hash, parity, `r` and `s`. -/
  ecrecover : Bytes32 → Nat → U256 → U256 → Option (BitVec 160)
  /-- `PROOF_ENV`: preimages are checked against their hash. -/
  proofEnv : Bool

/-- The state that the operations of the IO subsystem act on. -/
structure Sys where
  io : Io
  res : Resources

abbrev IoM := Action Err Sys

open ZkOs.Action

/-! ## Charging -/

def charge (c : Resources) : IoM Unit := fun s => ((s.res.charge c).1, { s with res := (s.res.charge c).2 })

/-- Native is charged as usual. -/
def withInfiniteErgs {α : Type} (m : IoM α) : IoM α := fun s =>
  let r := m { s with res := { s.res with ergs := BitVec.allOnes 64 } }
  (r.1, { r.2 with res := { r.2.res with ergs := s.res.ergs } })

/-- A run that is paid from formally infinite resources. -/
def withInfiniteResources {α : Type} (m : IoM α) : IoM α := fun s =>
  let r := m { s with res := Resources.infinite }
  (r.1, { r.2 with res := s.res })

def modifyIo (f : Io → Io) : IoM Unit := modify fun s => { s with io := f s.io }

/-! ## Storage cache -/

def warmStorageRead (ee : ExecutionEnvironmentType) (isAccessList : Bool) : Resources where
  ergs := match ee with
    | .noEE => if isAccessList then gas 1900 else 0
    | .evm => gas 100
  native := 4000

def coldStorageReadExtra (ee : ExecutionEnvironmentType) (isNewSlot : Bool) : Resources where
  ergs := match ee with
    | .noEE => 0
    | .evm => gas (2100 - 100)
  native := if isNewSlot then nativeWithDelegations (2 * 100000) 0 (2 * 1320)
    else nativeWithDelegations 100000 0 1320

def storageWriteExtra (ee : ExecutionEnvironmentType) (initialValue currentValue newValue : Bytes32)
    (isWarmWrite isNewSlot : Bool) : Resources where
  ergs := match ee with
    | .noEE => 0
    | .evm =>
      let total :=
        if newValue = currentValue then 0
        else if currentValue = initialValue then (if initialValue = 0 then 19900 else 2800)
        else 0
      gas (if isWarmWrite then total else total + 100)
  native := if isNewSlot then nativeWithDelegations 100000 0 1300 else nativeWithDelegations 40000 0 660

/-- The cached history of a slot. Every caller has materialised the slot before. -/
def slotItem (k : SlotKey) : IoM (Element SlotRecord) := fun s =>
  match s.io.storage.cache.elems k with
  | some e => (.ok e, s)
  | none => (.error .defect, s)

def updateSlot (k : SlotKey) (f : SlotRecord → SlotRecord) : IoM Unit :=
  modifyIo fun io => { io with storage := { io.storage with cache := io.storage.cache.update k f } }

def querySlot (env : Env) (k : SlotKey) : IoM (Bytes32 × Bool) := fun s =>
  (.ok (env.slot s.io.asked k.1 k.2), { s with io := { s.io with asked := s.io.asked + 1 } })

/-- The initial record of a slot; it is cold. -/
def initialSlotRecord (answer : Bytes32 × Bool) : SlotRecord where
  appearance := if answer.2 then .unset else .retrieved
  value := answer.1
  metadata := ⟨none⟩

/-- The `get_or_insert` part of `materialize_element`: true if the element was initialised. -/
def getOrInsertSlot (env : Env) (ee : ExecutionEnvironmentType) (k : SlotKey) : IoM Bool := do
  let s ← get
  match s.io.storage.cache.elems k with
  | some _ => pure false
  | none =>
    let answer ← querySlot env k
    charge (coldStorageReadExtra ee answer.2)
    -- the initial value of an empty slot must be trivial
    require (answer.2 = true → answer.1 = 0) .defect
    modifyIo fun io =>
      { io with storage :=
        { io.storage with cache := io.storage.cache.getOrInsert k (initialSlotRecord answer) } }
    pure true

/-- Marks the slot as touched in this transaction; a slot that was cached but not touched pays for
the cold access as well. Returns whether it was warm. -/
def warmUpSlot (ee : ExecutionEnvironmentType) (k : SlotKey) (initialized : Bool) : IoM Bool := do
  let s ← get
  let e ← slotItem k
  let tx := s.io.storage.currentTxId
  if e.current.metadata.lastTouchedInTx = some tx then pure true
  else do
    (if initialized then pure () else charge (coldStorageReadExtra ee (e.current.appearance = .unset)))
    updateSlot k fun r => r.updateMetadata fun _ => ⟨some tx⟩
    pure false

def materializeSlot (env : Env) (ee : ExecutionEnvironmentType) (k : SlotKey) (isAccessList : Bool) :
    IoM Bool := do
  charge (warmStorageRead ee isAccessList)
  let initialized ← getOrInsertSlot env ee k
  warmUpSlot ee k initialized

def applyRead (env : Env) (ee : ExecutionEnvironmentType) (k : SlotKey) (isAccessList : Bool) :
    IoM Bytes32 := do
  let _ ← materializeSlot env ee k isAccessList
  let e ← slotItem k
  pure e.current.value

/-- `apply_write_impl`: the old value and the value at the start of the transaction. -/
def applyWrite (env : Env) (ee : ExecutionEnvironmentType) (k : SlotKey) (newValue : Bytes32) :
    IoM (Bytes32 × Bytes32) := do
  let isWarm ← materializeSlot env ee k false
  let e ← slotItem k
  charge (storageWriteExtra ee e.base.value e.current.value newValue isWarm (e.current.appearance = .unset))
  updateSlot k fun r => r.update fun _ m => (newValue, m)
  pure (e.current.value, e.base.value)

/-- The change of the refund counter made by a write (`u32` arithmetic). -/
def refundAfterWrite (refunds : BitVec 32) (old atTxStart new : Bytes32) : BitVec 32 :=
  if old = atTxStart then
    (if atTxStart ≠ 0 ∧ new = 0 then refunds + 4800 else refunds)
  else
    let refunds :=
      if atTxStart ≠ 0 then
        (if old = 0 then refunds - 4800 else if new = 0 then refunds + 4800 else refunds)
      else refunds
    if new = atTxStart then
      (if atTxStart = 0 then refunds + (20000 - 100) else refunds + (5000 - 2100 - 100))
    else refunds

def storageReadSlot (env : Env) (ee : ExecutionEnvironmentType) (address : B160) (key : Bytes32) :
    IoM Bytes32 :=
  applyRead env ee (address, key) false

def storageWriteSlot (env : Env) (ee : ExecutionEnvironmentType) (address : B160) (key newValue : Bytes32) :
    IoM Unit := do
  let old ← applyWrite env ee (address, key) newValue
  if ee = .evm ∧ old.1 ≠ newValue then
    modifyIo fun io =>
      { io with storage :=
        { io.storage with
          evmRefunds := io.storage.evmRefunds.update
            (refundAfterWrite io.storage.evmRefunds.value old.1 old.2 newValue) } }
  else pure ()

/-- `clear_state_impl`: every cached slot of the address is set to zero and counts as unset. -/
def clearState (address : B160) (c : StorageCache) : StorageCache :=
  { c with
    cache := (c.cache.keys.filter fun k => k.1 = address).foldl
      (fun m k => m.update k fun r => (r.update fun _ md => (0, md)).unset) c.cache }

end ZkOs
