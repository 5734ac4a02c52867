import ZkOs.State.Accounts
import ZkOs.Lib.FrameProgram

/-!
# The IO subsystem: operations, frames, transactions, pubdata

* `IoOp`, `IoOp.exec` : the operations that the bootloader, the system hooks and the interpreter
  may ask for;
* `Io.startFrame`, `Io.rollback` : snapshots of all parts of the state;
* `Io.beginNextTx`, `Io.finishTx` : the boundaries of a transaction;
* `Io.netPubdataUsed` : the pubdata of the current transaction;
* `Prog`, `Io.handler` : programs over these operations and frames, and what they do.
-/

namespace ZkOs

open History ZkOs.Action Digits

/-! ## Pubdata -/

/-- Number of bytes of a value without leading zeros. -/
def byteLength (x : U256) : Nat := if x = 0 then 0 else x.toNat.log2 / 8 + 1

inductive ValueDiffCompressionStrategy where
  | nothing
  | add
  | sub
  | transform
  deriving DecidableEq, Repr

namespace ValueDiffCompressionStrategy

def compressionLength (initialValue finalValue : U256) : ValueDiffCompressionStrategy → Option Nat
  | nothing => some 33
  | add =>
    let length := byteLength (finalValue - initialValue)
    if finalValue < initialValue ∨ length = 32 then none else some (length + 1)
  | sub =>
    let length := byteLength (initialValue - finalValue)
    if initialValue < finalValue ∨ length = 32 then none else some (length + 1)
  | transform =>
    let length := byteLength finalValue
    if length = 32 then none else some (length + 1)

def optimalCompressionLength (initialValue finalValue : U256) (noCompression : Bool) : Nat :=
  if noCompression then 33
  else [add, sub, transform].foldl
    (fun optimal st => min optimal ((st.compressionLength initialValue finalValue).getD optimal)) 33

end ValueDiffCompressionStrategy

open ValueDiffCompressionStrategy (optimalCompressionLength)

/-- `diff_compression_length` of two different account properties. -/
def AccountProperties.diffCompressionLength (initial final : AccountProperties)
    (notPublishBytecode notCompressBalance : Bool) : Nat :=
  let nonceDiff := optimalCompressionLength (initial.nonce.setWidth 256) (final.nonce.setWidth 256) false
  let balanceDiff := optimalCompressionLength initial.balance final.balance notCompressBalance
  if { initial with nonce := final.nonce, balance := final.balance } ≠ final then
    if notPublishBytecode then 1 + 8 + nonceDiff + balanceDiff + 32 + 4 + 4
    else 1 + 8 + nonceDiff + balanceDiff + 4 + 4 + final.fullBytecodeLen + 4
  else
    1 + (if initial.nonce ≠ final.nonce then nonceDiff else 0) +
      (if initial.balance ≠ final.balance ∨ notCompressBalance = true then balanceDiff else 0)

/-- Bytes charged for one account: nothing if it is back at its value at the block start or
unchanged since the start of the transaction. -/
def accountPubdata (e : Element AccountRecord) : Nat :=
  let cur := e.current
  if cur.value = e.initial.value ∨ cur.value = e.base.value then 0
  else 32 + e.base.value.diffCompressionLength cur.value cur.metadata.notPublishBytecode
    cur.metadata.notCompressBalance

def slotPubdata (e : Element SlotRecord) : Nat :=
  let cur := e.current.value
  if cur = e.initial.value ∨ cur = e.base.value then 0
  else 32 + optimalCompressionLength e.base.value cur false

/-- Every key altered since the last commit once, with its history. -/
def alteredSinceCommit {K V : Type} [DecidableEq K] (m : HistoryMap K V) : List (Element V) :=
  (m.pending.map Prod.fst).dedup.filterMap m.elems

def AccountCache.pubdataUsedByTx (c : AccountCache) : Nat := ((alteredSinceCommit c.cache).map accountPubdata).sum

/-- Account hashes are not published, the accounts are. -/
def StorageCache.pubdataUsedByTx (c : StorageCache) : Nat :=
  (((c.cache.pending.map Prod.fst).dedup.filter fun k => k.1 ≠ accountPropertiesStorageAddress).filterMap
    c.cache.elems |>.map slotPubdata).sum

namespace LogsStorage

def total (l : LogsStorage) : Nat := l.list.head?.elim 0 Prod.snd

def push (l : LogsStorage) (c : LogContent) (pubdata : Nat) : LogsStorage :=
  { l with list := (c, l.total + pubdata) :: l.list }

/-- `calculate_pubdata_used_by_tx`; an error if the total decreased. -/
def pubdataUsedByTx (l : LogsStorage) : Option Nat :=
  if l.total < l.pubdataUsedByCommittedLogs then none else some (l.total - l.pubdataUsedByCommittedLogs)

/-- The oldest `n` logs are kept. -/
def rollback (l : LogsStorage) (n : Nat) : LogsStorage := { l with list := l.list.drop (l.list.length - n) }

end LogsStorage

namespace Io

def netPubdataUsed (io : Io) : Option Nat :=
  io.logs.pubdataUsedByTx.map (io.accounts.pubdataUsedByTx + io.storage.pubdataUsedByTx + ·)

/-! ## Frames and transactions -/

structure Snapshot where
  slots : Nat
  refunds : Nat
  preimages : Nat
  accounts : Nat
  transient : Nat
  messages : Nat
  events : Nat

def startFrame (io : Io) : Snapshot × Io :=
  (⟨io.storage.cache.snapshot.1, io.storage.evmRefunds.snapshot.1, io.preimages.publication.snapshot.1,
      io.accounts.cache.snapshot.1, io.transient.snapshot.1, io.logs.list.length, io.events.length⟩,
    { io with
      storage := { io.storage with
        cache := io.storage.cache.snapshot.2, evmRefunds := io.storage.evmRefunds.snapshot.2 }
      preimages := { io.preimages with publication := io.preimages.publication.snapshot.2 }
      accounts := { io.accounts with cache := io.accounts.cache.snapshot.2 }
      transient := io.transient.snapshot.2 })

/-- `finish_io_frame` with a rollback handle (without one it does nothing). The preimages themselves
and what was asked from the oracle are not rolled back. -/
def rollback (io : Io) (h : Snapshot) : Option Io := do
  let slots ← io.storage.cache.rollback h.slots
  let publication ← io.preimages.publication.rollback h.preimages
  let accounts ← io.accounts.cache.rollback h.accounts
  let transient ← io.transient.rollback h.transient
  some { io with
    storage := { io.storage with cache := slots, evmRefunds := io.storage.evmRefunds.rollback h.refunds }
    preimages := { io.preimages with publication := publication }
    accounts := { io.accounts with cache := accounts }
    transient := transient
    logs := io.logs.rollback h.messages
    events := io.events.drop (io.events.length - h.events) }

def beginNextTx (io : Io) : Io :=
  { io with
    storage := { io.storage with cache := io.storage.cache.commit, evmRefunds := .new }
    preimages := { io.preimages with publication := io.preimages.publication.commit }
    accounts := { io.accounts with cache := io.accounts.cache.commit }
    transient := .new
    logs := { io.logs with pubdataUsedByCommittedLogs := io.logs.total } }

def finishTx (io : Io) : Io :=
  let r := io.accounts.finishTx io.storage
  { io with
    accounts := r.1
    storage := { r.2 with currentTxId := r.2.currentTxId + 1 }
    txNumber := io.txNumber + 1 }

def new : Io where
  storage := ⟨.new, 0, .new⟩
  preimages := ⟨fun _ => none, .new⟩
  accounts := ⟨.new, 0⟩
  transient := .new
  logs := ⟨[], 0⟩
  events := []
  txNumber := 0
  asked := 0

end Io

/-! ## Operations -/

inductive IoOp where
  | storageRead (ee : ExecutionEnvironmentType) (address : B160) (key : Bytes32)
  | storageWrite (ee : ExecutionEnvironmentType) (address : B160) (key value : Bytes32)
  | transientRead (ee : ExecutionEnvironmentType) (address : B160) (key : Bytes32)
  | transientWrite (ee : ExecutionEnvironmentType) (address : B160) (key value : Bytes32)
  | storageTouch (ee : ExecutionEnvironmentType) (address : B160) (key : Bytes32) (isAccessList : Bool)
  | touchAccount (ee : ExecutionEnvironmentType) (address : B160) (isAccessList : Bool)
  | emitEvent (ee : ExecutionEnvironmentType) (address : B160) (topics : List Bytes32) (data : List UInt8)
  | emitL1Message (address : B160) (data : List UInt8)
  | readAccount (ee : ExecutionEnvironmentType) (address : B160) (withBytecode withIsDelegated : Bool)
  | selfBalance (ee : ExecutionEnvironmentType) (address : B160)
  | transfer (ee : ExecutionEnvironmentType) (fromAddress toAddress : B160) (amount : U256)
  | deployCode (ee : ExecutionEnvironmentType) (address : B160) (code : List UInt8)
  | setBytecodeDetails (ee : ExecutionEnvironmentType) (address : B160) (codeHash : Bytes32)
      (unpaddedBytecodeLen artifactsLen : BitVec 32) (observableBytecodeHash : Bytes32)
      (observableBytecodeLen : BitVec 32)
  | setDelegation (address delegate : B160)
  | markForDeconstruction (ee : ExecutionEnvironmentType) (address beneficiary : B160) (inConstructor : Bool)
  | incrementNonce (ee : ExecutionEnvironmentType) (address : B160) (by_ : U64)
  | updateBalance (ee : ExecutionEnvironmentType) (address : B160) (diff : U256)
      (shouldSubtract feePaymentInSimulation : Bool)
  | emitL1L2TxLog (txHash : Bytes32) (success isPriority : Bool)
  | refundCounter
  | addEvmRefund (refund : BitVec 32)
  | netPubdataUsed
  | logsLen

namespace IoOp

def Resp : IoOp → Type
  | storageRead .. | transientRead .. | emitL1Message .. => Bytes32
  | readAccount .. => AccountProperties × List UInt8
  | selfBalance .. | markForDeconstruction .. | updateBalance .. => U256
  | incrementNonce .. => U64
  | refundCounter => BitVec 32
  | netPubdataUsed | logsLen => Nat
  | _ => Unit

end IoOp

def transientReadSlot (ee : ExecutionEnvironmentType) (k : SlotKey) : IoM Bytes32 := do
  charge ⟨match ee with | .noEE => 0 | .evm => gas 100, 4000⟩
  modifyIo fun io => { io with transient := io.transient.getOrInsert k 0 }
  let s ← get
  pure (s.io.transient.current (fun _ => 0) k)

def transientWriteSlot (ee : ExecutionEnvironmentType) (k : SlotKey) (v : Bytes32) : IoM Unit := do
  charge ⟨match ee with | .noEE => 0 | .evm => gas 100, 4000⟩
  modifyIo fun io => { io with transient := (io.transient.getOrInsert k 0).update k fun _ => v }

def emitEvent (ee : ExecutionEnvironmentType) (address : B160) (topics : List Bytes32) (data : List UInt8) :
    IoM Unit := do
  let cost := 375 + 375 * topics.length + data.length * 8
  require (ee = .evm → cost * ergsPerGas < 2 ^ 64) .outOfErgs
  charge ⟨match ee with | .noEE => 0 | .evm => gas cost,
    BitVec.ofNat 64 (6000 + 200 * topics.length + 2 * data.length)⟩
  modifyIo fun io => { io with events := ⟨io.txNumber, address, topics, data⟩ :: io.events }

def keccak256ErgsCost (len : Nat) : U64 := saturate ((30 + 6 * ((len + 31) / 32)) * ergsPerGas)

/-- The cost of hashing and storing, then the hash of the data. -/
def emitL1Message (env : Env) (address : B160) (data : List UInt8) : IoM Bytes32 := do
  charge (.fromNative (keccak256NativeCost 88 + 3 * keccak256NativeCost 64 + keccak256NativeCost data.length +
    BitVec.ofNat 64 (6000 + 2 * data.length)))
  charge ⟨keccak256ErgsCost data.length, keccak256NativeCost data.length⟩
  let dataHash := env.keccak data
  modifyIo fun io =>
    { io with logs := io.logs.push ⟨io.txNumber, .userMsg address data dataHash⟩ (4 + data.length + 88) }
  pure dataHash

/-- What an operation does to the state and to the resources of its caller. -/
def IoOp.exec (env : Env) : (o : IoOp) → IoM o.Resp
  | .storageRead ee a k => storageReadSlot env ee a k
  | .storageWrite ee a k v => storageWriteSlot env ee a k v
  | .transientRead ee a k => transientReadSlot ee (a, k)
  | .transientWrite ee a k v => transientWriteSlot ee (a, k) v
  | .storageTouch ee a k l => do let _ ← applyRead env ee (a, k) l
  | .touchAccount ee a l => materializeAccount env ee a false l
  | .emitEvent ee a ts d => ZkOs.emitEvent ee a ts d
  | .emitL1Message a d => ZkOs.emitL1Message env a d
  | .readAccount ee a b d => readAccountProperties env ee a b d
  | .selfBalance ee a => readAccountBalanceAssumingWarm ee a
  | .transfer ee f t v => transferNominalTokenValue env ee f t v false
  | .deployCode ee a c => ZkOs.deployCode env ee a c
  | .setBytecodeDetails ee a h l al oh ol => ZkOs.setBytecodeDetails env ee a h l al oh ol
  | .setDelegation a d => ZkOs.setDelegation env a d
  | .markForDeconstruction ee a b c => ZkOs.markForDeconstruction env ee a b c
  | .incrementNonce ee a n => ZkOs.incrementNonce env ee a n
  | .updateBalance ee a d s f => updateAccountNominalTokenBalance env ee a d s f
  | .emitL1L2TxLog h s p =>
    modifyIo fun io => { io with logs := io.logs.push ⟨io.txNumber, .l1TxLog h s p⟩ 88 }
  | .refundCounter => fun s => (.ok s.io.storage.evmRefunds.value, s)
  | .addEvmRefund n =>
    modifyIo fun io =>
      { io with storage :=
        { io.storage with evmRefunds := io.storage.evmRefunds.update (io.storage.evmRefunds.value + n) } }
  | .netPubdataUsed => fun s => ((s.io.netPubdataUsed.elim (.error .defect) .ok), s)
  | .logsLen => fun s => (.ok s.io.logs.list.length, s)

/-! ## Programs over the operations -/

/-- An operation is asked for with the resources it is paid from; what is left of them comes back
with its response. -/
abbrev IoQuery := IoOp × Resources

abbrev IoQuery.Resp (q : IoQuery) : Type := Except Err q.1.Resp × Resources

def IoQuery.Succeeds (env : Env) (io : Io) (q : IoQuery) : Prop := ∃ a s, q.1.exec env ⟨io, q.2⟩ = (.ok a, s)

/-- What a frame is opened for. -/
inductive FrameLabel where
  | transaction
  | interaction
  | call (modifier : CallModifier) (caller callee : B160)
  deriving DecidableEq

/-- A program over the operations. Everything above the IO subsystem is such a program. -/
abbrev Prog := FrameProgram.Prog IoQuery IoQuery.Resp FrameLabel

/-- The IO subsystem runs programs. A rollback to the frame's own snapshot is never refused, so the
default is not used. -/
def Io.handler (env : Env) : FrameProgram.Handler IoQuery IoQuery.Resp Io where
  exec q io :=
    let x := q.1.exec env ⟨io, q.2⟩
    ((x.1, x.2.res), x.2.io)
  Mark := Io.Snapshot
  mark := Io.startFrame
  undo h io := (io.rollback h).getD io

end ZkOs
