import ZkOs.State.Publication
import ZkOs.Bootloader.Keys

/-!
# Public inputs of batches

What the proving program does after the transactions of a block: the state and the logs are published
into a DA commitment, and the chain state before and after the block is committed to.

* `ChainStateCommitment`, `BatchOutput`, `BatchPublicInput` : the records that are hashed;
* `DaCommitmentGenerator` : the commitments to the pubdata, one constructor per supported scheme;
* `treeRoot`, `l1TxsCommitment`, `applyL1TxsToCommitment` : the commitments to the logs;
* `finish` : the batch of one block, `applyToBatch`, `intoPublicInput` : a batch built block by block.

Results are optional: a failed assertion, an overfull buffer or a missing answer of the oracle ends
the program.
-/

namespace ZkOs.Batch

open Digits

def bytes32 (w : Bytes32) : List UInt8 := beBytes 32 w.toNat

/-! ## Records that are hashed -/

structure FlatStorageCommitment where
  root : Bytes32
  nextFreeSlot : U64
  deriving DecidableEq

structure ProofData where
  stateRootView : FlatStorageCommitment
  lastBlockTimestamp : U64

structure ChainStateCommitment where
  stateRoot : Bytes32
  nextFreeSlot : U64
  blockNumber : U64
  last256BlockHashesBlake : Bytes32
  lastBlockTimestamp : U64
  deriving DecidableEq

namespace ChainStateCommitment

/-- The bytes that `hash` feeds to its hasher. -/
def encoding (c : ChainStateCommitment) : List UInt8 :=
  bytes32 c.stateRoot ++ beBytes 8 c.nextFreeSlot.toNat ++ beBytes 8 c.blockNumber.toNat ++
    bytes32 c.last256BlockHashesBlake ++ beBytes 8 c.lastBlockTimestamp.toNat

def hash (env : Env) (c : ChainStateCommitment) : Bytes32 := env.blake c.encoding

end ChainStateCommitment

inductive DACommitmentScheme where
  | none
  | emptyNoDA
  | pubdataKeccak256
  | blobsAndPubdataKeccak256
  | blobsZKsyncOS
  deriving DecidableEq

def DACommitmentScheme.toU8 : DACommitmentScheme → UInt8
  | none => 0
  | emptyNoDA => 1
  | pubdataKeccak256 => 2
  | blobsAndPubdataKeccak256 => 3
  | blobsZKsyncOS => 4

structure BatchOutput where
  chainId : U256
  firstBlockTimestamp : U64
  lastBlockTimestamp : U64
  daCommitmentScheme : DACommitmentScheme
  pubdataCommitment : Bytes32
  numberOfLayer1Txs : U256
  priorityOperationsHash : Bytes32
  l2LogsTreeRoot : Bytes32
  upgradeTxHash : Bytes32
  interopRootRollingHash : Bytes32

def BatchOutput.hash (env : Env) (o : BatchOutput) : Bytes32 :=
  env.keccak (bytes32 o.chainId ++ beBytes 8 o.firstBlockTimestamp.toNat ++ beBytes 8 o.lastBlockTimestamp.toNat ++
    List.replicate 31 0 ++ [o.daCommitmentScheme.toU8] ++ bytes32 o.pubdataCommitment ++ bytes32 o.numberOfLayer1Txs ++
    bytes32 o.priorityOperationsHash ++ bytes32 o.l2LogsTreeRoot ++ bytes32 o.upgradeTxHash ++
    bytes32 o.interopRootRollingHash)

structure BatchPublicInput where
  stateBefore : Bytes32
  stateAfter : Bytes32
  batchOutput : Bytes32
  deriving DecidableEq

def BatchPublicInput.hash (env : Env) (p : BatchPublicInput) : Bytes32 :=
  env.keccak (bytes32 p.stateBefore ++ bytes32 p.stateAfter ++ bytes32 p.batchOutput)

/-! ## Data availability -/

/-- Hash, curve and oracle that the commitments to blobs are made with. -/
structure Kzg (O : Type) where
  G1 : Type
  Fr : Type
  sha256 : List UInt8 → List UInt8
  parseG1Compressed : List UInt8 → Option G1
  /-- `Fr::from_bigint` of the last 16 bytes of a hash. -/
  evaluationPoint : List UInt8 → Fr
  evaluateBlobPolynomial : List UInt8 → Fr → Fr
  verifyKzgProof : G1 → G1 → Fr → Fr → Bool
  /-- Commitment and proof for the data of a blob, as the oracle answers. -/
  advice : O → List UInt8 → Option ((List UInt8 × List UInt8) × O)

section Da

variable {O : Type} (env : Env) (kzg : Kzg O)

def versionedHashForKzg (data : List UInt8) : List UInt8 := 0x01 :: (kzg.sha256 data).drop 1

def blobVersionedHashWithAdvisor (data : List UInt8) (oracle : O) : Option (List UInt8 × O) := do
  let (advice, oracle) ← kzg.advice oracle data
  let commitment ← kzg.parseG1Compressed advice.1
  let proof ← kzg.parseG1Compressed advice.2
  let versionedHash := versionedHashForKzg kzg advice.1
  let point := kzg.evaluationPoint ((bytes32 (env.blake (versionedHash ++ data))).drop 16)
  guard (kzg.verifyKzgProof commitment proof point (kzg.evaluateBlobPolynomial data point) = true)
  some (versionedHash, oracle)

/-- The versioned hashes of all chunks, concatenated. -/
def blobVersionedHashes : List (List UInt8) → O → Option (List UInt8 × O)
  | [], oracle => some ([], oracle)
  | chunk :: chunks, oracle => do
    let (h, oracle) ← blobVersionedHashWithAdvisor env kzg chunk oracle
    let (hs, oracle) ← blobVersionedHashes chunks oracle
    some (h ++ hs, oracle)

def encodableBytesPerBlob : Nat := 31 * 4096

def bufferCapacity : Nat := encodableBytesPerBlob * 9

inductive DaCommitmentGenerator where
  | nop
  | keccak256 (pubdata : List UInt8)
  | blob (buffer : List UInt8)

namespace DaCommitmentGenerator

/-- `da_commitment_generator_from_scheme`. The blob generator leaves 31 bytes for the length. -/
def fromScheme : DACommitmentScheme → Option DaCommitmentGenerator
  | .blobsAndPubdataKeccak256 => some (keccak256 [])
  | .emptyNoDA => some nop
  | .blobsZKsyncOS => some (blob (List.replicate 31 0))
  | .none | .pubdataKeccak256 => none

def write (buf : List UInt8) : DaCommitmentGenerator → Option DaCommitmentGenerator
  | nop => some nop
  | keccak256 pubdata => some (keccak256 (pubdata ++ buf))
  | blob buffer => if buffer.length + buf.length ≤ bufferCapacity then some (blob (buffer ++ buf)) else none

def writeAll (g : DaCommitmentGenerator) (bufs : List (List UInt8)) : Option DaCommitmentGenerator :=
  bufs.foldlM (fun g buf => g.write buf) g

def finalize (oracle : O) : DaCommitmentGenerator → Option (Bytes32 × O)
  | nop => some (0, oracle)
  | keccak256 pubdata =>
    some (env.keccak (List.replicate 32 0 ++ bytes32 (env.keccak pubdata) ++ [1] ++ List.replicate 32 0), oracle)
  | blob buffer => do
    let buffer := beBytes 8 (buffer.length - 31) ++ buffer.drop 8
    let (hashes, oracle) ← blobVersionedHashes env kzg (buffer.toChunks encodableBytesPerBlob) oracle
    some (env.keccak hashes, oracle)

end DaCommitmentGenerator

end Da

/-! ## Logs -/

def keccakOfEmpty : Bytes32 := 0xc5d2460186f7233c927e7db2dcc703c0e500b653ca82273b7bfad8045d85a470

/-- `TREE_HEIGHT` of the tree of logs. -/
def logsTreeHeight : Nat := 14

/-- The roots of trees of empty logs. -/
def emptyHashes : List Bytes32 :=
  [0x72abee45b59e344af8a6e520241c4744aff26ed411f4c4b00f8af09adada43ba,
    0xc3d03eebfd83049991ea3d3e358b6712e7aa2e2e63dc2d4b438987cec28ac8d0,
    0xe3697c7f33c31a9b0f0aeb8542287d0d21e8c4cf82163d0c44c7a98aa11aa111,
    0x199cc5812543ddceeddd0fc82807646a4899444240db2c0d2f20c3cceb5f51fa,
    0xe4733f281f18ba3ea8775dd62d2fcd84011c8c938f16ea5790fd29a03bf8db89,
    0x1798a1fd9c8fbb818c98cff190daa7cc10b6e5ac9716b4a2649f7c2ebcef2272,
    0x66d7c5983afe44cf15ea8cf565b34c6c31ff0cb4dd744524f7842b942d08770d,
    0xb04e5ee349086985f74b73971ce9dfe76bbed95c84906c5dffd96504e1e5396c,
    0xac506ecb5465659b3a927143f6d724f91d8d9c4bdb2463aee111d9aa869874db,
    0x124b05ec272cecd7538fdafe53b6628d31188ffb6f345139aac3c3c1fd2e470f,
    0xc3be9cbd19304d84cca3d045e06b8db3acd68c304fc9cd4cbffe6d18036cb13f,
    0xfef7bd9f889811e59e4076a0174087135f080177302763019adaf531257e3a87,
    0xa707d1c62d8be699d34cb74804fdd7b4c568b6c1a821066f126c680d4b83e00b,
    0xf6e093070e0389d2e529d60fadb855fdded54976ec50ac709e3a36ceaa64c291,
    0x375a5bf909cb02143e3695ca658e0641e739aa590f0004dba93572c44cdb9d2d]

section Logs

variable (env : Env)

/-- One level of the tree, computed in place: node `i` from the elements `2 * i` and `2 * i + 1`. -/
def hashLevel (level currNonDefault : Nat) (elements : List Bytes32) : List Bytes32 :=
  (List.range ((currNonDefault + 1) / 2)).foldl
    (fun els i => els.set i (env.keccak (bytes32 (els.getD (2 * i) 0) ++
      bytes32 (if 2 * i + 1 < currNonDefault then els.getD (2 * i + 1) 0 else emptyHashes.getD level 0)))) elements

/-- The loop over the levels, which `tree_root` and `l2_logs_root` share: the root of the tree with the
given first leaves. -/
def logsRoot (leaves : List Bytes32) : Bytes32 :=
  let r := (List.range logsTreeHeight).foldl
    (fun x level => (hashLevel env level x.2 x.1, (x.2 + 1) / 2)) (leaves, leaves.length)
  if r.2 ≠ 0 then r.1.getD 0 0 else emptyHashes.getD 14 0

def logHash (c : LogContent) : Bytes32 := env.keccak (L2ToL1Log.ofContent c).encode

/-- The hash of a priority operation that a log stands for. -/
def priorityOp (c : LogContent) : Option Bytes32 :=
  match c.data with
  | .l1TxLog txHash _ true => some txHash
  | _ => none

/-- One step of the rolling hash of priority operations. -/
def rollKeccak (rolling txHash : Bytes32) : Bytes32 := env.keccak (bytes32 rolling ++ bytes32 txHash)

/-- The loop over the logs that both commitments to L1 transactions make, with a counter of `w` bits. -/
def l1TxsLoop {w : Nat} (acc : BitVec w × Bytes32) (logs : List LogContent) : BitVec w × Bytes32 :=
  logs.foldl (fun acc c => match priorityOp c with
    | some txHash => (acc.1 + 1, rollKeccak env acc.2 txHash)
    | none => acc) acc

theorem l1TxsLoop_eq {w : Nat} (acc : BitVec w × Bytes32) (logs : List LogContent) :
    l1TxsLoop env acc logs =
      (acc.1 + BitVec.ofNat w (logs.filterMap priorityOp).length,
        (logs.filterMap priorityOp).foldl (rollKeccak env) acc.2) := by
  induction logs generalizing acc with
  | nil => simp [l1TxsLoop]
  | cons c logs ih =>
    have hstep : l1TxsLoop env acc (c :: logs) = l1TxsLoop env (match priorityOp c with
      | some txHash => (acc.1 + 1, rollKeccak env acc.2 txHash)
      | none => acc) logs := rfl
    rw [hstep, ih]
    rcases hc : priorityOp c with _ | txHash
    · simp [hc]
    · have hcount : BitVec.ofNat w ((logs.filterMap priorityOp).length + 1) =
          1 + BitVec.ofNat w (logs.filterMap priorityOp).length := by
        rw [Nat.add_comm, BitVec.ofNat_add]
        rfl
      simp [hc, hcount, BitVec.add_assoc]

def treeRoot (l : LogsStorage) : Bytes32 := logsRoot env (l.contents.map (logHash env))

/-- `l1_txs_commitment`, which counts in 32 bits. -/
def l1TxsCommitment (l : LogsStorage) : BitVec 32 × Bytes32 := l1TxsLoop env (0, keccakOfEmpty) l.contents

def applyL1TxsToCommitment (l : LogsStorage) (count : U256) (rolling : Bytes32) : U256 × Bytes32 :=
  l1TxsLoop env (count, rolling) l.contents

/-- A full vector ends the program. -/
def applyToArrayVec (l : LogsStorage) (arrayVec : List Bytes32) : Option (List Bytes32) := do
  guard (arrayVec.length + l.contents.length ≤ 16384)
  some (arrayVec ++ l.contents.map (logHash env))

end Logs

/-! ## The end of a block -/

/-- What the end of a block depends on: hash functions, and the parts of the program that talk to the
oracle `O`. The end of the storage `S` gets the commitment to the state and returns the new one, with
all that it wrote to its destination; it writes there and does not read. -/
structure Setting (O S : Type) where
  env : Env
  kzg : Kzg O
  /-- `ZKProofDataQuery::get` -/
  getProofData : O → Option (ProofData × O)
  /-- `StorageModel::finish` -/
  finishStorage : S → O → FlatStorageCommitment → Option (FlatStorageCommitment × O × List (List UInt8))

/-- `FullIO` of the proving environment at the end of a block, without the oracle. -/
structure FullIo (S : Type) where
  storage : S
  logsStorage : LogsStorage
  daCommitmentScheme : Option DACommitmentScheme

structure Block (S : Type) where
  io : FullIo S
  metadata : Bootloader.BlockMetadataFromOracle
  currentBlockHash : Bytes32
  upgradeTxHash : Bytes32

def pubdataEncodingVersion : UInt8 := 1

section Finish

variable {O S : Type} (st : Setting O S)

def blocksHash (window : List U256) : Bytes32 := st.env.blake (window.flatMap bytes32)

/-- The chain state before the block, from what the oracle says about it. -/
def stateBefore (b : Block S) (p : ProofData) : ChainStateCommitment where
  stateRoot := p.stateRootView.root
  nextFreeSlot := p.stateRootView.nextFreeSlot
  blockNumber := b.metadata.blockNumber - 1
  last256BlockHashesBlake := blocksHash st b.metadata.blockHashes
  lastBlockTimestamp := p.lastBlockTimestamp

/-- The chain state after the block, with the new commitment to the storage. -/
def stateAfter (b : Block S) (c : FlatStorageCommitment) : ChainStateCommitment where
  stateRoot := c.root
  nextFreeSlot := c.nextFreeSlot
  blockNumber := b.metadata.blockNumber
  last256BlockHashesBlake := blocksHash st (b.metadata.blockHashes.drop 1 ++ [b.currentBlockHash])
  lastBlockTimestamp := b.metadata.timestamp

/-- The header that precedes the pubdata of a block. -/
def pubdataHeader (b : Block S) : List (List UInt8) :=
  [[pubdataEncodingVersion], bytes32 b.currentBlockHash, beBytes 8 b.metadata.timestamp.toNat]

/-- The root over the logs of the batch and the aggregated root, which is zero. -/
def fullLogsRoot (root : Bytes32) : Bytes32 := st.env.keccak (bytes32 root ++ List.replicate 32 0)

/-- `finish` of the default proving program, up to the public input: the batch of one block. -/
def finishPublicInput (b : Block S) (oracle : O) : Option (BatchPublicInput × O) := do
  let (proofData, oracle) ← st.getProofData oracle
  let before := stateBefore st b proofData
  let scheme ← b.io.daCommitmentScheme
  let generator ← DaCommitmentGenerator.fromScheme scheme
  let generator ← generator.writeAll (pubdataHeader b)
  let (stateCommitment, oracle, writes) ← st.finishStorage b.io.storage oracle proofData.stateRootView
  let generator ← generator.writeAll writes
  let generator ← generator.write b.io.logsStorage.applyPubdata
  let logsTreeRoot := fullLogsRoot st (treeRoot st.env b.io.logsStorage)
  let l1Txs := l1TxsCommitment st.env b.io.logsStorage
  guard (proofData.lastBlockTimestamp ≤ b.metadata.timestamp)
  let after := stateAfter st b stateCommitment
  let (pubdataCommitment, oracle) ← generator.finalize st.env st.kzg oracle
  let batchOutput : BatchOutput :=
    { chainId := b.metadata.chainId.setWidth 256
      firstBlockTimestamp := b.metadata.timestamp
      lastBlockTimestamp := b.metadata.timestamp
      daCommitmentScheme := scheme
      pubdataCommitment := pubdataCommitment
      numberOfLayer1Txs := l1Txs.1.setWidth 256
      priorityOperationsHash := l1Txs.2
      l2LogsTreeRoot := logsTreeRoot
      upgradeTxHash := b.upgradeTxHash
      interopRootRollingHash := 0 }
  some (⟨before.hash st.env, after.hash st.env, batchOutput.hash st.env⟩, oracle)

def finish (b : Block S) (oracle : O) : Option (O × Bytes32) := do
  let (publicInput, oracle) ← finishPublicInput st b oracle
  some (oracle, publicInput.hash st.env)

end Finish

/-! ## Batches of several blocks -/

structure BatchPublicInputBuilder where
  isFirstBlock : Bool
  initialStateCommitment : Option Bytes32
  currentStateCommitment : Option Bytes32
  firstBlockTimestamp : Option U64
  currentBlockTimestamp : Option U64
  chainId : Option U256
  daCommitmentScheme : Option DACommitmentScheme
  daCommitmentGenerator : Option DaCommitmentGenerator
  logsStorage : List Bytes32
  numberOfLayer1Txs : U256
  l1TxsRollingHash : Bytes32
  upgradeTxHash : Option Bytes32

namespace BatchPublicInputBuilder

def new : BatchPublicInputBuilder where
  isFirstBlock := true
  initialStateCommitment := none
  currentStateCommitment := none
  firstBlockTimestamp := none
  currentBlockTimestamp := none
  chainId := none
  daCommitmentScheme := none
  daCommitmentGenerator := none
  logsStorage := []
  numberOfLayer1Txs := 0
  l1TxsRollingHash := keccakOfEmpty
  upgradeTxHash := none

def applyBlock (builder : BatchPublicInputBuilder) (stateCommitmentBefore stateCommitmentAfter : Bytes32)
    (blockTimestamp : U64) (chainId : U256) (upgradeTxHash : Bytes32) : Option BatchPublicInputBuilder :=
  if builder.isFirstBlock then
    some { builder with
      initialStateCommitment := some stateCommitmentBefore
      currentStateCommitment := some stateCommitmentAfter
      firstBlockTimestamp := some blockTimestamp
      currentBlockTimestamp := some blockTimestamp
      chainId := some chainId
      upgradeTxHash := some upgradeTxHash
      isFirstBlock := false }
  else do
    let current ← builder.currentStateCommitment
    guard (current = stateCommitmentBefore)
    let id ← builder.chainId
    guard (id = chainId)
    guard (upgradeTxHash = 0)
    some { builder with
      currentStateCommitment := some stateCommitmentAfter
      currentBlockTimestamp := some blockTimestamp }

/-- The generator of the batch, which the first block chooses. -/
def generatorFor (builder : BatchPublicInputBuilder) (scheme : DACommitmentScheme) :
    Option DaCommitmentGenerator :=
  match builder.daCommitmentGenerator with
  | none => DaCommitmentGenerator.fromScheme scheme
  | some generator => do
    let chosen ← builder.daCommitmentScheme
    guard (chosen = scheme)
    some generator

def l2LogsRoot (env : Env) (logs : List Bytes32) : Bytes32 := logsRoot env logs

section Blocks

variable {O S : Type} (st : Setting O S)

def intoPublicInput (builder : BatchPublicInputBuilder) (oracle : O) : Option (BatchPublicInput × O) := do
  guard (builder.isFirstBlock = false)
  let logsTreeRoot := fullLogsRoot st (l2LogsRoot st.env builder.logsStorage)
  let chainId ← builder.chainId
  let firstBlockTimestamp ← builder.firstBlockTimestamp
  let lastBlockTimestamp ← builder.currentBlockTimestamp
  let daCommitmentScheme ← builder.daCommitmentScheme
  let generator ← builder.daCommitmentGenerator
  let (pubdataCommitment, oracle) ← generator.finalize st.env st.kzg oracle
  let upgradeTxHash ← builder.upgradeTxHash
  let batchOutput : BatchOutput :=
    { chainId := chainId
      firstBlockTimestamp := firstBlockTimestamp
      lastBlockTimestamp := lastBlockTimestamp
      daCommitmentScheme := daCommitmentScheme
      pubdataCommitment := pubdataCommitment
      numberOfLayer1Txs := builder.numberOfLayer1Txs
      priorityOperationsHash := builder.l1TxsRollingHash
      l2LogsTreeRoot := logsTreeRoot
      upgradeTxHash := upgradeTxHash
      interopRootRollingHash := 0 }
  let initial ← builder.initialStateCommitment
  let current ← builder.currentStateCommitment
  some (⟨initial, current, batchOutput.hash st.env⟩, oracle)

def applyToBatch (b : Block S) (oracle : O) (builder : BatchPublicInputBuilder) :
    Option (BatchPublicInputBuilder × O) := do
  let (proofData, oracle) ← st.getProofData oracle
  let before := stateBefore st b proofData
  let scheme ← b.io.daCommitmentScheme
  let generator ← builder.generatorFor scheme
  let generator ← generator.writeAll (pubdataHeader b)
  let (stateCommitment, oracle, writes) ← st.finishStorage b.io.storage oracle proofData.stateRootView
  let generator ← generator.writeAll writes
  let generator ← generator.write b.io.logsStorage.applyPubdata
  let logs ← applyToArrayVec st.env b.io.logsStorage builder.logsStorage
  let l1Txs := applyL1TxsToCommitment st.env b.io.logsStorage builder.numberOfLayer1Txs builder.l1TxsRollingHash
  guard (proofData.lastBlockTimestamp ≤ b.metadata.timestamp)
  let after := stateAfter st b stateCommitment
  let builder := { builder with
    daCommitmentScheme := some scheme
    daCommitmentGenerator := some generator
    logsStorage := logs
    numberOfLayer1Txs := l1Txs.1
    l1TxsRollingHash := l1Txs.2 }
  let builder ← builder.applyBlock (before.hash st.env) (after.hash st.env) b.metadata.timestamp
    (b.metadata.chainId.setWidth 256) b.upgradeTxHash
  some (builder, oracle)

/-- All blocks of a batch, each with the oracle as its execution left it. -/
def applyBlocks (builder : BatchPublicInputBuilder) : List (Block S × O) → Option BatchPublicInputBuilder
  | [] => some builder
  | (b, oracle) :: blocks => do
    let (builder, _) ← applyToBatch st b oracle builder
    applyBlocks builder blocks

end Blocks

end BatchPublicInputBuilder

/-! ## An idle chain -/

/-- A stand-in for Keccak, right for the empty string. -/
def modKeccak (bytes : List UInt8) : Bytes32 := if bytes = [] then keccakOfEmpty else Bootloader.modHash bytes

/-- A chain whose storage never changes and whose oracle answers with its own state. -/
def idleSetting : Setting ProofData Unit where
  env := { Bootloader.emptyChain with blake := Bootloader.modHash, keccak := modKeccak }
  kzg :=
    { G1 := Unit
      Fr := Unit
      sha256 := fun _ => []
      parseG1Compressed := fun _ => some ()
      evaluationPoint := fun _ => ()
      evaluateBlobPolynomial := fun _ _ => ()
      verifyKzgProof := fun _ _ _ _ => true
      advice := fun o _ => some (([], []), o) }
  getProofData o := some (o, o)
  finishStorage _ o c := some (c, o, [])

def idleBlock (blockNumber timestamp : U64) (blockHashes : List U256) (currentBlockHash : Bytes32) : Block Unit where
  io := ⟨(), Io.new.logs, some .blobsAndPubdataKeccak256⟩
  metadata :=
    { Bootloader.expensivePubdata with
      blockNumber := blockNumber
      timestamp := timestamp
      blockHashes := blockHashes
      mixHash := 0 }
  currentBlockHash := currentBlockHash
  upgradeTxHash := 0

end ZkOs.Batch
