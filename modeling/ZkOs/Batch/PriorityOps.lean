import ZkOs.Batch.Chaining
import ZkOs.Bootloader.Outcomes
import ZkOs.Bootloader.Deposits

/-!
# Priority operations of a batch

The number and the rolling hash of priority operations are computed from the logs of the blocks. They
are those of the priority transactions that the blocks included.

* `ExecutedBlock` : a block with the run of its transactions;
* `ExecutedBlock.priorityOps` : the hashes of its included priority transactions;
* `applyBlocks_l1Txs` : what a batch adds to the builder;
* `batch_output_priorityOps` : what gets into the batch output.
-/

namespace ZkOs.Batch

open Bootloader BatchPublicInputBuilder

/-! ## Blocks -/

structure ExecutedBlock where
  env : Env
  cfg : Config
  machine : Machine
  metadata : BlockMetadata
  txs : List IncomingTx
  final : BlockRun
  executed : runTxs env cfg machine metadata .new txs = some final

namespace ExecutedBlock

/-- The hashes of the L1 priority transactions that were included, in order. -/
def priorityOps (e : ExecutedBlock) : List Bytes32 :=
  ((included e.txs e.final.results).filter (·.1.isPriorityOp)).map (·.1.hash e.env)

/-- What `applyToBatch` gets for the block. -/
structure Hands {O S : Type} (st : Setting O S) (e : ExecutedBlock) (b : Block S) : Prop where
  keccak : st.env.keccak = e.env.keccak
  metadata : b.metadata.toBlockMetadata = e.metadata
  logs : b.io.logsStorage = e.final.io.logs

theorem filterMap_outcomeOf (env : Env) (done : List (IncomingTx × TxProcessingResult)) :
    (done.filterMap (outcomeOf env)).filterMap (fun o => if o.isPriority then some o.txHash else none) =
      (done.filter (·.1.isPriorityOp)).map (·.1.hash env) := by
  rw [List.filterMap_filterMap, ← List.filterMap_eq_filter, List.map_filterMap]
  refine List.filterMap_congr fun x _ => ?_
  rcases x with ⟨_ | _ | tx | tx, r⟩
  · rfl
  · rfl
  · rfl
  · rcases hp : tx.isPriorityOp <;> simp [outcomeOf, IncomingTx.isPriorityOp, Option.guard, hp]

theorem priorityOps_eq (e : ExecutedBlock) : e.final.io.logs.contents.filterMap priorityOp = e.priorityOps := by
  have houtcomes : e.final.io.logs.outcomes = (included ([] ++ e.txs) e.final.results).filterMap (outcomeOf e.env) :=
    runTxs_outcomes rfl rfl e.executed
  rw [priorityOps, ← filterMap_outcomeOf, ← List.nil_append e.txs, ← houtcomes, LogsStorage.outcomes,
    List.filterMap_filterMap]
  refine List.filterMap_congr fun c _ => ?_
  rcases c with ⟨n, ⟨a, d, dh⟩ | ⟨txHash, success, isPriority⟩⟩
  · rfl
  · cases isPriority <;> rfl

end ExecutedBlock

/-! ## Batches -/

section Batches

variable {O S : Type} {st : Setting O S}

variable {builder builder' : BatchPublicInputBuilder} {ops : List Bytes32} {oracle : O}

theorem applyBlock_l1Txs {before after upgrade : Bytes32} {timestamp : U64} {chainId : U256}
    (h : builder.applyBlock before after timestamp chainId upgrade = some builder') :
    builder'.numberOfLayer1Txs = builder.numberOfLayer1Txs ∧ builder'.l1TxsRollingHash = builder.l1TxsRollingHash ∧
      builder'.logsStorage = builder.logsStorage := by
  unfold applyBlock at h
  split at h
  · cases h
    exact ⟨rfl, rfl, rfl⟩
  · simp only [Option.bind_eq_bind, Option.bind_eq_some_iff] at h
    obtain ⟨_, -, _, -, _, -, _, -, _, -, hlast⟩ := h
    cases hlast
    exact ⟨rfl, rfl, rfl⟩

/-- The builder has counted and hashed the given operations. The counter cannot overflow: each operation
has a log of its own. -/
structure Counted (st : Setting O S) (ops : List Bytes32) (builder : BatchPublicInputBuilder) : Prop where
  number : builder.numberOfLayer1Txs = BitVec.ofNat 256 ops.length
  rolling : builder.l1TxsRollingHash = ops.foldl (rollKeccak st.env) keccakOfEmpty
  length_le : ops.length ≤ builder.logsStorage.length
  logs_le : builder.logsStorage.length ≤ 16384

theorem Counted.new : Counted st [] .new := ⟨rfl, rfl, Nat.le_refl _, Nat.zero_le _⟩

theorem Counted.step {x : Block S × O} (hb : Counted st ops builder)
    (h : applyToBatch st x.1 x.2 builder = some (builder', oracle)) :
    Counted st (ops ++ x.1.io.logsStorage.contents.filterMap priorityOp) builder' := by
  obtain ⟨p, c, scheme, generator, logs, -, -, -, -, -, hlogs, happly⟩ := applyToBatch_ok h
  obtain ⟨hnumber, hrolling, hstorage⟩ := applyBlock_l1Txs happly
  simp only [applyToArrayVec, Option.bind_eq_bind, Option.bind_eq_some_iff, Option.guard_eq_some', Option.some.injEq] at hlogs
  obtain ⟨_, hcapacity, rfl⟩ := hlogs
  have hops : (x.1.io.logsStorage.contents.filterMap priorityOp).length ≤ x.1.io.logsStorage.contents.length :=
    List.length_filterMap_le ..
  have hle := hb.length_le
  refine ⟨?_, ?_, ?_, ?_⟩
  · rw [hnumber]
    show (l1TxsLoop st.env _ _).1 = _
    rw [l1TxsLoop_eq, List.length_append, BitVec.ofNat_add, ← hb.number]
  · rw [hrolling]
    show (l1TxsLoop st.env _ _).2 = _
    rw [l1TxsLoop_eq, List.foldl_append, ← hb.rolling]
  · rw [hstorage, List.length_append, List.length_append, List.length_map]
    omega
  · rw [hstorage, List.length_append, List.length_map]
    exact hcapacity

theorem Counted.blocks {blocks : List (Block S × O)} (hb : Counted st ops builder)
    (h : applyBlocks st builder blocks = some builder') :
    Counted st (ops ++ blocks.flatMap fun x => x.1.io.logsStorage.contents.filterMap priorityOp) builder' := by
  induction blocks generalizing ops builder with
  | nil =>
    cases h
    rw [List.flatMap_nil, List.append_nil]
    exact hb
  | cons x blocks ih =>
    simp only [applyBlocks, Option.bind_eq_bind, Option.bind_eq_some_iff] at h
    obtain ⟨⟨b₁, o₁⟩, hstep, hrest⟩ := h
    rw [List.flatMap_cons, ← List.append_assoc]
    exact ih (hb.step hstep) hrest

theorem Counted.number_toNat (hb : Counted st ops builder) :
    builder.numberOfLayer1Txs.toNat = ops.length := by
  have hle := hb.length_le.trans hb.logs_le
  rw [hb.number, BitVec.toNat_ofNat]
  omega

theorem intoPublicInput_batchOutput {oracle' : O} {publicInput : BatchPublicInput}
    (h : builder.intoPublicInput st oracle = some (publicInput, oracle')) :
    ∃ o : BatchOutput, publicInput.batchOutput = o.hash st.env ∧ o.numberOfLayer1Txs = builder.numberOfLayer1Txs ∧
      o.priorityOperationsHash = builder.l1TxsRollingHash := by
  simp only [intoPublicInput, Option.bind_eq_bind, Option.bind_eq_some_iff] at h
  obtain ⟨_, _, _, _, _, _, _, _, _, _, _, _, _, _, _, _, _, _, _, _, hlast⟩ := h
  cases hlast
  exact ⟨_, rfl, rfl, rfl⟩

/-- For every batch of executed blocks, the batch output has the number of the priority transactions that
the blocks included, and the rolling hash of their hashes, in order, starting with the hash of the empty
string. -/
theorem batch_output_priorityOps (blocks : List (ExecutedBlock × Block S × O))
    (hblocks : ∀ x ∈ blocks, x.1.Hands st x.2.1) (hempty : st.env.keccak [] = keccakOfEmpty)
    (builder : BatchPublicInputBuilder) (h : applyBlocks st .new (blocks.map Prod.snd) = some builder)
    (oracle oracle' : O) (publicInput : BatchPublicInput)
    (hpi : builder.intoPublicInput st oracle = some (publicInput, oracle')) :
    ∃ o : BatchOutput, publicInput.batchOutput = o.hash st.env ∧
      o.numberOfLayer1Txs.toNat = (blocks.flatMap (·.1.priorityOps)).length ∧
      o.priorityOperationsHash =
        (blocks.flatMap (·.1.priorityOps)).foldl (rollKeccak st.env) (st.env.keccak []) := by
  have hops : (blocks.map Prod.snd).flatMap (fun x => x.1.io.logsStorage.contents.filterMap priorityOp) =
      blocks.flatMap (·.1.priorityOps) := by
    rw [List.flatMap_map]
    refine List.flatMap_congr fun x hx => ?_
    rw [(hblocks x hx).logs, ExecutedBlock.priorityOps_eq]
  have hcounted := Counted.new.blocks h
  rw [List.nil_append, hops] at hcounted
  obtain ⟨o, ho, hnumber, hrolling⟩ := intoPublicInput_batchOutput hpi
  refine ⟨o, ho, ?_, ?_⟩
  · rw [hnumber, hcounted.number_toNat]
  · rw [hrolling, hcounted.rolling, hempty]

end Batches

/-- A deposit, bytes that are no transaction, and an upgrade that comes too late. -/
def depositTxs : List IncomingTx := [.l1 depositTx, .undecodable, .l1 { depositTx with isPriorityOp := false }]

def depositBlock (final : BlockRun) : Block Unit :=
  let b := idleBlock 1 100 [] 7
  { b with
    io := { b.io with logsStorage := final.io.logs }
    metadata := { b.metadata with toBlockMetadata := freeBlock } }

def depositOracle : ProofData := ⟨⟨5, 3⟩, 90⟩

def depositBatch : Option (BlockRun × BatchPublicInputBuilder × BatchPublicInput × ProofData) := do
  let final ← runTxs idleSetting.env ⟨true, false⟩ failingMachine freeBlock .new depositTxs
  let builder ← applyBlocks idleSetting .new [(depositBlock final, depositOracle)]
  let (publicInput, oracle) ← builder.intoPublicInput idleSetting depositOracle
  some (final, builder, publicInput, oracle)

set_option maxRecDepth 100000 in
theorem batch_output_depositBatch : ∃ x o, depositBatch = some x ∧ x.2.2.1.batchOutput = BatchOutput.hash idleSetting.env o ∧
    o.numberOfLayer1Txs.toNat = 1 := by
  have hsome : depositBatch.any (fun x =>
      ((included depositTxs x.1.results).filter (·.1.isPriorityOp)).length == 1) = true := by decide +kernel
  obtain ⟨⟨final, builder, publicInput, oracle⟩, hx, hcount⟩ := (Option.any_eq_true _ _).mp hsome
  have hparts := hx
  simp only [depositBatch, Option.bind_eq_bind, Option.bind_eq_some_iff, Option.some.injEq, Prod.mk.injEq] at hparts
  obtain ⟨_, hrun, _, hblocks, ⟨_, _⟩, hpi, rfl, rfl, rfl, rfl⟩ := hparts
  let e : ExecutedBlock := ⟨idleSetting.env, ⟨true, false⟩, failingMachine, freeBlock, depositTxs, _, hrun⟩
  obtain ⟨o, ho, hnumber, -⟩ := batch_output_priorityOps [(e, depositBlock e.final, depositOracle)]
    (List.forall_mem_singleton.mpr ⟨rfl, rfl, rfl⟩) rfl _ hblocks depositOracle _ _ hpi
  refine ⟨_, o, hx, ho, ?_⟩
  rw [hnumber, List.flatMap_singleton, ExecutedBlock.priorityOps, List.length_map]
  exact eq_of_beq hcount

end ZkOs.Batch
