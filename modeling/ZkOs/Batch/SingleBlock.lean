import ZkOs.Batch.PublicInput

/-!
# Batches of one block

The proving program can close a block in two ways: `finish` makes the public input of a batch of one
block, and `applyToBatch` adds the block to a builder that `intoPublicInput` closes. The two are written
separately, and count the L1 transactions in words of different widths.

* `l1TxsCommitment_eq` : the two commitments to L1 transactions agree as long as 32 bits hold the count;
* `finish_eq_oneBlockBatch` : the two ways give one public input.
-/

namespace ZkOs.Batch

open BatchPublicInputBuilder

/-- A batch that is closed after its first block. -/
def oneBlockBatch {O S : Type} (st : Setting O S) (b : Block S) (oracle : O) : Option (BatchPublicInput × O) := do
  let (builder, oracle) ← applyToBatch st b oracle .new
  builder.intoPublicInput st oracle

/-- 32 bits count the L1 transactions of a block as well as 256 bits do. -/
theorem l1TxsCommitment_eq (env : Env) (l : LogsStorage) (h : l.contents.length < 2 ^ 32) :
    ((l1TxsCommitment env l).1.setWidth 256, (l1TxsCommitment env l).2) =
      applyL1TxsToCommitment env l 0 keccakOfEmpty := by
  have hle : (l.contents.filterMap priorityOp).length ≤ l.contents.length := List.length_filterMap_le ..
  unfold l1TxsCommitment applyL1TxsToCommitment
  rw [l1TxsLoop_eq, l1TxsLoop_eq]
  refine Prod.ext ?_ rfl
  apply BitVec.eq_of_toNat_eq
  simp only [BitVec.ofNat_eq_ofNat, BitVec.zero_add, BitVec.toNat_setWidth, BitVec.toNat_ofNat]
  omega

variable {O S : Type} (st : Setting O S)

/-- A block of at most 16384 logs has one public input: a batch of this block alone, closed at once, is
what `finish` makes of it. Either both ways end with the same public input and oracle, or neither ends. -/
theorem finish_eq_oneBlockBatch (b : Block S) (oracle : O) (h : b.io.logsStorage.contents.length ≤ 16384) :
    finishPublicInput st b oracle = oneBlockBatch st b oracle ∧
      finish st b oracle = (oneBlockBatch st b oracle).map fun x => (x.2, x.1.hash st.env) := by
  have hl1 := l1TxsCommitment_eq st.env b.io.logsStorage (by omega)
  have hlogs : applyToArrayVec st.env b.io.logsStorage new.logsStorage =
      some (b.io.logsStorage.contents.map (logHash st.env)) := by
    simp [applyToArrayVec, new, h]
  have hsame : finishPublicInput st b oracle = oneBlockBatch st b oracle := by
    unfold finishPublicInput oneBlockBatch applyToBatch
    simp only [Option.bind_eq_bind, Option.bind_assoc, Option.bind_some]
    -- both ways ask the oracle, write the same pubdata and make the same check, in this order
    refine congrArg (Option.bind _) (funext fun proofData => ?_)
    refine congrArg (Option.bind _) (funext fun scheme => ?_)
    refine congrArg (Option.bind (DaCommitmentGenerator.fromScheme scheme)) (funext fun generator => ?_)
    refine congrArg (Option.bind _) (funext fun generator => ?_)
    refine congrArg (Option.bind _) (funext fun storage => ?_)
    refine congrArg (Option.bind _) (funext fun generator => ?_)
    refine congrArg (Option.bind _) (funext fun generator => ?_)
    rw [hlogs]
    simp only [Option.bind_some]
    refine congrArg (Option.bind _) (funext fun _ => ?_)
    simp only [new, applyBlock, if_true, Option.bind_some, intoPublicInput, Option.bind_eq_bind, l2LogsRoot, treeRoot]
    rw [← hl1]
    rfl
  refine ⟨hsame, ?_⟩
  unfold finish
  rw [hsame]
  rcases oneBlockBatch st b oracle with _ | ⟨publicInput, oracle⟩ <;> rfl

theorem finish_idleBlock :
    finish idleSetting (idleBlock 1 100 [] 7) ⟨⟨5, 3⟩, 90⟩ =
      (oneBlockBatch idleSetting (idleBlock 1 100 [] 7) ⟨⟨5, 3⟩, 90⟩).map
        fun x => (x.2, x.1.hash idleSetting.env) :=
  (finish_eq_oneBlockBatch idleSetting (idleBlock 1 100 [] 7) ⟨⟨5, 3⟩, 90⟩ (by decide)).2

end ZkOs.Batch
