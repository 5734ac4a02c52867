import ZkOs.Bootloader.Native
import ZkOs.State.Reading

/-!
# The accumulators of the block loop

* `IncomingTx.hash`, `included` : the hashes that the bootloader computes, and the transactions of a
  block that were not rejected;
* `processTransaction_ok`, `runTx_included_data`, `runTx_rejected_logs` : what one round of the loop
  does to the accumulators and to the number of logs;
* `block_accumulators` : what a whole block does to them.
-/

namespace ZkOs.Bootloader

open SysM ZkOs.Action Digits

/-! ## Transactions and their results -/

namespace IncomingTx

/-- The hash of a transaction: of its bytes, or of its ABI encoding with the offset in front. -/
def hash (env : Env) : IncomingTx → Bytes32
  | .l2 tx => env.keccak tx.buffer
  | .l1 tx => env.keccak (beBytes 32 0x20 ++ tx.buffer)
  | _ => 0

def isPriorityOp : IncomingTx → Bool
  | .l1 tx => tx.isPriorityOp
  | _ => false

def isUpgrade : IncomingTx → Bool
  | .l1 tx => !tx.isPriorityOp
  | _ => false

end IncomingTx

/-- The included transactions with their results, in the order of the block. -/
def included (txs : List IncomingTx) (results : List (Except InvalidTransaction TxProcessingResult)) :
    List (IncomingTx × TxProcessingResult) :=
  (txs.zip results).filterMap fun x => x.2.toOption.map (x.1, ·)

section Rounds

variable {env : Env} {cfg : Config} {machine : Machine} {block : BlockMetadata} {b b' : BlockData} {io io' : Io}
  {tx : IncomingTx} {r : TxProcessingResult} {s s' : Sys}

structure ResultOf (env : Env) (tx : IncomingTx) (r : TxProcessingResult) : Prop where
  txHash : r.txHash = tx.hash env
  isL1Tx : r.isL1Tx = tx.isPriorityOp
  isUpgradeTx : r.isUpgradeTx = tx.isUpgrade

theorem processL2Transaction_resultOf {tx : L2Transaction}
    (h : (processL2Transaction env cfg machine block tx).run env s = (.ok r, s')) : ResultOf env (.l2 tx) r := by
  unfold processL2Transaction at h
  rw [run_bind] at h
  obtain ⟨x, s₁, -, h₁⟩ := bind_ok.mp h
  rw [run_bind] at h₁
  obtain ⟨info, s₂, -, h₂⟩ := bind_ok.mp h₁
  rw [run_bind] at h₂
  obtain ⟨_, s₃, -, h₃⟩ := bind_ok.mp h₂
  cases h₃
  exact ⟨rfl, rfl, rfl⟩

theorem processL1Transaction_resultOf {tx : L1Transaction}
    (h : (processL1Transaction env machine block tx).run env s = (.ok r, s')) : ResultOf env (.l1 tx) r := by
  unfold processL1Transaction at h
  rw [run_bind] at h
  obtain ⟨prices, s₁, -, h₁⟩ := bind_ok.mp h
  split at h₁
  · cases h₁
  · simp only [run_bind] at h₁
    iterate 9 obtain ⟨_, _, -, h₁⟩ := bind_ok.mp h₁
    cases h₁
    exact ⟨rfl, rfl, rfl⟩

theorem processTransaction_ok {isFirstTx : Bool}
    (h : (processTransaction env cfg machine block isFirstTx tx).run env s = (.ok r, s')) :
    ResultOf env tx r ∧ (tx.isUpgrade = true → isFirstTx = true) := by
  cases tx with
  | unreadable => cases h
  | undecodable => cases h
  | l2 tx =>
    simp only [processTransaction] at h
    exact ⟨processL2Transaction_resultOf h, fun hup => absurd hup Bool.false_ne_true⟩
  | l1 tx =>
    simp only [processTransaction] at h
    split at h
    · cases h
    · rename_i hfirst
      refine ⟨processL1Transaction_resultOf h, fun hup => ?_⟩
      rw [IncomingTx.isUpgrade, Bool.not_eq_true'] at hup
      exact Bool.not_eq_false _ ▸ fun hf => hfirst ⟨hup, hf⟩

theorem txBody_included
    (h : (txBody env cfg machine block b tx).run env s = (.ok (.included r b'), s')) :
    (processTransaction env cfg machine block b.firstTx tx).run env s = (.ok r, s') ∧ b' = b.add env r ∧
      checkForBlockLimits block b' s'.io.logs.list.length = none := by
  unfold txBody at h
  rw [run_bind] at h
  obtain ⟨x, s₁, hx, h₁⟩ := bind_ok.mp h
  rw [run_attempt] at hx
  obtain ⟨hx, rfl⟩ := Prod.mk.inj hx
  cases hx
  rcases hr : (processTransaction env cfg machine block b.firstTx tx).run env s with ⟨e | r₁, t⟩
  · rw [hr] at h₁
    cases e <;> cases h₁
  · have hlogs : (attempt (perform .logsLen) : SysM Empty _).run env t = (.ok (.ok t.io.logs.list.length), t) := rfl
    rw [hr] at h₁
    simp only [run_bind] at h₁
    rw [bind_of_ok hlogs] at h₁
    rcases hc : checkForBlockLimits block (b.add env r₁) t.io.logs.list.length with _ | e <;>
      dsimp only [Except.toOption, Option.getD] at h₁ <;> rw [hc] at h₁ <;> cases h₁
    exact ⟨rfl, rfl, hc⟩

theorem runTx_included_data (h : runTx env cfg machine block b io tx = (.included r b', io')) :
    ResultOf env tx r ∧ (tx.isUpgrade = true → b.firstTx = true) ∧ b' = b.add env r ∧
      checkForBlockLimits block b' io'.logs.list.length = none := by
  obtain ⟨s, hs, rfl⟩ := runTx_included h
  unfold txProgram at hs
  rw [run_bind] at hs
  obtain ⟨heated, s₁, -, h₁⟩ := bind_ok.mp hs
  rcases heated with e | x
  · cases h₁
  · rw [run_frame] at h₁
    obtain ⟨hx, rfl⟩ := Prod.mk.inj h₁
    obtain ⟨hproc, hb, hlim⟩ := txBody_included (Prod.ext hx rfl)
    obtain ⟨hr, hup⟩ := processTransaction_ok hproc
    rw [hx]
    exact ⟨hr, hup, hb, hlim⟩

theorem runTx_rejected_sameValues {e : InvalidTransaction} (htx : tx ≠ .unreadable)
    (h : runTx env cfg machine block b io tx = (.rejected e, io')) : Io.SameValues env io.beginNextTx io' := by
  rw [runTx_eq htx] at h
  rcases hx : (txProgram env cfg machine block b tx).run env ⟨io.beginNextTx, .empty⟩ with ⟨e' | o, s⟩
  · exact e'.elim
  have hs : o = .rejected e ∧ s.io = io' := by
    rw [hx] at h
    cases o <;> cases h
    exact ⟨rfl, rfl⟩
  obtain ⟨rfl, rfl⟩ := hs
  unfold txProgram at hx
  rw [run_bind] at hx
  obtain ⟨heated, s₁, h₁, h₂⟩ := bind_ok.mp hx
  -- the access to the coinbase only reads
  have hheat : Io.SameValues env io.beginNextTx s₁.io := by
    rw [run_attempt, free, run_paidFrom] at h₁
    obtain ⟨-, rfl⟩ := Prod.mk.inj h₁
    let heat : IoOp := .readAccount .noEE block.coinbase false false
    have hsteps := (IoOp.exec_makes env heat ⟨io.beginNextTx, .infinite⟩).steps
    exact Io.Steps.sameValues (hsteps.mono (IoOp.scope_le_of_isReading rfl fun _ _ => trivial))
  rcases heated with e' | x
  · cases h₂
  · rw [run_frame] at h₂
    obtain ⟨hr, rfl⟩ := Prod.mk.inj h₂
    rw [hr]
    have hundo := @Io.undo_loads env s₁.io _
      (Io.run_extends (txBody env cfg machine block b tx s₁.res) s₁.io.startFrame.2)
    exact hheat.trans hundo.sameValues

theorem runTx_rejected_logs {e : InvalidTransaction} (h : runTx env cfg machine block b io tx = (.rejected e, io')) :
    io'.logs.list = io.logs.list := by
  by_cases htx : tx = .unreadable
  · subst htx
    cases h
    rfl
  · have hlogs := congrArg LogsStorage.list (runTx_rejected_sameValues htx h).logs
    exact hlogs

end Rounds

/-! ## Blocks -/

/-- One link of the chain of transaction hashes. -/
def rollHash (env : Env) (rolling hash : Bytes32) : Bytes32 :=
  env.keccak (beBytes 32 rolling.toNat ++ beBytes 32 hash.toNat)

/-- The accumulators say what they should about the transactions seen so far, and no limit is exceeded. -/
structure BlockRun.Accounts (env : Env) (block : BlockMetadata) (txs : List IncomingTx) (s : BlockRun) : Prop where
  length_eq : s.results.length = txs.length
  gasUsed : s.data.gasUsed = ((included txs s.results).map (·.2.gasUsed.toNat)).sum
  computationalNativeUsed :
    s.data.computationalNativeUsed = ((included txs s.results).map (·.2.computationalNativeUsed.toNat)).sum
  pubdataUsed : s.data.pubdataUsed = ((included txs s.results).map (·.2.pubdataUsed)).sum
  txRollingHash : s.data.txRollingHash = ((included txs s.results).map (·.1.hash env)).foldl (rollHash env) 0
  l1ToL2Txs : s.data.l1ToL2Txs.reverse = ((included txs s.results).filter (·.1.isPriorityOp)).map (·.1.hash env)
  firstTx : s.data.firstTx = (included txs s.results).isEmpty
  upgrade : ∀ x ∈ (included txs s.results).tail, x.1.isUpgrade = false
  limits : checkForBlockLimits block s.data s.io.logs.list.length = none

theorem included_append {txs : List IncomingTx} {results : List (Except InvalidTransaction TxProcessingResult)}
    (h : results.length = txs.length) (tx : IncomingTx) (x : Except InvalidTransaction TxProcessingResult) :
    included (txs ++ [tx]) (results ++ [x]) = included txs results ++ (x.toOption.map (tx, ·)).toList := by
  unfold included
  rw [List.zip_append h.symm, List.filterMap_append]
  cases x <;> rfl

namespace BlockRun.Accounts

variable {env : Env} {cfg : Config} {machine : Machine} {block : BlockMetadata} {txs : List IncomingTx} {s s' : BlockRun}
  {tx : IncomingTx} {io : Io}

theorem new (env : Env) (block : BlockMetadata) : Accounts env block [] .new where
  length_eq := rfl
  gasUsed := rfl
  computationalNativeUsed := rfl
  pubdataUsed := rfl
  txRollingHash := rfl
  l1ToL2Txs := rfl
  firstTx := rfl
  upgrade := List.forall_mem_nil _
  limits := by simp [checkForBlockLimits, BlockRun.new, BlockData.new, Io.new]

theorem rejected {e : InvalidTransaction} (hs : Accounts env block txs s)
    (h : runTx env cfg machine block s.data s.io tx = (.rejected e, io)) :
    Accounts env block (txs ++ [tx]) ⟨io, s.data, s.results ++ [.error e]⟩ := by
  have hinc : included (txs ++ [tx]) (s.results ++ [.error e]) = included txs s.results :=
    (included_append hs.length_eq tx _).trans (List.append_nil _)
  exact
    { length_eq := by simp [hs.length_eq]
      gasUsed := by rw [hinc]; exact hs.gasUsed
      computationalNativeUsed := by rw [hinc]; exact hs.computationalNativeUsed
      pubdataUsed := by rw [hinc]; exact hs.pubdataUsed
      txRollingHash := by rw [hinc]; exact hs.txRollingHash
      l1ToL2Txs := by rw [hinc]; exact hs.l1ToL2Txs
      firstTx := by rw [hinc]; exact hs.firstTx
      upgrade := by rw [hinc]; exact hs.upgrade
      limits := by rw [runTx_rejected_logs h]; exact hs.limits }

theorem included {r : TxProcessingResult} {b : BlockData} (hs : Accounts env block txs s)
    (h : runTx env cfg machine block s.data s.io tx = (.included r b, io)) :
    Accounts env block (txs ++ [tx]) ⟨io, b, s.results ++ [.ok r]⟩ := by
  obtain ⟨hr, hup, rfl, hlim⟩ := runTx_included_data h
  have hinc : Bootloader.included (txs ++ [tx]) (s.results ++ [.ok r]) =
      Bootloader.included txs s.results ++ [(tx, r)] := included_append hs.length_eq tx _
  refine { length_eq := by simp [hs.length_eq], gasUsed := ?_, computationalNativeUsed := ?_, pubdataUsed := ?_,
           txRollingHash := ?_, l1ToL2Txs := ?_, firstTx := ?_, upgrade := ?_, limits := hlim }
  all_goals simp only [hinc]
  · simp [BlockData.add, hs.gasUsed]
  · simp [BlockData.add, hs.computationalNativeUsed]
  · simp [BlockData.add, hs.pubdataUsed]
  · simp [BlockData.add, hs.txRollingHash, hr.txHash, rollHash]
  · simp only [BlockData.add, hr.isL1Tx, hr.txHash, List.filter_append, List.map_append, ← hs.l1ToL2Txs]
    cases htx : tx.isPriorityOp <;> simp [htx]
  · simp [BlockData.add]
  · rcases hi : Bootloader.included txs s.results with _ | ⟨y, ys⟩
    · exact List.forall_mem_nil _
    · -- something was included before, so this is not the first transaction
      have hfirst : s.data.firstTx = false := by rw [hs.firstTx, hi]; rfl
      intro x hx
      rcases List.mem_append.mp hx with hx | hx
      · exact hs.upgrade x (by rw [hi]; exact hx)
      · rw [List.mem_singleton.mp hx]
        exact Bool.not_eq_true _ ▸ fun htx => Bool.false_ne_true (hfirst.symm.trans (hup htx))

theorem runTxs {rest : List IncomingTx} (hs : Accounts env block txs s)
    (h : runTxs env cfg machine block s rest = some s') : Accounts env block (txs ++ rest) s' := by
  induction rest generalizing txs s with
  | nil =>
    cases h
    rw [List.append_nil]
    exact hs
  | cons tx rest ih =>
    rw [List.append_cons]
    rw [Bootloader.runTxs] at h
    rcases hx : runTx env cfg machine block s.data s.io tx with ⟨o, io⟩
    simp only [hx] at h
    cases o with
    | included r b => exact ih (hs.included hx) h
    | rejected e => exact ih (hs.rejected hx) h
    | aborted => cases h

end BlockRun.Accounts

theorem checkForBlockLimits_none {block : BlockMetadata} {b : BlockData} {logs : Nat}
    (h : checkForBlockLimits block b logs = none) :
    b.gasUsed ≤ block.gasLimit.toNat ∧ b.computationalNativeUsed ≤ maxNativeComputational.toNat ∧
      b.pubdataUsed ≤ block.pubdataLimit.toNat ∧ logs ≤ maxNumberOfLogs := by
  unfold checkForBlockLimits at h
  split_ifs at h with h₁ h₂ h₃ h₄
  exact ⟨Nat.le_of_not_lt h₁, Nat.le_of_not_lt h₂, Nat.le_of_not_lt h₃, Nat.le_of_not_lt h₄⟩

section Block

variable {env : Env} {cfg : Config} {machine : Machine} {block : BlockMetadata} {txs : List IncomingTx} {s : BlockRun}

theorem runTxs_append {s s' : BlockRun} {rest : List IncomingTx} (h : runTxs env cfg machine block s txs = some s') :
    runTxs env cfg machine block s (txs ++ rest) = runTxs env cfg machine block s' rest := by
  induction txs generalizing s with
  | nil =>
    cases h
    rfl
  | cons tx txs ih =>
    rw [runTxs] at h
    rw [List.cons_append, runTxs]
    rcases hx : runTx env cfg machine block s.data s.io tx with ⟨o, io⟩
    simp only [hx] at h ⊢
    cases o with
    | included r b => exact ih h
    | rejected e => exact ih h
    | aborted => cases h

/-- After any transactions: the sums of the included ones and the number of logs are within the limits of
the block, the rolling hash and the L1 hasher have the included hashes in order, an upgrade comes first,
and another transaction that is rejected changes none of this. -/
theorem block_accumulators (h : runTxs env cfg machine block .new txs = some s) :
    let done := included txs s.results
    s.results.length = txs.length ∧
    (s.data.gasUsed = (done.map (·.2.gasUsed.toNat)).sum ∧ s.data.gasUsed ≤ block.gasLimit.toNat) ∧
    (s.data.computationalNativeUsed = (done.map (·.2.computationalNativeUsed.toNat)).sum ∧
      s.data.computationalNativeUsed ≤ maxNativeComputational.toNat) ∧
    (s.data.pubdataUsed = (done.map (·.2.pubdataUsed)).sum ∧ s.data.pubdataUsed ≤ block.pubdataLimit.toNat) ∧
    s.io.logs.list.length ≤ maxNumberOfLogs ∧
    s.data.txRollingHash = (done.map (·.1.hash env)).foldl (rollHash env) 0 ∧
    s.data.l1ToL2Txs.reverse = (done.filter (·.1.isPriorityOp)).map (·.1.hash env) ∧
    (∀ x ∈ done.tail, x.1.isUpgrade = false) ∧
    ∀ tx e io, runTx env cfg machine block s.data s.io tx = (.rejected e, io) →
      runTxs env cfg machine block .new (txs ++ [tx]) = some ⟨io, s.data, s.results ++ [.error e]⟩ ∧
        io.logs.list = s.io.logs.list := by
  intro done
  have hs := BlockRun.Accounts.runTxs (BlockRun.Accounts.new env block) h
  obtain ⟨hgas, hnative, hpubdata, hlogs⟩ := checkForBlockLimits_none hs.limits
  refine ⟨hs.length_eq, ⟨hs.gasUsed, hgas⟩, ⟨hs.computationalNativeUsed, hnative⟩, ⟨hs.pubdataUsed, hpubdata⟩, hlogs,
    hs.txRollingHash, hs.l1ToL2Txs, hs.upgrade, fun tx e io hx => ⟨?_, runTx_rejected_logs hx⟩⟩
  rw [runTxs_append h, runTxs]
  simp only [hx]
  rfl

end Block

/-- A block with bytes that are not a transaction, and a deployment. -/
def shortBlock : Option BlockRun :=
  runTxs emptyChain ⟨true, false⟩ failingMachine freeBlock .new [.undecodable, .l2 deploymentTx]

set_option maxRecDepth 100000 in
theorem block_accumulators_shortBlock : ∃ s, shortBlock = some s ∧
    (included [.undecodable, .l2 deploymentTx] s.results).length = 1 ∧ s.data.gasUsed ≤ freeBlock.gasLimit.toNat ∧
    s.data.txRollingHash = rollHash emptyChain 0 (emptyChain.keccak deploymentTx.buffer) := by
  have hrun : shortBlock.any (fun s => (included [.undecodable, .l2 deploymentTx] s.results).map (·.1.hash emptyChain) ==
      [emptyChain.keccak deploymentTx.buffer]) = true := by decide +kernel
  obtain ⟨s, hs, hdone⟩ := (Option.any_eq_true _ _).mp hrun
  have hdone := eq_of_beq hdone
  obtain ⟨-, ⟨-, hgas⟩, -, -, -, hrolling, -⟩ := block_accumulators hs
  rw [hdone] at hrolling
  exact ⟨s, hs, by simpa using congrArg List.length hdone, hgas, hrolling⟩

end ZkOs.Bootloader
