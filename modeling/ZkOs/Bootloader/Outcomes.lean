import ZkOs.Bootloader.Limits
import ZkOs.State.Publication

/-!
# The logs of L1 transactions

The outcome of an L1 transaction is logged in the list that also has the messages of users, and that
every undone frame cuts back.

* `LogsStorage.outcomes` : the outcomes among the logs;
* `Scope.silent`, `silent_outcomes` : programs that may do anything but log an outcome, undone frames
  included;
* `processL1Transaction_outcomes` : an L1 transaction logs its own outcome, once, and nothing else;
* `runTxs_outcomes` : after a block the outcomes are those of the included L1 transactions, in order.
-/

namespace ZkOs

open SysM ZkOs.Action FrameProgram

/-! ## Outcomes among the logs -/

structure L1Outcome where
  txHash : Bytes32
  success : Bool
  isPriority : Bool
  deriving DecidableEq

def LogContent.outcome (c : LogContent) : Option L1Outcome :=
  match c.data with
  | .l1TxLog txHash success isPriority => some ⟨txHash, success, isPriority⟩
  | .userMsg .. => none

namespace LogsStorage

def outcomes (l : LogsStorage) : List L1Outcome := l.contents.filterMap LogContent.outcome

theorem outcomes_push (l : LogsStorage) (c : LogContent) (n : Nat) :
    (l.push c n).outcomes = l.outcomes ++ c.outcome.toList := by
  unfold outcomes contents push
  rw [List.reverse_cons, List.map_append, List.filterMap_append]
  rcases h : c.outcome with _ | o <;> simp [h]

theorem outcomes_congr {l l' : LogsStorage} (h : l'.list = l.list) : l'.outcomes = l.outcomes := by
  unfold outcomes contents
  rw [h]

end LogsStorage

namespace Io

variable {env : Env} {sc : Scope} {io io' : Io}

theorem Step.outcomes (hsc : ¬sc.outcomes) (h : Step env sc io io') : io'.logs.outcomes = io.logs.outcomes := by
  cases h with
  | log c hc he ho =>
    have hnone : c.outcome = none := by
      unfold LogContent.outcome
      rcases hd : c.data with ⟨a, d, dh⟩ | ⟨tx, s, p⟩
      · rfl
      · exact absurd (ho tx s p hd) hsc
    rw [LogsStorage.outcomes_push, hnone]
    exact List.append_nil _
  | _ => rfl

theorem Steps.outcomes (hsc : ¬sc.outcomes) (h : Steps env sc io io') : io'.logs.outcomes = io.logs.outcomes := by
  induction h with
  | refl => rfl
  | tail _ hstep ih => exact (hstep.outcomes hsc).trans ih

end Io

/-- Anything but the outcomes of L1 transactions. -/
def Scope.silent : Scope := ⟨fun _ => True, fun _ => True, True, True, True, fun _ => True, True, True, True, True, False⟩

theorem Scope.silent_hasCalls : Scope.silent.HasCalls :=
  ⟨⟨⟨⟨trivial, trivial⟩, fun _ => trivial⟩, fun _ _ _ => trivial, fun _ _ => trivial, trivial, trivial, trivial⟩, trivial⟩

theorem silent_outcomes {env : Env} {ε α : Type} {m : SysM ε α} {Q : α → Prop} (h : Within Scope.silent m Q) (s : Sys) :
    (m.run env s).2.io.logs.outcomes = s.io.logs.outcomes := by
  have hrel := Prog.Visits.rel (h := Io.handler env)
    (R := fun io io' => Io.Extends env io io' ∧ io'.logs.outcomes = io.logs.outcomes)
    (fun io => ⟨.refl io, rfl⟩) (fun _ _ _ h h' => ⟨h.1.trans h'.1, h'.2.trans h.2⟩)
    (fun q io hq => ?_) (fun io => ⟨.startFrame io, rfl⟩) (fun io io' h => ?_)
    (h.asks s.res) (Prog.visits_run (m s.res) s.io)
  · exact hrel.2
  · have hsteps := Io.handler_steps env q io
    exact ⟨.of_steps hsteps, (hsteps.mono hq).outcomes id⟩
  · have hloads := Io.undo_loads h.1
    exact ⟨hloads.toExtends, congrArg LogsStorage.outcomes hloads.logs⟩

theorem silent_outcomes_of_run {env : Env} {ε α : Type} {m : SysM ε α} {s s' : Sys} {x : Except ε α}
    (h : Within Scope.silent m fun _ => True) (hrun : m.run env s = (x, s')) : s'.io.logs.outcomes = s.io.logs.outcomes := by
  rw [← silent_outcomes h s, hrun]

namespace Bootloader

/-! ## Transactions -/

/-- The outcome of an included transaction, if it came from L1. -/
def outcomeOf (env : Env) : IncomingTx × TxProcessingResult → Option L1Outcome
  | (.l1 tx, r) => some ⟨(IncomingTx.l1 tx).hash env, !r.result.isRevert, tx.isPriorityOp⟩
  | _ => none

section Transactions

variable {env : Env} {cfg : Config} {machine : Machine} {block : BlockMetadata} {s s' : Sys} {r : TxProcessingResult}

theorem l1PayAndLog_outcomes {tx : L1Transaction} {txHash : Bytes32} {result : ExecutionResult} {gasUsed : U64}
    (h : (l1PayAndLog block tx txHash result gasUsed).run env s = (.ok (), s')) :
    s'.io.logs.outcomes = s.io.logs.outcomes ++ [⟨txHash, !result.isRevert, tx.isPriorityOp⟩] := by
  obtain ⟨operator, s₁, h₁, hrest⟩ := bind_run_ok h
  obtain ⟨_, s₂, h₂, hlog⟩ := bind_run_ok hrest
  have hpaid : s₂.io.logs.outcomes = s₁.io.logs.outcomes := by
    refine silent_outcomes_of_run (.paidFrom _ (.bind (.mapError _ (mintToken_within trivial trivial _)) fun _ _ =>
      .bind (orInternal_within _) fun _ _ => .ite (fun _ => ?_) fun _ => .pure _ trivial)) h₂
    exact .bind (.require _ _) fun _ _ => .mapError _ (mintToken_within trivial trivial _)
  have hlast : s'.io.logs = s₂.io.logs.push ⟨s₂.io.txNumber, .l1TxLog txHash (!result.isRevert) tx.isPriorityOp⟩ 88 := by
    obtain ⟨-, rfl⟩ := Prod.mk.inj (mapError_ok.mp hlog)
    rfl
  rw [hlast, LogsStorage.outcomes_push, hpaid, silent_outcomes_of_run (orInternal_within _) h₁]
  rfl

theorem processL1Transaction_outcomes {tx : L1Transaction}
    (h : (processL1Transaction env machine block tx).run env s = (.ok r, s')) :
    s'.io.logs.outcomes = s.io.logs.outcomes ++ (outcomeOf env (.l1 tx, r)).toList := by
  have hsc := Scope.silent_hasCalls
  unfold processL1Transaction at h
  obtain ⟨prices, s₁, h₁, hrest⟩ := bind_run_ok h
  rcases hres : getResourcesForTx tx.gasLimit prices.2 prices.1 tx.calldata 21000 (BitVec.ofNat 64 l1TxIntrinsicPubdata)
      130000 true with e | rs
  · simp only [hres] at hrest
    cases hrest
  simp only [hres] at hrest
  obtain ⟨_, s₂, h₂, hrest⟩ := bind_run_ok hrest
  obtain ⟨cost, s₃, h₃, hrest⟩ := bind_run_ok hrest
  obtain ⟨needed, s₄, h₄, hrest⟩ := bind_run_ok hrest
  obtain ⟨_, s₅, h₅, hrest⟩ := bind_run_ok hrest
  obtain ⟨hashed, s₆, h₆, hrest⟩ := bind_run_ok hrest
  obtain ⟨x, s₇, h₇, hrest⟩ := bind_run_ok hrest
  obtain ⟨charge, s₈, h₈, hrest⟩ := bind_run_ok hrest
  obtain ⟨info, s₉, h₉, hrest⟩ := bind_run_ok hrest
  obtain ⟨_, t, hpay, hend⟩ := bind_run_ok hrest
  cases hend
  have hexec : s₇.io.logs.outcomes = s₆.io.logs.outcomes := by
    rcases hashed with e | _
    · exact silent_outcomes_of_run (.bind .exhaustErgs fun _ _ => .pure _ trivial) h₇
    · exact silent_outcomes_of_run (executeL1InFrame_within hsc trivial _ _) h₇
  have hbefore : s₉.io.logs.outcomes = s.io.logs.outcomes := by
    rw [silent_outcomes_of_run (.mapError _ (computeGasRefund_within trivial _ _ _)) h₉,
      silent_outcomes_of_run (.mapError _ (pubdataCharge_within _ _ _)) h₈, hexec,
      silent_outcomes_of_run (Within.attempt (.pay _)).any h₆, silent_outcomes_of_run (Within.require _ _).any h₅,
      silent_outcomes_of_run (orInternal_within _) h₄, silent_outcomes_of_run (orInternal_within _) h₃,
      silent_outcomes_of_run (setResources_within trivial _) h₂, silent_outcomes_of_run (orInternal_within _) h₁]
  show t.io.logs.outcomes = _
  rw [l1PayAndLog_outcomes hpay, hbefore]
  rfl

theorem processTransaction_outcomes {isFirstTx : Bool} {tx : IncomingTx}
    (h : (processTransaction env cfg machine block isFirstTx tx).run env s = (.ok r, s')) :
    s'.io.logs.outcomes = s.io.logs.outcomes ++ (outcomeOf env (tx, r)).toList := by
  cases tx with
  | unreadable => cases h
  | undecodable => cases h
  | l2 tx =>
    have hkept := silent_outcomes_of_run (processL2Transaction_within Scope.silent_hasCalls trivial trivial trivial) h
    rw [hkept]
    exact (List.append_nil _).symm
  | l1 tx =>
    simp only [processTransaction] at h
    split at h
    · cases h
    · exact processL1Transaction_outcomes h

end Transactions

/-! ## Blocks -/

section Blocks

variable {env : Env} {cfg : Config} {machine : Machine} {block : BlockMetadata} {b b' : BlockData} {io io' : Io}
  {tx : IncomingTx} {r : TxProcessingResult}

theorem runTx_included_outcomes (h : runTx env cfg machine block b io tx = (.included r b', io')) :
    io'.logs.outcomes = io.logs.outcomes ++ (outcomeOf env (tx, r)).toList := by
  obtain ⟨s, hs, rfl⟩ := runTx_included h
  obtain ⟨heated, s₁, h₁, hrest⟩ := bind_run_ok hs
  have hheat : s₁.io.logs.outcomes = io.logs.outcomes :=
    silent_outcomes_of_run (Within.attempt (.paidFrom _ (.readAccount _ trivial _ _))).any h₁
  rcases heated with e | x
  · cases hrest
  · rw [run_frame] at hrest
    obtain ⟨hx, rfl⟩ := Prod.mk.inj hrest
    obtain ⟨hproc, -, -⟩ := txBody_included (Prod.ext hx rfl)
    rw [hx]
    exact (processTransaction_outcomes hproc).trans (congrArg (· ++ _) hheat)

/-- The outcomes among the logs after a block: those of the included L1 transactions. By induction on the
transactions that are left. -/
theorem runTxs_outcomes {s s' : BlockRun} {txs rest : List IncomingTx} (hlen : s.results.length = txs.length)
    (hs : s.io.logs.outcomes = (included txs s.results).filterMap (outcomeOf env))
    (h : runTxs env cfg machine block s rest = some s') :
    s'.io.logs.outcomes = (included (txs ++ rest) s'.results).filterMap (outcomeOf env) := by
  induction rest generalizing txs s with
  | nil =>
    cases h
    rw [List.append_nil]
    exact hs
  | cons tx rest ih =>
    rw [List.append_cons]
    rw [runTxs] at h
    rcases hx : runTx env cfg machine block s.data s.io tx with ⟨o, io⟩
    simp only [hx] at h
    cases o with
    | included r b =>
      refine ih (by simp [hlen]) ?_ h
      rw [included_append hlen, List.filterMap_append, ← hs]
      show io.logs.outcomes = _
      rw [runTx_included_outcomes hx]
      rcases ho : outcomeOf env (tx, r) with _ | o <;> simp [ho, Except.toOption]
    | rejected e =>
      refine ih (by simp [hlen]) ?_ h
      rw [included_append hlen, List.filterMap_append, ← hs]
      show io.logs.outcomes = _
      rw [LogsStorage.outcomes_congr (runTx_rejected_logs hx)]
      exact (List.append_nil _).symm
    | aborted => cases h

end Blocks

end Bootloader

end ZkOs
