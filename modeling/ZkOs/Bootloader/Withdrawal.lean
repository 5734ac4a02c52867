import ZkOs.Exec.Withdrawal
import ZkOs.Exec.Static
import ZkOs.Bootloader.Block

/-!
# A withdrawal happens as a whole or not at all

The frame of a call to `L2_BASE_TOKEN_ADDRESS` ends in a withdrawal, or it is undone. An error leaves
it open; it then ends the transaction, whose frame is undone, or the block.
-/

namespace ZkOs

open SysM FrameProgram

section Frames

variable {env : Env} {s s' : Sys}

theorem frame_restores {ε α : Type} {l : FrameLabel} {failed : Except ε α → Bool} {m : SysM ε α} {x : Except ε α}
    (h : (SysM.frame l failed m).run env s = (x, s')) (hx : failed x = true) : Io.Restores env s.io s'.io := by
  rw [run_frame] at h
  obtain ⟨hfst, hsnd⟩ := Prod.ext_iff.mp h
  simp only at hfst hsnd
  subst hsnd
  rw [hfst, hx]
  exact (Io.undo_loads (Io.run_extends _ _)).restores

theorem open_frame_restores {ε α : Type} {m : SysM ε α} {x : Except ε α} {io : Io} (h : m.run env s = (x, s'))
    (hio : Io.Extends env io.startFrame.2 s.io) :
    Io.Restores env io ((Io.handler env).undo io.startFrame.1 s'.io) := by
  have hext : Io.Extends env s.io s'.io := by
    have hrun := (Io.run_extends (m s.res) s.io : Io.Extends env _ _)
    rwa [show ((m s.res).run (Io.handler env) s.io).2 = s'.io from congrArg (fun x => x.2.io) h] at hrun
  exact (Io.undo_loads (hio.trans hext)).restores

end Frames

namespace Bootloader

variable {env : Env} {machine : Machine} {s s' : Sys} {e : Err}

theorem executeInFrame_error {tx : L2Transaction} {nonce : U64} {npp : U256} {v : ValidationResult}
    (h : (SysM.frame .transaction executionFailed (transactionExecution env machine tx nonce npp v)).run env s =
      (.error e, s')) :
    (e = .fatal ∧ Io.Restores env s.io s'.io) ∨
      ((executeInFrame env machine tx nonce npp v).run env s).1 = .error .internal := by
  by_cases he : e = .fatal
  · exact .inl ⟨he, frame_restores h (decide_eq_true he)⟩
  · right
    unfold executeInFrame
    rw [run_bind, Action.bind_apply, run_attempt, h]
    cases e <;> first | rfl | exact absurd rfl he

theorem executeL1InFrame_error {tx : L1Transaction} {npp : U256} {withheld : Resources}
    (h : (SysM.frame .transaction l1ExecutionFailed (executeL1Transaction machine tx npp withheld)).run env s =
      (.error e, s')) :
    (e = .fatal ∧ Io.Restores env s.io s'.io) ∨
      ((executeL1InFrame machine tx npp withheld).run env s).1 = .error .internal := by
  by_cases he : e = .fatal
  · exact .inl ⟨he, frame_restores h (decide_eq_true he)⟩
  · right
    unfold executeL1InFrame
    rw [run_bind, Action.bind_apply, run_attempt, h]
    cases e <;> first | rfl | exact absurd rfl he

end Bootloader

/-- A call to the base token hook, with its transfer and in its frame. If it succeeds, the call's value
went from the caller to the hook's address and was burned there, nothing else moved, and one message was
appended, with the hook's address as sender: the withdrawal that the input asks for. The encoding of such
a message is always accepted, and the burn is never refused. If the call fails, its frame is undone; what
an error leaves behind goes with the frame around it, in the end with that of the transaction. -/
theorem base_token_call_all_or_nothing (env : Env) (machine : Machine)
    (handleCall : ExternalCallRequest → SysM Err CallResult) (callerEe : ExecutionEnvironmentType)
    (p : LaunchParams) (q : ExternalCallRequest) (hq : q.callee = l2BaseTokenAddress)
    (hin : q.input.length ≤ maxHeapBufferSize) (s : Sys) :
    let call := SysM.frame (.call q.modifier q.caller q.callee) callFailed (frameBody machine handleCall callerEe p q)
    (∀ ret s', call.run env s = (.ok (.successful ret), s') → ret = [] ∧ ∃ mid payload,
      Io.Shifts env (Pi.single q.caller (-(q.nominalTokenValue.toNat : ℤ)) +
        Pi.single l2BaseTokenAddress (q.nominalTokenValue.toNat : ℤ)) s.io mid ∧
      mid.logs = s.io.logs ∧ mid.txNumber = s.io.txNumber ∧
      Announces q payload ∧ Withdraws env q.nominalTokenValue payload mid s'.io) ∧
    (∀ payload, Announces q payload → (abiEncodeBytes payload).length < 2 ^ 32 ∧
      parseMessage (abiEncodeBytes payload) = some payload) ∧
    (q.isDelegate = false → q.isCallcode = false → ∀ t,
      (performTransferIfRequired callerEe q).run env ⟨s.io.startFrame.2, s.res⟩ = (.ok true, t) → ∀ r e,
      ((IoOp.updateBalance .evm l2BaseTokenAddress q.nominalTokenValue true false).exec env ⟨t.io, r⟩).1 = .error e →
      e.isUsage = false) ∧
    (∀ result s', call.run env s = (.ok result, s') → result.isFailed = true → Io.Restores env s.io s'.io) ∧
    (∀ e s', call.run env s = (.error e, s') → ∀ io, Io.Extends env io.startFrame.2 s.io →
      Io.Restores env io ((Io.handler env).undo io.startFrame.1 s'.io)) ∧
    (∀ e tx nonce npp v s₀ s₁, (SysM.frame .transaction Bootloader.executionFailed
        (Bootloader.transactionExecution env machine tx nonce npp v)).run env s₀ = (.error e, s₁) →
      (e = .fatal ∧ Io.Restores env s₀.io s₁.io) ∨
        ((Bootloader.executeInFrame env machine tx nonce npp v).run env s₀).1 = .error .internal) ∧
    (∀ e tx npp withheld s₀ s₁, (SysM.frame .transaction Bootloader.l1ExecutionFailed
        (Bootloader.executeL1Transaction machine tx npp withheld)).run env s₀ = (.error e, s₁) →
      (e = .fatal ∧ Io.Restores env s₀.io s₁.io) ∨
        ((Bootloader.executeL1InFrame machine tx npp withheld).run env s₀).1 = .error .internal) := by
  intro call
  refine ⟨fun ret s' h => ?_, fun payload hann => ?_, fun hd hc t ht r e he => ?_, fun result s' h hf => ?_,
    fun e s' h io hio => open_frame_restores h hio, fun e tx nonce npp v s₀ s₁ h => Bootloader.executeInFrame_error h,
    fun e tx npp withheld s₀ s₁ h => Bootloader.executeL1InFrame_error h⟩
  · have hbody : (frameBody machine handleCall callerEe p q).run env ⟨s.io.startFrame.2, s.res⟩ =
        (.ok (.successful ret), s') := by
      rw [run_frame] at h
      obtain ⟨hfst, hsnd⟩ := Prod.ext_iff.mp h
      simp only at hfst hsnd
      rw [hfst] at hsnd
      exact Prod.ext hfst hsnd
    obtain ⟨hret, mid, payload, hshift, hrest⟩ := frameBody_baseToken hq hin hbody
    have hstart := (Io.SameValues.startFrame s.io : Io.SameValues env s.io s.io.startFrame.2).shifts.trans hshift
    rw [zero_add] at hstart
    exact ⟨hret, mid, payload, hstart, hrest⟩
  · have hlen := hann.length_lt hin
    exact ⟨hlen, parseMessage_abiEncodeBytes hlen⟩
  · obtain ⟨-, -, hfunds⟩ := performTransferIfRequired_ok hd hc ht
    rw [hq] at hfunds
    exact debit_orderly (s := ⟨t.io, r⟩) hfunds (Prod.ext he rfl)
  · exact frame_restores h hf

/-- `withdraw` to `0x1212…12` with a value of 7. -/
def withdrawCall : ExternalCallRequest where
  ergsToPass := gas 1000000
  callersCaller := 0
  caller := 0x1111
  callee := l2BaseTokenAddress
  modifier := .noModifier
  input := withdrawSelector ++ List.replicate 12 0 ++ List.replicate 20 0x12
  nominalTokenValue := 7

def withdrawParams : LaunchParams := ⟨.noEE, ⟨0, [], 0, 0, 0, 0, 0⟩, .empty⟩

def withdrawCallRun : Except Err CallResult × Sys :=
  (SysM.frame (.call .noModifier 0x1111 l2BaseTokenAddress) callFailed
    (frameBody ⟨fun _ => .exit .error, fun _ _ => (.empty, none)⟩ (fun _ => throw .defect) .evm withdrawParams
      withdrawCall)).run oneAccount ⟨Io.new.beginNextTx, ⟨gas 1000000, 100000000⟩⟩

set_option maxRecDepth 100000 in
theorem withdrawCall_all_or_nothing : ∃ s' mid payload, withdrawCallRun = (.ok (.successful []), s') ∧
    Announces withdrawCall payload ∧ Withdraws oneAccount 7 payload mid s'.io := by
  obtain ⟨result, s', hrun, hresult⟩ := Action.exists_ok_of_any (x := withdrawCallRun)
    (f := fun result _ => decide (result = .successful [])) (by decide +kernel)
  obtain rfl := of_decide_eq_true hresult
  obtain ⟨-, mid, payload, -, -, -, hann, hw⟩ := (base_token_call_all_or_nothing oneAccount
    ⟨fun _ => .exit .error, fun _ _ => (.empty, none)⟩ (fun _ => throw .defect) .evm withdrawParams withdrawCall rfl
    (by decide +kernel) ⟨Io.new.beginNextTx, ⟨gas 1000000, 100000000⟩⟩).1 _ _ hrun
  exact ⟨s', mid, payload, hrun, hann, hw⟩

end ZkOs
