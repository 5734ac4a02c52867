import ZkOs.Exec.Within
import ZkOs.State.Balances

/-!
# Static calls

The static flag of a frame is passed on as one of three modifiers, and every opcode and every hook that
changes the state looks at it. One operation is performed in spite of it: `CALLCODE` with a value transfers
the value from the caller to the caller.

* `Silent` : programs that change no value when they end well, with one rule per way of composing programs;
* `handleRequestedExternalCall_silent` : static calls, with everything they call, are such programs;
* `static_call_changes_nothing` : what this says about a run.
-/

namespace ZkOs

open SysM ZkOs.Action FrameProgram

/-! ## Programs that change nothing -/

/-- No run changes more than one balance, and runs that end with a good value change no value at all. -/
def Silent {ε α : Type} (env : Env) (m : SysM ε α) (G : α → Prop) : Prop :=
  ∀ s, Io.Quiet env s.io (m.run env s).2.io ∧
    ∀ a, (m.run env s).1 = .ok a → G a → Io.SameValues env s.io (m.run env s).2.io

theorem SysM.Within.sameValues {ε α : Type} {env : Env} {m : SysM ε α} {Q : α → Prop} (h : Within .reading m Q)
    (s : Sys) : Io.SameValues env s.io (m.run env s).2.io := by
  -- undoing a frame also needs that nothing older than the frame was lost
  refine (Prog.Visits.rel (R := fun io io' => Io.Extends env io io' ∧ Io.SameValues env io io')
    (fun io => ⟨.refl io, .refl io⟩) (fun _ _ _ h h' => ⟨h.1.trans h'.1, h.2.trans h'.2⟩) (fun q io hq => ?_)
    (fun io => ⟨.startFrame io, .startFrame io⟩) (fun io io' h => ?_) (h.asks s.res)
    (Prog.visits_run (m s.res) s.io)).2
  · have hsteps := (Io.handler_steps env q io).mono hq
    exact ⟨.of_steps hsteps, hsteps.sameValues⟩
  · have hloads := Io.undo_loads h.1
    exact ⟨hloads.toExtends, hloads.sameValues⟩

namespace Silent

variable {ε ε' α β : Type} {env : Env} {m : SysM ε α} {G : α → Prop}

theorem of_within {Q : α → Prop} (h : Within .reading m Q) : Silent env m G :=
  fun s => ⟨.inl (h.sameValues s), fun _ _ _ => h.sameValues s⟩

theorem pure (a : α) : Silent env (Pure.pure a : SysM ε α) G := of_within (.pure (Q := fun _ => True) a trivial)

theorem throw (e : ε) : Silent env (SysM.throw e : SysM ε α) G := of_within (.throw (Q := fun _ => True) e)

theorem mono {G' : α → Prop} (h : ∀ a, G' a → G a) (hm : Silent env m G) : Silent env m G' :=
  fun s => ⟨(hm s).1, fun a ha hg => (hm s).2 a ha (h a hg)⟩

theorem bind {G' : β → Prop} {f : α → SysM ε β} (hm : Silent env m G) (hf : ∀ a, G a → Silent env (f a) G')
    (hbad : ∀ a, ¬G a → Within .reading (f a) fun b => ¬G' b) : Silent env (m >>= f) G' := by
  intro s
  obtain ⟨hquiet, hsame⟩ := hm s
  rw [run_bind, bind_apply]
  rcases hs : m.run env s with ⟨e | a, s'⟩ <;> rw [hs] at hquiet hsame
  · exact ⟨hquiet, nofun⟩
  · by_cases ha : G a
    · have h := hsame a rfl ha
      exact ⟨(hf a ha s').1.after_sameValues h, fun b hb hgood => h.trans ((hf a ha s').2 b hb hgood)⟩
    · refine ⟨hquiet.then_sameValues ((hbad a ha).sameValues s'), fun b hb hgood => ?_⟩
      exact absurd hgood ((hbad a ha).result (Prod.ext hb rfl))

theorem bind_within {Q : α → Prop} {G' : β → Prop} {f : α → SysM ε β} (hm : Within .reading m Q)
    (hf : ∀ a, Q a → Silent env (f a) G') : Silent env (m >>= f) G' := by
  intro s
  have h : Io.SameValues env s.io (m.run env s).2.io := hm.sameValues s
  rw [run_bind, bind_apply]
  rcases hs : m.run env s with ⟨e | a, s'⟩ <;> rw [hs] at h
  · exact ⟨.inl h, nofun⟩
  · have ha := hf a (hm.result hs) s'
    exact ⟨ha.1.after_sameValues h, fun b hb hgood => h.trans (ha.2 b hb hgood)⟩

theorem attempt (hm : Silent env m G) :
    Silent env (SysM.attempt m : SysM ε' (Except ε α)) fun x => ∃ a, x = .ok a ∧ G a := by
  intro s
  rw [run_attempt]
  refine ⟨(hm s).1, ?_⟩
  rintro _ ⟨⟩ ⟨a, ha, hgood⟩
  exact (hm s).2 a ha hgood

theorem infiniteErgs (hm : Silent env m G) : Silent env (SysM.infiniteErgs m) G := by
  intro s
  rw [run_infiniteErgs]
  exact hm ⟨s.io, { s.res with ergs := BitVec.allOnes 64 }⟩

theorem ite {c : Prop} [Decidable c] {m' : SysM ε α} (hm : c → Silent env m G) (hm' : ¬c → Silent env m' G) :
    Silent env (if c then m else m') G := by
  split
  · exact hm ‹_›
  · exact hm' ‹_›

theorem selfTransfer (ee : ExecutionEnvironmentType) (a : B160) (v : U256) :
    Silent env (perform (.transfer ee a a v)) fun _ => True :=
  fun _ => ⟨selfTransfer_quiet rfl, fun _ hx _ => selfTransfer_ok (Prod.ext hx rfl)⟩

theorem frame {l : FrameLabel} {failed : Except ε α → Bool} (hm : Silent env m fun a => failed (.ok a) = false) :
    Silent env (SysM.frame l failed m) fun _ => True := by
  intro s
  obtain ⟨hquiet, hsame⟩ := hm ⟨s.io.startFrame.2, s.res⟩
  have hstart := (Io.SameValues.startFrame s.io : Io.SameValues env s.io s.io.startFrame.2)
  have hundo : Io.SameValues env s.io
      ((Io.handler env).undo s.io.startFrame.1 (m.run env ⟨s.io.startFrame.2, s.res⟩).2.io) :=
    (Io.undo_loads (Io.run_extends _ _)).sameValues
  rw [run_frame]
  simp only
  split
  · exact ⟨.inl hundo, fun _ _ _ => hundo⟩
  · rename_i hkept
    refine ⟨hquiet.after_sameValues hstart, fun a ha _ => hstart.trans (hsame a ha ?_)⟩
    rw [ha] at hkept
    exact Bool.eq_false_iff.mpr hkept

end Silent

/-! ## Static frames -/

/-- The modifiers that start a static frame. -/
def ExternalCallRequest.isStatic (q : ExternalCallRequest) : Prop :=
  q.modifier = .static ∨ q.modifier = .delegateStatic ∨ q.modifier = .evmCallcodeStatic

theorem ExternalCallRequest.isStatic.not_constructor {q : ExternalCallRequest} (h : q.isStatic) :
    q.modifier ≠ .constructor := by
  intro hc
  rcases h with h | h | h <;> rw [hc] at h <;> cases h

section Parts

variable {env : Env} {machine : Machine} {q : ExternalCallRequest} {ctx : FrameContext}

theorem EeOp.perform_reading {o : EeOp} (ho : o.changesState = false) :
    Within .reading (o.perform ctx) fun _ => True := by
  cases o with
  | sload k => exact .bind (.reading _ rfl (List.forall_mem_nil _)) fun _ _ => .pure _ trivial
  | tload k => exact .bind (.reading _ rfl (List.forall_mem_nil _)) fun _ _ => .pure _ trivial
  | account a b => exact .bind (.readAccount _ trivial _ _) fun _ _ => .pure _ trivial
  | selfBalance => exact .bind (.reading _ rfl (List.forall_mem_nil _)) fun _ _ => .pure _ trivial
  | readNonce => exact .bind (.infiniteErgs (.readAccount _ trivial _ _)) fun _ _ => .pure _ trivial
  | sstore | tstore | log | selfDestruct => cases ho

theorem EeCall.request_isStatic (hctx : ctx.isStatic = true) {r : Resources} {c : EeCall}
    (h : c.request ctx r = some q) : q.isStatic := by
  cases c with
  | call scheme gasToPass destination value input =>
    simp only [EeCall.request] at h
    split at h <;> cases h
    cases scheme <;> simp [ExternalCallRequest.isStatic, EeCall.modifier, hctx]
  | create address value input => simp [EeCall.request, hctx] at h

/-- A transfer in a static frame is one of `CALLCODE`, from the caller to itself. -/
theorem performTransferIfRequired_silent (hq : q.isStatic) (callerEe : ExecutionEnvironmentType) :
    Silent env (performTransferIfRequired callerEe q) (· = true) := by
  refine .ite (fun _ => .pure _) fun _ => .ite (fun _ => .throw _) fun hallowed => ?_
  have hcallcode : q.isCallcode = true := by
    rcases hq with h | h | h <;>
      simp [ExternalCallRequest.isTransferAllowed, ExternalCallRequest.isCallcode, h] at hallowed ⊢
  rw [hcallcode]
  refine .bind (.attempt (.infiniteErgs (.selfTransfer _ _ _))) (fun r _ => ?_) fun r hr => ?_
  · rcases r with e | _
    · cases e <;> first | exact .throw _ | (cases callerEe <;> first | exact .throw _ | exact .pure _)
    · exact .pure _
  · rcases r with e | a
    · cases e <;> first | exact .throw _ | (cases callerEe <;> first | exact .throw _ | exact .pure _ Bool.false_ne_true)
    · exact absurd ⟨a, rfl, trivial⟩ hr

theorem hookResult_reading {payable : Bool} {inner : SysM Err (Option (List UInt8))}
    (h : q.modifier = .static → Within .reading inner fun _ => True) (hq : q.isStatic) :
    Within .reading (hookResult q payable inner) fun _ => True := by
  refine .ite (fun _ => .pure _ trivial) fun hmod => ?_
  have hstatic : q.modifier = .static := by
    rcases hq with hq | hq | hq
    · exact hq
    · simp [ExternalCallRequest.isDelegate, hq] at hmod
    · simp [ExternalCallRequest.isCallcode, hq] at hmod
  refine .bind (.attempt (h hstatic)) fun r _ => ?_
  rcases r with e | _ | _
  · cases e <;> first | exact .pure _ trivial | exact .throw _
  · exact .pure _ trivial
  · exact .pure _ trivial

theorem hookFor_reading (hq : q.isStatic) {hook : SysM Err CallResult} (h : hookFor machine q = some hook) :
    Within .reading hook fun _ => True := by
  simp only [hookFor] at h
  split at h
  · cases h
    refine hookResult_reading (fun hs => .bind (.pay _) fun _ _ => .ite (fun _ => .pure _ trivial) fun hc => ?_) hq
    simp [hs] at hc
  · split at h
    · cases h
      refine hookResult_reading (fun hs => .bind (.pay _) fun _ _ => .ite (fun hc => ?_) fun _ => .pure _ trivial) hq
      simp [hs] at hc
    · split at h
      · cases h
        refine hookResult_reading (fun hs => .bind (.pay _) fun _ _ => .bind (.require _ _) fun _ _ =>
          .ite (fun _ => .pure _ trivial) fun hc => ?_) hq
        simp [hs] at hc
      · split at h
        · cases h
          exact precompileHook_within machine _
        · cases h

end Parts

/-! ## Call trees -/

section Calls

variable {env : Env} {machine : Machine} {q : ExternalCallRequest}
  {handleCall : ExternalCallRequest → SysM Err CallResult}

theorem runOpcodes_silent {ctx : FrameContext} (hctx : ctx.isStatic = true)
    (hcall : ∀ q, q.isStatic → Silent env (handleCall q) fun _ => True) (p : EeProg) :
    Silent env (runOpcodes handleCall ctx p) fun _ => True := by
  induction p with
  | exit e => exact .pure _
  | charge c k ih =>
    rw [runOpcodes]
    refine .bind_within (.attempt (.pay _)) fun r _ => ?_
    rcases r with e | _
    · cases e <;> first | exact .pure _ | exact .throw _
    · exact .bind_within .resources fun _ _ => ih _
  | op o k ih =>
    rw [runOpcodes]
    refine .ite (fun _ => .pure _) fun ho => ?_
    have hreads : o.changesState = false := Bool.eq_false_iff.mpr fun h => ho ⟨hctx, h⟩
    refine .bind_within (.attempt (o.perform_reading hreads)) fun r _ => ?_
    rcases r with e | x
    · cases e <;> first | exact .pure _ | exact .throw _
    · exact .bind_within .resources fun _ _ => ih _ _
  | call c k ih =>
    rw [runOpcodes]
    refine .bind_within .resources fun r _ => ?_
    rcases hreq : c.request ctx r with _ | request
    · exact .pure _
    · refine .bind (hcall request (c.request_isStatic hctx hreq)) (fun result _ => ?_) fun _ h => absurd trivial h
      cases result with
      | preparationStepFailed => exact .pure _
      | failed d => exact .bind_within .resources fun _ _ => ih _ _
      | successful d => exact .bind_within .resources fun _ _ => ih _ _

theorem calleeFrame_silent (hq : q.isStatic) (hcall : ∀ q, q.isStatic → Silent env (handleCall q) fun _ => True)
    (p : LaunchParams) : Silent env (calleeFrame machine handleCall p q) fun _ => True := by
  unfold calleeFrame
  split
  · exact .ite (fun _ => .throw _) fun _ => .pure _
  · refine .bind_within (startExecutingFrame_within (fun hc => absurd hc hq.not_constructor) trivial) fun ctx hctx => ?_
    have hstatic : ctx.isStatic = true := by
      rw [hctx.isStatic]
      exact decide_eq_true hq
    refine .bind (runOpcodes_silent hstatic hcall _) (fun e _ => ?_) fun _ h => absurd trivial h
    refine .of_within (endFrame_within (fun hc => ?_) trivial e)
    rw [hctx.isConstructor] at hc
    exact absurd (of_decide_eq_true hc) hq.not_constructor

theorem executeCall_silent (hq : q.isStatic) (hcall : ∀ q, q.isStatic → Silent env (handleCall q) fun _ => True)
    (depth : Nat) (callerEe : ExecutionEnvironmentType) (p : LaunchParams) :
    Silent env (executeCall machine handleCall depth callerEe p q) fun _ => True := by
  refine .bind_within (beforeExecutingFrame_within (fun hc => absurd hc hq.not_constructor) trivial depth) fun _ _ =>
    .ite (fun _ => .pure _) fun _ => .frame ?_
  refine .bind (performTransferIfRequired_silent hq callerEe) (fun ok _ => .ite (fun _ => .pure _) fun _ => ?_)
    fun ok hok => ?_
  · rcases hhook : hookFor machine q with _ | hook
    · exact (calleeFrame_silent hq hcall p).mono fun _ _ => trivial
    · exact .ite (fun _ => .pure _) fun _ => .of_within (hookFor_reading hq hhook)
  · rw [Bool.eq_false_iff.mpr hok]
    exact .pure _ Bool.true_eq_false.mp

theorem handleRequestedExternalCall_silent (fuel depth : Nat) (isEntryFrame : Bool)
    (callerEe : ExecutionEnvironmentType) (hq : q.isStatic) :
    Silent env (handleRequestedExternalCall machine fuel depth isEntryFrame callerEe q) fun _ => True := by
  induction fuel generalizing depth isEntryFrame callerEe q with
  | zero => exact .throw _
  | succ fuel ih =>
    refine .bind_within (readCalleeAndPrepareFrameState_within (fun _ => trivial) trivial trivial isEntryFrame callerEe)
      fun r hr => ?_
    rcases r with _ | p
    · exact .pure _
    · refine .bind (executeCall_silent hq (fun _ hq' => ih _ _ _ hq') depth callerEe p) (fun result _ => ?_)
        fun _ h => absurd trivial h
      refine .bind_within .resources fun _ _ => .bind_within (.require _ _) fun _ _ =>
        .bind_within (.modifyResources (.inr fun r => ⟨?_, .inl trivial⟩)) fun _ _ => .pure _
      rw [Resources.reclaim_native (hr p rfl)]
      exact BitVec.le_refl _

end Calls

def oneAccount : Env where
  slot _ address key := if (address, key) = accountSlot 0x1111 then (1, false) else (0, true)
  preimage _ _ := AccountProperties.encoding { AccountProperties.trivial with balance := 10 }
  blake _ := 1
  keccak _ := 0
  ecrecover _ _ _ _ := none
  proofEnv := true

/-- `CALLCODE` with a value in a static frame. -/
def staticCallcode : ExternalCallRequest where
  ergsToPass := gas 100000
  callersCaller := 0x3333
  caller := 0x1111
  callee := 0x2222
  modifier := .evmCallcodeStatic
  input := []
  nominalTokenValue := 7

def staticCallcodeRun : Except Err CallResult × Sys :=
  (handleRequestedExternalCall ⟨fun _ => .exit .error, fun _ _ => (.empty, none)⟩ maxCallDepth 1 false .evm
    staticCallcode).run oneAccount ⟨Io.new.beginNextTx, ⟨gas 1000000, 100000000⟩⟩

end ZkOs
