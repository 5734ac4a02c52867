import ZkOs.Exec.Within

/-!
# The events that a call leaves behind

A failed call is undone with everything it did, so the events that are kept have properties that single
operations do not have: a kept transfer succeeded, a kept deployment belongs to a constructor.

* `SysM.kept` : the events of a run that were not undone;
* `SysM.Keeps` : a property of the kept events of every run that ends well, with one rule per way of
  composing programs;
* `TraceLaw` : properties of lists of events that calls establish;
* `handleRequestedExternalCall_keeps` : they do, for every call tree.
-/

namespace ZkOs

open ZkOs.Action FrameProgram

abbrev IoEvent := FrameProgram.Event IoQuery FrameLabel Io

/-! ## Kept events of programs with resources -/

namespace SysM

variable {ε ε' α β : Type}

/-- The events of a run in the frame `l` that were not undone. -/
def kept (env : Env) (l : Option FrameLabel) (m : SysM ε α) (s : Sys) : List IoEvent :=
  (m s.res).kept (Io.handler env) l s.io

section Kept

variable {env : Env} {l : Option FrameLabel} {m : SysM ε α} {f : α → SysM ε β} {s s' : Sys}

theorem kept_bind_ok {a : α} (h : m.run env s = (.ok a, s')) :
    (m >>= f).kept env l s = m.kept env l s ++ (f a).kept env l s' := by
  show (m.bind f s.res).kept (Io.handler env) l s.io = _
  simp only [SysM.bind, Prog.kept_bind]
  simp only [run, Prod.mk.injEq] at h
  obtain ⟨h₁, rfl⟩ := h
  simp only [h₁]
  rfl

theorem kept_attempt : (attempt m : SysM ε' (Except ε α)).kept env l s = m.kept env l s := by
  simp only [kept, attempt, Prog.kept_bind]
  exact List.append_nil _

theorem kept_mapError {g : ε → ε'} : (mapError g m).kept env l s = m.kept env l s := by
  simp only [kept, mapError, Prog.kept_bind]
  exact List.append_nil _

theorem kept_onClone : (onClone m).kept env l s = m.kept env l s := by
  simp only [kept, onClone, Prog.kept_bind]
  exact List.append_nil _

theorem kept_infiniteErgs :
    (infiniteErgs m).kept env l s = m.kept env l ⟨s.io, { s.res with ergs := BitVec.allOnes 64 }⟩ := by
  simp only [kept, infiniteErgs, Prog.kept_bind]
  exact List.append_nil _

theorem kept_paidFrom {r : Resources} : (paidFrom r m).kept env l s = m.kept env l ⟨s.io, r⟩ := by
  simp only [kept, paidFrom, Prog.kept_bind]
  exact List.append_nil _

theorem kept_frame {l' : FrameLabel} {failed : Except ε α → Bool} : (frame l' failed m).kept env l s =
    if failed (m.run env ⟨s.io.startFrame.2, s.res⟩).1 then []
    else .enter l' :: m.kept env (some l') ⟨s.io.startFrame.2, s.res⟩ := List.append_nil _

end Kept

/-- The kept events of runs that end with a good value satisfy `T`. -/
def Keeps (env : Env) (T : List IoEvent → Prop) (l : Option FrameLabel) (m : SysM ε α) (G : α → Prop) : Prop :=
  ∀ s a s', m.run env s = (.ok a, s') → G a → T (m.kept env l s)

/-- `T` holds of lists that are composed of such lists, and of frames. -/
structure Composes (T : List IoEvent → Prop) : Prop where
  nil : T []
  append : ∀ {es es'}, T es → T es' → T (es ++ es')
  enter : ∀ l, T [.enter l]

theorem Composes.of_forall {T : List IoEvent → Prop} (h : Composes T) {es : List IoEvent}
    (hop : ∀ l u q, .op l u q ∈ es → T [.op l u q]) : T es := by
  induction es with
  | nil => exact h.nil
  | cons e es ih =>
    have he : T [e] := by
      cases e with
      | op l u q => exact hop l u q List.mem_cons_self
      | enter l => exact h.enter l
    exact h.append he (ih fun l u q hq => hop l u q (List.mem_cons_of_mem _ hq))

namespace Keeps

variable {env : Env} {T : List IoEvent → Prop} {l : Option FrameLabel} {m : SysM ε α} {G : α → Prop}

theorem pure (hT : Composes T) (a : α) : Keeps env T l (Pure.pure a : SysM ε α) G := fun _ _ _ _ _ => hT.nil

theorem mono {G' : α → Prop} (h : ∀ a, G' a → G a) (hm : Keeps env T l m G) : Keeps env T l m G' :=
  fun s a s' hr ha => hm s a s' hr (h a ha)

theorem throw (e : ε) : Keeps env T l (SysM.throw e : SysM ε α) G := by
  intro s a s' h
  cases h

variable {G' : β → Prop} {f : α → SysM ε β} {sc : Scope} {Q : α → Prop} {l' : FrameLabel} {failed : Except ε α → Bool}

theorem bind (hT : Composes T) (hm : Keeps env T l m G) (hf : ∀ a, G a → Keeps env T l (f a) G')
    (hbad : ∀ a, ¬G a → ∃ sc, Within sc (f a) fun b => ¬G' b) :
    Keeps env T l (m >>= f) G' := by
  intro s b s'' h hb
  rw [run_bind] at h
  obtain ⟨a, s', h₁, h₂⟩ := bind_ok.mp h
  have ha : G a := by
    by_contra ha
    obtain ⟨sc, hw⟩ := hbad a ha
    exact hw.result h₂ hb
  rw [kept_bind_ok h₁]
  exact hT.append (hm s a s' h₁ ha) (hf a ha s' b s'' h₂ hb)

theorem of_within (hT : Composes T) (hsc : ∀ l u (q : IoQuery), q.1.scope.Le sc → T [.op l u q]) (hm : Within sc m Q)
    : Keeps env T l m G := by
  intro s a s' _ _
  refine hT.of_forall fun l' u q hq => hsc l' u q ?_
  exact Prog.Asks.kept (hm.asks s.res) hq

theorem bind_within (hT : Composes T) (hsc : ∀ l u (q : IoQuery), q.1.scope.Le sc → T [.op l u q]) (hm : Within sc m Q)
    (hf : ∀ a, Q a → Keeps env T l (f a) G') : Keeps env T l (m >>= f) G' := by
  intro s b s'' h hb
  rw [run_bind] at h
  obtain ⟨a, s', h₁, h₂⟩ := bind_ok.mp h
  rw [kept_bind_ok h₁]
  exact hT.append (of_within hT hsc hm (G := fun _ => True) s a s' h₁ trivial)
    (hf a (hm.result h₁) s' b s'' h₂ hb)

theorem perform {o : IoOp} {G : o.Resp → Prop} (h : ∀ io r, IoQuery.Succeeds env io (o, r) → T [.op l io (o, r)]) :
    Keeps env T l (SysM.perform o) G := fun s a s' ha _ => h s.io s.res ⟨a, s', ha⟩

theorem attempt (hm : Keeps env T l m G) :
    Keeps env T l (SysM.attempt m : SysM ε' (Except ε α)) fun x => ∃ a, x = .ok a ∧ G a := by
  rintro s x s' h ⟨a, rfl, ha⟩
  rw [run_attempt] at h
  rw [kept_attempt]
  exact hm s a s' (Prod.ext (Except.ok.inj (Prod.mk.inj h).1) (Prod.mk.inj h).2) ha

theorem onClone (hm : Keeps env T l m G) : Keeps env T l (SysM.onClone m) G := by
  intro s a s' h ha
  rw [run_onClone] at h
  rw [kept_onClone]
  exact hm s a _ (Prod.ext (Prod.mk.inj h).1 rfl) ha

theorem infiniteErgs (hm : Keeps env T l m G) : Keeps env T l (SysM.infiniteErgs m) G := by
  intro s a s' h ha
  rw [run_infiniteErgs] at h
  rw [kept_infiniteErgs]
  exact hm _ a _ (Prod.ext (Prod.mk.inj h).1 rfl) ha

theorem frame (hT : Composes T) (hm : Keeps env T (some l') m fun a => failed (.ok a) = false ∧ G a) :
    Keeps env T l (SysM.frame l' failed m) G := by
  intro s a s' h hgood
  rw [run_frame] at h
  rw [kept_frame]
  have ha : (m.run env ⟨s.io.startFrame.2, s.res⟩).1 = .ok a := (Prod.mk.inj h).1
  rw [ha]
  split
  · exact hT.nil
  · rename_i hf
    exact hT.append (hT.enter l') (hm _ a _ (Prod.ext ha rfl) ⟨Bool.eq_false_iff.mpr hf, hgood⟩)

theorem attempt_frame (hT : Composes T) (hm : Keeps env T (some l') m fun a => failed (.ok a) = false) :
    Keeps env T l (SysM.attempt (SysM.frame l' failed m) : SysM ε' (Except ε α))
      fun x => failed x = true ∨ ∃ a, x = .ok a := by
  intro s x s' h hx
  rw [run_attempt, run_frame] at h
  rw [kept_attempt, kept_frame]
  have hm' : (m.run env ⟨s.io.startFrame.2, s.res⟩).1 = x := Except.ok.inj (Prod.mk.inj h).1
  rw [hm']
  split
  · exact hT.nil
  · rename_i hf
    obtain ⟨a, rfl⟩ := hx.resolve_left hf
    exact hT.append (hT.enter l') (hm _ a _ (Prod.ext hm' rfl) (Bool.eq_false_iff.mpr hf))

theorem ite {c : Prop} [Decidable c] {m' : SysM ε α} (hm : c → Keeps env T l m G)
    (hm' : ¬c → Keeps env T l m' G) : Keeps env T l (if c then m else m') G := by
  split
  · exact hm ‹_›
  · exact hm' ‹_›

end Keeps

end SysM

/-! ## Calls -/

open SysM

/-- Operations that change no balance and no flag of an account; `C` may send messages to L1. -/
def Scope.plain (C : B160 → Prop) : Scope := ⟨fun _ => True, fun _ => True, False, False, False, C, True, True, True, True, True⟩

theorem Scope.plain_hasWords (C : B160 → Prop) : (Scope.plain C).HasWords := ⟨⟨trivial, trivial⟩, fun _ => trivial⟩

/-- A property of events that calls made by accounts in `C` establish. -/
structure TraceLaw (env : Env) (C : B160 → Prop) (T : List IoEvent → Prop) : Prop extends Composes T where
  plain : ∀ l io (q : IoQuery), q.1.scope.Le (.plain C) → T [.op l io q]
  transfer : ∀ l io a b v r, IoQuery.Succeeds env io (.transfer .noEE a b v, r) →
    T [.op l io (.transfer .noEE a b v, r)]
  destroy : ∀ m caller callee io a b r, (m = .constructor → a = callee) →
    IoQuery.Succeeds env io (.markForDeconstruction .evm a b (decide (m = .constructor)), r) →
    T [.op (some (.call m caller callee)) io (.markForDeconstruction .evm a b (decide (m = .constructor)), r)]
  deploy : ∀ caller a io code r, IoQuery.Succeeds env io (.deployCode .evm a code, r) →
    T [.op (some (.call .constructor caller a)) io (.deployCode .evm a code, r)]
  force : ∀ l io a h n m oh k r, IoQuery.Succeeds env io (.setBytecodeDetails .evm a h n m oh k, r) →
    T [.op l io (.setBytecodeDetails .evm a h n m oh k, r)]
  withdraw : ∀ m caller callee calldata sender value isStatic,
    Keeps env T (some (.call m caller callee)) (l2BaseTokenHookInner calldata sender value isStatic) fun r => r ≠ none

namespace TraceLaw

variable {env : Env} {C : B160 → Prop} {T : List IoEvent → Prop} {l : Option FrameLabel} {q : ExternalCallRequest}
  {machine : Machine}

theorem within {α ε : Type} {Q : α → Prop} {m : SysM ε α} {G : α → Prop} (law : TraceLaw env C T)
    (hm : Within (.plain C) m Q) : Keeps env T l m G := .of_within law.toComposes law.plain hm

theorem bind_within {α β ε : Type} {Q : α → Prop} {m : SysM ε α} {f : α → SysM ε β} {G : β → Prop}
    (law : TraceLaw env C T) (hm : Within (.plain C) m Q) (hf : ∀ a, Q a → Keeps env T l (f a) G) :
    Keeps env T l (m >>= f) G := .bind_within law.toComposes law.plain hm hf

variable (law : TraceLaw env C T)

include law

theorem performTransferIfRequired_keeps (callerEe : ExecutionEnvironmentType) :
    Keeps env T l (performTransferIfRequired callerEe q) (· = true) := by
  refine .ite (fun _ => .pure law.toComposes _) fun _ => .ite (fun _ => .throw _) fun _ => ?_
  refine .bind law.toComposes (.attempt (G := fun _ => True)
    (.infiniteErgs (.perform fun io r h => law.transfer _ _ _ _ _ _ h))) (fun r _ => ?_) fun r hr => ⟨.plain C, ?_⟩
  · rcases r with e | _
    · cases e <;> first | exact .throw _ | (cases callerEe <;> first | exact .throw _ | exact .pure law.toComposes _)
    · exact .pure law.toComposes _
  · rcases r with e | a
    · cases e <;> first | exact .throw _ | (cases callerEe <;> first | exact .throw _ | exact .pure _ Bool.false_ne_true)
    · exact absurd ⟨a, rfl, trivial⟩ hr

variable {ctx : FrameContext}

theorem endFrame_keeps (hctx : ctx.Of q) (e : ExitCode) :
    Keeps env T (some (.call q.modifier q.caller q.callee)) (endFrame ctx e) (·.isFailed = false) := by
  cases e with
  | outOfReturnMemory => exact .throw _
  | error => exact law.within failFrame_within
  | revert d => exact .pure law.toComposes _
  | success d =>
    refine .ite (fun _ => .pure law.toComposes _) fun hc => .ite (fun _ => law.within failFrame_within) fun _ => ?_
    have hq : q.modifier = .constructor := by
      rw [hctx.isConstructor] at hc
      exact of_decide_eq_true (Bool.eq_true_of_not_eq_false hc)
    have ha := hctx.address_of_constructor hq
    refine .bind law.toComposes (.attempt (G := fun _ => True) (.perform fun io r h => ?_)) (fun r _ => ?_)
      fun r hr => ⟨.plain C, ?_⟩
    · rw [hq, ha] at *
      exact law.deploy _ _ _ _ _ h
    · rcases r with e | _
      · cases e <;> first | exact law.within failFrame_within | exact .throw _
      · exact .pure law.toComposes _
    · rcases r with e | a
      · cases e <;> first | exact .throw _ | exact .bind .exhaustErgs fun _ _ => .pure _ Bool.true_eq_false.mp
      · exact absurd ⟨a, rfl, trivial⟩ hr

theorem runOpcodes_keeps {handleCall : ExternalCallRequest → SysM Err CallResult} (hctx : ctx.Of q) (hC : C ctx.address)
    (hcall : ∀ q' : ExternalCallRequest, C q'.caller →
      Keeps env T (some (.call q.modifier q.caller q.callee)) (handleCall q') fun _ => True) (p : EeProg) :
    Keeps env T (some (.call q.modifier q.caller q.callee)) (runOpcodes handleCall ctx p) (· ≠ .error) := by
  induction p with
  | exit e => exact .pure law.toComposes _
  | charge c k ih =>
    rw [runOpcodes]
    refine law.bind_within (.attempt (.pay _)) fun r _ => ?_
    rcases r with e | _
    · cases e <;> first | exact .pure law.toComposes _ | exact .throw _
    · exact law.bind_within .resources fun _ _ => ih _
  | op o k ih =>
    rw [runOpcodes]
    refine .ite (fun _ => .pure law.toComposes _) fun _ => ?_
    by_cases ho : ∃ b, o = .selfDestruct b
    · obtain ⟨b, rfl⟩ := ho
      refine .bind law.toComposes (.attempt (G := fun _ => True) ?_) (fun r _ => ?_) fun r hr => ⟨.plain C, ?_⟩
      · refine .bind law.toComposes (.perform fun io r h => ?_) (fun _ _ => .pure law.toComposes _) fun _ h => absurd trivial h
        rw [hctx.isConstructor] at *
        exact law.destroy _ _ _ _ _ _ _ hctx.address_of_constructor h
      · rcases r with e | x
        · cases e <;> first | exact .pure law.toComposes _ | exact .throw _
        · exact law.bind_within .resources fun _ _ => ih _ _
      · rcases r with e | a
        · cases e <;> first | exact .throw _ | exact .pure _ fun h => h rfl
        · exact absurd ⟨a, rfl, trivial⟩ hr
    · refine law.bind_within (.attempt (o.perform_within (Scope.plain_hasWords C) (fun _ => trivial) trivial
        fun b hb => absurd ⟨b, hb⟩ ho)) fun r _ => ?_
      rcases r with e | x
      · cases e <;> first | exact .pure law.toComposes _ | exact .throw _
      · exact law.bind_within .resources fun _ _ => ih _ _
  | call c k ih =>
    rw [runOpcodes]
    refine law.bind_within .resources fun r _ => ?_
    rcases hreq : c.request ctx r with _ | request
    · exact .pure law.toComposes _
    · have hcaller : request.caller = ctx.address := by
        cases c <;> simp only [EeCall.request] at hreq <;> split at hreq <;> cases hreq <;> rfl
      refine .bind law.toComposes (hcall request (hcaller ▸ hC)) (fun result _ => ?_) fun _ h => absurd trivial h
      cases result with
      | preparationStepFailed => exact .pure law.toComposes _
      | failed d => exact law.bind_within .resources fun _ _ => ih _ _
      | successful d => exact law.bind_within .resources fun _ _ => ih _ _

theorem hookResult_keeps {payable : Bool} {inner : SysM Err (Option (List UInt8))}
    (h : Keeps env T l inner (· ≠ none)) : Keeps env T l (hookResult q payable inner) (·.isFailed = false) := by
  refine .ite (fun _ => .pure law.toComposes _) fun _ => .bind law.toComposes (.attempt h) (fun r _ => ?_)
    fun r hr => ⟨.plain C, ?_⟩
  · rcases r with e | _ | _
    · cases e <;> first | exact .pure law.toComposes _ | exact .throw _
    · exact .pure law.toComposes _
    · exact .pure law.toComposes _
  · rcases r with e | _ | d
    · cases e <;> first | exact .throw _ | exact .pure _ Bool.true_eq_false.mp
    · exact .pure _ Bool.true_eq_false.mp
    · exact absurd ⟨some d, rfl, Option.some_ne_none d⟩ hr

theorem contractDeployerHookInner_keeps (calldata : List UInt8) (caller : B160) (isStatic : Bool) :
    Keeps env T l (contractDeployerHookInner calldata caller isStatic) (· ≠ none) := by
  refine law.bind_within (.pay _) fun _ _ => .ite (fun _ => .pure law.toComposes _) fun _ => ?_
  refine law.bind_within (.pay _) fun _ _ => .bind (G := fun _ => True) law.toComposes ?_
    (fun _ _ => .pure law.toComposes _) fun _ h => absurd trivial h
  exact .perform fun io r h => law.force _ _ _ _ _ _ _ _ _ h

theorem hookFor_keeps (hq : C q.caller) {hook : SysM Err CallResult} (h : hookFor machine q = some hook) :
    Keeps env T (some (.call q.modifier q.caller q.callee)) hook (·.isFailed = false) := by
  simp only [hookFor] at h
  split at h
  · cases h
    exact law.hookResult_keeps (law.contractDeployerHookInner_keeps _ _ _)
  · split at h
    · cases h
      exact law.hookResult_keeps (law.within (l1MessengerHookInner_within (Scope.plain_hasWords C).toOpen hq _ _))
    · split at h
      · cases h
        exact law.hookResult_keeps (law.withdraw _ _ _ _ _ _ _)
      · split at h
        · cases h
          exact law.within (precompileHook_within machine _)
        · cases h

section Frames

variable {handleCall : ExternalCallRequest → SysM Err CallResult}
  (hcall : ∀ l (q : ExternalCallRequest), C q.caller → Keeps env T l (handleCall q) fun _ => True)

include hcall

theorem calleeFrame_keeps (hcaller : C q.caller) (hcallee : C q.callee) (p : LaunchParams) :
    Keeps env T (some (.call q.modifier q.caller q.callee)) (calleeFrame machine handleCall p q)
      (·.isFailed = false) := by
  unfold calleeFrame
  split
  · exact .ite (fun _ => .throw _) fun _ => .pure law.toComposes _
  · refine law.bind_within (startExecutingFrame_within (fun _ => (Scope.plain_hasWords C).toOpen) trivial) fun ctx hctx => ?_
    have hC : C ctx.address := by
      rcases hctx.address_cases with h | h <;> rw [h]
      · exact hcaller
      · exact hcallee
    refine .bind law.toComposes (law.runOpcodes_keeps hctx hC (hcall _) _) (fun e _ => law.endFrame_keeps hctx e)
      fun e he => ⟨.plain C, ?_⟩
    rw [not_not.mp he]
    exact failFrame_within.weaken fun r hr => ne_of_eq_of_ne hr (nofun : true ≠ false)

theorem frameBody_keeps (hC : hookFor machine q = none → C q.callee) (hcaller : C q.caller)
    (callerEe : ExecutionEnvironmentType) (p : LaunchParams) :
    Keeps env T (some (.call q.modifier q.caller q.callee)) (frameBody machine handleCall callerEe p q)
      (·.isFailed = false) := by
  refine .bind law.toComposes (law.performTransferIfRequired_keeps callerEe)
    (fun ok _ => .ite (fun _ => .pure law.toComposes _) fun _ => ?_) fun ok hok => ⟨.plain C, ?_⟩
  · rcases hhook : hookFor machine q with _ | hook
    · exact law.calleeFrame_keeps hcall hcaller (hC hhook) p
    · exact .ite (fun _ => .pure law.toComposes _) fun _ => law.hookFor_keeps hcaller hhook
  · rw [Bool.eq_false_iff.mpr hok]
    exact .pure _ Bool.true_eq_false.mp

theorem executeCall_keeps (hC : hookFor machine q = none → C q.callee) (hcaller : C q.caller) (depth : Nat)
    (callerEe : ExecutionEnvironmentType) (p : LaunchParams) :
    Keeps env T l (executeCall machine handleCall depth callerEe p q) fun _ => True :=
  law.bind_within (beforeExecutingFrame_within (fun _ => (Scope.plain_hasWords C).toOpen) trivial depth) fun _ _ =>
    .ite (fun _ => .pure law.toComposes _) fun _ =>
      .frame law.toComposes ((law.frameBody_keeps hcall hC hcaller callerEe p).mono fun _ h => h.1)

end Frames

variable (hC : ∀ q : ExternalCallRequest, hookFor machine q = none → C q.callee)

include hC

theorem handleRequestedExternalCall_keeps (fuel depth : Nat) (isEntryFrame : Bool)
    (callerEe : ExecutionEnvironmentType) (hcaller : C q.caller) :
    Keeps env T l (handleRequestedExternalCall machine fuel depth isEntryFrame callerEe q) fun _ => True := by
  induction fuel generalizing depth isEntryFrame callerEe q l with
  | zero => exact .throw _
  | succ fuel ih =>
    refine law.bind_within (readCalleeAndPrepareFrameState_within (fun _ => trivial) trivial trivial isEntryFrame
      callerEe) fun r _ => ?_
    rcases r with _ | p
    · exact .pure law.toComposes _
    · refine .bind law.toComposes (law.executeCall_keeps (fun _ q' hq' => ih _ _ _ hq') (hC q) hcaller depth callerEe p)
        (fun result _ => ?_) fun _ h => absurd trivial h
      exact law.bind_within .resources fun _ _ => law.bind_within (.require _ _) fun _ _ =>
        law.bind_within (.modifyResources (.inl trivial)) fun _ _ => .pure law.toComposes _

theorem runTillCompletion_keeps (callerEe : ExecutionEnvironmentType) (hcaller : C q.caller) :
    Keeps env T l (runTillCompletion machine callerEe q) fun _ => True :=
  law.handleRequestedExternalCall_keeps hC _ _ _ _ hcaller

theorem runSingleInteraction_keeps (calldata : List UInt8) {caller : B160} (callee : B160) (value : U256)
    (shouldMakeFrame : Bool) (hcaller : C caller) :
    Keeps env T l (runSingleInteraction machine calldata caller callee value shouldMakeFrame) fun _ => True := by
  refine law.bind_within (.infiniteErgs (.readAccount _ trivial _ _)) fun account _ => ?_
  split
  · exact .throw _
  · refine law.bind_within .resources fun r _ => .ite (fun _ => .frame law.toComposes ?_) fun _ => ?_
    · exact (law.runTillCompletion_keeps hC _ hcaller).mono fun _ _ => trivial
    · exact law.runTillCompletion_keeps hC _ hcaller

end TraceLaw

end ZkOs
