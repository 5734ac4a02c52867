import ZkOs.State.Frames
import ZkOs.Exec.Runner

/-!
# What the execution of calls can do

* `Within sc m Q` : the program `m` is composed of operations of the scope `sc`, adds native only if the
  scope allows it, and only returns values with the property `Q`;
* `Within.asks` : the operations of such a program, `Within.spends` : its resources;
* `handleRequestedExternalCall_within` : a call, with everything it calls, is such a program.
-/

namespace ZkOs

open ZkOs.Action FrameProgram Prog

/-! ## Programs of a scope -/

/-- What a program without refills may do to its resources. -/
structure Scope.Spends (sc : Scope) (r r' : Resources) : Prop where
  native : r'.native ≤ r.native
  ergs : sc.returns ∨ r'.ergs ≤ r.ergs

namespace Scope.Spends

variable {sc : Scope} {r r' r'' : Resources}

theorem of_le (h : r'.Le r) : sc.Spends r r' := ⟨h.native, .inr h.ergs⟩

theorem refl (r : Resources) : sc.Spends r r := .of_le (.refl r)

theorem trans (h : sc.Spends r r') (h' : sc.Spends r' r'') : sc.Spends r r'' where
  native := BitVec.le_trans h'.native h.native
  ergs := by
    rcases h.ergs with hr | hle
    · exact .inl hr
    · exact h'.ergs.imp_right fun hle' => BitVec.le_trans hle' hle

end Scope.Spends

namespace SysM

/-- Composed of operations of the scope; results satisfy the postcondition. -/
inductive Within (sc : Scope) : {ε α : Type} → SysM ε α → (α → Prop) → Prop where
  | pure {ε α : Type} {Q : α → Prop} (a : α) (h : Q a) : Within sc (Pure.pure a : SysM ε α) Q
  | throw {ε α : Type} {Q : α → Prop} (e : ε) : Within sc (SysM.throw e : SysM ε α) Q
  | bind {ε α β : Type} {Q : α → Prop} {Q' : β → Prop} {m : SysM ε α} {f : α → SysM ε β} (hm : Within sc m Q)
    (hf : ∀ a, Q a → Within sc (f a) Q') : Within sc (m >>= f) Q'
  | perform (o : IoOp) (h : o.scope.Le sc) : Within sc (SysM.perform o) fun _ => True
  | pay (c : Resources) : Within sc (SysM.pay c) fun _ => True
  | resources {ε : Type} : Within sc (SysM.resources : SysM ε Resources) fun _ => True
  | modifyResources {ε : Type} {f : Resources → Resources}
    (h : sc.refills ∨ ∀ r, (f r).native ≤ r.native ∧ (sc.returns ∨ (f r).ergs ≤ r.ergs)) :
    Within sc (SysM.modifyResources f : SysM ε Unit) fun _ => True
  | paidFrom {ε α : Type} {Q : α → Prop} {m : SysM ε α} (r : Resources) (hm : Within sc m Q) :
    Within sc (SysM.paidFrom r m) Q
  | onClone {ε α : Type} {Q : α → Prop} {m : SysM ε α} (hm : Within sc m Q) : Within sc (SysM.onClone m) Q
  | infiniteErgs {ε α : Type} {Q : α → Prop} {m : SysM ε α} (hm : Within sc m Q) : Within sc (SysM.infiniteErgs m) Q
  | attempt {ε ε' α : Type} {Q : α → Prop} {m : SysM ε α} (hm : Within sc m Q) :
    Within sc (SysM.attempt m : SysM ε' (Except ε α)) fun x => ∀ a, x = .ok a → Q a
  | mapError {ε ε' α : Type} {Q : α → Prop} {m : SysM ε α} (f : ε → ε') (hm : Within sc m Q) :
    Within sc (SysM.mapError f m) Q
  | frame {ε α : Type} {Q : α → Prop} {m : SysM ε α} (l : FrameLabel) (failed : Except ε α → Bool)
    (hm : Within sc m Q) : Within sc (SysM.frame l failed m) Q
  | weaken {ε α : Type} {Q Q' : α → Prop} {m : SysM ε α} (h : ∀ a, Q a → Q' a) (hm : Within sc m Q) :
    Within sc m Q'

namespace Within

variable {sc : Scope} {ε ε' α β : Type} {Q : α → Prop} {m : SysM ε α}

theorem ite {c : Prop} [Decidable c] {m' : SysM ε α} (hm : c → Within sc m Q) (hm' : ¬c → Within sc m' Q) :
    Within sc (if c then m else m') Q := by
  split
  · exact hm ‹_›
  · exact hm' ‹_›

theorem require (c : Prop) [Decidable c] (e : ε) : Within sc (SysM.require c e) fun _ => c :=
  .ite (fun h => .pure () h) fun _ => .throw e

theorem any (hm : Within sc m Q) : Within sc m fun _ => True := .weaken (fun _ _ => trivial) hm

theorem asks (h : Within sc m Q) (r : Resources) :
    (m r).Asks (fun q => q.1.scope.Le sc) fun x => ∀ a, x.1 = .ok a → Q a := by
  induction h generalizing r with
  | pure a h =>
    rintro _ ⟨⟩
    exact h
  | throw e => exact nofun
  | bind hm hf ihm ihf =>
    refine .bind (ihm r) fun x hx => ?_
    rcases x with ⟨e | a, r'⟩
    · exact nofun
    · exact ihf a (hx a rfl) r'
  | perform o h => exact ⟨h, fun _ _ _ => trivial⟩
  | pay c => exact fun _ _ => trivial
  | resources => exact fun _ _ => trivial
  | modifyResources h => exact fun _ _ => trivial
  | paidFrom r' hm ih => exact .bind (ih r') fun x hx => hx
  | onClone hm ih => exact .bind (ih r) fun x hx => hx
  | infiniteErgs hm ih => exact .bind (ih _) fun x hx => hx
  | attempt hm ih =>
    refine .bind (ih r) fun x hx => ?_
    rintro _ ⟨⟩
    exact hx
  | mapError f hm ih =>
    refine .bind (ih r) fun x hx => ?_
    rcases x with ⟨e | a, r'⟩
    · exact nofun
    · rintro _ ⟨⟩
      exact hx a rfl
  | frame l failed hm ih => exact ih r
  | weaken h hm ih => exact .mono (ih r) fun x hx a ha => h a (hx a ha)

theorem result {env : Env} (h : Within sc m Q) {s s' : Sys} {a : α} (hr : m.run env s = (.ok a, s')) : Q a :=
  Asks.result (h := Io.handler env) (h.asks s.res) s.io a (congrArg Prod.fst hr)

/-- Without refills native never increases, and ergs do not unless they are returned. -/
theorem spends {env : Env} (hsc : ¬sc.refills) (h : Within sc m Q) (s : Sys) : sc.Spends s.res (m.run env s).2.res := by
  induction h generalizing s with
  | pure a h => exact .refl _
  | throw e => exact .refl _
  | @bind _ _ _ Q Q' m f hm hf ihm ihf =>
    have hle := ihm s
    rw [run_bind, bind_apply]
    rcases hs : m.run env s with ⟨_ | a, s'⟩ <;> rw [hs] at hle
    · exact hle
    · exact hle.trans (ihf a (hm.result hs) s')
  | perform o h => exact .of_le (o.exec_makes env s).res_le
  | pay c => exact .of_le (Resources.charge_le _ _)
  | resources => exact .refl _
  | modifyResources h => exact h.elim (fun hr => absurd hr hsc) fun h => ⟨(h _).1, (h _).2⟩
  | paidFrom r' hm ih =>
    rw [run_paidFrom]
    exact .refl _
  | onClone hm ih =>
    rw [run_onClone]
    show sc.Spends _ (if _ then _ else _)
    split
    · exact ih s
    · exact .refl _
  | infiniteErgs hm ih =>
    rw [run_infiniteErgs]
    exact ⟨(ih ⟨s.io, { s.res with ergs := BitVec.allOnes 64 }⟩).native, .inr (BitVec.le_refl _)⟩
  | attempt hm ih =>
    rw [run_attempt]
    exact ih s
  | mapError f hm ih =>
    rw [run_mapError]
    exact ih s
  | frame l failed hm ih =>
    rw [run_frame]
    exact ih ⟨s.io.startFrame.2, s.res⟩
  | weaken h hm ih => exact ih s

end Within

end SysM

/-! ## Operations that only read or log -/

/-- Operations that change nothing that can be observed. -/
def IoOp.isReading : IoOp → Bool
  | storageRead .. | transientRead .. | storageTouch .. | touchAccount .. | readAccount .. | selfBalance ..
  | refundCounter | netPubdataUsed | logsLen => true
  | _ => false

/-- Operations that write no slot, no balance and no deployment, and send no message or log. -/
def IoOp.isQuiet : IoOp → Bool
  | storageWrite .. | emitL1Message .. | emitL1L2TxLog .. | transfer .. | deployCode .. | setBytecodeDetails ..
  | markForDeconstruction .. | updateBalance .. => false
  | _ => true

/-- A scope in which nonces, events, logs, transient slots and the refund counter may change. -/
structure Scope.Open (sc : Scope) : Prop where
  edits : sc.edits
  refunds : sc.refunds

variable {sc : Scope} {o : IoOp}

theorem IoOp.scope_le_of_isReading (h : o.isReading = true) (ha : ∀ a ∈ o.accounts, sc.accounts a) : o.scope.Le sc := by
  cases o <;> first
    | exact absurd h Bool.false_ne_true
    | exact ⟨ha, nofun, nofun, nofun, nofun, nofun, nofun, nofun, nofun, nofun⟩

theorem IoOp.scope_le_of_isQuiet (h : o.isQuiet = true) (ho : sc.Open) (ha : ∀ a ∈ o.accounts, sc.accounts a)
    : o.scope.Le sc := by
  cases o <;> first
    | exact absurd h Bool.false_ne_true
    | exact ⟨ha, nofun, nofun, nofun, nofun, nofun, nofun, fun _ => ho.edits, fun _ => ho.refunds, nofun⟩

namespace SysM.Within

variable {sc : Scope}

theorem reading (o : IoOp) (h : o.isReading = true) (ha : ∀ a ∈ o.accounts, sc.accounts a) :
    Within sc (SysM.perform o) fun _ => True := .perform o (o.scope_le_of_isReading h ha)

theorem quiet (o : IoOp) (h : o.isQuiet = true) (ho : sc.Open) (ha : ∀ a ∈ o.accounts, sc.accounts a) :
    Within sc (SysM.perform o) fun _ => True := .perform o (o.scope_le_of_isQuiet h ho ha)

theorem readAccount (ee : ExecutionEnvironmentType) {a : B160} (ha : sc.accounts a) (b d : Bool) :
    Within sc (SysM.perform (.readAccount ee a b d)) fun _ => True :=
  .reading _ rfl (List.forall_mem_singleton.mpr ha)

theorem incrementNonce (ho : sc.Open) (ee : ExecutionEnvironmentType) {a : B160} (ha : sc.accounts a) (n : U64) :
    Within sc (SysM.perform (.incrementNonce ee a n)) fun _ => True :=
  .quiet _ rfl ho (List.forall_mem_singleton.mpr ha)

theorem emitEvent (ho : sc.Open) (ee : ExecutionEnvironmentType) (a : B160) (ts : List Bytes32) (d : List UInt8) :
    Within sc (SysM.perform (.emitEvent ee a ts d)) fun _ => True :=
  .quiet _ rfl ho (List.forall_mem_nil _)

theorem exhaustErgs {ε : Type} : Within sc (SysM.modifyResources Resources.exhaustErgs : SysM ε Unit) fun _ => True :=
  .modifyResources (.inr fun r => ⟨r.exhaustErgs_le.native, .inr r.exhaustErgs_le.ergs⟩)

end SysM.Within

/-! ## The parts of a call -/

open SysM

/-- An open scope in which every address that a word can stand for may be used. -/
structure Scope.HasWords (sc : Scope) : Prop extends sc.Open where
  words : ∀ a : BitVec 160, sc.accounts (.ofLow20 a)

section Parts

variable {sc : Scope} {ctx : FrameContext} {q : ExternalCallRequest} {callee : CalleeAccountProperties}

theorem EeOp.perform_within (hw : sc.HasWords) (hwrite : ∀ k, sc.writes (ctx.address, k))
    (hacc : sc.accounts ctx.address) (o : EeOp) (hd : ∀ b, o = .selfDestruct b → sc.pays ∧ sc.destroys) :
    Within sc (o.perform ctx) fun _ => True := by
  cases o with
  | sload k => exact .bind (.reading _ rfl (List.forall_mem_nil _)) fun _ _ => .pure _ trivial
  | sstore k v =>
    refine .bind (.perform _ ⟨List.forall_mem_nil _, ?_, nofun, nofun, nofun, nofun, nofun, nofun, fun _ => hw.refunds, nofun⟩)
      fun _ _ => .pure _ trivial
    intro k' hk
    cases hk
    exact hwrite k
  | tload k => exact .bind (.reading _ rfl (List.forall_mem_nil _)) fun _ _ => .pure _ trivial
  | tstore k v => exact .bind (.quiet _ rfl hw.toOpen (List.forall_mem_nil _)) fun _ _ => .pure _ trivial
  | log ts d => exact .bind (.emitEvent hw.toOpen _ _ _ _) fun _ _ => .pure _ trivial
  | account a b => exact .bind (.readAccount _ (hw.words _) _ _) fun _ _ => .pure _ trivial
  | selfBalance => exact .bind (.reading _ rfl (List.forall_mem_nil _)) fun _ _ => .pure _ trivial
  | readNonce => exact .bind (.infiniteErgs (.readAccount _ hacc _ _)) fun _ _ => .pure _ trivial
  | selfDestruct b =>
    obtain ⟨hp, hx⟩ := hd b rfl
    refine .bind (.perform _ ⟨?_, nofun, fun _ => hp, nofun, fun _ => hx, nofun, nofun, nofun, nofun, nofun⟩) fun _ _ => .pure _ trivial
    intro a ha
    rcases List.mem_pair.mp ha with rfl | rfl
    · exact hacc
    · exact hw.words _

theorem beforeExecutingFrame_within (ho : q.modifier = .constructor → sc.Open) (hq : sc.accounts q.caller)
    (depth : Nat) : Within sc (beforeExecutingFrame q callee depth) fun _ => True := by
  refine .ite (fun _ => .pure _ trivial) fun _ => .bind (Q := fun _ => True) ?_ fun enough _ =>
    .ite (fun _ => .pure _ trivial) fun _ => .ite (fun hc => ?_) fun _ => .pure _ trivial
  · exact .ite (fun _ => .bind (.infiniteErgs (.readAccount _ hq _ _)) fun _ _ => .pure _ trivial)
      fun _ => .pure _ trivial
  · refine .bind (Q := fun _ => True) (.ite (fun _ => ?_) fun _ => .pure _ trivial) fun r _ => ?_
    · exact (Within.attempt (.infiniteErgs (.incrementNonce (ho hc) _ hq _))).any
    · rcases r with e | _
      · cases e <;> first | exact .throw _ | exact .pure _ trivial
      · exact .ite (fun _ => .bind .exhaustErgs fun _ _ => .pure _ trivial) fun _ => .pure _ trivial

theorem calculateResourcesPassed_within : Within sc (calculateResourcesPassed q callee) fun _ => True := by
  refine .bind (Q := fun _ => True) (.ite (fun _ => .pay _) fun _ => .pure _ trivial) fun _ _ => ?_
  refine .bind (Q := fun _ => True) (.ite (fun _ => .pay _) fun _ => .pure _ trivial) fun _ _ => ?_
  exact .bind .resources fun _ _ => .bind (.pay _) fun _ _ => .pure _ trivial

theorem frameBytecode_within : Within sc (frameBytecode q callee) fun _ => True := by
  refine .ite (fun _ => .bind (.pay _) fun _ _ => .pure _ trivial) fun _ => .ite (fun _ => ?_) fun _ =>
    .ite (fun _ => ?_) fun _ => .throw _
  · exact .bind (.require _ _) fun _ _ => .bind (.pay _) fun _ _ => .pure _ trivial
  · exact .bind (.require _ _) fun _ _ => .pure _ trivial

/-- The context of the frame that a request opens. -/
structure FrameContext.Of (q : ExternalCallRequest) (ctx : FrameContext) : Prop where
  address : ctx.address = if q.isDelegate ∨ q.isCallcode then q.caller else q.callee
  isConstructor : ctx.isConstructor = decide (q.modifier = .constructor)
  isStatic : ctx.isStatic = decide (q.modifier = .static ∨ q.modifier = .delegateStatic ∨ q.modifier = .evmCallcodeStatic)

theorem FrameContext.Of.address_cases (h : ctx.Of q) :
    ctx.address = q.caller ∨ ctx.address = q.callee := by
  rw [h.address]
  split
  · exact .inl rfl
  · exact .inr rfl

theorem FrameContext.Of.address_of_constructor (h : ctx.Of q) (hq : q.modifier = .constructor)
    : ctx.address = q.callee := by
  rw [h.address, if_neg]
  simp [ExternalCallRequest.isDelegate, ExternalCallRequest.isCallcode, hq]

theorem startExecutingFrame_within (ho : q.modifier = .constructor → sc.Open) (hcallee : sc.accounts q.callee) :
    Within sc (startExecutingFrame q callee) (FrameContext.Of q) := by
  refine .bind frameBytecode_within fun code _ => .bind (Q := fun _ => True) ?_ fun _ _ => .pure _ ⟨rfl, rfl, rfl⟩
  refine .ite (fun hc => .bind (Within.attempt (.infiniteErgs (.incrementNonce (ho hc) _ hcallee _))) fun r _ => ?_)
    fun _ => .pure _ trivial
  rcases r with e | _
  · cases e <;> exact .throw _
  · exact .pure _ trivial

theorem failFrame_within : Within sc failFrame (·.isFailed = true) := .bind .exhaustErgs fun _ _ => .pure _ rfl

theorem endFrame_within (hd : ctx.isConstructor = true → sc.edits ∧ sc.deploys) (hacc : sc.accounts ctx.address)
    (e : ExitCode) : Within sc (endFrame ctx e) fun _ => True := by
  cases e with
  | outOfReturnMemory => exact .throw _
  | error => exact failFrame_within.any
  | revert d => exact .pure _ trivial
  | success d =>
    refine .ite (fun _ => .pure _ trivial) fun hc => .ite (fun _ => failFrame_within.any) fun _ => ?_
    obtain ⟨he, hd⟩ := hd (Bool.eq_true_of_not_eq_false hc)
    refine .bind (Within.attempt (.perform _ ⟨?_, nofun, nofun, fun _ => hd, nofun, nofun, nofun, fun _ => he, nofun, nofun⟩)) fun r _ => ?_
    · exact List.forall_mem_singleton.mpr hacc
    · rcases r with e | _
      · cases e <;> first | exact failFrame_within.any | exact .throw _
      · exact .pure _ trivial

end Parts

/-! ## Hooks -/

section Hooks

variable {sc : Scope} {q : ExternalCallRequest} {caller : B160}

theorem sendToL1Inner_within (ho : sc.Open) (hs : sc.sends caller) (abi : List UInt8) :
    Within sc (sendToL1Inner abi caller) fun _ => True := by
  refine .bind (.require _ _) fun _ _ => ?_
  split
  · exact .pure _ trivial
  · refine .bind (.pay _) fun _ _ =>
      .bind (.perform _ ⟨List.forall_mem_nil _, nofun, nofun, nofun, nofun, ?_, nofun, fun _ => ho.edits, nofun, nofun⟩) fun _ _ => .bind (.emitEvent ho _ _ _ _) fun _ _ => .pure _ trivial
    rintro a rfl
    exact hs

theorem l1MessengerHookInner_within (ho : sc.Open) (hs : sc.sends caller) (calldata : List UInt8) (isStatic : Bool) :
    Within sc (l1MessengerHookInner calldata caller isStatic) fun _ => True :=
  .bind (.pay _) fun _ _ => .ite (fun _ => .bind (sendToL1Inner_within ho hs _) fun _ _ => .pure _ trivial)
    fun _ => .pure _ trivial

theorem burnNominalTokenValue_within (ha : sc.accounts l2BaseTokenAddress) (hp : sc.pays) (value : U256) :
    Within sc (burnNominalTokenValue value) fun _ => True := by
  refine .bind (Within.attempt (.perform _ ⟨?_, nofun, fun _ => hp, nofun, nofun, nofun, nofun, nofun, nofun, nofun⟩)) fun r _ => ?_
  · exact List.forall_mem_singleton.mpr ha
  · rcases r with e | _
    · cases e <;> exact .throw _
    · exact .pure _ trivial

theorem withdraw_within (ho : sc.Open) (ha : sc.accounts l2BaseTokenAddress) (hp : sc.pays) (hs : sc.sends l2BaseTokenAddress)
    (calldata : List UInt8) (value : U256) : Within sc (withdraw calldata caller value) fun _ => True := by
  refine .ite (fun _ => .pure _ trivial) fun _ => .bind (burnNominalTokenValue_within ha hp value) fun _ _ =>
    .ite (fun _ => .pure _ trivial) fun _ => ?_
  exact .bind (sendToL1Inner_within ho hs _) fun _ _ => .bind (.emitEvent ho _ _ _ _) fun _ _ => .pure _ trivial

theorem withdrawWithMessage_within (ho : sc.Open) (ha : sc.accounts l2BaseTokenAddress) (hp : sc.pays)
    (hs : sc.sends l2BaseTokenAddress) (calldata : List UInt8) (value : U256) :
    Within sc (withdrawWithMessage calldata caller value) fun _ => True := by
  refine .ite (fun _ => .pure _ trivial) fun _ => ?_
  split
  · exact .pure _ trivial
  · refine .ite (fun _ => .pure _ trivial) fun _ => .bind (burnNominalTokenValue_within ha hp value) fun _ _ => ?_
    refine .bind (.pay _) fun _ _ => .bind (sendToL1Inner_within ho hs _) fun _ _ => .bind (.pay _) fun _ _ => ?_
    exact .bind (.emitEvent ho _ _ _ _) fun _ _ => .pure _ trivial

theorem l2BaseTokenHookInner_within (ho : sc.Open) (ha : sc.accounts l2BaseTokenAddress) (hp : sc.pays)
    (hs : sc.sends l2BaseTokenAddress) (calldata : List UInt8) (value : U256) (isStatic : Bool) :
    Within sc (l2BaseTokenHookInner calldata caller value isStatic) fun _ => True :=
  .bind (.pay _) fun _ _ => .bind (.require _ _) fun _ _ => .ite (fun _ => .pure _ trivial) fun _ =>
    .ite (fun _ => withdraw_within ho ha hp hs calldata value) fun _ =>
      .ite (fun _ => withdrawWithMessage_within ho ha hp hs calldata value) fun _ => .pure _ trivial

theorem contractDeployerHookInner_within (hw : sc.HasWords) (hd : sc.deploys) (calldata : List UInt8)
    (isStatic : Bool) : Within sc (contractDeployerHookInner calldata caller isStatic) fun _ => True := by
  refine .bind (.pay _) fun _ _ => .ite (fun _ => .pure _ trivial) fun _ => .bind (.pay _) fun _ _ => ?_
  refine .bind (.perform _ ⟨?_, nofun, nofun, fun _ => hd, nofun, nofun, nofun, fun _ => hw.edits, nofun, nofun⟩) fun _ _ =>
    .pure _ trivial
  exact List.forall_mem_singleton.mpr (hw.words _)

theorem hookResult_within {payable : Bool} {inner : SysM Err (Option (List UInt8))}
    (h : Within sc inner fun _ => True) : Within sc (hookResult q payable inner) fun _ => True := by
  refine .ite (fun _ => .pure _ trivial) fun _ => .bind (.attempt h) fun r _ => ?_
  rcases r with e | _ | _
  · cases e <;> first | exact .pure _ trivial | exact .throw _
  · exact .pure _ trivial
  · exact .pure _ trivial

theorem precompileHook_within (machine : Machine) (low : Nat) :
    Within sc (precompileHook machine low q) fun _ => True := by
  refine .bind (.attempt (.pay _)) fun r _ => ?_
  split
  · exact .pure _ trivial
  · exact failFrame_within.any
  · exact failFrame_within.any
  · exact .throw _

end Hooks

/-! ## Calls -/

/-- A scope in which frames of its accounts can run. -/
structure Scope.HasFrames (sc : Scope) : Prop extends sc.HasWords where
  writes : ∀ a k, sc.accounts a → sc.writes (a, k)
  sends : ∀ a, sc.accounts a → sc.sends a
  pays : sc.pays
  deploys : sc.deploys
  destroys : sc.destroys

/-- A scope in which calls of its accounts can be made. -/
structure Scope.HasCalls (sc : Scope) : Prop extends sc.HasFrames where
  returns : sc.returns

/-- Caller and callee are accounts of the scope. -/
def ExternalCallRequest.In (sc : Scope) (q : ExternalCallRequest) : Prop :=
  sc.accounts q.caller ∧ sc.accounts q.callee

section Calls

variable {sc : Scope} {q : ExternalCallRequest} {machine : Machine}

theorem hookFor_within (hsc : sc.HasFrames) (hq : q.In sc) {hook : SysM Err CallResult}
    (h : hookFor machine q = some hook) : Within sc hook fun _ => True := by
  simp only [hookFor] at h
  have hbase : sc.accounts l2BaseTokenAddress := hsc.words 0x800a
  split at h
  · cases h
    exact hookResult_within (contractDeployerHookInner_within hsc.toHasWords hsc.deploys _ _)
  · split at h
    · cases h
      exact hookResult_within (l1MessengerHookInner_within hsc.toOpen (hsc.sends _ hq.1) _ _)
    · split at h
      · cases h
        exact hookResult_within (l2BaseTokenHookInner_within hsc.toOpen hbase hsc.pays (hsc.sends _ hbase) _ _ _)
      · split at h
        · cases h
          exact precompileHook_within machine _
        · cases h

theorem readCalleeAccountProperties_within (hw : ∀ a : BitVec 160, sc.accounts (.ofLow20 a)) (hq : sc.accounts q.callee)
    (callerEe : ExecutionEnvironmentType) : Within sc (readCalleeAccountProperties callerEe q) fun _ => True := by
  refine .bind (.readAccount _ hq _ _) fun account _ => .bind (Q := fun _ => True) ?_ fun _ _ => .pure _ trivial
  refine .ite (fun _ => ?_) fun _ => .pure _ trivial
  rcases hd : parseDelegation (account.2.take account.1.unpaddedCodeLen.toNat) with _ | delegate
  · exact .throw _
  · unfold parseDelegation at hd
    split at hd <;> cases hd
    exact .readAccount _ (hw _) _ _

theorem splitResources_within (hr : sc.returns) (isEntryFrame : Bool) (callee : CalleeAccountProperties) :
    Within sc (splitResources isEntryFrame q callee) fun inCaller => inCaller.native = 0 := by
  refine .ite (fun _ => .pure _ rfl) fun _ => .bind calculateResourcesPassed_within fun _ _ => .bind .resources fun _ _ => ?_
  exact .bind (.modifyResources (.inr fun _ => ⟨BitVec.le_refl _, .inl hr⟩)) fun _ _ => .pure _ rfl

theorem readCalleeAndPrepareFrameState_within (hw : ∀ a : BitVec 160, sc.accounts (.ofLow20 a)) (hr : sc.returns)
    (hq : sc.accounts q.callee) (isEntryFrame : Bool) (callerEe : ExecutionEnvironmentType) :
    Within sc (readCalleeAndPrepareFrameState isEntryFrame callerEe q) fun x =>
      ∀ p, x = some p → p.inCaller.native = 0 := by
  have hread := readCalleeAccountProperties_within hw hq callerEe
  refine .bind (.attempt (.ite (fun _ => .infiniteErgs hread) fun _ => hread)) fun r _ => ?_
  rcases r with e | callee
  · cases e <;> first | exact .pure _ nofun | exact .throw _
  · refine .bind (.attempt (splitResources_within hr isEntryFrame callee)) fun r hsplit => ?_
    rcases r with e | inCaller
    · cases e <;> first | exact .pure _ nofun | exact .throw _
    · simp only
      split
      · exact .throw _
      · refine .pure _ fun p hp => ?_
        cases hp
        exact hsplit inCaller rfl

theorem performTransferIfRequired_within (hq : q.In sc) (hp : sc.pays) (callerEe : ExecutionEnvironmentType) :
    Within sc (performTransferIfRequired callerEe q) fun _ => True := by
  refine .ite (fun _ => .pure _ trivial) fun _ => .ite (fun _ => .throw _) fun _ => ?_
  refine .bind (.attempt (.infiniteErgs
    (.perform _ ⟨?_, nofun, fun _ => hp, nofun, nofun, nofun, nofun, nofun, nofun, nofun⟩))) fun r _ => ?_
  · intro a ha
    rcases List.mem_pair.mp ha with rfl | rfl
    · exact hq.1
    · split
      · exact hq.1
      · exact hq.2
  · rcases r with e | _
    · cases e <;> first | exact .throw _ | (cases callerEe <;> first | exact .throw _ | exact .pure _ trivial)
    · exact .pure _ trivial

variable {ctx : FrameContext}

theorem EeCall.request_in (hw : sc.HasWords) (hctx : sc.accounts ctx.address) {r : Resources} {c : EeCall}
    (h : c.request ctx r = some q) : q.In sc := by
  cases c with
  | call scheme gasToPass destination value input =>
    simp only [EeCall.request] at h
    split at h <;> cases h
    exact ⟨hctx, hw.words _⟩
  | create address value input =>
    simp only [EeCall.request] at h
    split at h <;> cases h
    exact ⟨hctx, hw.words _⟩

variable {handleCall : ExternalCallRequest → SysM Err CallResult}

theorem runOpcodes_within (hsc : sc.HasFrames) (hctx : sc.accounts ctx.address)
    (hcall : ∀ q : ExternalCallRequest, q.In sc → Within sc (handleCall q) fun _ => True) (p : EeProg) :
    Within sc (runOpcodes handleCall ctx p) fun _ => True := by
  induction p with
  | exit e => exact .pure _ trivial
  | charge c k ih =>
    rw [runOpcodes]
    refine .bind (.attempt (.pay _)) fun r _ => ?_
    rcases r with e | _
    · cases e <;> first | exact .pure _ trivial | exact .throw _
    · exact .bind .resources fun _ _ => ih _
  | op o k ih =>
    rw [runOpcodes]
    have ho := o.perform_within hsc.toHasWords (fun k => hsc.writes _ k hctx) hctx fun _ _ => ⟨hsc.pays, hsc.destroys⟩
    refine .ite (fun _ => .pure _ trivial) fun _ => .bind (.attempt ho) fun r _ => ?_
    rcases r with e | x
    · cases e <;> first | exact .pure _ trivial | exact .throw _
    · exact .bind .resources fun _ _ => ih _ _
  | call c k ih =>
    rw [runOpcodes]
    refine .bind .resources fun r _ => ?_
    rcases hreq : c.request ctx r with _ | request
    · exact .pure _ trivial
    · refine .bind (hcall request (c.request_in hsc.toHasWords hctx hreq)) fun result _ => ?_
      cases result with
      | preparationStepFailed => exact .pure _ trivial
      | failed d => exact .bind .resources fun _ _ => ih _ _
      | successful d => exact .bind .resources fun _ _ => ih _ _

theorem calleeFrame_within (hsc : sc.HasFrames) (hq : q.In sc)
    (hcall : ∀ q : ExternalCallRequest, q.In sc → Within sc (handleCall q) fun _ => True) (p : LaunchParams) :
    Within sc (calleeFrame machine handleCall p q) fun _ => True := by
  unfold calleeFrame
  split
  · exact .ite (fun _ => .throw _) fun _ => .pure _ trivial
  · refine .bind (startExecutingFrame_within (fun _ => hsc.toOpen) hq.2) fun ctx hctx => ?_
    have hacc : sc.accounts ctx.address := by
      rcases hctx.address_cases with h | h <;> rw [h]
      · exact hq.1
      · exact hq.2
    exact .bind (runOpcodes_within hsc hacc hcall _) fun _ _ => endFrame_within (fun _ => ⟨hsc.edits, hsc.deploys⟩) hacc _

theorem frameBody_within (hsc : sc.HasFrames) (hq : q.In sc)
    (hcall : ∀ q : ExternalCallRequest, q.In sc → Within sc (handleCall q) fun _ => True)
    (callerEe : ExecutionEnvironmentType) (p : LaunchParams) :
    Within sc (frameBody machine handleCall callerEe p q) fun _ => True := by
  refine .bind (performTransferIfRequired_within hq hsc.pays callerEe) fun _ _ =>
    .ite (fun _ => .pure _ trivial) fun _ => ?_
  rcases hhook : hookFor machine q with _ | hook
  · exact calleeFrame_within hsc hq hcall p
  · exact .ite (fun _ => .pure _ trivial) fun _ => hookFor_within hsc hq hhook

theorem executeCall_within (hsc : sc.HasFrames) (hq : q.In sc)
    (hcall : ∀ q : ExternalCallRequest, q.In sc → Within sc (handleCall q) fun _ => True) (depth : Nat)
    (callerEe : ExecutionEnvironmentType) (p : LaunchParams) :
    Within sc (executeCall machine handleCall depth callerEe p q) fun _ => True :=
  .bind (beforeExecutingFrame_within (fun _ => hsc.toOpen) hq.1 depth) fun _ _ =>
    .ite (fun _ => .pure _ trivial) fun _ => .frame _ _ (frameBody_within hsc hq hcall callerEe p)

theorem handleRequestedExternalCall_within (hsc : sc.HasCalls) (fuel depth : Nat) (isEntryFrame : Bool)
    (callerEe : ExecutionEnvironmentType) (hq : q.In sc) :
    Within sc (handleRequestedExternalCall machine fuel depth isEntryFrame callerEe q) fun _ => True := by
  induction fuel generalizing depth isEntryFrame callerEe q with
  | zero => exact .throw _
  | succ fuel ih =>
    refine .bind (readCalleeAndPrepareFrameState_within hsc.words hsc.returns hq.2 isEntryFrame callerEe) fun r hr => ?_
    rcases r with _ | p
    · exact .pure _ trivial
    · refine .bind (executeCall_within hsc.toHasFrames hq (fun _ hq' => ih _ _ _ hq') depth callerEe p) fun _ _ =>
        .bind .resources fun _ _ => .bind (.require _ _) fun _ _ => ?_
      refine .bind (.modifyResources (.inr fun r => ⟨?_, .inl hsc.returns⟩)) fun _ _ => .pure _ trivial
      rw [Resources.reclaim_native (hr p rfl)]
      exact BitVec.le_refl _

theorem runTillCompletion_within (hsc : sc.HasCalls) (hq : q.In sc) (callerEe : ExecutionEnvironmentType) :
    Within sc (runTillCompletion machine callerEe q) fun _ => True :=
  handleRequestedExternalCall_within hsc _ _ _ _ hq

theorem runSingleInteraction_within (hsc : sc.HasCalls) {caller callee : B160} (hcaller : sc.accounts caller)
    (hcallee : sc.accounts callee) (calldata : List UInt8) (value : U256) (shouldMakeFrame : Bool) :
    Within sc (runSingleInteraction machine calldata caller callee value shouldMakeFrame) fun _ => True := by
  refine .bind (.infiniteErgs (.readAccount _ hcaller _ _)) fun account _ => ?_
  split
  · exact .throw _
  · refine .bind .resources fun r _ => .ite (fun _ => .frame _ _ ?_) fun _ => ?_
    · exact runTillCompletion_within hsc ⟨hcaller, hcallee⟩ _
    · exact runTillCompletion_within hsc ⟨hcaller, hcallee⟩ _

end Calls

end ZkOs
