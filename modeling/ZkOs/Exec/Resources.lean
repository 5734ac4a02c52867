import ZkOs.Exec.Within

/-!
# Resources across calls

The caller of an external call pays for the access and for the value, passes a part of its ergs and all
of its native to the callee, and gets back what the callee did not use.

* `Spends` : programs that never add resources;
* `CallShare`, `calculateResourcesPassed_ok` : the costs of a call, the share of the callee and the stipend;
* `readCalleeAndPrepareFrameState_spec` : how the resources are split;
* `handleRequestedExternalCall_spends` : no call of a call tree adds resources;
* `call_resources_conserved` : all of it for one call;
* `callee_share_above_63_64` : one 64th is rounded down to whole gas.
-/

namespace ZkOs

open SysM ZkOs.Action

/-! ## Programs that add no resources -/

/-- No run ends with more ergs or more native than it had. -/
def Spends {ε α : Type} (env : Env) (m : SysM ε α) : Prop := ∀ s, (m.run env s).2.res.Le s.res

/-- Every operation, but nothing that adds resources. -/
def Scope.frugal : Scope := ⟨fun _ => True, fun _ => True, True, True, True, fun _ => True, False, True, True, False, True⟩

theorem Scope.frugal_hasFrames : Scope.frugal.HasFrames :=
  ⟨⟨⟨trivial, trivial⟩, fun _ => trivial⟩, fun _ _ _ => trivial, fun _ _ => trivial, trivial, trivial, trivial⟩

namespace Spends

variable {ε ε' α β : Type} {env : Env} {m : SysM ε α}

variable {Q : α → Prop} {f : α → SysM ε β}

theorem of_within (h : Within .frugal m Q) : Spends env m := fun s =>
  ⟨(h.spends id s).ergs.resolve_left id, (h.spends id s).native⟩

theorem pure (a : α) : Spends env (Pure.pure a : SysM ε α) := fun s => .refl s.res

theorem throw (e : ε) : Spends env (SysM.throw e : SysM ε α) := fun s => .refl s.res

theorem bind (hm : Spends env m) (hf : ∀ a, Spends env (f a)) : Spends env (m >>= f) := by
  intro s
  have hle := hm s
  rw [run_bind, bind_apply]
  rcases hs : m.run env s with ⟨_ | a, s'⟩ <;> rw [hs] at hle
  · exact hle
  · exact (hf a s').trans hle

theorem bind_within (hm : Within .frugal m Q) (hf : ∀ a, Spends env (f a)) :
    Spends env (m >>= f) := bind (of_within hm) hf

theorem ite {c : Prop} [Decidable c] {m' : SysM ε α} (hm : c → Spends env m) (hm' : ¬c → Spends env m') :
    Spends env (if c then m else m') := by
  split
  · exact hm ‹_›
  · exact hm' ‹_›

theorem frame {l : FrameLabel} {failed : Except ε α → Bool} (hm : Spends env m) :
    Spends env (SysM.frame l failed m) := by
  intro s
  rw [run_frame]
  exact hm ⟨s.io.startFrame.2, s.res⟩

end Spends

/-! ## The share of the callee -/

/-- The call delivers a value that its caller pays for. -/
def ExternalCallRequest.isPaid (q : ExternalCallRequest) : Prop :=
  q.modifier ≠ .constructor ∧ q.isDelegate = false ∧ q.nominalTokenValue ≠ 0

instance (q : ExternalCallRequest) : Decidable q.isPaid := inferInstanceAs (Decidable (_ ∧ _))

/-- The callee counts as a new account. -/
def CalleeAccountProperties.isEmpty (callee : CalleeAccountProperties) : Prop :=
  callee.nonce = 0 ∧ callee.unpaddedCodeLen = 0 ∧ callee.nominalTokenBalance = 0

instance (callee : CalleeAccountProperties) : Decidable callee.isEmpty := inferInstanceAs (Decidable (_ ∧ _))

/-- What the caller is charged for the value, in ergs. -/
def valueCost (q : ExternalCallRequest) : Nat := if q.isPaid then 9000 * ergsPerGas else 0

/-- What the caller is charged for a new account. -/
def creationCost (q : ExternalCallRequest) (callee : CalleeAccountProperties) : Nat :=
  if q.isPaid ∧ q.isCallcode = false ∧ callee.isEmpty then 25000 * ergsPerGas else 0

/-- What the callee gets on top of its share. -/
def stipend (q : ExternalCallRequest) : Nat := if q.isPaid then 2300 * ergsPerGas else 0

/-- All but one 64th, where the 64th is rounded down to whole gas. -/
def allButOne64th (ergs : Nat) : Nat := ergs - ergs / ergsPerGas / 64 * ergsPerGas

/-- How the resources of the caller are split: `left` ergs remain after the costs, `passed` of them go to the
callee along with the stipend and all of the native, and the others are kept. -/
structure CallShare (q : ExternalCallRequest) (callee : CalleeAccountProperties)
    (before forCallee inCaller : Resources) : Prop where
  ergs : ∃ left passed, left + valueCost q + creationCost q callee = before.ergs.toNat ∧
    passed ≤ allButOne64th left ∧ forCallee.ergs.toNat = passed + stipend q ∧ inCaller.ergs.toNat + passed = left
  native : forCallee.native = before.native
  inCaller_native : inCaller.native = 0

section Share

variable {env : Env} {s s' : Sys} {q : ExternalCallRequest} {callee : CalleeAccountProperties}

theorem stipend_le_valueCost (q : ExternalCallRequest) : stipend q ≤ valueCost q := by
  unfold stipend valueCost
  split <;> decide

theorem allButOne64th_le (n : Nat) : allButOne64th n ≤ n := Nat.sub_le _ _

theorem toNat_apply6364Rule (ergs : U64) : (apply6364Rule ergs).toNat = allButOne64th ergs.toNat := by
  rw [apply6364Rule, BitVec.toNat_ofNat]
  exact Nat.mod_eq_of_lt ((allButOne64th_le _).trans_lt ergs.isLt)

theorem toNat_gas {n : Nat} (hn : n * ergsPerGas < 2 ^ 64) : (gas n).toNat = n * ergsPerGas := by
  rw [gas, BitVec.toNat_ofNat, Nat.mod_eq_of_lt hn]

theorem payErgs_ok {e : U64} (h : (pay (.fromErgs e)).run env s = (.ok (), s')) :
    s'.res.native = s.res.native ∧ s'.res.ergs.toNat + e.toNat = s.res.ergs.toNat := by
  have hcharge : s.res.charge (.fromErgs e) = (.ok (), s'.res) :=
    Prod.ext (Prod.mk.inj h).1 (congrArg Sys.res (Prod.mk.inj h).2)
  obtain ⟨hle, -, hres⟩ := Resources.charge_ok hcharge
  have hle : e ≤ s.res.ergs := hle
  rw [hres]
  refine ⟨BitVec.sub_zero _, ?_⟩
  show (s.res.ergs - e).toNat + e.toNat = _
  rw [BitVec.toNat_sub_of_le hle]
  exact Nat.sub_add_cancel (BitVec.le_def.mp hle)

theorem payGasIf_ok {c : Prop} [Decidable c] {n : Nat} (hn : n * ergsPerGas < 2 ^ 64)
    (h : (if c then pay (.fromErgs (gas n)) else pure ()).run env s = (.ok (), s')) :
    s'.res.native = s.res.native ∧ s'.res.ergs.toNat + (if c then n * ergsPerGas else 0) = s.res.ergs.toNat := by
  split at h
  · rw [if_pos ‹c›, ← toNat_gas hn]
    exact payErgs_ok h
  · rw [if_neg ‹¬c›, ← (Prod.mk.inj h).2]
    exact ⟨rfl, rfl⟩

/-- The stipend does not overflow, because the caller paid more than that for the value. -/
theorem calculateResourcesPassed_ok {ergs : U64}
    (h : (calculateResourcesPassed q callee).run env s = (.ok ergs, s')) :
    CallShare q callee s.res ⟨ergs, s'.res.native⟩ ⟨s'.res.ergs, 0⟩ := by
  rw [calculateResourcesPassed, run_bind] at h
  obtain ⟨_, s₁, h₁, h⟩ := bind_ok.mp h
  rw [run_bind] at h
  obtain ⟨_, s₂, h₂, h⟩ := bind_ok.mp h
  rw [run_bind, bind_of_ok (run_resources env s₂), run_bind] at h
  obtain ⟨_, s₃, h₃, h⟩ := bind_ok.mp h
  cases h
  obtain ⟨hn₁, he₁⟩ := payGasIf_ok (by decide) h₁
  obtain ⟨hn₂, he₂⟩ := payGasIf_ok (by decide) h₂
  obtain ⟨hn₃, he₃⟩ := payErgs_ok h₃
  have hcost : s₂.res.ergs.toNat + valueCost q + creationCost q callee = s.res.ergs.toNat := by
    rw [← he₁, ← he₂, Nat.add_right_comm]
    rfl
  have hmax : (if q.ergsToPass ≤ apply6364Rule s₂.res.ergs then q.ergsToPass else apply6364Rule s₂.res.ergs).toNat ≤
      allButOne64th s₂.res.ergs.toNat := by
    rw [← toNat_apply6364Rule]
    split
    · exact BitVec.le_def.mp ‹_›
    · exact le_rfl
  refine ⟨⟨s₂.res.ergs.toNat, _, hcost, hmax, ?_, he₃⟩, hn₃.trans (hn₂.trans hn₁), rfl⟩
  have hle := stipend_le_valueCost q
  have hlt := s.res.ergs.isLt
  have hpassed := allButOne64th_le s₂.res.ergs.toNat
  unfold stipend at hle ⊢
  show (if q.isPaid then _ + gas 2300 else _ : U64).toNat = _
  split
  · rw [if_pos ‹_›] at hle
    rw [BitVec.toNat_add, toNat_gas (by decide)]
    exact Nat.mod_eq_of_lt (by omega)
  · rfl

theorem CallShare.reclaim_le {before forCallee inCaller left : Resources}
    (h : CallShare q callee before forCallee inCaller) (hleft : left.Le forCallee) :
    (inCaller.reclaim left).Le before := by
  obtain ⟨⟨rest, passed, hcost, -, hcallee, hkept⟩, hnative, hempty⟩ := h
  have hstipend := stipend_le_valueCost q
  have hergs := BitVec.le_def.mp hleft.ergs
  have hlt := before.ergs.isLt
  refine ⟨BitVec.le_def.mpr ?_, ?_⟩
  · show (inCaller.ergs + left.ergs).toNat ≤ _
    rw [BitVec.toNat_add_of_lt (by omega)]
    omega
  · rw [Resources.reclaim_native hempty, ← hnative]
    exact hleft.native

end Share

/-! ## Preparing a call -/

/-- The access to the callee, which is free of ergs for entry frames and for deployments. -/
def accessCallee (isEntryFrame : Bool) (callerEe : ExecutionEnvironmentType) (q : ExternalCallRequest) :
    SysM Err CalleeAccountProperties :=
  if isEntryFrame = true ∨ q.modifier = .constructor then infiniteErgs (readCalleeAccountProperties callerEe q)
  else readCalleeAccountProperties callerEe q

/-- An entry frame gets everything, any other callee its share. -/
def Share (isEntryFrame : Bool) (q : ExternalCallRequest) (callee : CalleeAccountProperties)
    (before forCallee inCaller : Resources) : Prop :=
  if isEntryFrame then forCallee = before ∧ inCaller = .empty else CallShare q callee before forCallee inCaller

section Prepare

variable {env : Env} {s s' : Sys} {isEntryFrame : Bool} {callerEe : ExecutionEnvironmentType}
  {q : ExternalCallRequest} {callee : CalleeAccountProperties}

variable {before forCallee inCaller : Resources}

theorem Share.inCaller_native (h : Share isEntryFrame q callee before forCallee inCaller) : inCaller.native = 0 := by
  unfold Share at h
  split at h
  · rw [h.2]
    rfl
  · exact h.inCaller_native

theorem Share.reclaim_le {left : Resources} (h : Share isEntryFrame q callee before forCallee inCaller)
    (hleft : left.Le forCallee) :
    (inCaller.reclaim left).Le before := by
  unfold Share at h
  split at h
  · obtain ⟨rfl, rfl⟩ := h
    rw [Resources.empty_reclaim]
    exact hleft
  · exact h.reclaim_le hleft

theorem Share.forCallee_le (h : Share isEntryFrame q callee before forCallee inCaller) : forCallee.Le before := by
  unfold Share at h
  split at h
  · rw [h.1]
    exact .refl _
  · obtain ⟨⟨rest, passed, hcost, -, hcallee, hkept⟩, hnative, -⟩ := h
    have hstipend := stipend_le_valueCost q
    refine ⟨BitVec.le_def.mpr (by omega), ?_⟩
    rw [hnative]
    exact BitVec.le_refl _

variable (env isEntryFrame callerEe q) in
theorem accessCallee_spends : Spends env (accessCallee isEntryFrame callerEe q) := by
  have hread := readCalleeAccountProperties_within Scope.frugal_hasFrames.words (q := q) trivial callerEe
  exact .of_within (.ite (fun _ => .infiniteErgs hread) fun _ => hread)

theorem splitResources_ok (h : (splitResources isEntryFrame q callee).run env s = (.ok inCaller, s')) :
    Share isEntryFrame q callee s.res s'.res inCaller := by
  unfold splitResources at h
  unfold Share
  split at h
  · rw [if_pos ‹_›]
    cases h
    exact ⟨rfl, rfl⟩
  · rw [if_neg ‹_›]
    rw [run_bind] at h
    obtain ⟨ergs, t, hcalc, h⟩ := bind_ok.mp h
    cases h
    exact calculateResourcesPassed_ok hcalc

theorem splitResources_error {e : Err} (h : (splitResources isEntryFrame q callee).run env s = (.error e, s')) :
    s'.res.Le s.res := by
  unfold splitResources at h
  split at h
  · cases h
  · rw [run_bind, bind_apply] at h
    have hle : ((calculateResourcesPassed q callee).run env s).2.res.Le s.res :=
      Spends.of_within calculateResourcesPassed_within s
    rcases hcalc : (calculateResourcesPassed q callee).run env s with ⟨_ | ergs, t⟩
    · rw [hcalc] at h hle
      cases h
      exact hle
    · rw [hcalc] at h
      cases h

theorem readCalleeAndPrepareFrameState_spec {x : Except Err (Option LaunchParams)}
    (h : (readCalleeAndPrepareFrameState isEntryFrame callerEe q).run env s = (x, s')) :
    s'.res.Le s.res ∧ ∀ p, x = .ok (some p) → ∃ u,
      (accessCallee isEntryFrame callerEe q).run env s = (.ok p.callee, u) ∧
        Share isEntryFrame q p.callee u.res s'.res p.inCaller := by
  have haccess := accessCallee_spends env isEntryFrame callerEe q s
  rw [readCalleeAndPrepareFrameState, run_bind] at h
  change ((attempt (accessCallee isEntryFrame callerEe q)).run env >>= _) s = (x, s') at h
  rw [bind_of_ok (run_attempt env _ s)] at h
  rcases hu : (accessCallee isEntryFrame callerEe q).run env s with ⟨e | callee, u⟩
  · rw [hu] at h haccess
    cases e <;> (cases h; exact ⟨haccess, fun _ h => by cases h⟩)
  · rw [hu] at h haccess
    simp only at h
    rw [run_bind, bind_of_ok (run_attempt env _ u)] at h
    rcases ht : (splitResources isEntryFrame q callee).run env u with ⟨e | inCaller, t⟩
    · rw [ht] at h
      have hle := (splitResources_error ht).trans haccess
      cases e <;> (cases h; exact ⟨hle, fun _ h => by cases h⟩)
    · rw [ht] at h
      have hshare := splitResources_ok ht
      simp only at h
      split at h
      · cases h
        exact ⟨hshare.forCallee_le.trans haccess, fun _ h => by cases h⟩
      · cases h
        refine ⟨hshare.forCallee_le.trans haccess, ?_⟩
        rintro _ ⟨⟩
        exact ⟨u, rfl, hshare⟩

end Prepare

/-! ## Running a call -/

section Run

variable {env : Env} {machine : Machine} {q : ExternalCallRequest}
  {handleCall : ExternalCallRequest → SysM Err CallResult}

theorem runOpcodes_spends {ctx : FrameContext} (hcall : ∀ q, Spends env (handleCall q)) (p : EeProg) :
    Spends env (runOpcodes handleCall ctx p) := by
  induction p with
  | exit e => exact .pure e
  | charge c k ih =>
    rw [runOpcodes]
    refine .bind_within (.attempt (.pay c)) fun r => ?_
    rcases r with e | _
    · cases e <;> first | exact .pure _ | exact .throw _
    · exact .bind_within .resources fun _ => ih _
  | op o k ih =>
    rw [runOpcodes]
    have ho : Within .frugal (o.perform ctx) fun _ => True :=
      o.perform_within Scope.frugal_hasFrames.toHasWords (fun _ => trivial) trivial fun _ _ => ⟨trivial, trivial⟩
    refine .ite (fun _ => .pure _) fun _ => .bind_within (.attempt ho) fun r => ?_
    rcases r with e | x
    · cases e <;> first | exact .pure _ | exact .throw _
    · exact .bind_within .resources fun _ => ih _ _
  | call c k ih =>
    rw [runOpcodes]
    refine .bind_within .resources fun r => ?_
    rcases c.request ctx r with _ | request
    · exact .pure _
    · refine .bind (hcall request) fun result => ?_
      cases result with
      | preparationStepFailed => exact .pure _
      | failed d => exact .bind_within .resources fun _ => ih _ _
      | successful d => exact .bind_within .resources fun _ => ih _ _

theorem calleeFrame_spends (hcall : ∀ q, Spends env (handleCall q)) (p : LaunchParams) :
    Spends env (calleeFrame machine handleCall p q) := by
  have ho := Scope.frugal_hasFrames.toOpen
  unfold calleeFrame
  split
  · exact .ite (fun _ => .throw _) fun _ => .pure _
  · refine .bind_within (startExecutingFrame_within (fun _ => ho) trivial) fun ctx => .bind (runOpcodes_spends hcall _) fun e => ?_
    exact .of_within (endFrame_within (fun _ => ⟨trivial, trivial⟩) trivial e)

theorem executeCall_spends (hcall : ∀ q, Spends env (handleCall q)) (depth : Nat)
    (callerEe : ExecutionEnvironmentType) (p : LaunchParams) :
    Spends env (executeCall machine handleCall depth callerEe p q) := by
  have hq : q.In .frugal := ⟨trivial, trivial⟩
  refine .bind_within (beforeExecutingFrame_within (fun _ => Scope.frugal_hasFrames.toOpen) hq.1 depth) fun _ =>
    .ite (fun _ => .pure _) fun _ => .frame ?_
  refine .bind_within (performTransferIfRequired_within hq trivial callerEe) fun _ => .ite (fun _ => .pure _) fun _ => ?_
  rcases hhook : hookFor machine q with _ | hook
  · exact calleeFrame_spends hcall p
  · exact .ite (fun _ => .pure _) fun _ => .of_within (hookFor_within Scope.frugal_hasFrames hq hhook)

/-- By induction on the depth of the calls that are left: what the calls of the callee use is taken from the
callee's share. -/
theorem handleRequestedExternalCall_spends (fuel depth : Nat) (isEntryFrame : Bool)
    (callerEe : ExecutionEnvironmentType) (q : ExternalCallRequest) :
    Spends env (handleRequestedExternalCall machine fuel depth isEntryFrame callerEe q) := by
  induction fuel generalizing depth isEntryFrame callerEe q with
  | zero => exact .throw _
  | succ fuel ih =>
    intro s
    rw [handleRequestedExternalCall, run_bind, bind_apply]
    rcases ht : (readCalleeAndPrepareFrameState isEntryFrame callerEe q).run env s with ⟨e | _ | p, t⟩
    · exact (readCalleeAndPrepareFrameState_spec ht).1
    · exact (readCalleeAndPrepareFrameState_spec ht).1
    obtain ⟨hle, hprepared⟩ := readCalleeAndPrepareFrameState_spec ht
    obtain ⟨u, hu, hshare⟩ := hprepared p rfl
    have haccess := accessCallee_spends env isEntryFrame callerEe q s
    rw [hu] at haccess
    have hcallee := @executeCall_spends env machine q _ (ih (depth + 1) false .evm) depth callerEe p t
    simp only [run_bind, bind_apply]
    rcases hv : (executeCall machine (handleRequestedExternalCall machine fuel (depth + 1) false .evm) depth
      callerEe p q).run env t with ⟨e | result, v⟩ <;> rw [hv] at hcallee
    · exact hcallee.trans hle
    · simp only [run_resources, run_require, Action.require, hshare.inCaller_native]
      exact (hshare.reclaim_le hcallee).trans haccess

end Run

/-! ## Conservation -/

/-- A call adds no resources, whatever it calls and however it ends. When the callee starts, the caller has paid
for the access and the value, keeps no native, and has given up at most all but one 64th of its ergs. -/
theorem call_resources_conserved (env : Env) (machine : Machine) (fuel depth : Nat) (isEntryFrame : Bool)
    (callerEe : ExecutionEnvironmentType) (q : ExternalCallRequest) (s : Sys) :
    ((handleRequestedExternalCall machine fuel depth isEntryFrame callerEe q).run env s).2.res.Le s.res ∧
      ∀ p t, (readCalleeAndPrepareFrameState isEntryFrame callerEe q).run env s = (.ok (some p), t) →
        p.inCaller.native = 0 ∧
          ∃ u, (accessCallee isEntryFrame callerEe q).run env s = (.ok p.callee, u) ∧ u.res.Le s.res ∧
            Share isEntryFrame q p.callee u.res t.res p.inCaller := by
  refine ⟨handleRequestedExternalCall_spends fuel depth isEntryFrame callerEe q s, fun p t ht => ?_⟩
  obtain ⟨u, hu, hshare⟩ := (readCalleeAndPrepareFrameState_spec ht).2 p rfl
  have haccess := accessCallee_spends env isEntryFrame callerEe q s
  rw [hu] at haccess
  exact ⟨hshare.inCaller_native, u, hu, haccess, hshare⟩

/-! A caller with 63 gas left after the access gives all of it away: the 64th is rounded down to whole gas. -/

def noState : Env where
  slot _ _ _ := (0, true)
  preimage _ _ := []
  blake _ := 1
  keccak _ := 0
  ecrecover _ _ _ _ := none
  proofEnv := true

def plainCall : ExternalCallRequest where
  ergsToPass := gas 63
  callersCaller := 0
  caller := 0x1111
  callee := 0x2222
  modifier := .noModifier
  input := []
  nominalTokenValue := 0

/-- A cold access costs 2600. -/
def poorCaller : Sys := ⟨Io.new.beginNextTx, ⟨gas 2663, 1000000⟩⟩

def plainCallPrepared : Except Err (Option LaunchParams) × Sys :=
  (readCalleeAndPrepareFrameState false .evm plainCall).run noState poorCaller

theorem plainCallPrepared_ok : ∃ p t, plainCallPrepared = (.ok (some p), t) ∧ t.res.ergs = gas 63 := by
  obtain ⟨x, t, h, hx⟩ := exists_ok_of_any (x := plainCallPrepared)
    (f := fun x t => x.isSome && decide (t.res.ergs = gas 63)) (by decide +kernel)
  obtain ⟨hsome, hergs⟩ := (Bool.and_eq_true _ _).mp hx
  obtain ⟨p, rfl⟩ := Option.isSome_iff_exists.mp hsome
  exact ⟨p, t, h, of_decide_eq_true hergs⟩

theorem callee_share_above_63_64 : ∃ p t u, plainCallPrepared = (.ok (some p), t) ∧
    (accessCallee false .evm plainCall).run noState poorCaller = (.ok p.callee, u) ∧
      stipend plainCall = 0 ∧ 63 * u.res.ergs.toNat < 64 * t.res.ergs.toNat := by
  obtain ⟨p, t, hp, ht⟩ := plainCallPrepared_ok
  obtain ⟨u, hu, -⟩ := (readCalleeAndPrepareFrameState_spec hp).2 p rfl
  refine ⟨p, t, u, hp, hu, by decide, ?_⟩
  have hleft : u.res.ergs = gas 63 := by
    rw [← congrArg (fun x => x.2.res.ergs) hu]
    decide +kernel
  rw [hleft, ht]
  decide

theorem call_resources_conserved_plainCall : ∃ p t, plainCallPrepared = (.ok (some p), t) ∧
    p.inCaller.native = 0 ∧
      ∃ u, (accessCallee false .evm plainCall).run noState poorCaller = (.ok p.callee, u) ∧
        u.res.Le poorCaller.res ∧ CallShare plainCall p.callee u.res t.res p.inCaller := by
  obtain ⟨p, t, hp, -⟩ := plainCallPrepared_ok
  exact ⟨p, t, hp, (call_resources_conserved noState ⟨fun _ => .exit .error, fun _ _ => (.empty, none)⟩ 1 0 false .evm
    plainCall poorCaller).2 p t hp⟩

end ZkOs
