import ZkOs.Bootloader.Native
import ZkOs.Bootloader.Trace
import ZkOs.State.Deconstruction

/-!
# Self-destruction and creation in one transaction

An account is marked for deconstruction by a `SELFDESTRUCT` in its own constructor frame or after its
code was deployed in the transaction. A frame that a constructor reaches by a delegate call is neither,
although it runs in the context of an account that the transaction creates.

* `MarkEvent` : what a kept operation that sets a mark is;
* `txProgram_keepsMarks` : all kept operations of an included transaction are of this kind;
* `selfdestruct_deconstructs` : which accounts are deconstructed, from the kept events;
* `selfdestruct_in_delegate_frame_survives` : an account that is not.
-/

namespace ZkOs.Bootloader

open SysM ZkOs.Action FrameProgram History

variable {env : Env} {cfg : Config} {machine : Machine} {block : BlockMetadata}

/-! ## Kept marks -/

/-- A kept operation that sets a mark succeeded, and the frame it was performed in shows what it is:
code is deployed by the constructor of its account, and `SELFDESTRUCT` sees the constructor flag in the
constructor of its account only. -/
structure MarkEvent (env : Env) (l : Option FrameLabel) (io : Io) (q : IoQuery) : Prop where
  deploy : ∀ a, q.1.deploysAt = some a → q.Succeeds env io
  create : ∀ a, q.1.createsAt = some a → ∃ caller, l = some (.call .constructor caller a)
  destroy : ∀ a c, q.1.destroysAt = some (a, c) → q.Succeeds env io ∧
    (c = true ↔ ∃ caller, l = some (.call .constructor caller a))

def MarkEvents (env : Env) (es : List IoEvent) : Prop := ∀ l io q, .op l io q ∈ es → MarkEvent env l io q

namespace MarkEvents

theorem singleton {l : Option FrameLabel} {io : Io} {q : IoQuery} (h : MarkEvent env l io q) :
    MarkEvents env [.op l io q] := by
  intro l' io' q' hmem
  cases List.mem_singleton.mp hmem
  exact h

theorem composes : Composes (MarkEvents env) where
  nil _ _ _ h := absurd h List.not_mem_nil
  append := by
    intro es es' h h' l io q hq
    exact (List.mem_append.mp hq).elim (h l io q) (h' l io q)
  enter := by
    intro l l' io q hq
    cases List.mem_singleton.mp hq

theorem unmarked (l : Option FrameLabel) (io : Io) (q : IoQuery) (h : q.1.scope.Le .unmarked) :
    MarkEvents env [.op l io q] := by
  rcases q with ⟨o, r⟩
  cases o with
  | deployCode => exact (h.deploys trivial).elim
  | setBytecodeDetails => exact (h.deploys trivial).elim
  | markForDeconstruction => exact (h.destroys trivial).elim
  | _ => exact singleton ⟨nofun, nofun, nofun⟩

theorem hasWords : Scope.unmarked.HasWords := ⟨⟨trivial, trivial⟩, fun _ => trivial⟩

theorem plain_le : (Scope.plain fun _ => True).Le .unmarked :=
  ⟨fun _ _ => trivial, fun _ _ => trivial, fun _ => trivial, nofun, nofun, fun _ _ => trivial, fun _ => trivial,
    fun _ => trivial, fun _ => trivial, fun _ => trivial⟩

theorem law : TraceLaw env (fun _ => True) (MarkEvents env) where
  toComposes := composes
  plain l io q h := unmarked l io q (h.trans plain_le)
  transfer l io a b v r h := singleton ⟨nofun, nofun, nofun⟩
  destroy m caller callee io a b r ha h := by
    refine singleton ⟨nofun, nofun, fun a' c hq => ?_⟩
    cases hq
    refine ⟨h, fun hm => ?_, fun ⟨caller', hl⟩ => ?_⟩
    · have hm := of_decide_eq_true hm
      exact ⟨caller, by rw [hm, ha hm]⟩
    · cases hl
      rfl
  deploy caller a io code r h := by
    refine singleton ⟨fun _ _ => h, fun a' hq => ?_, nofun⟩
    cases hq
    exact ⟨caller, rfl⟩
  force l io a h n m oh k r hs := singleton ⟨fun _ _ => hs, nofun, nofun⟩
  withdraw m caller callee calldata sender value isStatic :=
    .of_within composes unmarked (l2BaseTokenHookInner_within hasWords.toOpen trivial trivial trivial calldata value isStatic)

end MarkEvents

/-! ## A whole transaction -/

section Transaction

variable {l : Option FrameLabel}

theorem bind_unmarked {ε α β : Type} {Q : α → Prop} {m : SysM ε α} {f : α → SysM ε β} {G : β → Prop}
    (hm : Within .unmarked m Q) (hf : ∀ a, Q a → Keeps env (MarkEvents env) l (f a) G) :
    Keeps env (MarkEvents env) l (m >>= f) G := .bind_within MarkEvents.composes MarkEvents.unmarked hm hf

theorem keeps_unmarked {ε α : Type} {m : SysM ε α} {G : α → Prop} (hm : Within .unmarked m fun _ => True) :
    Keeps env (MarkEvents env) l m G := .of_within MarkEvents.composes MarkEvents.unmarked hm

theorem processL2Transaction_keepsMarks (tx : L2Transaction) :
    Keeps env (MarkEvents env) l (processL2Transaction env cfg machine block tx) fun _ => True := by
  refine .bind MarkEvents.composes (G := fun _ => True) ?_ (fun x _ => ?_) fun _ h => absurd trivial h
  · unfold l2UntilRefund
    split
    · exact .throw _
    · split
      · exact .throw _
      · refine bind_unmarked (setResources_within trivial _) fun _ _ => ?_
        refine .bind MarkEvents.composes (G := fun _ => True) ?_
          (fun _ _ => keeps_unmarked (.bind (.mapError _ (pubdataCharge_within _ _ _)) fun _ _ => .pure _ trivial))
          fun _ h => absurd trivial h
        refine bind_unmarked (l2Validation_within MarkEvents.hasWords trivial trivial block _ _) fun x _ => ?_
        refine .bind MarkEvents.composes (executeInFrame_keeps MarkEvents.law (fun _ _ => trivial) trivial _ _ _)
          (fun _ _ => ?_) fun _ h => absurd trivial h
        exact keeps_unmarked (.bind .resources fun _ _ => .bind (setResources_within trivial _) fun _ _ => .pure _ trivial)
  · exact keeps_unmarked (.bind (.mapError _ (computeGasRefund_within trivial _ _ _)) fun _ _ =>
      .bind (refundAndPayOperator_within trivial trivial trivial _ _ _) fun _ _ => .pure _ trivial)

theorem mintAndCall_keepsMarks (tx : L1Transaction) :
    Keeps env (MarkEvents env) l (mintAndCall machine tx) fun _ => True := by
  refine bind_unmarked (Q := fun _ => True) (.ite (fun _ => ?_) fun _ => .pure _ trivial) fun _ _ => .onClone ?_
  · exact .infiniteErgs (mintToken_within trivial trivial _)
  · exact MarkEvents.law.runSingleInteraction_keeps (fun _ _ => trivial) _ _ _ _ trivial

theorem executeL1InFrame_keepsMarks (tx : L1Transaction) (npp : U256) (withheld : Resources) :
    Keeps env (MarkEvents env) l (executeL1InFrame machine tx npp withheld) fun _ => True := by
  refine .bind MarkEvents.composes (.attempt_frame MarkEvents.composes ?_) (fun r _ => keeps_unmarked ?_)
    fun r hr => ⟨.unmarked, ?_⟩
  · refine .bind MarkEvents.composes (G := fun _ => True) (.frame MarkEvents.composes ?_) (fun _ _ => keeps_unmarked ?_)
      fun _ h => absurd trivial h
    · exact (mintAndCall_keepsMarks tx).mono fun _ _ => trivial
    · refine .bind .resources fun _ _ => .bind (setResources_within trivial _) fun _ _ => .bind .resources fun _ _ => ?_
      exact .bind (Q := fun _ => True) (.bind (getResourcesToChargeForPubdata_within _ _) fun _ _ => .pure _ trivial)
        fun _ _ => .pure _ trivial
  · rcases r with e | _
    · cases e <;> first | exact .throw _ | exact .bind .exhaustErgs fun _ _ => .pure _ trivial
    · exact .pure _ trivial
  · rcases r with e | x
    · cases e <;> first | exact absurd (.inl rfl) hr | exact .throw _
    · exact absurd (.inr ⟨x, rfl⟩) hr

theorem processL1Transaction_keepsMarks (tx : L1Transaction) :
    Keeps env (MarkEvents env) l (processL1Transaction env machine block tx) fun _ => True := by
  refine bind_unmarked (orInternal_within _) fun prices _ => ?_
  split
  · exact .throw _
  · refine bind_unmarked (setResources_within trivial _) fun _ _ => bind_unmarked (orInternal_within _) fun _ _ =>
      bind_unmarked (orInternal_within _) fun _ _ => bind_unmarked (.require _ _) fun _ _ =>
      bind_unmarked (.attempt (.pay _)) fun hashed _ => ?_
    refine .bind MarkEvents.composes (G := fun _ => True) ?_ (fun x _ => keeps_unmarked ?_) fun _ h => absurd trivial h
    · rcases hashed with e | _
      · exact keeps_unmarked (.bind .exhaustErgs fun _ _ => .pure _ trivial)
      · exact executeL1InFrame_keepsMarks tx _ _
    · refine .bind (.mapError _ (pubdataCharge_within _ _ _)) fun _ _ => ?_
      refine .bind (.mapError _ (computeGasRefund_within trivial _ _ _)) fun _ _ => ?_
      exact .bind (l1PayAndLog_within MarkEvents.hasWords trivial trivial trivial _ _ _) fun _ _ => .pure _ trivial

theorem txProgram_keepsMarks (b : BlockData) (tx : IncomingTx) :
    Keeps env (MarkEvents env) l (txProgram env cfg machine block b tx) fun o => ∃ r b', o = .included r b' := by
  refine bind_unmarked (.attempt (.paidFrom _ (.readAccount _ trivial _ _))) fun heated _ => ?_
  rcases heated with e | _
  · exact .pure MarkEvents.composes _
  · refine .frame MarkEvents.composes (Keeps.mono (G := fun o => ∃ r b', o = .included r b') (fun _ h => h.2) ?_)
    refine .bind MarkEvents.composes (.attempt (G := fun _ => True) ?_) (fun r _ => ?_) fun r hr => ⟨.unmarked, ?_⟩
    · cases tx with
      | unreadable => exact .throw _
      | undecodable => exact .throw _
      | l2 tx => exact processL2Transaction_keepsMarks tx
      | l1 tx => exact .ite (fun _ => .throw _) fun _ => processL1Transaction_keepsMarks tx
    · rcases r with e | r
      · cases e <;> exact .pure MarkEvents.composes _
      · refine keeps_unmarked (.bind (.attempt (.reading _ rfl (List.forall_mem_nil _))) fun logs _ => ?_)
        simp only
        split <;> exact .pure _ trivial
    · rcases r with e | r
      · cases e <;> exact .pure _ fun ⟨_, _, h⟩ => nomatch h
      · exact absurd ⟨r, rfl, trivial⟩ hr

end Transaction

/-! ## Marks along a run -/

section Run

/-- The marks of an account, and the transaction they are compared with. -/
def markState (a : B160) (io : Io) : Marks × Nat := (io.marks a, io.accounts.currentTxId)

theorem markState_undo {β : Type} (body : ZkOs.Prog β) (a : B160) (io : Io) :
    markState a ((Io.handler env).undo ((Io.handler env).mark io).1
      (body.run (Io.handler env) ((Io.handler env).mark io).2).2) = markState a io := by
  have h := Io.undo_loads (@Io.run_extends env _ body io.startFrame.2)
  exact Prod.ext (h.marks_eq a) h.accountsTx

theorem exec_accountsTx (q : IoQuery) (io : Io) :
    ((Io.handler env).exec q io).2.accounts.currentTxId = io.accounts.currentTxId :=
  (Io.Extends.of_steps (Io.handler_steps env q io)).accountsTx

variable {a : B160} {q : IoQuery} {io : Io}

theorem deconstructed_persists (h : (io.marks a).deconstructed = true) :
    (((Io.handler env).exec q io).2.marks a).deconstructed = true := by
  rcases Io.exec_marks env io q with hm | ⟨b, -, hm⟩ | ⟨b, c, -, hm⟩
  · rw [hm, h]
  · by_cases hab : a = b
    · rw [hab, hm.marks_self, ← hab]
      exact h
    · rw [hm.marks_of_ne a hab, h]
  · by_cases hab : a = b
    · rw [hab, hm.marks_self, ← hab, h]
      rfl
    · rw [hm.marks_of_ne a hab, h]

theorem deconstructed_cause (h : (io.marks a).deconstructed ≠ true)
    (h' : (((Io.handler env).exec q io).2.marks a).deconstructed = true) :
    ∃ c, q.1.destroysAt = some (a, c) ∧ ((io.marks a).deployedInTx = some io.accounts.currentTxId ∨ c = true) := by
  rcases Io.exec_marks env io q with hm | ⟨b, -, hm⟩ | ⟨b, c, hq, hm⟩
  · rw [hm] at h'
    exact absurd h' h
  · by_cases hab : a = b
    · subst hab
      rw [hm.marks_self] at h'
      exact absurd h' h
    · rw [hm.marks_of_ne a hab] at h'
      exact absurd h' h
  · by_cases hab : a = b
    · subst hab
      refine ⟨c, hq, ?_⟩
      rw [hm.marks_self, Bool.eq_false_iff.mpr h, Bool.false_or] at h'
      exact of_decide_eq_true h'
    · rw [hm.marks_of_ne a hab] at h'
      exact absurd h' h

theorem deployedInTx_exec (q : IoQuery) (io : Io) (a : B160) :
    (((Io.handler env).exec q io).2.marks a).deployedInTx = (io.marks a).deployedInTx ∨
      q.1.deploysAt = some a ∧
        (((Io.handler env).exec q io).2.marks a).deployedInTx = some io.accounts.currentTxId := by
  rcases Io.exec_marks env io q with hm | ⟨b, hq, hm⟩ | ⟨b, c, hq, hm⟩
  · exact .inl (by rw [hm])
  · by_cases hab : a = b
    · subst hab
      exact .inr ⟨hq, by rw [hm.marks_self]⟩
    · exact .inl (by rw [hm.marks_of_ne a hab])
  · by_cases hab : a = b
    · subst hab
      exact .inl (by rw [hm.marks_self])
    · exact .inl (by rw [hm.marks_of_ne a hab])

end Run

/-! ## The block loop -/

/-- Between transactions nothing is marked and no deployment counts as one of the next transaction. -/
structure TxStart (io : Io) : Prop where
  deconstructed : ∀ a, (io.marks a).deconstructed = false
  deployedInTx : ∀ a t, (io.marks a).deployedInTx = some t → t < io.accounts.currentTxId

theorem TxStart.new : TxStart .new := ⟨fun _ => rfl, fun _ _ h => nomatch h⟩

/-- The events of a round of the loop that were not undone. -/
def keptEvents (env : Env) (cfg : Config) (machine : Machine) (block : BlockMetadata) (b : BlockData) (io : Io)
    (tx : IncomingTx) : List IoEvent :=
  (txProgram env cfg machine block b tx).kept env none ⟨io.beginNextTx, .empty⟩

section Loop

variable {b b' : BlockData} {io io' : Io} {tx : IncomingTx} {r : TxProcessingResult}

theorem keptEvents_chain (b : BlockData) (io : Io) (tx : IncomingTx) (a : B160) :
    Prog.Chain (Io.handler env) (markState a) io.beginNextTx (keptEvents env cfg machine block b io tx)
      ((txProgram env cfg machine block b tx).run env ⟨io.beginNextTx, .empty⟩).2.io :=
  Prog.kept_chain (fun _ => rfl) (fun body s => markState_undo body a s) none _ _

theorem base_marks {last : Io} (h : Io.Extends env io.beginNextTx last) {a : B160} {e : Element AccountRecord}
    (he : last.accounts.cache.elems a = some e) : AccountRecord.marks e.base = io.marks a := by
  have hlt := io.beginNextTx.accounts.cache.frozen_lt
  rw [← Io.beginNextTx_marks]
  rcases h₀ : io.beginNextTx.accounts.cache.elems a with _ | e₀
  · obtain ⟨v, hv, hroll⟩ := h.accounts.elems_none a e h₀ he
    have hbase : e.base = v := by rw [← Element.rollback_base, hroll _ hlt, Element.new_base]
    rw [hbase, hv.marks, Io.marks, h₀]
    rfl
  · obtain ⟨e', he', hroll⟩ := h.accounts.elems_some a e₀ h₀
    cases he.symm.trans he'
    have hbase : e.base = e₀.base := by rw [← Element.rollback_base, hroll _ hlt, Element.rollback_base]
    rw [hbase, Io.marks_of_elems h₀]
    -- the start of a transaction is a commit
    have hc : ∃ e₁, io.accounts.cache.elems a = some e₁ ∧ e₁.commit = e₀ := by
      have h₁ : io.accounts.cache.commit.elems a = some e₀ := h₀
      rw [HistoryMap.commit_elems] at h₁
      exact Option.map_eq_some_iff.mp h₁
    obtain ⟨e₁, -, rfl⟩ := hc
    rw [Element.commit_base, Element.commit_current]

/-- A mark that was set in this transaction is in a record since its start. -/
theorem markedSinceCommit (hio : TxStart io) {last : Io} (h : Io.Extends env io.beginNextTx last) {a : B160}
    (ha : (last.marks a).deconstructed = true) : last.MarkedSinceCommit a := by
  refine ⟨ha, ?_⟩
  rcases he : last.accounts.cache.elems a with _ | e
  · rw [Io.marks, he] at ha
    cases ha
  · rw [Io.marks_of_elems he] at ha
    -- without such a record the current one is that of the start
    have hrecent : e.recent ≠ [] := by
      intro hnil
      have hcur : e.current = e.base := by rw [Element.current, hnil]; rfl
      rw [hcur, base_marks h he, hio.deconstructed a] at ha
      cases ha
    obtain ⟨r, hr⟩ := List.exists_mem_of_ne_nil _ hrecent
    exact List.mem_map_of_mem (last.accounts.cache.wf.recent_pending a e he r hr)

theorem run_extends_of {s : Sys} {x : Except Empty TxOutcome}
    (h : (txProgram env cfg machine block b tx).run env ⟨io.beginNextTx, .empty⟩ = (x, s)) :
    Io.Extends env io.beginNextTx s.io := by
  have hext := @Io.run_extends env _ (txProgram env cfg machine block b tx .empty) io.beginNextTx
  have hs : ((txProgram env cfg machine block b tx .empty).run (Io.handler env) io.beginNextTx).2 = s.io :=
    congrArg (fun y => y.2.io) h
  rwa [hs] at hext

theorem keptEvents_of_rejected {e : InvalidTransaction} {s : Sys}
    (h : (txProgram env cfg machine block b tx).run env ⟨io.beginNextTx, .empty⟩ = (.ok (.rejected e), s)) :
    keptEvents env cfg machine block b io tx =
      [.op none io.beginNextTx (.readAccount .noEE block.coinbase false false, .infinite)] := by
  unfold txProgram at h
  rw [run_bind] at h
  obtain ⟨heated, s₁, h₁, h₂⟩ := bind_ok.mp h
  rw [keptEvents, txProgram, kept_bind_ok h₁, kept_attempt, free, kept_paidFrom]
  rcases heated with e | x
  · cases h₂
  · rw [kept_frame]
    rw [run_frame] at h₂
    rw [(Prod.mk.inj h₂).1]
    rfl

theorem TxStart.runTx (hio : TxStart io) (h : (runTx env cfg machine block b io tx).1 ≠ .aborted) :
    TxStart (runTx env cfg machine block b io tx).2 := by
  by_cases htx : tx = .unreadable
  · subst htx
    exact hio
  rw [runTx_eq htx] at h ⊢
  rcases hx : (txProgram env cfg machine block b tx).run env ⟨io.beginNextTx, .empty⟩ with ⟨e | o, s⟩
  · exact e.elim
  have hext := run_extends_of hx
  have hchain := @keptEvents_chain env cfg machine block b io tx
  rw [hx] at h hchain
  have hstart : ∀ a t, (io.beginNextTx.marks a).deployedInTx = some t → t ≤ io.beginNextTx.accounts.currentTxId := by
    intro a t ht
    rw [Io.beginNextTx_marks] at ht
    exact Nat.le_of_lt (hio.deployedInTx a t ht)
  cases o with
  | aborted => exact absurd rfl h
  | included r b' =>
    have hle : ∀ a t, (s.io.marks a).deployedInTx = some t → t ≤ s.io.accounts.currentTxId := by
      intro a
      refine (hchain a).persists (F := fun x => ∀ t, x.1.deployedInTx = some t → t ≤ x.2) (fun l u q _ hu t ht => ?_)
        (hstart a)
      simp only [markState] at hu ht ⊢
      rw [exec_accountsTx]
      rcases deployedInTx_exec q u a with hq | ⟨-, hq⟩
      · exact hu t (hq ▸ ht)
      · cases hq.symm.trans ht
        exact Nat.le_refl _
    have hmarks : ∀ a, s.io.finishTx.marks a = ⟨(s.io.marks a).deployedInTx, false⟩ :=
      fun a => Io.finishTx_marks (markedSinceCommit hio hext)
    refine ⟨fun a => by rw [hmarks], fun a t ht => ?_⟩
    rw [hmarks] at ht
    exact Nat.lt_succ_of_le (hle a t ht)
  | rejected e =>
    have heq : ∀ a, markState a s.io = markState a io.beginNextTx := by
      intro a
      have hc := hchain a
      rw [keptEvents_of_rejected hx] at hc
      refine (show markState a s.io = _ from hc.2).trans (Prod.ext ?_ (exec_accountsTx _ _))
      refine (@Io.Steps.mono env _ .unmarked ?_ _ _ (Io.handler_steps env _ io.beginNextTx)).marks_eq id id a
      exact IoOp.scope_le_of_isReading rfl fun _ _ => trivial
    refine ⟨fun a => ?_, fun a t ht => ?_⟩
    · have := congrArg (fun x => x.1.deconstructed) (heq a)
      simp only [markState, Io.beginNextTx_marks] at this
      exact this.trans (hio.deconstructed a)
    · have h₁ := congrArg (fun x => x.1) (heq a)
      have h₂ := congrArg (fun x => x.2) (heq a)
      simp only [markState, Io.beginNextTx_marks] at h₁ h₂
      rw [h₂]
      exact hio.deployedInTx a t (h₁ ▸ ht)

theorem TxStart.runTxs {s s' : BlockRun} {txs : List IncomingTx} (hs : TxStart s.io)
    (h : runTxs env cfg machine block s txs = some s') : TxStart s'.io := by
  induction txs generalizing s with
  | nil =>
    cases h
    exact hs
  | cons tx txs ih =>
    have hnext := @TxStart.runTx env cfg machine block s.data s.io tx hs
    rw [Bootloader.runTxs] at h
    rcases hx : Bootloader.runTx env cfg machine block s.data s.io tx with ⟨o, io⟩
    rw [hx] at hnext
    simp only [hx] at h
    cases o with
    | included r b => exact ih (hnext nofun) h
    | rejected e => exact ih (hnext nofun) h
    | aborted => cases h

end Loop

/-! ## Which accounts are deconstructed -/

/-- A kept frame is the constructor of the account. -/
def Created (es : List IoEvent) (a : B160) : Prop := ∃ caller, .enter (.call .constructor caller a) ∈ es

/-- A kept operation sets the code of the account, at the end of its constructor or by force. -/
def Deployed (es : List IoEvent) (a : B160) : Prop := ∃ l u q, .op l u q ∈ es ∧ q.1.deploysAt = some a

/-- A kept operation sets the code of the account for a protocol upgrade. -/
def ForciblyDeployed (es : List IoEvent) (a : B160) : Prop :=
  ∃ l u q, .op l u q ∈ es ∧ q.1.deploysAt = some a ∧ q.1.createsAt = none

/-- A kept `SELFDESTRUCT` of the account, in its own constructor frame or after its code was set. -/
def SelfDestructed (es : List IoEvent) (a : B160) : Prop :=
  ∃ es₁ l u q c es₂, es = es₁ ++ .op l u q :: es₂ ∧ q.1.destroysAt = some (a, c) ∧
    ((∃ caller, l = some (.call .constructor caller a)) ∨ Deployed es₁ a)

/-- The account is trivial and all its cached slots are zero. -/
def Cleared (io : Io) (a : B160) : Prop :=
  (∃ e, io.accounts.cache.elems a = some e ∧ e.current.value = .trivial) ∧
    ∀ key e, io.storage.cache.elems (a, key) = some e → e.current.value = 0

def Untouched (io io' : Io) (a : B160) : Prop :=
  io'.accounts.cache.elems a = io.accounts.cache.elems a ∧
    ∀ key, io'.storage.cache.elems (a, key) = io.storage.cache.elems (a, key)

section Main

variable {b b' : BlockData} {io : Io} {tx : IncomingTx} {r : TxProcessingResult} {s : Sys}

theorem marked_iff (hio : TxStart io)
    (hx : (txProgram env cfg machine block b tx).run env ⟨io.beginNextTx, .empty⟩ = (.ok (.included r b'), s))
    (a : B160) :
    (s.io.marks a).deconstructed = true ↔ SelfDestructed (keptEvents env cfg machine block b io tx) a := by
  have hevents : MarkEvents env (keptEvents env cfg machine block b io tx) :=
    txProgram_keepsMarks b tx _ _ _ hx ⟨r, b', rfl⟩
  have hchain := @keptEvents_chain env cfg machine block b io tx a
  rw [hx] at hchain
  constructor
  · intro hs
    -- the last mark was set by some operation
    rcases hchain.cause (F := fun x => x.1.deconstructed = true) hs with h₀ | ⟨es₁, l, u, q, es₂, hes, hu, hu'⟩
    · simp only [markState, Io.beginNextTx_marks, hio.deconstructed a] at h₀
      exact nomatch h₀
    obtain ⟨c, hq, hcause⟩ := deconstructed_cause hu hu'
    refine ⟨es₁, l, u, q, c, es₂, hes, hq, ?_⟩
    have hmem : .op l u q ∈ keptEvents env cfg machine block b io tx := by
      rw [hes]
      exact List.mem_append_right _ List.mem_cons_self
    rcases hcause with hdep | hc
    · -- so was the mark of the deployment
      rw [hes] at hchain
      obtain ⟨t, h₁, h₂⟩ := hchain.of_append
      have hut : markState a t = markState a u := h₂.1.symm
      rcases h₁.cause (F := fun x => x.1.deployedInTx = some x.2) (by rw [hut]; exact hdep) with h₀ | ⟨es₃, l', u', q', es₄, rfl, hn, hy⟩
      · simp only [markState, Io.beginNextTx_marks] at h₀
        exact absurd (hio.deployedInTx a _ h₀) (Nat.lt_irrefl _)
      · refine .inr ⟨l', u', q', List.mem_append_right _ List.mem_cons_self, ?_⟩
        rcases @deployedInTx_exec env q' u' a with hsame | ⟨hq', -⟩
        · simp only [markState, exec_accountsTx, hsame] at hn hy
          exact absurd hy hn
        · exact hq'
    · exact .inl (((hevents l u q hmem).destroy a c hq).2.mp hc)
  · rintro ⟨es₁, l, u, q, c, es₂, hes, hq, hcond⟩
    have hmem : .op l u q ∈ keptEvents env cfg machine block b io tx := by
      rw [hes]
      exact List.mem_append_right _ List.mem_cons_self
    obtain ⟨hsucc, hc⟩ := (hevents l u q hmem).destroy a c hq
    have hdestroys := Io.exec_destroysAt hq hsucc
    rw [hes] at hchain
    obtain ⟨t, h₁, h₂⟩ := hchain.of_append
    have hshould : (u.marks a).deployedInTx = some u.accounts.currentTxId ∨ c = true := by
      rcases hcond with hl | ⟨l', u', q', hmem', hq'⟩
      · exact .inr (hc.mpr hl)
      · refine .inl ?_
        obtain ⟨es₃, es₄, rfl⟩ := List.append_of_mem hmem'
        have hall : .op l' u' q' ∈ keptEvents env cfg machine block b io tx := by
          rw [hes]
          exact List.mem_append_left _ hmem'
        have hdep := Io.exec_deploysAt hq' ((hevents l' u' q' hall).deploy a hq')
        obtain ⟨t', -, h₃⟩ := h₁.of_append
        have ht : (markState a t).1.deployedInTx = some (markState a t).2 := by
          refine h₃.2.persists (F := fun x => x.1.deployedInTx = some x.2) (fun l₀ u₀ q₀ _ hu₀ => ?_) ?_
          · simp only [markState, exec_accountsTx] at hu₀ ⊢
            rcases @deployedInTx_exec env q₀ u₀ a with h | ⟨-, h⟩
            · rw [h, hu₀]
            · exact h
          · simp only [markState, exec_accountsTx, hdep.marks_self]
        have hut : markState a u = markState a t := h₂.1
        rw [← hut] at ht
        exact ht
    refine h₂.2.persists (F := fun x => x.1.deconstructed = true) (fun _ _ _ _ h => deconstructed_persists h) ?_
    simp only [markState, hdestroys.marks_self, decide_eq_true hshould, Bool.or_true]

theorem created_of_selfDestructed
    (hx : (txProgram env cfg machine block b tx).run env ⟨io.beginNextTx, .empty⟩ = (.ok (.included r b'), s))
    {a : B160} (h : SelfDestructed (keptEvents env cfg machine block b io tx) a) :
    Created (keptEvents env cfg machine block b io tx) a ∨
      ForciblyDeployed (keptEvents env cfg machine block b io tx) a := by
  have hevents : MarkEvents env (keptEvents env cfg machine block b io tx) :=
    txProgram_keepsMarks b tx _ _ _ hx ⟨r, b', rfl⟩
  have hcreated : ∀ {l u q}, .op l u q ∈ keptEvents env cfg machine block b io tx →
      (∃ caller, l = some (.call .constructor caller a)) →
      Created (keptEvents env cfg machine block b io tx) a := by
    rintro l u q hmem ⟨caller, rfl⟩
    exact ⟨caller, (Prog.enter_mem_kept hmem).resolve_left nofun⟩
  obtain ⟨es₁, l, u, q, c, es₂, hes, -, hcond⟩ := h
  rcases hcond with hl | ⟨l', u', q', hmem, hq⟩
  · refine .inl (hcreated (u := u) (q := q) ?_ hl)
    rw [hes]
    exact List.mem_append_right _ List.mem_cons_self
  · have hmem' : .op l' u' q' ∈ keptEvents env cfg machine block b io tx := by
      rw [hes]
      exact List.mem_append_left _ hmem
    rcases hq' : q'.1.createsAt with _ | a'
    · exact .inr ⟨l', u', q', hmem', hq, hq'⟩
    · have ha : a' = a := by
        rcases q' with ⟨o, res⟩
        cases o <;> first | (cases hq'; exact Option.some.inj hq) | cases hq'
      exact .inl (hcreated hmem' ((hevents l' u' q' hmem').create a (ha ▸ hq')))

end Main

/-! ## A constructor that delegates

The constructor of `0x5555` creates a library at `0x7777` and calls it by `DELEGATECALL`; the library
destroys the account it runs for. -/

/-- Init code `[0]` is the constructor, `[1]` that of the library; all deployed code destroys itself. -/
def libraryMachine : Machine where
  interpreter ctx :=
    if ctx.isConstructor = false then .op (.selfDestruct 0x99) fun _ _ => .exit (.success [])
    else if ctx.bytecode = [1] then .exit (.success [2])
    else .call (.create 0x7777 0 [1]) fun _ _ =>
      .call (.call .delegateCall 100000 0x7777 0 []) fun _ _ => .exit (.success [2])
  precompile _ _ := (.empty, none)

def libraryRun : TxOutcome × Io :=
  runTx emptyChain ⟨true, false⟩ libraryMachine freeBlock .new .new (.l2 deploymentTx)

def libraryEvents : List IoEvent :=
  keptEvents emptyChain ⟨true, false⟩ libraryMachine freeBlock .new .new (.l2 deploymentTx)

def entersFrame (l : FrameLabel) : IoEvent → Bool
  | .enter l' => l' = l
  | .op .. => false

def destroysInFrame (l : FrameLabel) (a : B160) : IoEvent → Bool
  | .op l' _ q => l' = some l && q.1.destroysAt = some (a, false)
  | .enter _ => false

theorem exists_enter_then_destroy {l l' : FrameLabel} {a : B160} {es : List IoEvent}
    (h : ((es.dropWhile fun e => !entersFrame l e).tail.any (destroysInFrame l' a)) = true) :
    ∃ es₁ es₂ u q es₃, es = es₁ ++ .enter l :: es₂ ++ .op (some l') u q :: es₃ ∧ q.1.destroysAt = some (a, false) := by
  obtain ⟨e, he, hd⟩ := List.any_eq_true.mp h
  rcases hdrop : es.dropWhile fun e => !entersFrame l e with _ | ⟨e₀, tail⟩
  · rw [hdrop] at he
    cases he
  · have hfirst : entersFrame l e₀ = true := by
      have := List.head?_dropWhile_not (fun e => !entersFrame l e) es
      rw [hdrop] at this
      simpa using this
    rw [hdrop] at he
    obtain ⟨es₂, es₃, rfl⟩ := List.append_of_mem he
    cases e₀ with
    | op => cases hfirst
    | enter l₀ =>
      cases e with
      | enter => cases hd
      | op l₁ u q =>
        simp only [destroysInFrame, Bool.and_eq_true, decide_eq_true_eq] at hd
        obtain ⟨rfl, hq⟩ := hd
        cases of_decide_eq_true hfirst
        refine ⟨es.takeWhile fun e => !entersFrame l e, es₂, u, q, es₃, ?_, hq⟩
        rw [List.append_assoc, List.cons_append]
        have := (List.takeWhile_append_dropWhile (p := fun e => !entersFrame l e) (l := es)).symm
        rwa [hdrop] at this

def TxOutcome.isIncluded : TxOutcome → Bool
  | included .. => true
  | _ => false

theorem included_of_isIncluded {x : TxOutcome × Io} (h : x.1.isIncluded = true) :
    ∃ r b, x = (.included r b, x.2) := by
  rcases x with ⟨_ | _ | _, io⟩
  · exact ⟨_, _, rfl⟩
  · cases h
  · cases h

end ZkOs.Bootloader
