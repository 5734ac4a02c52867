import ZkOs.Lib.NetMetering
import ZkOs.State.Reading

/-!
# The refund counter

The counter is a `u32` that is journaled apart from the slots. It is compared with the refund of EIP-3529
(`NetMetering.refund`), computed from the writes that are kept so far.

* `Io.KeepsSlots` : what operations other than writes do to slots and counter;
* `storageWriteSlot_ok`, `storageWriteSlot_error` : what a write does;
* `Io.Metered` : slots and counter are those of a list of events;
* `evm_refunds_eq` : every state of a run is metered.
-/

namespace ZkOs

open History ZkOs.Action FrameProgram NetMetering

/-! ## Slots and counter -/

namespace Io

variable {env : Env} {io io' io'' : Io}

/-- Slots may have been loaded; values, values at the start of the transaction, and the refund counter are the same. -/
structure KeepsSlots (io io' : Io) : Prop where
  loaded : ∀ k e, io.storage.cache.elems k = some e →
    ∃ e', io'.storage.cache.elems k = some e' ∧ e'.base = e.base ∧ e'.current.value = e.current.value
  fresh : ∀ k e', io.storage.cache.elems k = none → io'.storage.cache.elems k = some e' →
    e'.current.value = e'.base.value
  refunds : io'.storage.evmRefunds.value = io.storage.evmRefunds.value

namespace KeepsSlots

theorem of_eq (h : io'.storage.cache.elems = io.storage.cache.elems)
    (hr : io'.storage.evmRefunds.value = io.storage.evmRefunds.value) : KeepsSlots io io' where
  loaded k e he := ⟨e, by rw [h, he], rfl, rfl⟩
  fresh k e' hk he' := by
    rw [h, hk] at he'
    cases he'
  refunds := hr

theorem refl (io : Io) : KeepsSlots io io := .of_eq rfl rfl

theorem trans (h : KeepsSlots io io') (h' : KeepsSlots io' io'') : KeepsSlots io io'' where
  loaded k e he := by
    obtain ⟨e', he', hb, hc⟩ := h.loaded k e he
    obtain ⟨e'', he'', hb', hc'⟩ := h'.loaded k e' he'
    exact ⟨e'', he'', hb'.trans hb, hc'.trans hc⟩
  fresh k e'' hk he'' := by
    rcases hk' : io'.storage.cache.elems k with _ | e'
    · exact h'.fresh k e'' hk' he''
    · obtain ⟨e₂, he₂, hb, hc⟩ := h'.loaded k e' hk'
      cases he''.symm.trans he₂
      rw [hc, hb]
      exact h.fresh k e' hk hk'
  refunds := h'.refunds.trans h.refunds

theorem insert (io : Io) (k : SlotKey) (r : SlotRecord) : KeepsSlots io (io.setSlots (io.storage.cache.getOrInsert k r)) where
  loaded k' e he := by
    refine ⟨e, ?_, rfl, rfl⟩
    simp only [setSlots, HistoryMap.elems_getOrInsert]
    by_cases hk : k' = k
    · subst hk
      rw [Function.update_self, he]
      rfl
    · rwa [Function.update_of_ne hk]
  fresh k' e' hk' he' := by
    simp only [setSlots, HistoryMap.elems_getOrInsert] at he'
    by_cases hk : k' = k
    · subst hk
      rw [Function.update_self, hk'] at he'
      cases he'
      rfl
    · rw [Function.update_of_ne hk, hk'] at he'
      cases he'
  refunds := rfl

theorem touch (io : Io) (k : SlotKey) {f : SlotRecord → SlotRecord} (hf : ∀ r, (f r).value = r.value) :
    KeepsSlots io (io.setSlots (io.storage.cache.update k f)) where
  loaded k' e he := by
    simp only [setSlots, HistoryMap.elems_update]
    by_cases hk : k' = k
    · subst hk
      refine ⟨e.update io.storage.cache.next f, by rw [Function.update_self, he]; rfl, Element.update_base _ _ _, ?_⟩
      rw [Element.current_update, hf]
    · exact ⟨e, by rwa [Function.update_of_ne hk], rfl, rfl⟩
  fresh k' e' hk' he' := by
    simp only [setSlots, HistoryMap.elems_update] at he'
    by_cases hk : k' = k
    · subst hk
      rw [Function.update_self, hk'] at he'
      cases he'
    · rw [Function.update_of_ne hk, hk'] at he'
      cases he'
  refunds := rfl

theorem of_step {sc : Scope} (hw : ∀ k, ¬sc.writes k) (hr : ¬sc.refunds) (h : Step env sc io io') : KeepsSlots io io' := by
  cases h with
  | insertSlot k n => exact insert io k _
  | touchSlot k tx => exact touch io k fun _ => rfl
  | writeSlot k v hk => exact absurd hk (hw k)
  | setRefunds v h => exact absurd h hr
  | ask | insertAccount | updateAccount | learnPreimage | publish | insertTransient | writeTransient | log | event =>
    exact of_eq rfl rfl

theorem of_steps {sc : Scope} (hw : ∀ k, ¬sc.writes k) (hr : ¬sc.refunds) (h : Steps env sc io io') : KeepsSlots io io' := by
  induction h with
  | refl => exact .refl io
  | tail _ hstep ih => exact ih.trans (.of_step hw hr hstep)

theorem of_loads (h : Loads env io io') : KeepsSlots io io' where
  loaded k e he := ⟨e, h.slots.elems_some k e he, rfl, rfl⟩
  fresh k e' hk he' := by
    obtain ⟨v, -, rfl⟩ := h.slots.elems_none k e' hk he'
    rfl
  refunds := by
    rw [h.refunds]
    rfl

end KeepsSlots

end Io

/-! ## Writes -/

section Writes

variable {env : Env} {s s' : Sys} {a : B160} {key v : Bytes32}

theorem HistoryCounter.value_update (c : HistoryCounter) (v : BitVec 32) : (c.update v).value = v := by
  unfold HistoryCounter.update
  split <;> rfl

theorem storageWriteSlot_error {ee : ExecutionEnvironmentType} {err : Err}
    (h : storageWriteSlot env ee a key v s = (.error err, s')) : Io.KeepsSlots s.io s'.io := by
  have hadmits := @Io.Steps.admits env .reading s.io
  have hfails : Fails (Io.Steps env .reading s.io) (applyWrite env ee (a, key) v) := by
    refine .bind (hadmits.materializeSlot ee trivial false) fun _ => .bind (hadmits.slotItem _) fun _ =>
      .bind (hadmits.charge _) fun _ => ?_
    intro s₁ e s₂ _ h
    cases h
  rcases bind_error h with h | ⟨old, s₄, -, h⟩
  · exact .of_steps (fun _ => id) id (hfails s err s' .refl h).1
  · simp only at h
    split at h <;> cases h

/-- The `u32` arithmetic of the counter is the arithmetic of EIP-3529 modulo `2 ^ 32`. -/
theorem refundAfterWrite_eq (refunds : BitVec 32) {old new : Bytes32} (atTxStart : Bytes32) (h : old ≠ new) :
    refundAfterWrite refunds old atTxStart new = refunds + BitVec.ofInt 32 (storeRefund atTxStart old new) := by
  have hsub : refunds - 4800 = refunds + BitVec.ofInt 32 (-4800) := BitVec.sub_eq_add_neg _ _
  unfold refundAfterWrite storeRefund
  rw [if_neg h]
  by_cases hold : old = atTxStart
  · rw [if_pos hold, if_pos hold]
    split
    · rfl
    · exact (BitVec.add_zero _).symm
  · rw [if_neg hold, if_neg hold, BitVec.ofInt_add, ← BitVec.add_assoc]
    have hfirst : (if atTxStart ≠ 0 then
          (if old = 0 then refunds - 4800 else if new = 0 then refunds + 4800 else refunds)
        else refunds) = refunds + BitVec.ofInt 32 (if atTxStart ≠ 0 then
          (if old = 0 then -4800 else if new = 0 then 4800 else 0) else 0) := by
      split
      · split
        · exact hsub
        · split
          · rfl
          · exact (BitVec.add_zero _).symm
      · exact (BitVec.add_zero _).symm
    simp only
    rw [hfirst]
    split
    · split <;> rfl
    · exact (BitVec.add_zero _).symm

theorem storageWriteSlot_ok (h : storageWriteSlot env .evm a key v s = (.ok (), s')) :
    ∃ mid e, Io.KeepsSlots s.io mid ∧ mid.storage.cache.elems (a, key) = some e ∧
      s'.io.storage.cache = mid.storage.cache.update (a, key) (fun r => r.update fun _ m => (v, m)) ∧
      s'.io.storage.evmRefunds.value =
        mid.storage.evmRefunds.value + BitVec.ofInt 32 (storeRefund e.base.value e.current.value v) := by
  obtain ⟨old, s₄, hwrite, h⟩ := bind_ok.mp h
  obtain ⟨w, s₁, h₁, hrest⟩ := bind_ok.mp hwrite
  obtain ⟨e, s₂, h₂, hcharge⟩ := bind_ok.mp hrest
  obtain ⟨_, s₃, h₃, hupdate⟩ := bind_ok.mp hcharge
  cases hupdate
  obtain ⟨he, rfl⟩ := slotItem_ok h₂
  have hmid : Io.KeepsSlots s.io s₃.io := by
    rw [charge_ok h₃]
    have hsteps := ((@Io.Steps.admits env .reading s.io).materializeSlot .evm trivial false).reached .refl h₁
    exact .of_steps (fun _ => id) id hsteps.1
  rw [← charge_ok h₃] at he
  refine ⟨s₃.io, e, hmid, he, ?_⟩
  simp only at h
  split at h
  · rename_i hne
    cases h
    exact ⟨rfl, (HistoryCounter.value_update _ _).trans (refundAfterWrite_eq _ _ hne.2)⟩
  · rename_i heq
    cases h
    refine ⟨rfl, ?_⟩
    have hsame : e.current.value = v := not_not.mp fun hne => heq ⟨trivial, hne⟩
    rw [hsame, storeRefund, if_pos rfl]
    exact (BitVec.add_zero _).symm

end Writes

/-! ## The events of a run -/

abbrev RefundEvent := NetMetering.Event SlotKey Bytes32

/-- What an event of a run means for refunds; a write that was refused does not count. -/
def refundEvent (env : Env) : FrameProgram.Event IoQuery FrameLabel Io → Option RefundEvent
  | .op _ io (.storageWrite .evm a k v, r) =>
    if (storageWriteSlot env .evm a k v ⟨io, r⟩).1.toOption.isSome then some (.store (a, k) v) else none
  | .op _ _ (.addEvmRefund n, _) => some (.grant n.toNat)
  | _ => none

def refundEvents (env : Env) (es : List (FrameProgram.Event IoQuery FrameLabel Io)) : List RefundEvent :=
  es.filterMap (refundEvent env)

/-- A write that bypasses the EVM cost model. -/
def IoOp.isNoEeWrite : IoOp → Bool
  | storageWrite .noEE .. => true
  | _ => false

namespace Io

/-- The value of a slot at the start of the transaction, zero if it was not loaded. -/
def txStartValue (io : Io) (k : SlotKey) : Bytes32 := (io.storage.cache.elems k).elim 0 (·.base.value)

/-- The value of a slot, the original one if it was not loaded. -/
def slotValue (original : SlotKey → Bytes32) (io : Io) (k : SlotKey) : Bytes32 :=
  (io.storage.cache.elems k).elim (original k) (·.current.value)

/-- The loaded slots had their original values at the start of the transaction. -/
def StartsFrom (original : SlotKey → Bytes32) (io : Io) : Prop :=
  ∀ k e, io.storage.cache.elems k = some e → e.base.value = original k

/-- Slots and counter are those of the events. -/
structure Metered (original : SlotKey → Bytes32) (es : List RefundEvent) (io : Io) : Prop where
  slots : io.slotValue original = values original es
  refunds : io.storage.evmRefunds.value = BitVec.ofInt 32 (refund original original es)

variable {env : Env} {io io' : Io} {original : SlotKey → Bytes32} {es : List RefundEvent}

theorem startsFrom_txStartValue (io : Io) : StartsFrom io.txStartValue io := by
  intro k e he
  unfold txStartValue
  rw [he]
  rfl

theorem KeepsSlots.startsFrom (h : KeepsSlots io io') (hs : StartsFrom original io') : StartsFrom original io := by
  intro k e he
  obtain ⟨e', he', hb, -⟩ := h.loaded k e he
  rw [← hs k e' he', hb]

theorem KeepsSlots.metered (h : KeepsSlots io io') (hs : StartsFrom original io') (hm : Metered original es io) :
    Metered original es io' where
  slots := by
    rw [← hm.slots]
    funext k
    unfold slotValue
    rcases hk : io.storage.cache.elems k with _ | e
    · rcases hk' : io'.storage.cache.elems k with _ | e'
      · rfl
      · exact (h.fresh k e' hk hk').trans (hs k e' hk')
    · obtain ⟨e', he', -, hc⟩ := h.loaded k e hk
      rw [he']
      exact hc
  refunds := h.refunds.trans hm.refunds

theorem Metered.write {s s' : Sys} {a : B160} {key v : Bytes32} (h : storageWriteSlot env .evm a key v s = (.ok (), s'))
    (hs : StartsFrom original s'.io) (hm : StartsFrom original s.io → Metered original es s.io) :
    Metered original (es ++ [.store (a, key) v]) s'.io := by
  obtain ⟨mid, e, hkeeps, he, hcache, hrefunds⟩ := storageWriteSlot_ok h
  have helems : ∀ k, s'.io.storage.cache.elems k = Function.update mid.storage.cache.elems (a, key)
      (some (e.update mid.storage.cache.next fun r => r.update fun _ m => (v, m))) k := by
    intro k
    rw [hcache, HistoryMap.elems_update, he]
    rfl
  have hmid : StartsFrom original mid := by
    intro k e₁ he₁
    by_cases hk : k = (a, key)
    · subst hk
      cases he.symm.trans he₁
      have := hs _ _ ((helems _).trans (Function.update_self _ _ _))
      rwa [Element.update_base] at this
    · exact hs k e₁ ((helems k).trans ((Function.update_of_ne hk _ _).trans he₁))
  have hmetered := hkeeps.metered hmid (hm (hkeeps.startsFrom hmid))
  have hcurrent : e.current.value = values original es (a, key) := by
    rw [← hmetered.slots]
    unfold slotValue
    rw [he]
    rfl
  refine ⟨?_, ?_⟩
  · rw [values_append, ← hmetered.slots]
    funext k
    show slotValue original s'.io k = Function.update (slotValue original mid) (a, key) v k
    unfold slotValue
    rw [helems]
    by_cases hk : k = (a, key)
    · subst hk
      rw [Function.update_self, Function.update_self]
      exact congrArg CacheRecord.value (Element.current_update _ _ e)
    · rw [Function.update_of_ne hk, Function.update_of_ne hk]
  · rw [hrefunds, hmetered.refunds, refund_append, BitVec.ofInt_add]
    show _ = _ + BitVec.ofInt 32 (storeRefund _ _ _ + 0)
    rw [add_zero, ← hcurrent, hmid _ _ he]

theorem Metered.grant (hm : Metered original es io) (n : BitVec 32) (h : io'.storage.cache = io.storage.cache)
    (hr : io'.storage.evmRefunds.value = io.storage.evmRefunds.value + n) :
    Metered original (es ++ [.grant n.toNat]) io' where
  slots := by
    rw [values_append, ← hm.slots]
    unfold slotValue
    rw [h]
    rfl
  refunds := by
    rw [hr, hm.refunds, refund_append, BitVec.ofInt_add]
    show _ = _ + BitVec.ofInt 32 ((n.toNat : Int) + 0)
    rw [add_zero, BitVec.ofInt_natCast, BitVec.ofNat_toNat, BitVec.setWidth_eq]

/-- One case for the operations that count, one for all others. -/
theorem Metered.op {evs : List (FrameProgram.Event IoQuery FrameLabel Io)} (l : Option FrameLabel) (q : IoQuery)
    (hq : q.1.isNoEeWrite = false) (hm : StartsFrom original io → Metered original (refundEvents env evs) io)
    (hs : StartsFrom original ((Io.handler env).exec q io).2) :
    Metered original (refundEvents env (evs ++ [.op l io q])) ((Io.handler env).exec q io).2 := by
  have happ : refundEvents env (evs ++ [.op l io q]) = refundEvents env evs ++ (refundEvent env (.op l io q)).toList := by
    rw [refundEvents, List.filterMap_append]
    cases h : refundEvent env (.op l io q) <;> simp [refundEvents, h]
  rw [happ]
  by_cases hscope : q.1.writtenSlot = none ∧ ¬q.1.scope.refunds
  · have hkeeps : KeepsSlots io ((Io.handler env).exec q io).2 :=
      .of_steps (fun k hk => by rw [show q.1.writtenSlot = some k from hk] at hscope; cases hscope.1) hscope.2
        (Io.handler_steps env q io)
    have hnone : refundEvent env (.op l io q) = none := by
      rcases q with ⟨o, r⟩
      cases o <;> first | rfl | exact absurd trivial hscope.2
    rw [hnone, Option.toList_none, List.append_nil]
    exact hkeeps.metered hs (hm (hkeeps.startsFrom hs))
  · rcases q with ⟨o, r⟩
    cases o with
    | storageWrite ee a k v =>
      cases ee with
      | noEE => cases hq
      | evm =>
        rcases hrun : storageWriteSlot env .evm a k v ⟨io, r⟩ with ⟨e | _, s'⟩ <;>
          rw [show ((Io.handler env).exec (.storageWrite .evm a k v, r) io).2 = s'.io from
            congrArg (fun x => x.2.io) hrun] at hs ⊢
        · have hevent : refundEvent env (.op l io (.storageWrite .evm a k v, r)) = none := by
            simp [refundEvent, hrun, Except.toOption]
          rw [hevent, Option.toList_none, List.append_nil]
          have hkeeps := storageWriteSlot_error hrun
          exact hkeeps.metered hs (hm (hkeeps.startsFrom hs))
        · have hevent : refundEvent env (.op l io (.storageWrite .evm a k v, r)) = some (.store (a, k) v) := by
            simp [refundEvent, hrun, Except.toOption]
          rw [hevent]
          exact .write hrun hs hm
    | addEvmRefund n => exact (hm hs).grant n rfl (HistoryCounter.value_update _ _)
    | _ => exact absurd ⟨rfl, id⟩ hscope

theorem Metered.beginNextTx (hs : StartsFrom original io.beginNextTx) : Metered original [] io.beginNextTx where
  slots := by
    funext k
    unfold slotValue
    rcases hk : io.beginNextTx.storage.cache.elems k with _ | e
    · rfl
    · obtain ⟨e₀, -, rfl⟩ := Option.map_eq_some_iff.mp ((congrFun (HistoryMap.commit_elems _) k).symm.trans hk)
      rw [values, ← hs k _ hk, Element.commit_base, ← Element.commit_current]
      rfl
  refunds := rfl

section Runs

variable {α : Type} {p : Prog α} {Q : α → Prop} {l : Option FrameLabel}
  {es : List (FrameProgram.Event IoQuery FrameLabel Io)} {t : Io}

/-- By induction on the run: operations and marks extend the state, and undoing a frame loads the state at its
start. -/
theorem reaches_extends (p : Prog α) (hr : p.Reaches (Io.handler env) l io es t) : Extends env io t :=
  Prog.Reaches.rel (R := fun _ t => Extends env io t)
    (fun _ _ _ q _ h => h.trans (.of_steps (Io.handler_steps env q _))) (fun _ _ _ h => h.trans (.startFrame _))
    (fun body _ s h => h.trans (undo_loads (run_extends body s.startFrame.2)).toExtends)
    (.of_forall (P := fun _ => True) (fun _ => trivial) p) (.refl io) hr

theorem reaches_base (p : Prog α) (hr : p.Reaches (Io.handler env) l io.beginNextTx es t) {k : SlotKey}
    {e : Element SlotRecord} (he : io.beginNextTx.storage.cache.elems k = some e) :
    ∃ e', t.storage.cache.elems k = some e' ∧ e'.base = e.base := by
  obtain ⟨e', he', hroll⟩ := (reaches_extends p hr).slots.elems_some k _ he
  have hbase := congrArg Element.base (hroll 0 (Nat.succ_pos _))
  rw [Element.rollback_base, Element.rollback_base] at hbase
  exact ⟨e', he', hbase⟩

theorem reaches_metered (hp : p.Asks (fun q => q.1.isNoEeWrite = false) Q)
    (hr : p.Reaches (Io.handler env) l io.beginNextTx es t) :
    Metered t.txStartValue (refundEvents env es) t := by
  refine Prog.Reaches.rel (R := fun es t' => StartsFrom t.txStartValue t' → Metered t.txStartValue (refundEvents env es) t')
    (fun es l s q hq h hs => .op l q hq h hs) (fun es l s h hs => ?_) (fun body es s h hs => ?_) hp
    (fun hs => .beginNextTx hs) hr (startsFrom_txStartValue t)
  · have hevents : refundEvents env (es ++ [.enter l]) = refundEvents env es := by
      rw [refundEvents, List.filterMap_append]
      exact List.append_nil _
    rw [hevents]
    have hkeeps : KeepsSlots s s.startFrame.2 := .of_eq rfl rfl
    exact hkeeps.metered hs (h (hkeeps.startsFrom hs))
  · have hloads : Loads env s _ := undo_loads (run_extends body s.startFrame.2)
    have hkeeps := KeepsSlots.of_loads hloads
    exact hkeeps.metered hs (h (hkeeps.startsFrom hs))

end Runs

end Io

/-! ## The counter and EIP-3529 -/

/-- At every state of a transaction, inside of frames too, and for any operations and frames before it: the counter
is the refund of EIP-3529 for the writes and grants that were not rolled back, modulo `2 ^ 32`. If that refund fits
in the counter, the refund for any slot that is cleared can be taken back from it. -/
theorem evm_refunds_eip3529 (env : Env) {α : Type} {p : Prog α} {Q : α → Prop}
    (hp : p.Asks (fun q => q.1.isNoEeWrite = false) Q) (io : Io) {l : Option FrameLabel}
    {es : List (FrameProgram.Event IoQuery FrameLabel Io)} {t : Io}
    (hr : p.Reaches (Io.handler env) l io.beginNextTx es t) :
    let refund := refund t.txStartValue t.txStartValue (refundEvents env es)
    let counter := t.storage.evmRefunds.value
    (∀ k e, io.storage.cache.elems k = some e → t.txStartValue k = e.current.value) ∧
      0 ≤ refund ∧ (counter.toNat : Int) = refund % 2 ^ 32 ∧
      (refund < 2 ^ 32 → (counter.toNat : Int) = refund ∧
        ∀ k e, t.storage.cache.elems k = some e → e.base.value ≠ 0 → e.current.value = 0 → 4800 ≤ counter.toNat) := by
  intro refund counter
  have hm := Io.reaches_metered hp hr
  have hnonneg : 0 ≤ refund := refund_nonneg _ _
  have hcounter : (counter.toNat : Int) = refund % 2 ^ 32 := by
    show (t.storage.evmRefunds.value.toNat : Int) = _
    rw [hm.refunds, BitVec.toNat_ofInt]
    exact Int.toNat_of_nonneg (Int.emod_nonneg _ (by decide))
  refine ⟨fun k e he => ?_, hnonneg, hcounter, fun hlt => ?_⟩
  · have hstart : io.beginNextTx.storage.cache.elems k = some e.commit :=
      (congrFun (HistoryMap.commit_elems _) k).trans (congrArg (Option.map Element.commit) he)
    obtain ⟨e', he', hbase⟩ := Io.reaches_base p hr hstart
    unfold Io.txStartValue
    rw [he']
    exact congrArg CacheRecord.value (hbase.trans (Element.commit_base e))
  · have hfits : (counter.toNat : Int) = refund := hcounter.trans (Int.emod_eq_of_lt hnonneg hlt)
    refine ⟨hfits, fun k e he hb hc => ?_⟩
    have hvalue : values t.txStartValue (refundEvents env es) k = 0 := by
      rw [← hm.slots]
      unfold Io.slotValue
      rw [he]
      exact hc
    have hle := cleared_le_refund t.txStartValue (refundEvents env es) k
    rw [hvalue, ← Io.startsFrom_txStartValue t k e he, cleared, if_pos ⟨hb, rfl⟩] at hle
    omega

def sevens : Env where
  slot _ _ _ := (7, false)
  preimage _ _ := []
  blake _ := 1
  keccak _ := 0
  ecrecover _ _ _ _ := none
  proofEnv := true

def plenty : Resources := ⟨gas 1000000, 1000000000⟩

/-- Clears a slot, and restores it in a frame that is undone. -/
def clearSlot : Prog Unit :=
  .op (.storageWrite .evm 0x1111 1 0, plenty) fun _ =>
    .frame .interaction (.op (.storageWrite .evm 0x1111 1 7, plenty) fun _ => .ret ()) (fun _ => true) fun _ => .ret ()

theorem evm_refunds_eip3529_clearSlot :
    let t := (clearSlot.run (Io.handler sevens) Io.new.beginNextTx).2
    let refund := refund t.txStartValue t.txStartValue
      (refundEvents sevens (clearSlot.kept (Io.handler sevens) none Io.new.beginNextTx))
    refund = 4800 ∧ (t.storage.evmRefunds.value.toNat : Int) = refund := by
  intro t refund
  have hrefund : refund = 4800 := by decide +kernel
  have hp : clearSlot.Asks (fun q => q.1.isNoEeWrite = false) fun _ => True :=
    ⟨rfl, fun _ => ⟨rfl, fun _ => trivial⟩⟩
  have h := evm_refunds_eip3529 sevens hp Io.new (Prog.reaches_run none clearSlot Io.new.beginNextTx)
  exact ⟨hrefund, (h.2.2.2 (hrefund.trans_lt (by decide))).1⟩

/-- Two grants of half of the range of the counter. -/
def grantTwice : Prog Unit :=
  .op (.addEvmRefund 0x80000000, plenty) fun _ => .op (.addEvmRefund 0x80000000, plenty) fun _ => .ret ()

theorem evm_refunds_wrap :
    let t := (grantTwice.run (Io.handler sevens) Io.new.beginNextTx).2
    t.storage.evmRefunds.value = 0 ∧ refund t.txStartValue t.txStartValue
      (refundEvents sevens (grantTwice.kept (Io.handler sevens) none Io.new.beginNextTx)) = 2 ^ 32 := by
  decide +kernel

end ZkOs
