import ZkOs.State.Steps

/-!
# Frames of the IO subsystem

* `Io.Extends` : what a run inside a frame guarantees to the snapshots that are older than the frame;
* `Io.Loads` : only the caches were loaded with more initial records;
* `Io.run_extends` : every program extends the state it starts in;
* `Io.undo_loads` : undoing a frame leaves nothing but loaded records, so in particular the pubdata
  counter is what it was (`netPubdataUsed_eq`);
* `Io.finishFrame`, `Io.frame_rollback_restores` : what the end of a frame does to everything that a
  later operation can see.
-/

namespace ZkOs

open History FrameProgram

/-- The refund counter keeps everything below its last snapshot. -/
def HistoryCounter.Extends (c c' : HistoryCounter) : Prop :=
  c.lastSnapshot ≤ c.history.length →
    c.lastSnapshot ≤ c'.lastSnapshot ∧ c'.lastSnapshot ≤ c'.history.length ∧
      c'.history.drop (c'.history.length - c.lastSnapshot) = c.history.drop (c.history.length - c.lastSnapshot)

namespace HistoryCounter

theorem Extends.refl (c : HistoryCounter) : c.Extends c := fun h => ⟨Nat.le_refl _, h, rfl⟩

theorem Extends.trans {c c' c'' : HistoryCounter} (h : c.Extends c') (h' : c'.Extends c'') : c.Extends c'' := by
  intro hc
  obtain ⟨h₁, h₂, h₃⟩ := h hc
  obtain ⟨h₁', h₂', h₃'⟩ := h' h₂
  refine ⟨h₁.trans h₁', h₂', ?_⟩
  -- the lower part of the newer list is the lower part of its lower part
  have split : ∀ (l : List (BitVec 32)) (a b : Nat), a ≤ b → b ≤ l.length →
      l.drop (l.length - a) = (l.drop (l.length - b)).drop (b - a) := by
    intro l a b hab hb
    rw [List.drop_drop]
    congr 1
    omega
  rw [split _ _ _ h₁ (h₁'.trans h₂'), h₃', ← split _ _ _ h₁ h₂, h₃]

theorem Extends.update (c : HistoryCounter) (v : BitVec 32) : c.Extends (c.update v) := by
  intro hc
  unfold HistoryCounter.update
  split
  · rename_i hlt
    rcases hh : c.history with _ | ⟨w, ws⟩
    · rw [hh] at hlt
      exact absurd hlt (Nat.not_lt_zero _)
    · rw [hh, List.length_cons] at hlt
      refine ⟨Nat.le_refl _, by simp; omega, ?_⟩
      simp only [List.tail_cons, List.length_cons]
      rw [show ws.length + 1 - c.lastSnapshot = (ws.length - c.lastSnapshot) + 1 by omega, List.drop_succ_cons,
        List.drop_succ_cons]
  · refine ⟨Nat.le_refl _, by simp; omega, ?_⟩
    simp only [List.length_cons]
    rw [show c.history.length + 1 - c.lastSnapshot = (c.history.length - c.lastSnapshot) + 1 by omega,
      List.drop_succ_cons]

theorem Extends.snapshot (c : HistoryCounter) : c.Extends c.snapshot.2 :=
  fun hc => ⟨hc, Nat.le_refl _, rfl⟩

theorem rollback_eq {c c' : HistoryCounter} (h : c.snapshot.2.Extends c') :
    c'.rollback c.snapshot.1 = c.snapshot.2 := by
  obtain ⟨-, -, h₃⟩ := h (Nat.le_refl _)
  simp only [snapshot, Nat.sub_self, List.drop_zero] at h₃
  simp only [rollback, snapshot, h₃]

end HistoryCounter

/-- An account record as it enters the cache. -/
structure FreshAccount (r : AccountRecord) : Prop where
  metadata : r.metadata = initialMetadata
  not_deconstructed : r.appearance ≠ .deconstructed

theorem decommitted.fresh {storage : Bytes32 → Option (List UInt8)} {hash : Bytes32} {r : AccountRecord}
    (h : decommitted storage hash r) : FreshAccount r := by
  unfold decommitted at h
  split at h
  · subst h
    exact ⟨rfl, fun h => nomatch h⟩
  · obtain ⟨bytes, -, -, rfl⟩ := h
    exact ⟨rfl, fun h => nomatch h⟩

/-- A slot record as the oracle gives it. -/
def InitialSlot (env : Env) (k : SlotKey) (r : SlotRecord) : Prop :=
  ∃ n, r = initialSlotRecord (env.slot n k.1 k.2)

namespace Io

/-- The state was extended by operations and frames; everything older than the next snapshot can
still be brought back. -/
structure Extends (env : Env) (io io' : Io) : Prop where
  slots : io.storage.cache.Extends (InitialSlot env) io'.storage.cache
  accounts : io.accounts.cache.Extends (fun _ => FreshAccount) io'.accounts.cache
  publication : io.preimages.publication.Extends (fun _ _ => True) io'.preimages.publication
  transient : io.transient.Extends (fun _ v => v = 0) io'.transient
  refunds : io.storage.evmRefunds.Extends io'.storage.evmRefunds
  logs : io.logs.list <:+ io'.logs.list
  committedLogs : io'.logs.pubdataUsedByCommittedLogs = io.logs.pubdataUsedByCommittedLogs
  events : io.events <:+ io'.events
  slotsTx : io'.storage.currentTxId = io.storage.currentTxId
  accountsTx : io'.accounts.currentTxId = io.accounts.currentTxId
  txNumber : io'.txNumber = io.txNumber

/-- Nothing changed but records that were loaded into the caches. -/
structure Loads (env : Env) (io io' : Io) : Prop where
  slots : io.storage.cache.Loads (InitialSlot env) io'.storage.cache
  accounts : io.accounts.cache.Loads (fun _ => FreshAccount) io'.accounts.cache
  publication : io.preimages.publication.Loads (fun _ _ => True) io'.preimages.publication
  transient : io.transient.Loads (fun _ v => v = 0) io'.transient
  refunds : io'.storage.evmRefunds = io.storage.evmRefunds.snapshot.2
  logs : io'.logs = io.logs
  events : io'.events = io.events
  slotsTx : io'.storage.currentTxId = io.storage.currentTxId
  accountsTx : io'.accounts.currentTxId = io.accounts.currentTxId
  txNumber : io'.txNumber = io.txNumber

variable {env : Env} {io io' io'' : Io}

namespace Extends

theorem refl (io : Io) : Extends env io io :=
  ⟨.refl _, .refl _, .refl _, .refl _, .refl _, List.suffix_rfl, rfl, List.suffix_rfl, rfl, rfl, rfl⟩

theorem trans (h : Extends env io io') (h' : Extends env io' io'') : Extends env io io'' where
  slots := h.slots.trans h'.slots
  accounts := h.accounts.trans h'.accounts
  publication := h.publication.trans h'.publication
  transient := h.transient.trans h'.transient
  refunds := h.refunds.trans h'.refunds
  logs := h.logs.trans h'.logs
  committedLogs := h'.committedLogs.trans h.committedLogs
  events := h.events.trans h'.events
  slotsTx := h'.slotsTx.trans h.slotsTx
  accountsTx := h'.accountsTx.trans h.accountsTx
  txNumber := h'.txNumber.trans h.txNumber

theorem startFrame (io : Io) : Extends env io io.startFrame.2 :=
  ⟨.snapshot _, .snapshot _, .snapshot _, .snapshot _, .snapshot _, List.suffix_rfl, rfl, List.suffix_rfl, rfl,
    rfl, rfl⟩

theorem of_step {sc : Scope} (h : Step env sc io io') : Extends env io io' := by
  have keep := (refl io : Extends env io io)
  cases h with
  | ask => exact { keep with }
  | insertSlot k n => exact { keep with slots := .getOrInsert _ fun _ => ⟨n, rfl⟩ }
  | touchSlot k tx => exact { keep with slots := .update _ _ _ }
  | writeSlot k v hk => exact { keep with slots := .update _ _ _ }
  | insertAccount a ha e he r hr => exact { keep with accounts := .getOrInsert _ fun _ => hr.fresh }
  | updateAccount a f hf hn => exact { keep with accounts := .update _ _ _ }
  | learnPreimage hash bytes hs => exact { keep with }
  | publish type hash len he =>
    exact { keep with publication := (HistoryMap.Extends.getOrInsert _ fun _ => trivial).trans (.update _ _ _) }
  | insertTransient k => exact { keep with transient := .getOrInsert _ fun _ => rfl }
  | writeTransient k v he => exact { keep with transient := .update _ _ _ }
  | setRefunds v hr => exact { keep with refunds := .update _ _ }
  | log c hc he => exact { keep with logs := List.suffix_cons _ _ }
  | event e he => exact { keep with events := List.suffix_cons _ _ }

theorem of_steps {sc : Scope} (h : Steps env sc io io') : Extends env io io' := by
  induction h with
  | refl => exact .refl io
  | tail _ hstep ih => exact ih.trans (.of_step hstep)

theorem drop_of_suffix {α : Type} {l l' : List α} (h : l <:+ l') : l'.drop (l'.length - l.length) = l :=
  (List.suffix_iff_eq_drop.mp h).symm

theorem rollback (h : Extends env io.startFrame.2 io') :
    ∃ io'', io'.rollback io.startFrame.1 = some io'' ∧ Loads env io io'' := by
  obtain ⟨c₁, h₁⟩ := h.slots.rollback_isSome (m := io.storage.cache)
  obtain ⟨c₂, h₂⟩ := h.publication.rollback_isSome (m := io.preimages.publication)
  obtain ⟨c₃, h₃⟩ := h.accounts.rollback_isSome (m := io.accounts.cache)
  obtain ⟨c₄, h₄⟩ := h.transient.rollback_isSome (m := io.transient)
  refine ⟨_, by simp only [Io.rollback, Io.startFrame, HistoryMap.snapshot, h₁, h₂, h₃, h₄]; rfl, ?_⟩
  exact
    { slots := h.slots.rollback_loads h₁
      accounts := h.accounts.rollback_loads h₃
      publication := h.publication.rollback_loads h₂
      transient := h.transient.rollback_loads h₄
      refunds := HistoryCounter.rollback_eq h.refunds
      logs := by
        have hd := drop_of_suffix h.logs
        have hc := h.committedLogs
        rcases hl : io'.logs with ⟨list, committed⟩
        rw [hl] at hd hc
        simp only [LogsStorage.rollback]
        exact congrArg₂ LogsStorage.mk hd hc
      events := drop_of_suffix h.events
      slotsTx := h.slotsTx
      accountsTx := h.accountsTx
      txNumber := h.txNumber }

end Extends

theorem Loads.toExtends (h : Loads env io io') : Extends env io io' where
  slots := h.slots.toExtends
  accounts := h.accounts.toExtends
  publication := h.publication.toExtends
  transient := h.transient.toExtends
  refunds := by rw [h.refunds]; exact .snapshot _
  logs := by rw [h.logs]
  committedLogs := by rw [h.logs]
  events := by rw [h.events]
  slotsTx := h.slotsTx
  accountsTx := h.accountsTx
  txNumber := h.txNumber

theorem undo_loads (h : Extends env io.startFrame.2 io') :
    Loads env io ((Io.handler env).undo io.startFrame.1 io') := by
  obtain ⟨io'', hr, hl⟩ := h.rollback
  show Loads env io ((io'.rollback io.startFrame.1).getD io')
  rw [hr]
  exact hl

theorem run_extends {α : Type} (p : Prog α) (io : Io) : Extends env io (p.run (Io.handler env) io).2 :=
  Prog.Visits.rel (P := fun _ => True) (R := Extends env) .refl (fun _ _ _ => .trans)
    (fun q io _ => .of_steps (Io.handler_steps env q io)) .startFrame
    (fun _ _ h => (undo_loads h).toExtends) (.of_forall (fun _ => trivial) p) (Prog.visits_run p io)

/-! ## What a loaded state shows -/

theorem filterMap_pending_eq {K V : Type} {P : K → V → Prop} {m m' : HistoryMap K V} (h : m.Loads P m')
    {l : List K} (hl : ∀ k ∈ l, k ∈ m.pending.map Prod.fst) : l.filterMap m'.elems = l.filterMap m.elems := by
  refine List.filterMap_congr fun k hk => ?_
  obtain ⟨p, hp, rfl⟩ := List.mem_map.mp (hl k hk)
  obtain ⟨e, he, -⟩ := m.wf.pending_recent p hp
  rw [he, h.elems_some _ e he]

theorem Loads.netPubdataUsed_eq (h : Loads env io io') : io'.netPubdataUsed = io.netPubdataUsed := by
  have hmem : ∀ {K : Type} [DecidableEq K] (l : List K), ∀ k ∈ l.dedup, k ∈ l := fun l k hk => List.mem_dedup.mp hk
  have ha : io'.accounts.pubdataUsedByTx = io.accounts.pubdataUsedByTx := by
    unfold AccountCache.pubdataUsedByTx alteredSinceCommit
    rw [h.accounts.pending_eq, filterMap_pending_eq h.accounts (hmem _)]
  have hs : io'.storage.pubdataUsedByTx = io.storage.pubdataUsedByTx := by
    unfold StorageCache.pubdataUsedByTx
    rw [h.slots.pending_eq, filterMap_pending_eq h.slots fun k hk => hmem _ k (List.mem_of_mem_filter hk)]
  unfold Io.netPubdataUsed
  rw [ha, hs, h.logs]

/-! ## The end of a frame -/

/-- `finish_io_frame`: every part of the state gets its part of the handle. -/
def finishFrame (io : Io) : Option Snapshot → Option Io
  | some handle => io.rollback handle
  | none => some io

/-- An entry of a cache shows the same as before. One that was loaded since then shows the record that
it was loaded with. -/
def SameEntry {V γ : Type} (f : V → γ) (Loaded : V → Prop) : Option (Element V) → Option (Element V) → Prop
  | some e, some e' => e'.initial = e.initial ∧ f e'.current = f e.current
  | none, some e' => Loaded e'.initial ∧ f e'.current = f e'.initial
  | none, none => True
  | some _, none => False

/-- Everything that an operation can see of `io` is what it is in `io'`: values and warm or cold flags of
slots and accounts, transient slots, logs, events and the refund counter. -/
structure Restores (env : Env) (io io' : Io) : Prop where
  slots : ∀ k, SameEntry id (InitialSlot env k) (io.storage.cache.elems k) (io'.storage.cache.elems k)
  accounts : ∀ a, SameEntry id FreshAccount (io.accounts.cache.elems a) (io'.accounts.cache.elems a)
  transient : io'.transient.current (fun _ => 0) = io.transient.current fun _ => 0
  logs : io'.logs = io.logs
  events : io'.events = io.events
  refunds : io'.storage.evmRefunds.value = io.storage.evmRefunds.value

theorem sameEntry_of_loads {K V : Type} {P : K → V → Prop} {m m' : HistoryMap K V} (h : m.Loads P m') (k : K) :
    SameEntry id (P k) (m.elems k) (m'.elems k) := by
  rcases hk : m.elems k with _ | e
  · rcases hk' : m'.elems k with _ | e'
    · exact trivial
    · obtain ⟨v, hv, rfl⟩ := h.elems_none k e' hk hk'
      exact ⟨hv, rfl⟩
  · rw [h.elems_some k e hk]
    exact ⟨rfl, rfl⟩

theorem Loads.restores (h : Loads env io io') : Restores env io io' where
  slots := sameEntry_of_loads h.slots
  accounts := sameEntry_of_loads h.accounts
  transient := h.transient.current_eq
  logs := h.logs
  events := h.events
  refunds := by rw [h.refunds]; rfl

/-- Whatever is done in a frame, with frames in it that are rolled back or kept: its rollback handle is
accepted and brings back all that could be seen at its start. Without the handle nothing changes. -/
theorem frame_rollback_restores (env : Env) {α : Type} (p : Prog α) (io : Io) :
    let inside := (p.run (Io.handler env) io.startFrame.2).2
    (∃ io', inside.finishFrame (some io.startFrame.1) = some io' ∧ Restores env io io') ∧
      inside.finishFrame none = some inside := by
  intro inside
  obtain ⟨io', hr, hl⟩ := (run_extends p io.startFrame.2).rollback
  exact ⟨⟨io', hr, hl.restores⟩, rfl⟩

end Io

end ZkOs
