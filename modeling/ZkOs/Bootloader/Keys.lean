import ZkOs.Bootloader.Metadata
import ZkOs.Bootloader.Pubdata
import ZkOs.Bootloader.Within
import ZkOs.State.Persist

/-!
# The keys of the account cache

The account cache is keyed by the limbs of an address, while accounts are persisted under its low 20
bytes. The two agree on canonical keys. Every address that a transaction can name is read from 20 bytes
or from a word; only the coinbase and the claimed sender of an L2 transaction come as limbs.

* `BlockReaches` : the states that the block loop goes through;
* `account_keys_faithful` : with a canonical coinbase and canonical senders, no two keys of the cache
  stand for one address in any of these states, and all account changes are persisted;
* `account_update_lost` : with another coinbase the changes of an account are overwritten.
-/

namespace ZkOs.Bootloader

open SysM ZkOs.Action FrameProgram Prog History

variable {env : Env} {cfg : Config} {machine : Machine} {block : BlockMetadata}

/-! ## New keys -/

/-- Keys that enter the account cache are canonical. -/
def NewKeysCanonical (io io' : Io) : Prop :=
  ∀ a, io'.accounts.cache.elems a ≠ none → io.accounts.cache.elems a ≠ none ∨ a.Canonical

def SameKeys (io io' : Io) : Prop :=
  ∀ a, io'.accounts.cache.elems a = none ↔ io.accounts.cache.elems a = none

theorem SameKeys.newKeysCanonical {io io' : Io} (h : SameKeys io io') : NewKeysCanonical io io' :=
  fun a ha => .inl fun hn => ha ((h a).mpr hn)

namespace NewKeysCanonical

variable {io io' io'' : Io}

theorem refl (io : Io) : NewKeysCanonical io io := fun _ => .inl

theorem trans (h : NewKeysCanonical io io') (h' : NewKeysCanonical io' io'') : NewKeysCanonical io io'' :=
  fun a ha => (h' a ha).elim (h a) .inr

/-- Canonical accounts only, and everything else. -/
def scope : Scope := ⟨B160.Canonical, fun _ => True, True, True, True, fun _ => True, True, True, True, True, True⟩

theorem scope_hasCalls : scope.HasCalls :=
  ⟨⟨⟨⟨trivial, trivial⟩, B160.ofLow20_canonical⟩, fun _ _ _ => trivial, fun _ _ => trivial, trivial, trivial, trivial⟩, trivial⟩

theorem of_step (h : Io.Step env scope io io') : NewKeysCanonical io io' := by
  cases h with
  | insertAccount a ha e he r hr =>
    intro b hb
    by_cases hba : b = a
    · exact .inr (hba ▸ ha)
    · refine .inl ?_
      have : (io.accounts.cache.getOrInsert a r).elems b ≠ none := hb
      rwa [HistoryMap.elems_getOrInsert, Function.update_of_ne hba] at this
  | updateAccount a f hf hn =>
    refine SameKeys.newKeysCanonical fun b => ?_
    show (io.accounts.cache.update a f).elems b = none ↔ _
    rw [HistoryMap.elems_update]
    by_cases hba : b = a
    · rw [hba, Function.update_self, Option.map_eq_none_iff]
    · rw [Function.update_of_ne hba]
  | _ => exact fun _ => .inl

theorem of_steps {sc : Scope} (hle : sc.Le scope) (h : Io.Steps env sc io io') : NewKeysCanonical io io' := by
  induction h with
  | refl => exact .refl _
  | tail _ hstep ih => exact ih.trans (of_step (hstep.mono hle))

theorem undo (h : Io.Snapshot) (io : Io) : SameKeys io ((Io.handler env).undo h io) := by
  intro a
  show ((io.rollback h).getD io).accounts.cache.elems a = none ↔ _
  rcases hr : io.rollback h with _ | io'
  · rfl
  · unfold Io.rollback at hr
    simp only [Option.bind_eq_bind, Option.bind_eq_some_iff, Option.some.injEq] at hr
    obtain ⟨slots, -, publication, -, accounts, hacc, transient, -, rfl⟩ := hr
    show accounts.elems a = none ↔ _
    rw [(HistoryMap.rollback_eq_some hacc).2.1, Option.map_eq_none_iff]

theorem of_visits {ε α : Type} {m : SysM ε α} {Q : α → Prop} (hm : Within scope m Q) {r : Resources}
    (h : (m r).Visits (Io.handler env) io io') : NewKeysCanonical io io' := by
  refine Visits.rel refl (fun _ _ _ => trans) (fun q io hq => of_steps hq (Io.handler_steps env q io))
    (fun io => ?_) (fun io io' h => ?_) (hm.asks r) h
  · exact fun _ => .inl
  · have hbody : NewKeysCanonical io io' := h
    exact hbody.trans (undo _ io').newKeysCanonical

end NewKeysCanonical

/-! ## The block loop -/

theorem beginNextTx_sameKeys (io : Io) : SameKeys io io.beginNextTx := by
  intro a
  show io.accounts.cache.commit.elems a = none ↔ _
  rw [HistoryMap.commit_elems, Option.map_eq_none_iff]

theorem sweepAccount_elems (a b : B160) (accounts : HistoryMap B160 AccountRecord) (storage : StorageCache) :
    (sweepAccount a accounts storage).1.elems b = none ↔ accounts.elems b = none := by
  unfold sweepAccount
  split
  · split
    · rw [HistoryMap.elems_mutateHead]
      by_cases hba : b = a
      · rw [hba, Function.update_self, Option.map_eq_none_iff]
      · rw [Function.update_of_ne hba]
    · rfl
  · rfl

theorem finishTx_sameKeys (io : Io) : SameKeys io io.finishTx := by
  intro b
  show (io.accounts.cache.pending.foldl (fun st p => sweepAccount p.1 st.1 st.2)
    (io.accounts.cache, io.storage)).1.elems b = none ↔ io.accounts.cache.elems b = none
  generalize io.accounts.cache = accounts, io.storage = storage
  generalize accounts.pending = pending
  induction pending generalizing accounts storage with
  | nil => rfl
  | cons p ps ih => rw [List.foldl_cons, ih, sweepAccount_elems]

/-- The states that one round of the loop goes through. -/
def TxReaches (env : Env) (cfg : Config) (machine : Machine) (block : BlockMetadata) (b : BlockData) (io : Io)
    (tx : IncomingTx) (io' : Io) : Prop :=
  match tx with
  | .unreadable => io' = io
  | tx => (txProgram env cfg machine block b tx .empty).Visits (Io.handler env) io.beginNextTx io'

/-- The states that the loop goes through, up to the end of the block or to its abort. -/
def BlockReaches (env : Env) (cfg : Config) (machine : Machine) (block : BlockMetadata) :
    BlockRun → List IncomingTx → Io → Prop
  | s, [], io => io = s.io
  | s, tx :: txs, io =>
    io = s.io ∨ TxReaches env cfg machine block s.data s.io tx io ∨
      match runTx env cfg machine block s.data s.io tx with
      | (.included r b, io') => BlockReaches env cfg machine block ⟨io', b, s.results ++ [.ok r]⟩ txs io
      | (.rejected e, io') => BlockReaches env cfg machine block ⟨io', s.data, s.results ++ [.error e]⟩ txs io
      | (.aborted, io') => io = io'

section Loop

variable (hcoinbase : block.coinbase.Canonical)

include hcoinbase

variable {b : BlockData} {io : Io} {tx : IncomingTx} {s : BlockRun} {txs : List IncomingTx}

theorem TxReaches.newKeysCanonical {io' : Io} (htx : tx.SenderIn NewKeysCanonical.scope)
    (h : TxReaches env cfg machine block b io tx io') :
    NewKeysCanonical io io' := by
  have hvisits : ∀ {tx : IncomingTx}, tx.SenderIn NewKeysCanonical.scope →
      (txProgram env cfg machine block b tx .empty).Visits (Io.handler env) io.beginNextTx io' →
      NewKeysCanonical io io' := fun htx hv =>
    (beginNextTx_sameKeys io).newKeysCanonical.trans
      (.of_visits (txProgram_within NewKeysCanonical.scope_hasCalls trivial trivial hcoinbase b htx) hv)
  cases tx with
  | unreadable =>
    cases h
    exact .refl _
  | undecodable => exact hvisits htx h
  | l2 tx => exact hvisits htx h
  | l1 tx => exact hvisits htx h

omit hcoinbase in
theorem runTx_io (htx : tx ≠ .unreadable) :
    let last := ((txProgram env cfg machine block b tx).run env ⟨io.beginNextTx, .empty⟩).2.io
    TxReaches env cfg machine block b io tx last ∧
      ((runTx env cfg machine block b io tx).2 = last.finishTx ∨ (runTx env cfg machine block b io tx).2 = last) := by
  intro last
  have hrun : (runTx env cfg machine block b io tx).2 = last.finishTx ∨
      (runTx env cfg machine block b io tx).2 = last := by
    cases tx <;> first
      | exact absurd rfl htx
      | unfold runTx
        simp only
        split
        · exact .inl rfl
        · exact .inr rfl
        · rename_i e _
          exact e.elim
  refine ⟨?_, hrun⟩
  cases tx <;> first
    | exact absurd rfl htx
    | exact visits_run _ _

theorem runTx_newKeysCanonical (htx : tx.SenderIn NewKeysCanonical.scope) :
    NewKeysCanonical io (runTx env cfg machine block b io tx).2 := by
  by_cases hne : tx = .unreadable
  · subst hne
    exact .refl _
  · obtain ⟨hreach, hio⟩ := @runTx_io env cfg machine block b io tx hne
    have hlast := hreach.newKeysCanonical hcoinbase htx
    rcases hio with hio | hio <;> rw [hio]
    · exact hlast.trans (finishTx_sameKeys _).newKeysCanonical
    · exact hlast

theorem BlockReaches.newKeysCanonical (htxs : ∀ tx ∈ txs, tx.SenderIn NewKeysCanonical.scope)
    (h : BlockReaches env cfg machine block s txs io) :
    NewKeysCanonical s.io io := by
  induction txs generalizing s with
  | nil =>
    cases h
    exact .refl _
  | cons tx txs ih =>
    have htx := htxs tx List.mem_cons_self
    have hrun : NewKeysCanonical s.io (runTx env cfg machine block s.data s.io tx).2 :=
      runTx_newKeysCanonical hcoinbase htx
    have ih' := fun {s} => @ih s fun tx' h' => htxs tx' (List.mem_cons_of_mem _ h')
    rcases h with rfl | h | h
    · exact .refl _
    · exact h.newKeysCanonical hcoinbase htx
    · rcases hx : runTx env cfg machine block s.data s.io tx with ⟨r | e | _, io'⟩ <;> rw [hx] at h hrun
      · exact hrun.trans (ih' h)
      · exact hrun.trans (ih' h)
      · cases h
        exact hrun

omit hcoinbase in
theorem blockReaches_runTxs {r : BlockRun} (h : runTxs env cfg machine block s txs = some r)
    : BlockReaches env cfg machine block s txs r.io := by
  induction txs generalizing s with
  | nil =>
    cases h
    rfl
  | cons tx txs ih =>
    unfold runTxs at h
    refine .inr (.inr ?_)
    rcases hx : runTx env cfg machine block s.data s.io tx with ⟨⟨r', b⟩ | e | _, io⟩
    · simp only [hx] at h ⊢
      exact ih h
    · simp only [hx] at h ⊢
      exact ih h
    · simp only [hx] at h
      cases h

end Loop

/-- No two cached keys stand for one address. -/
def KeysFaithful (io : Io) : Prop :=
  ∀ a b, io.accounts.cache.elems a ≠ none → io.accounts.cache.elems b ≠ none → a.low20 = b.low20 → a = b

/-- With metadata whose coinbase limb fits and with canonical senders, no two keys of the account cache
ever stand for one address, and at the end of the block every changed account is written to its own slot
and no other slot is touched. -/
theorem account_keys_faithful {p : PointerWidth} {ws rest : List (Usize p)} {m : BlockMetadataFromOracle}
    (hm : BlockMetadataFromOracle.fromIter p ws = .ok (m, rest)) (hlimb : (limbAt p ws 19).toNat < 2 ^ 32)
    {txs : List IncomingTx} (htxs : ∀ tx ∈ txs, tx.SenderIn NewKeysCanonical.scope) :
    m.coinbase.Canonical ∧
    (∀ io, BlockReaches env cfg machine m.toBlockMetadata .new txs io → KeysFaithful io) ∧
    (∀ r s res, runTxs env cfg machine m.toBlockMetadata .new txs = some r →
      persistChanges env ⟨r.io, res⟩ = (.ok (), s) →
      (∀ a e, r.io.accounts.cache.elems a = some e → Changed e →
        ∃ e', s.io.storage.cache.elems (accountSlot a) = some e' ∧ e'.current.value = e.current.value.hash env) ∧
      (∀ k, (∀ a e, r.io.accounts.cache.elems a = some e → Changed e → k ≠ accountSlot a) →
        s.io.storage.cache.elems k = r.io.storage.cache.elems k)) := by
  have hcoinbase : m.coinbase.Canonical := (BlockMetadataFromOracle.coinbase_canonical_iff hm).mpr hlimb
  have hfaithful : ∀ io, BlockReaches env cfg machine m.toBlockMetadata .new txs io → KeysFaithful io := by
    intro io hio a b ha hb hab
    have hkeys := hio.newKeysCanonical hcoinbase htxs
    -- the cache is empty at the start
    have hcanonical : ∀ a, io.accounts.cache.elems a ≠ none → a.Canonical := fun a ha =>
      (hkeys a ha).elim (fun h => absurd rfl h) id
    exact (B160.low20_inj (hcanonical a ha) (hcanonical b hb)).mp hab
  refine ⟨hcoinbase, hfaithful, fun r s res hr hs => ?_⟩
  exact persistChanges_ok (hfaithful _ (blockReaches_runTxs hr)) hs

/-! ## A coinbase that is not an address

Its low 20 bytes are those of the sender of the only transaction of the block. -/

def fundedAccount : AccountProperties := { AccountProperties.trivial with balance := 1000000000000000000 }

def modHash (bytes : List UInt8) : Bytes32 := BitVec.ofNat 256 (Digits.beNat bytes % (2 ^ 256 - 189))

def fundedChain : Env :=
  { emptyChain with
    slot := fun _ address key =>
      if (address, key) = accountSlot 0x1111 then (modHash fundedAccount.encoding, false) else (0, true)
    preimage := fun _ _ => fundedAccount.encoding
    blake := modHash }

def metadataWords (l₀ l₁ l₂ : Usize .w64) : List (Usize .w64) :=
  [0, 0, 0, 0] ++ [0, 0, 0, 0] ++ [1, 0, 0, 0] ++ [1, 0, 1, 1000000000, 1000000] ++ [l₀, l₁, l₂] ++
    List.replicate (4 * 256) 0 ++ [0, 0, 0, 0]

def payingTx : L2Transaction :=
  { delegatingTx with
    gasLimit := 100000000
    maxFeePerGas := 1
    authorizationList := none }

def payingRun (m : BlockMetadataFromOracle) : Option BlockRun :=
  runTxs fundedChain ⟨true, false⟩ failingMachine m.toBlockMetadata .new [.l2 payingTx]

/-- What is seen at the end of the block: the account of the sender changed, and its slot holds something
else. -/
def updateLost (m : BlockMetadataFromOracle) : Bool :=
  (payingRun m).any fun r =>
    let y := persistChanges fundedChain ⟨r.io, .empty⟩
    y.1.toOption.isSome && (r.io.accounts.cache.elems 0x1111).any fun e => decide (Changed e) &&
      (y.2.io.storage.cache.elems (accountSlot 0x1111)).any fun e' =>
        decide (e'.current.value ≠ e.current.value.hash fundedChain)

set_option maxRecDepth 100000 in
/-- The nonce and the fee of the sender are lost: the record of the coinbase is written over them. -/
theorem account_update_lost : ∃ m rest r s e e',
    BlockMetadataFromOracle.fromIter .w64 (metadataWords 0x1111 0 (1 <<< 32)) = .ok (m, rest) ∧
    ¬m.coinbase.Canonical ∧ payingRun m = some r ∧ persistChanges fundedChain ⟨r.io, .empty⟩ = (.ok (), s) ∧
    r.io.accounts.cache.elems 0x1111 = some e ∧ Changed e ∧
    s.io.storage.cache.elems (accountSlot 0x1111) = some e' ∧
    e'.current.value ≠ e.current.value.hash fundedChain := by
  have h : ((BlockMetadataFromOracle.fromIter .w64 (metadataWords 0x1111 0 (1 <<< 32))).toOption.any fun x =>
      decide (¬x.1.coinbase.Canonical) && updateLost x.1) = true := by decide +kernel
  rcases hx : BlockMetadataFromOracle.fromIter .w64 (metadataWords 0x1111 0 (1 <<< 32)) with e | ⟨m, rest⟩ <;>
    rw [hx] at h
  · cases h
  · simp only [Except.toOption, Option.any_some, updateLost, Option.any_eq_true, Bool.and_eq_true,
      decide_eq_true_eq, Option.isSome_iff_exists] at h
    obtain ⟨hcoinbase, r, hr, ⟨u, hu⟩, e, he, hchanged, e', he', hne⟩ := h
    rcases hs : persistChanges fundedChain ⟨r.io, .empty⟩ with ⟨_ | ⟨⟩, s⟩ <;> rw [hs] at hu he'
    · cases hu
    · exact ⟨m, rest, r, s, e, e', rfl, hcoinbase, hr, hs, he, hchanged, he', hne⟩

set_option maxRecDepth 100000 in
theorem account_keys_faithful_payingTx : ∃ m rest,
    BlockMetadataFromOracle.fromIter .w64 (metadataWords 0x99 0 0) = .ok (m, rest) ∧ m.coinbase.Canonical ∧
    ∀ r s, payingRun m = some r → persistChanges fundedChain ⟨r.io, .empty⟩ = (.ok (), s) →
      ∀ a e, r.io.accounts.cache.elems a = some e → Changed e →
        ∃ e', s.io.storage.cache.elems (accountSlot a) = some e' ∧
          e'.current.value = e.current.value.hash fundedChain := by
  have h : (BlockMetadataFromOracle.fromIter .w64 (metadataWords 0x99 0 0)).toOption.isSome = true := by
    decide +kernel
  rcases hx : BlockMetadataFromOracle.fromIter .w64 (metadataWords 0x99 0 0) with e | ⟨m, rest⟩ <;> rw [hx] at h
  · cases h
  · have htxs : ∀ tx ∈ [IncomingTx.l2 payingTx], tx.SenderIn NewKeysCanonical.scope :=
      List.forall_mem_singleton.mpr (show (0x1111 : B160).Canonical by decide)
    obtain ⟨hcoinbase, -, hpersist⟩ := account_keys_faithful hx (by decide +kernel) htxs
    exact ⟨m, rest, rfl, hcoinbase, fun r s hr hs => (hpersist r s _ hr hs).1⟩

end ZkOs.Bootloader
