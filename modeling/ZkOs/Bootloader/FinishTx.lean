import Mathlib.Data.Prod.Lex
import Mathlib.Data.List.Lex
import ZkOs.Bootloader.Deconstruction

/-!
# The end of a transaction

* `sortKey`, `lowerBound`, `upperBound` : the order of the slots in their tree, and the range of one address;
* `clearStateImpl` : `clear_state_impl` on that range, `clearStateImpl_eq` : it is `clearState`;
* `finish_tx_deconstructs` : `finish_tx` deconstructs the accounts with a kept mark, each once, and nothing else.
-/

namespace ZkOs

open History Digits

/-! ## The slots of one address -/

def B160.limbs (a : B160) : List Nat := [a.toNat % 2 ^ 64, a.toNat / 2 ^ 64 % 2 ^ 64, a.toNat / 2 ^ 128]

theorem B160.limbs_inj {a b : B160} : a.limbs = b.limbs ↔ a = b := by
  constructor
  · intro h
    unfold limbs at h
    simp only [List.cons.injEq, and_true] at h
    apply BitVec.eq_of_toNat_eq
    omega
  · rintro rfl
    rfl

namespace SlotKey

/-- `WarmStorageKey::cmp`: the limbs of the address from the lowest on, then the bytes of the key. -/
def sortKey (k : SlotKey) : List Nat ×ₗ List Nat :=
  toLex (k.1.limbs, (beBytes 32 k.2.toNat).map UInt8.toNat)

def lowerBound (address : B160) : SlotKey := (address, 0)

def upperBound (address : B160) : SlotKey := (address, BitVec.allOnes 256)

/-- The keys that `for_each_range` visits, both bounds included. -/
def inRange (lower upper k : SlotKey) : Bool := sortKey lower ≤ sortKey k ∧ sortKey k ≤ sortKey upper

theorem replicate_le {n : Nat} {l : List Nat} (h : l.length = n) : List.replicate n 0 ≤ l := by
  induction l generalizing n with
  | nil =>
    subst h
    exact le_refl _
  | cons x l ih =>
    subst h
    rw [List.length_cons, List.replicate_succ]
    rcases Nat.eq_zero_or_pos x with rfl | hx
    · exact List.cons_le_cons 0 (ih rfl)
    · exact le_of_lt (List.Lex.rel hx)

theorem le_replicate {n b : Nat} {l : List Nat} (h : l.length = n) (hb : ∀ x ∈ l, x ≤ b) : l ≤ List.replicate n b := by
  induction l generalizing n with
  | nil =>
    subst h
    exact le_refl _
  | cons x l ih =>
    subst h
    rw [List.length_cons, List.replicate_succ]
    rcases Nat.lt_or_eq_of_le (hb x List.mem_cons_self) with hx | rfl
    · exact le_of_lt (List.Lex.rel hx)
    · exact List.cons_le_cons x (ih rfl fun y hy => hb y (List.mem_cons_of_mem _ hy))

theorem inRange_bounds (a : B160) (k : SlotKey) : inRange (lowerBound a) (upperBound a) k = decide (k.1 = a) := by
  have hlower : (beBytes 32 (0 : Bytes32).toNat).map UInt8.toNat = List.replicate 32 0 := by decide
  have hupper : (beBytes 32 (BitVec.allOnes 256).toNat).map UInt8.toNat = List.replicate 32 255 := by decide +kernel
  have hlength : ((beBytes 32 k.2.toNat).map UInt8.toNat).length = 32 := by
    rw [List.length_map, length_beBytes]
  unfold inRange
  rw [decide_eq_decide]
  simp only [sortKey, lowerBound, upperBound, Prod.Lex.toLex_le_toLex, hlower, hupper]
  constructor
  · rintro ⟨hl, hu⟩
    apply B160.limbs_inj.mp
    rcases hl with hl | ⟨hl, -⟩
    · rcases hu with hu | ⟨hu, -⟩
      · exact absurd hl (lt_asymm hu)
      · exact hu
    · exact hl.symm
  · rintro rfl
    refine ⟨.inr ⟨rfl, replicate_le hlength⟩, .inr ⟨rfl, le_replicate hlength fun x hx => ?_⟩⟩
    obtain ⟨b, -, rfl⟩ := List.mem_map.mp hx
    have hb := b.toNat_lt
    omega

end SlotKey

def clearStateImpl (address : B160) (c : StorageCache) : StorageCache :=
  { c with
    cache := (c.cache.keys.filter (SlotKey.inRange (.lowerBound address) (.upperBound address))).foldl
      (fun m k => m.update k fun r => (r.update fun _ md => (0, md)).unset) c.cache }

theorem clearStateImpl_eq (a : B160) (c : StorageCache) : clearStateImpl a c = clearState a c := by
  unfold clearStateImpl clearState
  have hfilter : c.cache.keys.filter (SlotKey.inRange (.lowerBound a) (.upperBound a)) =
      c.cache.keys.filter fun k => k.1 = a :=
    List.filter_congr fun k _ => SlotKey.inRange_bounds a k
  rw [hfilter]

/-! ## `finish_tx` -/

/-- `finish_deconstruction` and the update to the trivial account, made once. -/
def deconstructHead (e : Element AccountRecord) : Element AccountRecord :=
  e.mutateHead fun r => ⟨.updated, .trivial, r.metadata⟩

theorem clearState_isSome (a : B160) (k : SlotKey) (c : StorageCache) :
    ((clearState a c).cache.elems k).isSome = (c.cache.elems k).isSome := by
  unfold clearState
  generalize c.cache.keys.filter (fun k => k.1 = a) = ks
  show ((ks.foldl _ c.cache).elems k).isSome = _
  generalize c.cache = m
  induction ks generalizing m with
  | nil => rfl
  | cons k' ks ih =>
    rw [List.foldl_cons, ih, HistoryMap.elems_update]
    by_cases hk : k = k'
    · subst hk
      rw [Function.update_self, Option.isSome_map]
    · rw [Function.update_of_ne hk]

theorem sweepAccount_isSome (a : B160) (k : SlotKey) (m : HistoryMap B160 AccountRecord) (c : StorageCache) :
    ((sweepAccount a m c).2.cache.elems k).isSome = (c.cache.elems k).isSome := by
  unfold sweepAccount
  split
  · split
    · exact clearState_isSome a k c
    · rfl
  · rfl

theorem finishTx_slot_isSome (io : Io) (k : SlotKey) :
    (io.finishTx.storage.cache.elems k).isSome = (io.storage.cache.elems k).isSome := by
  show ((io.accounts.cache.pending.foldl (fun st p => sweepAccount p.1 st.1 st.2)
    (io.accounts.cache, io.storage)).2.cache.elems k).isSome = _
  generalize io.accounts.cache.pending = l
  generalize io.accounts.cache = m
  generalize io.storage = c
  induction l generalizing m c with
  | nil => rfl
  | cons p l ih =>
    rw [List.foldl_cons]
    exact (ih _ _).trans (sweepAccount_isSome p.1 k m c)

theorem sweepElement_of_marked {e : Element AccountRecord} (h : e.current.appearance = .deconstructed) :
    sweepElement e = deconstructHead e := by
  unfold sweepElement deconstructHead
  rw [if_pos h]
  rcases e with ⟨i, c, _ | ⟨r, rs⟩⟩
  · rfl
  · have hr : r.value.appearance = .deconstructed := h
    simp [Element.mutateHead, finishDeconstruction, hr, CacheRecord.update]

end ZkOs

namespace ZkOs.Bootloader

open History SysM

variable {env : Env} {cfg : Config} {machine : Machine} {block : BlockMetadata} {b' : BlockData} {tx : IncomingTx}
  {r : TxProcessingResult}

/-- The end of every transaction that is included in a block, where `last` is the state before `finish_tx`:
* an account is marked in `last` if and only if a `SELFDESTRUCT` that marks it was not rolled back, whatever
  happened after it;
* its last record becomes the one of the trivial account, by one step, however often it is pending;
* the slots of its address that were cached are still cached and zero;
* every other account and every slot of another address is as in `last`. -/
theorem finish_tx_deconstructs {txs : List IncomingTx} {run : BlockRun} {io' : Io}
    (hrun : runTxs env cfg machine block .new txs = some run)
    (htx : runTx env cfg machine block run.data run.io tx = (.included r b', io')) :
    let last := ((txProgram env cfg machine block run.data tx).run env ⟨run.io.beginNextTx, .empty⟩).2.io
    io' = last.finishTx ∧
    (∀ a, Deconstructed last.accounts.cache a ↔
      SelfDestructed (keptEvents env cfg machine block run.data run.io tx) a) ∧
    (∀ a e, last.accounts.cache.elems a = some e → e.current.appearance = .deconstructed →
      io'.accounts.cache.elems a = some (deconstructHead e) ∧ (deconstructHead e).current.value = .trivial ∧
        ∀ key, (io'.storage.cache.elems (a, key)).isSome = (last.storage.cache.elems (a, key)).isSome ∧
          ∀ slot, io'.storage.cache.elems (a, key) = some slot → slot.current.value = 0) ∧
    ∀ a, ¬Deconstructed last.accounts.cache a → Untouched last io' a := by
  intro last
  have hio : TxStart run.io := TxStart.runTxs .new hrun
  obtain ⟨s, hx, rfl⟩ := runTx_included htx
  have hlast : last = s.io := congrArg (fun x => x.2.io) hx
  have hmark : ∀ a, Deconstructed last.accounts.cache a ↔ (last.marks a).deconstructed = true := by
    intro a
    constructor
    · rintro ⟨e, he, hd⟩
      rw [Io.marks_of_elems he]
      exact decide_eq_true hd
    · intro h
      rw [hlast] at h ⊢
      exact (markedSinceCommit hio (run_extends_of hx) h).deconstructed
  refine ⟨by rw [hlast], fun a => ?_, fun a e he hd => ?_, fun a hn => ?_⟩
  · rw [hmark, hlast]
    exact marked_iff hio hx a
  · have hm : (s.io.marks a).deconstructed = true := hlast ▸ (hmark a).mp ⟨e, he, hd⟩
    have hsince := markedSinceCommit hio (run_extends_of hx) hm
    obtain ⟨⟨e', he', htrivial⟩, hslots⟩ := Io.finishTx_of_marked hsince
    have hswept : s.io.finishTx.accounts.cache.elems a = some (deconstructHead e) := by
      rw [Io.finishTx_elems, if_pos hsince.pending, ← hlast, he, Option.map_some, sweepElement_of_marked hd]
    cases he'.symm.trans hswept
    rw [hlast]
    exact ⟨hswept, htrivial, fun key => ⟨finishTx_slot_isSome _ _, hslots key⟩⟩
  · rw [hmark, Bool.not_eq_true] at hn
    rw [hlast] at hn ⊢
    exact Io.finishTx_of_not_marked hn

/-- A constructor that writes a slot and destroys its account. -/
def ephemeralMachine : Machine where
  interpreter _ := .op (.sstore 1 7) fun _ _ => .op (.selfDestruct 0x99) fun _ _ => .exit (.success [])
  precompile _ _ := (.empty, none)

def ephemeralRun : TxOutcome × Io :=
  runTx emptyChain ⟨true, false⟩ ephemeralMachine freeBlock .new .new (.l2 deploymentTx)

def ephemeralLast : Io :=
  ((txProgram emptyChain ⟨true, false⟩ ephemeralMachine freeBlock BlockRun.new.data (.l2 deploymentTx)).run emptyChain
    ⟨BlockRun.new.io.beginNextTx, .empty⟩).2.io

set_option maxRecDepth 100000 in
/-- Account and slot are there before the end of the transaction, and empty after it. -/
theorem finish_tx_deconstructs_ephemeralRun :
    ((ephemeralLast.storage.cache.elems (0x5555, 1)).map fun e => e.current.value) = some 7 ∧
      ∃ e, ephemeralRun.2.accounts.cache.elems 0x5555 = some e ∧ e.current.value = .trivial ∧
        ∀ slot, ephemeralRun.2.storage.cache.elems (0x5555, 1) = some slot → slot.current.value = 0 := by
  obtain ⟨r, b, hrun⟩ := included_of_isIncluded (x := ephemeralRun) (by decide +kernel)
  have hstart : runTxs emptyChain ⟨true, false⟩ ephemeralMachine freeBlock .new [] = some .new := rfl
  have hmark : ((ephemeralLast.accounts.cache.elems 0x5555).map fun e => e.current.appearance) =
      some .deconstructed := by
    decide +kernel
  obtain ⟨e, he, hd⟩ := Option.map_eq_some_iff.mp hmark
  have hend := finish_tx_deconstructs hstart hrun
  unfold ephemeralLast at he
  have h := hend.2.2.1 0x5555 e he hd
  exact ⟨by decide +kernel, deconstructHead e, h.1, h.2.1, (h.2.2 1).2⟩

end ZkOs.Bootloader
