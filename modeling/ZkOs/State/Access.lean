import ZkOs.State.Frames
import ZkOs.State.Persist

/-!
# What accesses to slots and accounts cost

* `Resources.Spends` : the ergs and the native that were taken;
* `Access`, `Io.warm` : a slot or an account, and whether it was touched in this transaction;
* `materializeSlot_ok`, `materializeAccount_spends` : a cold entry pays the extra price of cold accesses, whether it is read
  into the cache now or was there before;
* `Io.slotView`, `sstoreGas`, `storageWriteSlot_ergs` : a store is charged what EIP-2200 and EIP-2929 say.
-/

namespace ZkOs

open History ZkOs.Action

/-! ## Resources that are spent -/

/-- The ergs and the native that were taken. -/
structure Resources.Spends (r r' : Resources) (e n : Nat) : Prop where
  ergs : r.ergs.toNat = r'.ergs.toNat + e
  native : r.native.toNat = r'.native.toNat + n

namespace Resources.Spends

variable {r r' r'' : Resources} {e e' n n' : Nat}

theorem refl (r : Resources) : r.Spends r 0 0 := ⟨rfl, rfl⟩

theorem trans (h : r.Spends r' e n) (h' : r'.Spends r'' e' n') : r.Spends r'' (e + e') (n + n') := by
  have he := h.ergs
  have he' := h'.ergs
  have hn := h.native
  have hn' := h'.native
  constructor <;> omega

end Resources.Spends

theorem Resources.charge_spends {r c r' : Resources} (h : r.charge c = (.ok (), r')) :
    r.Spends r' c.ergs.toNat c.native.toNat := by
  obtain ⟨hergs, hnative, rfl⟩ := Resources.charge_ok h
  constructor
  · rw [BitVec.toNat_sub_of_le hergs, Nat.sub_add_cancel hergs]
  · rw [BitVec.toNat_sub_of_le hnative, Nat.sub_add_cancel hnative]

theorem charge_spends {c : Resources} {s s' : Sys} (h : charge c s = (.ok (), s')) :
    s.res.Spends s'.res c.ergs.toNat c.native.toNat ∧ s'.io = s.io := by
  refine ⟨?_, charge_ok h⟩
  unfold charge at h
  apply Resources.charge_spends
  have hresult := congrArg Prod.fst h
  have hleft := congrArg (fun x => x.2.res) h
  exact Prod.ext hresult hleft

theorem unless_spends {b : Bool} {m : IoM Unit} {s s' : Sys} {e n : Nat}
    (h : (if b then pure () else m) s = (.ok (), s'))
    (hm : m s = (.ok (), s') → s.res.Spends s'.res e n ∧ s'.io = s.io) :
    s.res.Spends s'.res (if b then 0 else e) (if b then 0 else n) ∧ s'.io = s.io := by
  cases b with
  | true =>
    cases h
    exact ⟨.refl _, rfl⟩
  | false => exact hm h

/-! ## Warm entries -/

inductive Access where
  | slot (k : SlotKey)
  | account (a : B160)
  deriving DecidableEq

namespace Io

/-- The transaction that last touched the entry. -/
def touched (io : Io) : Access → Option Nat
  | .slot k => (io.storage.cache.elems k).bind fun e => e.current.metadata.lastTouchedInTx
  | .account a => (io.accounts.cache.elems a).bind fun e => e.current.metadata.lastTouchedInTx

/-- The transaction that touches entries now. -/
def txOf (io : Io) : Access → Nat
  | .slot _ => io.storage.currentTxId
  | .account _ => io.accounts.currentTxId

def warm (io : Io) (x : Access) : Bool := io.touched x = some (io.txOf x)

/-- Whether the slot counts as new: by its record in the cache, or by the oracle's answer. -/
def slotIsNew (env : Env) (io : Io) (k : SlotKey) : Bool :=
  match io.storage.cache.elems k with
  | some e => e.current.appearance = .unset
  | none => (env.slot io.asked k.1 k.2).2

/-- The value of a slot at the start of the transaction, its current value, and whether it is warm. -/
structure SlotView where
  start : Bytes32
  current : Bytes32
  warm : Bool

def slotView (env : Env) (io : Io) (k : SlotKey) : SlotView :=
  match io.storage.cache.elems k with
  | some e => ⟨e.base.value, e.current.value, io.warm (.slot k)⟩
  | none => ⟨(env.slot io.asked k.1 k.2).1, (env.slot io.asked k.1 k.2).1, false⟩

theorem slotView_warm (env : Env) (io : Io) (k : SlotKey) : (io.slotView env k).warm = io.warm (.slot k) := by
  unfold slotView
  rcases he : io.storage.cache.elems k with _ | e
  · simp [warm, touched, he]
  · rfl

end Io

/-! ## Slots -/

section Slots

variable {env : Env} {ee : ExecutionEnvironmentType} {k : SlotKey} {s s' : Sys}

theorem getOrInsertSlot_ok {initialized : Bool} (h : getOrInsertSlot env ee k s = (.ok initialized, s')) :
    (∃ e, s.io.storage.cache.elems k = some e ∧ initialized = false ∧ s' = s) ∨
    (s.io.storage.cache.elems k = none ∧ initialized = true ∧
      s'.io.storage.cache.elems k = some (Element.new (initialSlotRecord (env.slot s.io.asked k.1 k.2))) ∧
      s'.io.storage.currentTxId = s.io.storage.currentTxId ∧
      s.res.Spends s'.res (coldStorageReadExtra ee (env.slot s.io.asked k.1 k.2).2).ergs.toNat
        (coldStorageReadExtra ee (env.slot s.io.asked k.1 k.2).2).native.toNat) := by
  unfold getOrInsertSlot at h
  obtain ⟨_, s₁, hget, h₁⟩ := bind_ok.mp h
  cases hget
  rcases he : s.io.storage.cache.elems k with _ | e
  · simp only [he] at h₁
    obtain ⟨answer, s₂, hquery, h₂⟩ := bind_ok.mp h₁
    cases hquery
    obtain ⟨_, s₃, hcharge, h₃⟩ := bind_ok.mp h₂
    obtain ⟨hspends, hio⟩ := charge_spends hcharge
    obtain ⟨_, s₄, hrequire, h₄⟩ := bind_ok.mp h₃
    obtain ⟨-, rfl⟩ := require_ok hrequire
    obtain ⟨_, s₅, hinsert, h₅⟩ := bind_ok.mp h₄
    cases hinsert
    cases h₅
    refine .inr ⟨rfl, rfl, ?_, ?_, hspends⟩
    · show (s₄.io.storage.cache.getOrInsert k _).elems k = _
      rw [HistoryMap.elems_getOrInsert, Function.update_self, hio]
      simp only [he]
      rfl
    · show s₄.io.storage.currentTxId = _
      rw [hio]
  · simp only [he] at h₁
    cases h₁
    exact .inl ⟨e, rfl, rfl, rfl⟩

theorem warmUpSlot_ok {initialized w : Bool} (h : warmUpSlot ee k initialized s = (.ok w, s')) :
    ∃ e, s.io.storage.cache.elems k = some e ∧
      (w = true ∧ e.current.metadata.lastTouchedInTx = some s.io.storage.currentTxId ∧ s' = s ∨
        w = false ∧ e.current.metadata.lastTouchedInTx ≠ some s.io.storage.currentTxId ∧
          s.res.Spends s'.res
            (if initialized then 0 else (coldStorageReadExtra ee (e.current.appearance = .unset)).ergs.toNat)
            (if initialized then 0 else (coldStorageReadExtra ee (e.current.appearance = .unset)).native.toNat) ∧
          ∃ n, s'.io.storage.cache.elems k =
            some (e.update n fun r => r.updateMetadata fun _ => ⟨some s.io.storage.currentTxId⟩)) := by
  unfold warmUpSlot at h
  obtain ⟨_, s₁, hget, h₁⟩ := bind_ok.mp h
  cases hget
  obtain ⟨e, s₂, hitem, h₂⟩ := bind_ok.mp h₁
  obtain ⟨he, rfl⟩ := slotItem_ok hitem
  refine ⟨e, he, ?_⟩
  split at h₂
  · next htouched =>
    cases h₂
    exact .inl ⟨rfl, htouched, rfl⟩
  · next htouched =>
    obtain ⟨_, s₃, hcharge, h₃⟩ := bind_ok.mp h₂
    obtain ⟨_, s₄, hupdate, h₄⟩ := bind_ok.mp h₃
    cases hupdate
    cases h₄
    obtain ⟨hpaid, hio⟩ := unless_spends hcharge charge_spends
    refine .inr ⟨rfl, htouched, hpaid, s₃.io.storage.cache.next, ?_⟩
    show (s₃.io.storage.cache.update k _).elems k = _
    rw [HistoryMap.elems_update, Function.update_self, hio, he]
    rfl

/-- A slot that is read or written: the price of a warm access, and the extra price unless it was touched in this
transaction. Its values do not change. -/
theorem materializeSlot_ok {isAccessList w : Bool} (h : materializeSlot env ee k isAccessList s = (.ok w, s')) :
    w = s.io.warm (.slot k) ∧
      (∃ e, s'.io.storage.cache.elems k = some e ∧ e.base.value = (s.io.slotView env k).start ∧
        e.current.value = (s.io.slotView env k).current) ∧
      s.res.Spends s'.res
        ((warmStorageRead ee isAccessList).ergs.toNat +
          if w then 0 else (coldStorageReadExtra ee (s.io.slotIsNew env k)).ergs.toNat)
        ((warmStorageRead ee isAccessList).native.toNat +
          if w then 0 else (coldStorageReadExtra ee (s.io.slotIsNew env k)).native.toNat) := by
  unfold materializeSlot at h
  obtain ⟨_, s₁, hcharge, h₁⟩ := bind_ok.mp h
  obtain ⟨initialized, s₂, hinsert, hwarm⟩ := bind_ok.mp h₁
  obtain ⟨hspends, hio⟩ := charge_spends hcharge
  obtain ⟨e, he, hcase⟩ := warmUpSlot_ok hwarm
  unfold Io.warm Io.touched Io.txOf Io.slotView Io.slotIsNew
  rcases getOrInsertSlot_ok hinsert with ⟨e', he', rfl, rfl⟩ | ⟨hnone, rfl, hnew, htx, hpaid⟩
  · -- the slot was in the cache
    cases he'.symm.trans he
    rw [hio] at he hcase
    simp only [he, Option.bind_some]
    rcases hcase with ⟨rfl, htouched, rfl⟩ | ⟨rfl, htouched, hcold, n, hupdate⟩
    · refine ⟨?_, ⟨e, hio ▸ he, rfl, rfl⟩, hspends⟩
      simp [htouched]
    · refine ⟨?_, ⟨_, hupdate, ?_, ?_⟩, hspends.trans hcold⟩
      · simp [htouched]
      · rw [Element.update_base]
      · rw [Element.current_update]
        rfl
  · -- it is read from the oracle, and is cold
    cases hnew.symm.trans he
    rw [hio] at hnone hpaid
    simp only [hnone, Option.bind_none]
    rcases hcase with ⟨-, htouched, -⟩ | ⟨rfl, -, hcold, n, hupdate⟩
    · cases htouched
    · refine ⟨rfl, ⟨_, hupdate, ?_, ?_⟩, hspends.trans (hpaid.trans hcold)⟩
      · rw [Element.update_base, Element.new_base, hio]
        rfl
      · rw [Element.current_update, Element.new_current, hio]
        rfl

end Slots

/-! ## Accounts -/

namespace Io

/-- Whether the account counts as empty: by its record in the cache, or by the hash in its special slot. -/
def accountIsEmpty (env : Env) (io : Io) (a : B160) : Bool :=
  match io.accounts.cache.elems a with
  | some e => e.current.appearance = .unset
  | none => (io.slotView env (accountSlot a)).current = 0

end Io

/-- The native part of `charge_native_for_cold_access`. -/
def coldAccountNative (ee : ExecutionEnvironmentType) (emptyAccount : Bool) : Nat :=
  (warmStorageRead ee false).native.toNat + (coldStorageReadExtra ee emptyAccount).native.toNat +
    if emptyAccount then 0 else (decommitmentNativeCost AccountProperties.encodedSize).native.toNat

section Accounts

variable {env : Env} {ee : ExecutionEnvironmentType} {a : B160} {s s' : Sys}

theorem updateAccount_ok {f : AccountRecord → AccountRecord} {e : Element AccountRecord}
    (h : updateAccount a f s = (.ok (), s')) (he : s.io.accounts.cache.elems a = some e) :
    s'.io.accounts.cache.elems a = some (e.update s.io.accounts.cache.next f) ∧
      s'.io.preimages = s.io.preimages ∧ s'.res = s.res := by
  cases h
  refine ⟨?_, rfl, rfl⟩
  show (s.io.accounts.cache.update a f).elems a = _
  rw [HistoryMap.elems_update, Function.update_self, he]
  rfl

theorem withInfiniteErgs_charge_ok {c : Resources} (h : withInfiniteErgs (charge c) s = (.ok (), s')) :
    s.res.Spends s'.res 0 c.native.toNat ∧ s'.io = s.io := by
  have hok : (charge c { s with res := { s.res with ergs := BitVec.allOnes 64 } }).1 = .ok () := congrArg Prod.fst h
  have hstate : (withInfiniteErgs (charge c) s).2 = s' := congrArg Prod.snd h
  obtain ⟨hspends, hio⟩ := charge_spends (Prod.ext hok rfl)
  rw [← hstate]
  exact ⟨⟨rfl, hspends.native⟩, hio⟩

theorem chargeNativeForColdAccess_ok {e : Bool} (h : chargeNativeForColdAccess ee e s = (.ok (), s')) :
    s.res.Spends s'.res 0 (coldAccountNative ee e) ∧ s'.io = s.io := by
  unfold chargeNativeForColdAccess at h
  obtain ⟨_, s₁, h₁, hrest⟩ := bind_ok.mp h
  obtain ⟨_, s₂, h₂, h₃⟩ := bind_ok.mp hrest
  obtain ⟨hspends₁, hio₁⟩ := withInfiniteErgs_charge_ok h₁
  obtain ⟨hspends₂, hio₂⟩ := withInfiniteErgs_charge_ok h₂
  obtain ⟨hspends₃, hio₃⟩ := unless_spends h₃ charge_spends
  refine ⟨?_, hio₃.trans (hio₂.trans hio₁)⟩
  cases e <;> exact (hspends₁.trans hspends₂).trans hspends₃

theorem withInfiniteResources_state {α : Type} {m : IoM α} {x : Except Err α} (h : withInfiniteResources m s = (x, s')) :
    s'.res = s.res ∧ s'.io = (m { s with res := .infinite }).2.io := by
  have hstate : (withInfiniteResources m s).2 = s' := congrArg Prod.snd h
  rw [← hstate]
  exact ⟨rfl, rfl⟩

theorem applyRead_accountSlot_ok {hash : Bytes32}
    (h : withInfiniteResources (applyRead env .noEE (accountSlot a) false) s = (.ok hash, s')) :
    hash = (s.io.slotView env (accountSlot a)).current ∧ s'.res = s.res ∧ s'.io.accounts = s.io.accounts := by
  have hres := (withInfiniteResources_state h).1
  obtain ⟨t, hread, hio⟩ := withInfiniteResources_ok h
  unfold applyRead at hread
  obtain ⟨w, s₁, hslot, hrest⟩ := bind_ok.mp hread
  obtain ⟨e, s₂, hitem, hpure⟩ := bind_ok.mp hrest
  obtain ⟨he, rfl⟩ := slotItem_ok hitem
  cases hpure
  obtain ⟨-, ⟨e', he', -, hcurrent⟩, -⟩ := materializeSlot_ok hslot
  cases he.symm.trans he'
  have honly := OnlySlot.of_runs ((OnlySlot.admits _).materializeSlot .noEE rfl false) hslot
  exact ⟨hcurrent, hres, (congrArg Io.accounts hio).trans honly.accounts⟩

/-- The record of a hash is fresh and unset if the hash is zero. It is decommitted for free. -/
theorem decommitAccount_fresh {hash : Bytes32} {r : AccountRecord} (h : decommitAccount env hash s = (.ok r, s')) :
    r.metadata = initialMetadata ∧ (r.appearance = .unset ↔ hash = 0) ∧ s'.res = s.res ∧
      s'.io.accounts = s.io.accounts := by
  unfold decommitAccount at h
  split at h
  · next hzero =>
    cases h
    exact ⟨rfl, ⟨fun _ => hzero, fun _ => rfl⟩, rfl, rfl⟩
  · next hne =>
    obtain ⟨bytes, s₁, hget, h₁⟩ := bind_ok.mp h
    obtain ⟨_, s₂, hrequire, h₂⟩ := bind_ok.mp h₁
    obtain ⟨-, rfl⟩ := require_ok hrequire
    cases h₂
    obtain ⟨hres, hio⟩ := withInfiniteResources_state hget
    refine ⟨rfl, ⟨fun h => (by cases h), fun h => absurd h hne⟩, hres, ?_⟩
    rw [hio]
    exact ((OnlySlot.admits (k := accountSlot 0) s).getPreimage hash _ { s with res := .infinite } (.refl s)).io.accounts

theorem getOrInsertAccount_ok {sd initialized : Bool} (h : getOrInsertAccount env ee a sd s = (.ok initialized, s')) :
    (∃ e, s.io.accounts.cache.elems a = some e ∧ initialized = false ∧ s' = s) ∨
    (s.io.accounts.cache.elems a = none ∧ initialized = true ∧
      (∃ r, s'.io.accounts.cache.elems a = some (Element.new r) ∧ r.metadata = initialMetadata ∧
        (r.appearance = .unset ↔ (s.io.slotView env (accountSlot a)).current = 0)) ∧
      s'.io.accounts.currentTxId = s.io.accounts.currentTxId ∧
      s.res.Spends s'.res (coldAccountErgs ee a sd).ergs.toNat
        ((coldAccountErgs ee a sd).native.toNat +
          coldAccountNative ee ((s.io.slotView env (accountSlot a)).current = 0))) := by
  unfold getOrInsertAccount at h
  obtain ⟨_, s₁, hget, h₁⟩ := bind_ok.mp h
  cases hget
  rcases he : s.io.accounts.cache.elems a with _ | e
  · simp only [he] at h₁
    obtain ⟨_, s₂, hcharge, h₂⟩ := bind_ok.mp h₁
    obtain ⟨hspends, hio⟩ := charge_spends hcharge
    obtain ⟨hash, s₃, hread, h₃⟩ := bind_ok.mp h₂
    obtain ⟨_, s₄, hcold, h₄⟩ := bind_ok.mp h₃
    obtain ⟨r, s₅, hdecommit, h₅⟩ := bind_ok.mp h₄
    obtain ⟨_, s₆, hinsert, h₆⟩ := bind_ok.mp h₅
    cases hinsert
    cases h₆
    obtain ⟨hhash, hres₃, hacc₃⟩ := applyRead_accountSlot_ok hread
    obtain ⟨hnative, hio₄⟩ := chargeNativeForColdAccess_ok hcold
    obtain ⟨hmeta, happ, hres₅, hacc₅⟩ := decommitAccount_fresh hdecommit
    have hacc : s₅.io.accounts = s.io.accounts := by rw [hacc₅, hio₄, hacc₃, hio]
    rw [hio] at hhash
    subst hhash
    refine .inr ⟨rfl, rfl, ⟨r, ?_, hmeta, happ⟩, ?_, ?_⟩
    · show (s₅.io.accounts.cache.getOrInsert a r).elems a = _
      rw [HistoryMap.elems_getOrInsert, Function.update_self, hacc, he]
      rfl
    · show s₅.io.accounts.currentTxId = _
      rw [hacc]
    · rw [← hres₃] at hspends
      rw [← hres₅] at hnative
      exact hspends.trans hnative
  · simp only [he] at h₁
    cases h₁
    exact .inl ⟨e, rfl, rfl, rfl⟩

theorem warmUpAccount_ok {sd initialized : Bool} (h : warmUpAccount ee a sd initialized s = (.ok (), s')) :
    ∃ e, s.io.accounts.cache.elems a = some e ∧
      (e.current.metadata.lastTouchedInTx = some s.io.accounts.currentTxId ∧ s' = s ∨
        e.current.metadata.lastTouchedInTx ≠ some s.io.accounts.currentTxId ∧
          s.res.Spends s'.res (if initialized then 0 else (coldAccountErgs ee a sd).ergs.toNat)
            (if initialized then 0 else
              (coldAccountErgs ee a sd).native.toNat + coldAccountNative ee (e.current.appearance = .unset)) ∧
          ∃ n, s'.io.accounts.cache.elems a = some (e.update n fun r => r.updateMetadata fun m =>
            { m with lastTouchedInTx := some s.io.accounts.currentTxId })) := by
  unfold warmUpAccount at h
  obtain ⟨_, s₁, hget, h₁⟩ := bind_ok.mp h
  cases hget
  obtain ⟨e, s₂, hitem, h₂⟩ := bind_ok.mp h₁
  obtain ⟨he, rfl⟩ := accountItem_ok hitem
  refine ⟨e, he, ?_⟩
  split at h₂
  · next htouched =>
    cases h₂
    exact .inl ⟨htouched, rfl⟩
  · next htouched =>
    obtain ⟨_, s₃, hcharge, h₃⟩ := bind_ok.mp h₂
    cases h₃
    obtain ⟨hpaid, hio⟩ := unless_spends hcharge fun hcold => by
      obtain ⟨_, s₄, hergs, hnative⟩ := bind_ok.mp hcold
      obtain ⟨hspends, hio⟩ := charge_spends hergs
      obtain ⟨hspends', hio'⟩ := chargeNativeForColdAccess_ok hnative
      exact ⟨hspends.trans hspends', hio'.trans hio⟩
    refine .inr ⟨htouched, (Nat.add_zero _) ▸ hpaid, s₃.io.accounts.cache.next, ?_⟩
    show (s₃.io.accounts.cache.update a _).elems a = _
    rw [HistoryMap.elems_update, Function.update_self, hio, he]
    rfl

/-- An account that is accessed: the price of a warm access, and the extra price unless it was touched in this
transaction. An account in the cache keeps its value. -/
theorem materializeAccount_spends {sd l : Bool} (h : materializeAccount env ee a sd l s = (.ok (), s')) :
    let warm := s.io.warm (.account a)
    s.res.Spends s'.res
        ((warmAccountAccess ee sd l).ergs.toNat + if warm then 0 else (coldAccountErgs ee a sd).ergs.toNat)
        ((warmAccountAccess ee sd l).native.toNat + if warm then 0 else
          (coldAccountErgs ee a sd).native.toNat + coldAccountNative ee (s.io.accountIsEmpty env a)) ∧
      ∀ e, s.io.accounts.cache.elems a = some e → ∃ e', s'.io.accounts.cache.elems a = some e' ∧
        e'.initial = e.initial ∧ e'.current.value = e.current.value := by
  unfold materializeAccount at h
  obtain ⟨_, s₁, hcharge, h₁⟩ := bind_ok.mp h
  obtain ⟨initialized, s₂, hinsert, hwarm⟩ := bind_ok.mp h₁
  obtain ⟨hspends, hio⟩ := charge_spends hcharge
  obtain ⟨e, he, hcase⟩ := warmUpAccount_ok hwarm
  unfold Io.warm Io.touched Io.txOf Io.accountIsEmpty
  rcases getOrInsertAccount_ok hinsert with ⟨e', he', rfl, rfl⟩ | ⟨hnone, rfl, ⟨r, hnew, hmeta, happ⟩, htx, hpaid⟩
  · -- the account was in the cache
    cases he'.symm.trans he
    rw [hio] at he hcase
    simp only [he, Option.bind_some, Option.some.injEq, forall_eq']
    rcases hcase with ⟨htouched, rfl⟩ | ⟨htouched, hcold, n, hupdate⟩
    · refine ⟨?_, e, hio ▸ he, rfl, rfl⟩
      simpa only [htouched, decide_true, if_true, Nat.add_zero] using hspends
    · refine ⟨?_, _, hupdate, Element.update_initial _ _ _, ?_⟩
      · simpa only [htouched, decide_false] using hspends.trans hcold
      · rw [Element.current_update]
        rfl
  · -- it is read from its special slot, and is cold
    cases hnew.symm.trans he
    rw [hio] at hnone hpaid
    simp only [hnone, Option.bind_none]
    rcases hcase with ⟨htouched, -⟩ | ⟨-, hcold, n, hupdate⟩
    · rw [Element.new_current, hmeta] at htouched
      cases htouched
    · refine ⟨?_, fun e he => nomatch he⟩
      exact hspends.trans (hpaid.trans hcold)

end Accounts

/-! ## Stores -/

/-- The gas of a store after EIP-2200 and EIP-2929, for the value of the slot at the start of the transaction, its
current value and the new one. -/
def sstoreGas (start current new : Bytes32) (warm : Bool) : Nat :=
  (if warm then 0 else 2100) +
    if new = current ∨ current ≠ start then 100 else if start = 0 then 20000 else 2900

/-- The two charges of a store add up to its gas: the part for the access, and the part for the write, which leaves out
what the access has paid. -/
theorem ergs_write (start current new : Bytes32) (warm isNew isNew' : Bool) :
    (warmStorageRead .evm false).ergs.toNat + (if warm then 0 else (coldStorageReadExtra .evm isNew).ergs.toNat) +
      (storageWriteExtra .evm start current new warm isNew').ergs.toNat = 256 * sstoreGas start current new warm := by
  have hread : (warmStorageRead .evm false).ergs.toNat = 256 * 100 := by decide
  have hcold : (coldStorageReadExtra .evm isNew).ergs.toNat = 256 * 2000 := by
    cases isNew <;> decide
  rw [hread, hcold]
  unfold storageWriteExtra sstoreGas
  by_cases hsame : new = current
  · simp only [hsame, if_true, true_or]
    cases warm <;> decide
  · by_cases hstart : current = start
    · subst hstart
      by_cases hzero : current = 0
      · simp only [if_pos hzero, hsame, if_true, if_false, false_or, ne_eq, not_true_eq_false]
        cases warm <;> decide
      · simp only [if_neg hzero, hsame, if_true, if_false, false_or, ne_eq, not_true_eq_false]
        cases warm <;> decide
    · simp only [hsame, hstart, if_false, false_or, ne_eq, not_false_eq_true, if_true]
      cases warm <;> decide

theorem storageWriteSlot_ergs {env : Env} {a : B160} {key new : Bytes32} {s s' : Sys}
    (h : storageWriteSlot env .evm a key new s = (.ok (), s')) :
    let v := s.io.slotView env (a, key)
    s.res.ergs.toNat = s'.res.ergs.toNat + 256 * sstoreGas v.start v.current new v.warm := by
  intro v
  unfold storageWriteSlot at h
  obtain ⟨old, s₁, hwrite, hrefund⟩ := bind_ok.mp h
  have hres : s'.res = s₁.res := by
    split at hrefund <;> cases hrefund <;> rfl
  unfold applyWrite at hwrite
  obtain ⟨w, s₂, hslot, hwrite⟩ := bind_ok.mp hwrite
  obtain ⟨rfl, ⟨e, he, hstart, hcurrent⟩, haccess⟩ := materializeSlot_ok hslot
  obtain ⟨e', s₃, hitem, hwrite⟩ := bind_ok.mp hwrite
  obtain ⟨he', rfl⟩ := slotItem_ok hitem
  cases he.symm.trans he'
  obtain ⟨_, s₄, hcharge, hupdate⟩ := bind_ok.mp hwrite
  cases hupdate
  have hwarm : v.warm = s.io.warm (.slot (a, key)) := Io.slotView_warm env s.io (a, key)
  have hspent := (haccess.trans (charge_spends hcharge).1).ergs
  rw [hstart, hcurrent, ergs_write] at hspent
  rw [hres, hwarm]
  exact hspent

end ZkOs
