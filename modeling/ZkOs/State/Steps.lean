import Mathlib.Logic.Relation
import ZkOs.Lib.Outcomes
import ZkOs.State.Io

/-!
# What an operation can do to the state

Every operation is a sequence of primitive changes (`Io.Step`). Which changes an operation may make is
its `Scope`: the accounts it may read into the cache, the slots it may write, who may send messages to
L1, and whether it may change a balance, mark an account as deployed or mark it as deconstructed, change
the refund counter, or make any other change that can be observed (`edits`).

* `IoOp.scope` : the scope of each operation;
* `IoOp.exec_makes` : an operation makes only steps of its scope and never adds native, whether it
  succeeds or fails.
-/

namespace ZkOs

open History ZkOs.Action Relation

structure Scope where
  accounts : B160 → Prop
  writes : SlotKey → Prop
  pays : Prop
  deploys : Prop
  destroys : Prop
  /-- The senders of messages to L1. -/
  sends : B160 → Prop
  /-- Whether a program may give itself new resources. Operations never do. -/
  refills : Prop
  /-- Changes of a nonce, of code, of transient slots, new events and logs. -/
  edits : Prop
  refunds : Prop
  /-- Whether a program may add ergs, as a caller does that gets back what its callee did not use. -/
  returns : Prop
  /-- Whether the outcome of an L1 transaction may be logged. -/
  outcomes : Prop

namespace Scope

/-- A change of an account record that the scope allows. -/
structure Change (sc : Scope) (r r' : AccountRecord) : Prop where
  balance : sc.pays ∨ r'.value.balance = r.value.balance
  deployedInTx : sc.deploys ∨ r'.metadata.deployedInTx = r.metadata.deployedInTx
  deconstructed : sc.destroys ∨ (r'.appearance = .deconstructed ↔ r.appearance = .deconstructed)
  properties : sc.edits ∨ r'.value = { r.value with balance := r'.value.balance }
  notPublishBytecode : sc.edits ∨ r'.metadata.notPublishBytecode = r.metadata.notPublishBytecode

structure Le (sc sc' : Scope) : Prop where
  accounts : ∀ a, sc.accounts a → sc'.accounts a
  writes : ∀ k, sc.writes k → sc'.writes k
  pays : sc.pays → sc'.pays
  deploys : sc.deploys → sc'.deploys
  destroys : sc.destroys → sc'.destroys
  sends : ∀ a, sc.sends a → sc'.sends a
  refills : sc.refills → sc'.refills
  edits : sc.edits → sc'.edits
  refunds : sc.refunds → sc'.refunds
  outcomes : sc.outcomes → sc'.outcomes

theorem Le.trans {sc sc' sc'' : Scope} (h : sc.Le sc') (h' : sc'.Le sc'') : sc.Le sc'' where
  accounts a ha := h'.accounts a (h.accounts a ha)
  writes k hk := h'.writes k (h.writes k hk)
  pays hp := h'.pays (h.pays hp)
  deploys hd := h'.deploys (h.deploys hd)
  destroys hd := h'.destroys (h.destroys hd)
  sends a ha := h'.sends a (h.sends a ha)
  refills hr := h'.refills (h.refills hr)
  edits he := h'.edits (h.edits he)
  refunds hr := h'.refunds (h.refunds hr)
  outcomes ho := h'.outcomes (h.outcomes ho)

theorem Change.mono {sc sc' : Scope} (h : sc.Le sc') {r r' : AccountRecord} (hc : sc.Change r r') :
    sc'.Change r r' :=
  ⟨hc.balance.imp_left h.pays, hc.deployedInTx.imp_left h.deploys, hc.deconstructed.imp_left h.destroys,
    hc.properties.imp_left h.edits, hc.notPublishBytecode.imp_left h.edits⟩

end Scope

/-- Bytes that are published for a log: its encoding and, for a message, a length and the data. -/
def LogContent.pubdata (c : LogContent) : Nat :=
  match c.data with
  | .userMsg _ data _ => 4 + data.length + 88
  | .l1TxLog .. => 88

/-- Where the bytes of a preimage come from: the oracle's answer, which was checked if the proving
environment checks it, or the hash was computed here. -/
def PreimageSource (env : Env) (hash : Bytes32) (bytes : List UInt8) : Prop :=
  (∃ n len, bytes = (env.preimage n hash).take len ∧ (env.proofEnv = true → env.blake bytes = hash)) ∨
    env.blake bytes = hash

/-- The record of an account whose special slot holds `hash`. -/
def decommitted (storage : Bytes32 → Option (List UInt8)) (hash : Bytes32) (r : AccountRecord) : Prop :=
  if hash = 0 then r = ⟨.unset, .trivial, initialMetadata⟩
  else ∃ bytes, storage hash = some bytes ∧ bytes.length = AccountProperties.encodedSize ∧
    r = ⟨.retrieved, .decode bytes, initialMetadata⟩

namespace Io

def setSlots (io : Io) (c : HistoryMap SlotKey SlotRecord) : Io :=
  { io with storage := { io.storage with cache := c } }

def setAccounts (io : Io) (c : HistoryMap B160 AccountRecord) : Io :=
  { io with accounts := { io.accounts with cache := c } }

inductive Step (env : Env) (sc : Scope) : Io → Io → Prop where
  | ask (io : Io) : Step env sc io { io with asked := io.asked + 1 }
  | insertSlot (io : Io) (k : SlotKey) (n : Nat) :
    Step env sc io (io.setSlots (io.storage.cache.getOrInsert k (initialSlotRecord (env.slot n k.1 k.2))))
  | touchSlot (io : Io) (k : SlotKey) (tx : Nat) :
    Step env sc io (io.setSlots (io.storage.cache.update k fun r => r.updateMetadata fun _ => ⟨some tx⟩))
  | writeSlot (io : Io) (k : SlotKey) (v : Bytes32) (h : sc.writes k) :
    Step env sc io (io.setSlots (io.storage.cache.update k fun r => r.update fun _ m => (v, m)))
  | insertAccount (io : Io) (a : B160) (ha : sc.accounts a) (e : Element SlotRecord)
    (he : io.storage.cache.elems (accountSlot a) = some e) (r : AccountRecord)
    (hr : decommitted io.preimages.storage e.current.value r) :
    Step env sc io (io.setAccounts (io.accounts.cache.getOrInsert a r))
  | updateAccount (io : Io) (a : B160) (f : AccountRecord → AccountRecord) (h : ∀ r, sc.Change r (f r))
    (hn : ∀ e, io.accounts.cache.elems a = some e → e.current.value.nonce ≤ (f e.current).value.nonce) :
    Step env sc io (io.setAccounts (io.accounts.cache.update a f))
  | learnPreimage (io : Io) (hash : Bytes32) (bytes : List UInt8) (hs : PreimageSource env hash bytes) :
    Step env sc io { io with preimages :=
      { io.preimages with storage := Function.update io.preimages.storage hash (some bytes) } }
  | publish (io : Io) (type : PreimageType) (hash : Bytes32) (len : Nat) (h : sc.edits) :
    Step env sc io { io with preimages := addPreimage type hash len io.preimages }
  | insertTransient (io : Io) (k : SlotKey) :
    Step env sc io { io with transient := io.transient.getOrInsert k 0 }
  | writeTransient (io : Io) (k : SlotKey) (v : Bytes32) (h : sc.edits) :
    Step env sc io { io with transient := io.transient.update k fun _ => v }
  | setRefunds (io : Io) (v : BitVec 32) (h : sc.refunds) :
    Step env sc io { io with storage := { io.storage with evmRefunds := io.storage.evmRefunds.update v } }
  | log (io : Io) (c : LogContent) (h : ∀ a d dh, c.data = .userMsg a d dh → sc.sends a) (he : sc.edits)
    (ho : ∀ tx s p, c.data = .l1TxLog tx s p → sc.outcomes) :
    Step env sc io { io with logs := io.logs.push c c.pubdata }
  | event (io : Io) (e : Event) (h : sc.edits) : Step env sc io { io with events := e :: io.events }

def Steps (env : Env) (sc : Scope) : Io → Io → Prop := ReflTransGen (Step env sc)

variable {env : Env} {sc sc' : Scope}

theorem Step.mono (h : sc.Le sc') {io io' : Io} (hs : Step env sc io io') : Step env sc' io io' := by
  cases hs with
  | ask => exact .ask _
  | insertSlot k n => exact .insertSlot _ k n
  | touchSlot k tx => exact .touchSlot _ k tx
  | writeSlot k v hk => exact .writeSlot _ k v (h.writes k hk)
  | insertAccount a ha e he r hr => exact .insertAccount _ a (h.accounts a ha) e he r hr
  | updateAccount a f hf hn => exact .updateAccount _ a f (fun r => (hf r).mono h) hn
  | learnPreimage hash bytes hs => exact .learnPreimage _ hash bytes hs
  | publish type hash len he => exact .publish _ type hash len (h.edits he)
  | insertTransient k => exact .insertTransient _ k
  | writeTransient k v he => exact .writeTransient _ k v (h.edits he)
  | setRefunds v hr => exact .setRefunds _ v (h.refunds hr)
  | log c hc he ho =>
    exact .log _ c (fun a d dh hd => h.sends a (hc a d dh hd)) (h.edits he) fun tx s p hd => h.outcomes (ho tx s p hd)
  | event e he => exact .event _ e (h.edits he)

theorem Steps.mono (h : sc.Le sc') {io io' : Io} (hs : Steps env sc io io') : Steps env sc' io io' := by
  induction hs with
  | refl => exact .refl
  | tail _ hstep ih => exact ih.tail (hstep.mono h)

end Io

/-! ## Actions that keep an invariant -/

/-- The errors that the account cache reports as misuse: `LeafUsage`. -/
def Err.isUsage : Err → Bool
  | insufficientBalance | balanceOverflow | nonceOverflow => true
  | _ => false

/-- The invariant `I` holds after a run, no resources were added, and an error is one of `E`. -/
structure Reached {α : Type} (I : Io → Prop) (E : Err → Prop) (s : Sys) (x : Except Err α × Sys) : Prop where
  io : I x.2.io
  res_le : x.2.res.Le s.res
  error : ∀ e, x.1 = .error e → E e

/-- `m` keeps the invariant, whether it succeeds or fails. -/
def Runs {α : Type} (I : Io → Prop) (E : Err → Prop) (m : IoM α) : Prop := ∀ s, I s.io → Reached I E s (m s)

def Fails {α : Type} (I : Io → Prop) (m : IoM α) : Prop :=
  ∀ s e s', I s.io → m s = (.error e, s') → I s'.io ∧ s'.res.Le s.res

section Runs

variable {I : Io → Prop} {E : Err → Prop} {α β : Type} {m m' : IoM α} {f : α → IoM β} {s s' : Sys} {x : Except Err α}

theorem Reached.bind (hm : Reached I E s (m s))
    (hf : ∀ a s', m s = (.ok a, s') → I s'.io → Reached I E s' (f a s')) : Reached I E s ((m >>= f) s) := by
  rw [bind_apply]
  rcases h : m s with ⟨e | a, s'⟩ <;> rw [h] at hm
  · refine ⟨hm.io, hm.res_le, fun e' he => hm.error e' ?_⟩
    cases he
    rfl
  · have hrest := hf a s' h hm.io
    exact ⟨hrest.io, hrest.res_le.trans hm.res_le, hrest.error⟩

namespace Runs

theorem reached (hm : Runs I E m) (hs : I s.io) (h : m s = (x, s')) : I s'.io ∧ s'.res.Le s.res := by
  obtain ⟨hio, hle, -⟩ := hm s hs
  rw [h] at hio hle
  exact ⟨hio, hle⟩

theorem meets (hm : Runs I E m) (hs : I s.io) : Meets m s (fun _ s' => I s'.io) fun _ s' => I s'.io := by
  have hio := (hm s hs).io
  rw [Meets]
  rcases h : m s with ⟨e | a, s'⟩ <;> rw [h] at hio <;> exact hio

theorem bind_meets (hm : Runs I E m) (hs : I s.io) {P : Err → Sys → Prop} {Q : β → Sys → Prop}
    (hP : ∀ e s', I s'.io → s'.res.Le s.res → P e s')
    (hf : ∀ a s', m s = (.ok a, s') → I s'.io → s'.res.Le s.res → Meets (f a) s' P Q) : Meets (m >>= f) s P Q := by
  obtain ⟨hio, hle, -⟩ := hm s hs
  rw [Meets, bind_apply]
  rcases h : m s with ⟨e | a, s'⟩ <;> rw [h] at hio hle
  · exact hP e s' hio hle
  · exact hf a s' h hio hle

theorem pure (a : α) : Runs I E (Pure.pure a : IoM α) := fun _ h => ⟨h, .refl _, nofun⟩

theorem throw {e : Err} (he : E e) : Runs I E (Action.throw e : IoM α) := by
  refine fun s h => ⟨h, .refl _, fun e' he' => ?_⟩
  cases he'
  exact he

theorem get : Runs I E (Action.get : IoM Sys) := fun _ h => ⟨h, .refl _, nofun⟩

theorem bind_run (hm : Runs I E m) (hf : ∀ a s s', m s = (.ok a, s') → I s'.io → Reached I E s' (f a s')) :
    Runs I E (m >>= f) := fun s hs => (hm s hs).bind fun a s' => hf a s s'

theorem bind (hm : Runs I E m) (hf : ∀ a, Runs I E (f a)) : Runs I E (m >>= f) :=
  hm.bind_run fun a _ s' _ => hf a s'

theorem ite {c : Prop} [Decidable c] (hm : Runs I E m) (hm' : Runs I E m') : Runs I E (if c then m else m') := by
  split
  · exact hm
  · exact hm'

theorem modifyIo {f : Io → Io} (hf : ∀ io, I io → I (f io)) : Runs I E (ZkOs.modifyIo f) :=
  fun s h => ⟨hf s.io h, .refl _, nofun⟩

theorem withInfiniteErgs (hm : Runs I E m) : Runs I E (ZkOs.withInfiniteErgs m) := by
  intro s h
  obtain ⟨hio, hle, herr⟩ := hm { s with res := { s.res with ergs := BitVec.allOnes 64 } } h
  exact ⟨hio, ⟨BitVec.le_refl _, hle.native⟩, herr⟩

theorem withInfiniteResources (hm : Runs I E m) : Runs I E (ZkOs.withInfiniteResources m) := by
  intro s h
  obtain ⟨hio, -, herr⟩ := hm { s with res := .infinite } h
  exact ⟨hio, .refl _, herr⟩

end Runs

theorem Fails.bind (hm : Runs I E m) (hf : ∀ a, Fails I (f a)) : Fails I (m >>= f) := by
  intro s e s'' hs h
  rcases bind_error h with h | ⟨a, s', h₁, h₂⟩
  · exact hm.reached hs h
  · obtain ⟨hs', hle⟩ := hm.reached hs h₁
    obtain ⟨hs'', hle'⟩ := hf a s' e s'' hs' h₂
    exact ⟨hs'', hle'.trans hle⟩

end Runs

/-- What an invariant has to allow for accesses: reading the accounts and slots in question into the cache, marking
them as touched, and learning preimages from the oracle. -/
structure Admits (env : Env) (accounts : B160 → Prop) (slots : SlotKey → Prop) (I : Io → Prop) (E : Err → Prop) :
    Prop where
  errors : ∀ e, e.isUsage = false → E e
  ask : ∀ io, I io → I { io with asked := io.asked + 1 }
  insertSlot : ∀ k n, slots k → ∀ io, I io →
    I (io.setSlots (io.storage.cache.getOrInsert k (initialSlotRecord (env.slot n k.1 k.2))))
  touchSlot : ∀ k tx, slots k → ∀ io, I io →
    I (io.setSlots (io.storage.cache.update k fun r => r.updateMetadata fun _ => ⟨some tx⟩))
  learn : ∀ hash n len, hash ≠ 0 → (env.proofEnv = true → env.blake ((env.preimage n hash).take len) = hash) →
    ∀ io, I io → I { io with preimages :=
      { io.preimages with storage := Function.update io.preimages.storage hash (some ((env.preimage n hash).take len)) } }
  insertAccount : ∀ a e r, accounts a → ∀ io, io.storage.cache.elems (accountSlot a) = some e →
    decommitted io.preimages.storage e.current.value r → I io →
    I (io.setAccounts (io.accounts.cache.getOrInsert a r))
  touchAccount : ∀ a tx, accounts a → ∀ io, I io → I (io.setAccounts (io.accounts.cache.update a fun r =>
    r.updateMetadata fun m => { m with lastTouchedInTx := some tx }))

/-- A change of the balance, and of whether it is compressed. -/
def BalanceOnly (g : AccountProperties → AccountPropertiesMetadata → AccountProperties × AccountPropertiesMetadata) :
    Prop :=
  ∀ v m, (g v m).1 = { v with balance := (g v m).1.balance } ∧
    (g v m).2 = { m with notCompressBalance := (g v m).2.notCompressBalance }

def AllowsPayments (I : Io → Prop) : Prop :=
  ∀ a g, BalanceOnly g → ∀ io, I io → I (io.setAccounts (io.accounts.cache.update a fun r => r.update g))

/-! ## What is known after a success -/

section Success

variable {env : Env} {s s' : Sys}

theorem require_ok {c : Prop} [Decidable c] {e : Err}
    (h : (require c e : IoM Unit) s = (.ok (), s')) : c ∧ s' = s := by
  unfold require at h
  split at h
  · rename_i hc
    cases h
    exact ⟨hc, rfl⟩
  · cases h

theorem slotItem_ok {k : SlotKey} {e : Element SlotRecord} (h : slotItem k s = (.ok e, s')) :
    s.io.storage.cache.elems k = some e ∧ s' = s := by
  unfold slotItem at h
  split at h
  · rename_i e' he
    cases h
    exact ⟨he, rfl⟩
  · cases h

theorem accountItem_ok {a : B160} {e : Element AccountRecord} (h : accountItem a s = (.ok e, s')) :
    s.io.accounts.cache.elems a = some e ∧ s' = s := by
  unfold accountItem at h
  split at h
  · rename_i e' he
    cases h
    exact ⟨he, rfl⟩
  · cases h

theorem applyRead_ok {ee : ExecutionEnvironmentType} {k : SlotKey} {b : Bool} {v : Bytes32}
    (h : applyRead env ee k b s = (.ok v, s')) :
    ∃ e, s'.io.storage.cache.elems k = some e ∧ e.current.value = v := by
  obtain ⟨_, s₁, -, h₁⟩ := bind_ok.mp h
  obtain ⟨e, s₂, he, h₂⟩ := bind_ok.mp h₁
  obtain ⟨hk, rfl⟩ := slotItem_ok he
  cases h₂
  exact ⟨e, hk, rfl⟩

theorem charge_ok {c : Resources} (h : charge c s = (.ok (), s')) : s'.io = s.io := by
  have hs : (charge c s).2 = s' := by rw [h]
  rw [← hs]
  rfl

theorem chargeNativeForColdAccess_io (ee : ExecutionEnvironmentType) (b : Bool) (s : Sys) :
    (chargeNativeForColdAccess ee b s).2.io = s.io := by
  unfold chargeNativeForColdAccess
  simp only [bind_apply, withInfiniteErgs, ZkOs.charge]
  rcases Resources.charge _ (warmStorageRead ee false) with ⟨_ | _, r⟩
  · rfl
  · simp only
    rcases Resources.charge _ (coldStorageReadExtra ee b) with ⟨_ | _, r'⟩
    · rfl
    · simp only
      split <;> rfl

/-- The preimage was in the cache, or the oracle's answer is put there. -/
theorem getPreimage_cases {hash : Bytes32} {len : Nat} {bytes : List UInt8} (h0 : hash ≠ 0)
    (h : getPreimage env hash len s = (.ok bytes, s')) :
    (s.io.preimages.storage hash = some bytes ∧ s'.io = s.io) ∨
      (s.io.preimages.storage hash = none ∧ bytes.length = len ∧ s'.io.storage = s.io.storage ∧
        s'.io.accounts = s.io.accounts ∧
        s'.io.preimages.storage = Function.update s.io.preimages.storage hash (some bytes)) := by
  unfold getPreimage at h
  rw [if_neg h0] at h
  obtain ⟨_, s₁, hc, h₁⟩ := bind_ok.mp h
  rw [← charge_ok hc]
  obtain ⟨_, s₂, hg, h₂⟩ := bind_ok.mp h₁
  cases hg
  rcases hs : s₁.io.preimages.storage hash with _ | cached
  · simp only [hs] at h₂
    obtain ⟨_, s₃, hm, h₃⟩ := bind_ok.mp h₂
    cases hm
    obtain ⟨_, s₄, hr, h₄⟩ := bind_ok.mp h₃
    obtain ⟨hlen, rfl⟩ := require_ok hr
    obtain ⟨_, s₅, hr', h₅⟩ := bind_ok.mp h₄
    obtain ⟨-, rfl⟩ := require_ok hr'
    obtain ⟨_, s₆, hm', h₆⟩ := bind_ok.mp h₅
    cases hm'
    cases h₆
    exact .inr ⟨rfl, List.length_take_of_le hlen.1, rfl, rfl, rfl⟩
  · simp only [hs] at h₂
    cases h₂
    exact .inl ⟨rfl, rfl⟩

theorem getPreimage_ok {hash : Bytes32} {len : Nat} {bytes : List UInt8} (h0 : hash ≠ 0)
    (h : getPreimage env hash len s = (.ok bytes, s')) :
    s'.io.preimages.storage hash = some bytes ∧ s'.io.storage = s.io.storage := by
  rcases getPreimage_cases h0 h with ⟨hs, hio⟩ | ⟨-, -, hstorage, -, hnew⟩
  · rw [hio]
    exact ⟨hs, rfl⟩
  · rw [hnew]
    exact ⟨Function.update_self .., hstorage⟩

theorem withInfiniteResources_ok {α : Type} {m : IoM α} {a : α} (h : withInfiniteResources m s = (.ok a, s')) :
    ∃ t, m { s with res := .infinite } = (.ok a, t) ∧ s'.io = t.io := by
  have ha : (withInfiniteResources m s).1 = .ok a := by rw [h]
  have hs : (withInfiniteResources m s).2 = s' := by rw [h]
  refine ⟨(m { s with res := .infinite }).2, Prod.ext ha rfl, ?_⟩
  rw [← hs]
  rfl

theorem decommitAccount_ok {hash : Bytes32} {r : AccountRecord} (h : decommitAccount env hash s = (.ok r, s')) :
    decommitted s'.io.preimages.storage hash r ∧ s'.io.storage = s.io.storage := by
  unfold decommitAccount at h
  unfold decommitted
  split at h
  · rename_i h0
    cases h
    rw [if_pos h0]
    exact ⟨rfl, rfl⟩
  · rename_i h0
    obtain ⟨bytes, s₁, hp, h₁⟩ := bind_ok.mp h
    obtain ⟨_, s₂, hr, h₂⟩ := bind_ok.mp h₁
    obtain ⟨hlen, rfl⟩ := require_ok hr
    cases h₂
    rw [if_neg h0]
    obtain ⟨t, hg, hio⟩ := withInfiniteResources_ok hp
    obtain ⟨hb, hst⟩ := getPreimage_ok h0 hg
    rw [hio]
    exact ⟨⟨bytes, hb, hlen, rfl⟩, hst⟩

end Success

/-! ## Accesses -/

namespace Admits

variable {env : Env} {accounts : B160 → Prop} {slots : SlotKey → Prop} {I : Io → Prop} {E : Err → Prop} {k : SlotKey}
  {a : B160} (h : Admits env accounts slots I E)

include h

theorem charge (c : Resources) : Runs I E (ZkOs.charge c) := by
  refine fun s hs => ⟨hs, Resources.charge_le s.res c, fun e he => h.errors e ?_⟩
  simp only [ZkOs.charge, Resources.charge] at he
  split at he
  · cases he
    rfl
  · split at he
    · cases he
      rfl
    · cases he

theorem require (c : Prop) [Decidable c] : Runs I E (Action.require c .defect : IoM Unit) :=
  .ite (.pure _) (.throw (h.errors _ rfl))

theorem slotItem (k : SlotKey) : Runs I E (ZkOs.slotItem k) := by
  intro s hs
  unfold ZkOs.slotItem
  split
  · exact Runs.pure _ s hs
  · exact Runs.throw (h.errors _ rfl) s hs

theorem accountItem (a : B160) : Runs I E (ZkOs.accountItem a) := by
  intro s hs
  unfold ZkOs.accountItem
  split
  · exact Runs.pure _ s hs
  · exact Runs.throw (h.errors _ rfl) s hs

theorem materializeSlot (ee : ExecutionEnvironmentType) (hk : slots k) (l : Bool) :
    Runs I E (ZkOs.materializeSlot env ee k l) := by
  refine .bind (h.charge _) fun _ => .bind (.bind .get fun s => ?_) fun i => ?_
  · split
    · exact .pure _
    · refine .bind_run (fun s hs => ⟨h.ask _ hs, .refl _, nofun⟩) fun answer s s' hq => ?_
      cases hq
      exact Runs.bind (h.charge _) (fun _ => .bind (h.require _) fun _ =>
        .bind (.modifyIo (h.insertSlot k _ hk)) fun _ => .pure _) _
  · refine .bind .get fun s => .bind (h.slotItem k) fun e => .ite (.pure _) ?_
    exact .bind (.ite (.pure _) (h.charge _)) fun _ => .bind (.modifyIo (h.touchSlot k _ hk)) fun _ => .pure _

theorem applyRead (ee : ExecutionEnvironmentType) (hk : slots k) (l : Bool) :
    Runs I E (ZkOs.applyRead env ee k l) :=
  .bind (h.materializeSlot ee hk l) fun _ => .bind (h.slotItem k) fun _ => .pure _

/-- Only the last step depends on what is written. -/
theorem applyWrite (ee : ExecutionEnvironmentType) (hk : slots k) {v : Bytes32}
    (hw : ∀ io, I io → I (io.setSlots (io.storage.cache.update k fun r => r.update fun _ m => (v, m)))) :
    Runs I E (ZkOs.applyWrite env ee k v) :=
  .bind (h.materializeSlot ee hk false) fun _ => .bind (h.slotItem _) fun _ => .bind (h.charge _) fun _ =>
    .bind (.modifyIo hw) fun _ => .pure _

theorem getPreimage (hash : Bytes32) (len : Nat) : Runs I E (ZkOs.getPreimage env hash len) := by
  unfold ZkOs.getPreimage
  by_cases hzero : hash = 0
  · rw [if_pos hzero]
    exact .pure _
  rw [if_neg hzero]
  refine .bind (h.charge _) fun _ => .bind .get fun s => ?_
  split
  · exact .pure _
  · refine .bind (.modifyIo h.ask) fun _ => .bind (h.require _) fun _ => .bind_run (h.require _) fun _ s s' hr => ?_
    exact Runs.bind (.modifyIo (h.learn hash _ _ hzero (require_ok hr).1)) (fun _ => .pure _) _

theorem decommitAccount (hash : Bytes32) : Runs I E (ZkOs.decommitAccount env hash) :=
  .ite (.pure _) (.bind (.withInfiniteResources (h.getPreimage _ _)) fun _ => .bind (h.require _) fun _ => .pure _)

theorem chargeNativeForColdAccess (ee : ExecutionEnvironmentType) (b : Bool) :
    Runs I E (ZkOs.chargeNativeForColdAccess ee b) :=
  .bind (.withInfiniteErgs (h.charge _)) fun _ => .bind (.withInfiniteErgs (h.charge _)) fun _ =>
    .ite (.pure _) (h.charge _)

/-- The record that enters the cache is the one its special slot stands for. -/
theorem getOrInsertAccount (ee : ExecutionEnvironmentType) (ha : accounts a ∧ slots (accountSlot a)) (b : Bool) :
    Runs I E (ZkOs.getOrInsertAccount env ee a b) := by
  refine .bind .get fun s => ?_
  split
  · exact .pure _
  refine .bind (h.charge _) fun _ => .bind_run (.withInfiniteResources (h.applyRead .noEE ha.2 false)) ?_
  intro hash s s₁ hread hs₁
  obtain ⟨e, he, hv⟩ : ∃ e, s₁.io.storage.cache.elems (accountSlot a) = some e ∧ e.current.value = hash := by
    obtain ⟨t, hr, hio⟩ := withInfiniteResources_ok hread
    rw [hio]
    exact applyRead_ok hr
  refine (h.chargeNativeForColdAccess ee _ s₁ hs₁).bind fun _ s₂ hcold hs₂ => ?_
  have hio : s₂.io = s₁.io := by
    rw [← chargeNativeForColdAccess_io ee (decide (hash = 0)) s₁, hcold]
  refine (h.decommitAccount hash s₂ hs₂).bind fun record s₃ hdecommit hs₃ => ?_
  obtain ⟨hrec, hst⟩ := decommitAccount_ok hdecommit
  refine ⟨h.insertAccount a e record ha.1 s₃.io ?_ ?_ hs₃, .refl _, nofun⟩
  · rw [hst, hio, he]
  · rw [hv]
    exact hrec

theorem warmUpAccount (ee : ExecutionEnvironmentType) (ha : accounts a) (b i : Bool) :
    Runs I E (ZkOs.warmUpAccount ee a b i) := by
  refine .bind .get fun s => .bind (h.accountItem a) fun e => .ite (.pure _) ?_
  refine .bind (.ite (.pure _) (.bind (h.charge _) fun _ => h.chargeNativeForColdAccess ee _)) fun _ => ?_
  exact .modifyIo (h.touchAccount a _ ha)

theorem materializeAccount (ee : ExecutionEnvironmentType) (ha : accounts a ∧ slots (accountSlot a)) (b l : Bool) :
    Runs I E (ZkOs.materializeAccount env ee a b l) :=
  .bind (h.charge _) fun _ => .bind (h.getOrInsertAccount ee ha b) fun i => h.warmUpAccount ee ha.1 b i

theorem readAccountProperties (ee : ExecutionEnvironmentType) (ha : accounts a ∧ slots (accountSlot a)) (b d : Bool) :
    Runs I E (ZkOs.readAccountProperties env ee a b d) := by
  refine .bind (.bind (h.materializeAccount ee ha false false) fun _ => .bind (h.accountItem a) fun _ => .pure _) fun p => ?_
  refine .bind (.ite (.ite (.bind (h.require _) fun _ => .pure _) (h.getPreimage _ _)) (.pure _)) fun _ => ?_
  exact .bind (h.require _) fun _ => .pure _

/-! What is changed beyond that is left to the invariant in question. -/

theorem updateNominalTokenValue (hE : ∀ e, E e) (hpay : AllowsPayments I) (ee : ExecutionEnvironmentType)
    (ha : accounts a ∧ slots (accountSlot a)) (f : U256 → Except Err U256) (b fee : Bool) :
    Runs I E (ZkOs.updateNominalTokenValue env ee a f b fee) := by
  refine .bind (h.materializeAccount ee ha b false) fun _ => .bind (h.charge _) fun _ => .bind (h.accountItem a) fun e => ?_
  split
  · exact .throw (hE _)
  · exact .bind (.modifyIo (hpay a _ fun _ _ => ⟨rfl, rfl⟩)) fun _ => .pure _

variable {b : B160}

theorem transferNominalTokenValue (hE : ∀ e, E e) (hpay : AllowsPayments I) (ee : ExecutionEnvironmentType)
    (ha : accounts a ∧ slots (accountSlot a)) (hb : accounts b ∧ slots (accountSlot b)) (v : U256) (d : Bool) :
    Runs I E (ZkOs.transferNominalTokenValue env ee a b v d) :=
  .bind (h.updateNominalTokenValue hE hpay ee ha _ d false) fun _ =>
    .bind (h.updateNominalTokenValue hE hpay ee hb _ d false) fun _ => .pure _

theorem incrementNonce (hE : ∀ e, E e) (ee : ExecutionEnvironmentType) (ha : accounts a ∧ slots (accountSlot a)) (n : U64)
    (hset : ∀ io e, io.accounts.cache.elems a = some e → e.current.value.nonce.toNat + n.toNat < 2 ^ 64 → I io →
      I (io.setAccounts (io.accounts.cache.update a fun r => r.update fun v m =>
        ({ v with nonce := e.current.value.nonce + n }, m)))) :
    Runs I E (ZkOs.incrementNonce env ee a n) := by
  refine .bind (h.materializeAccount ee ha false false) fun _ => .bind (h.charge _) fun _ => .bind_run (h.accountItem a) ?_
  intro e s s' hitem hs
  obtain ⟨he, rfl⟩ := accountItem_ok hitem
  show Reached I E s' ((if 2 ^ 64 ≤ e.current.value.nonce.toNat + n.toNat then _ else _ : IoM U64) s')
  split
  · exact Runs.throw (hE _) s' hs
  · next hlt => exact ⟨hset s'.io e he (Nat.not_le.mp hlt) hs, .refl _, nofun⟩

theorem markForDeconstruction (hE : ∀ e, E e) (hpay : AllowsPayments I) (ee : ExecutionEnvironmentType)
    (ha : accounts a ∧ slots (accountSlot a)) (hb : accounts b ∧ slots (accountSlot b)) (c : Bool)
    (hmark : ∀ io, I io → I (io.setAccounts (io.accounts.cache.update a CacheRecord.deconstruct))) :
    Runs I E (ZkOs.markForDeconstruction env ee a b c) := by
  refine .bind .get fun s => .bind (h.materializeAccount ee ha true false) fun _ => .bind (h.charge _) fun _ =>
    .bind (h.accountItem a) fun e => .bind (.ite (.modifyIo hmark) (.pure _)) fun _ => ?_
  refine .bind (.ite (h.transferNominalTokenValue hE hpay ee ha hb _ true)
    (.ite (.modifyIo (hpay a _ fun _ _ => ⟨rfl, rfl⟩)) (.pure _))) fun _ => ?_
  exact .bind (.ite (.bind (h.accountItem b) fun _ => .ite (h.charge _) (.pure _)) (.pure _)) fun _ => .pure _

end Admits

/-! ## Actions that make steps -/

/-- Steps of the scope, paid for with resources. -/
structure Moves (env : Env) (sc : Scope) (s s' : Sys) : Prop where
  steps : Io.Steps env sc s.io s'.io
  res_le : s'.res.Le s.res

/-- `m` makes only steps of the scope and never adds resources. -/
def Makes (env : Env) (sc : Scope) {α : Type} (m : IoM α) : Prop := Respects (Moves env sc) m

section Changes

variable {sc : Scope}

theorem CacheRecord.update_deconstructed {V M : Type} (r : CacheRecord V M) (f : V → M → V × M) :
    (r.update f).appearance = .deconstructed ↔ r.appearance = .deconstructed := by
  unfold CacheRecord.update
  simp only
  split
  · rename_i h
    exact ⟨fun _ => h, fun _ => rfl⟩
  · rename_i h
    constructor
    · intro h'
      cases h'
    · intro h'
      exact absurd h' h

theorem Scope.Change.update {f : AccountProperties → AccountPropertiesMetadata →
      AccountProperties × AccountPropertiesMetadata}
    (hb : sc.pays ∨ ∀ v m, (f v m).1.balance = v.balance)
    (hd : sc.deploys ∨ ∀ v m, (f v m).2.deployedInTx = m.deployedInTx)
    (he : sc.edits ∨ ∀ v m, (f v m).1 = { v with balance := (f v m).1.balance } ∧
      (f v m).2.notPublishBytecode = m.notPublishBytecode) (r : AccountRecord) :
    sc.Change r (r.update f) :=
  ⟨hb.imp_right fun h => h _ _, hd.imp_right fun h => h _ _, .inr (r.update_deconstructed f),
    he.imp_right fun h => (h _ _).1, he.imp_right fun h => (h _ _).2⟩

end Changes

namespace Io.Steps

variable {env : Env} {sc : Scope} {io₀ : Io}

theorem admits : Admits env sc.accounts (fun _ => True) (Steps env sc io₀) fun _ => True where
  errors _ _ := trivial
  ask io h := h.tail (.ask io)
  insertSlot k n _ io h := h.tail (.insertSlot io k n)
  touchSlot k tx _ io h := h.tail (.touchSlot io k tx)
  learn hash n len _ hcheck io h := h.tail (.learnPreimage io hash _ (.inl ⟨n, len, rfl, hcheck⟩))
  insertAccount a e r ha io he hr h := h.tail (.insertAccount io a ha e he r hr)
  touchAccount a _ _ io h :=
    h.tail (.updateAccount io a _ (fun _ => ⟨.inr rfl, .inr rfl, .inr Iff.rfl, .inr rfl, .inr rfl⟩)
      fun _ _ => BitVec.le_refl _)

theorem updateAccount {a : B160} {f : AccountRecord → AccountRecord} (h : ∀ r, sc.Change r (f r))
    (hn : ∀ r, (f r).value.nonce = r.value.nonce) {E : Err → Prop} :
    Runs (Steps env sc io₀) E (ZkOs.updateAccount a f) :=
  .modifyIo fun io hio => hio.tail (.updateAccount io a f h fun e _ => BitVec.le_of_eq (hn e.current).symm)

theorem allowsPayments (hp : sc.pays) : AllowsPayments (Steps env sc io₀) := by
  intro a g hg io hio
  refine hio.tail (.updateAccount io a _ (Scope.Change.update (.inl hp) (.inr fun v m => ?_) (.inr fun v m => ?_)) ?_)
  · rw [(hg v m).2]
  · exact ⟨(hg v m).1, by rw [(hg v m).2]⟩
  · intro e _
    show _ ≤ (g _ _).1.nonce
    rw [(hg _ _).1]
    exact BitVec.le_refl _

theorem storeBytecode (he : sc.edits) (len : Nat) (code arts : List UInt8) :
    Runs (Steps env sc io₀) (fun _ => True) (ZkOs.storeBytecode env len code arts) := by
  refine .bind (admits.charge _) fun _ => .bind (.bind (admits.charge _) fun _ => .bind (admits.require _) fun _ =>
    .bind .get fun s => .bind (admits.require _) fun _ => .modifyIo fun io hio => ?_) fun _ => .pure _
  let hash := env.blake (paddedBytecode code arts)
  refine (hio.tail (.publish io .bytecode hash (paddedBytecode code arts).length he)).trans ?_
  show Steps env sc _ { io with preimages := { addPreimage .bytecode hash _ io.preimages with
    storage := Function.update io.preimages.storage hash (some ((io.preimages.storage hash).getD _)) } }
  rcases hs : io.preimages.storage hash with _ | known
  · exact .single (.learnPreimage _ _ _ (.inr rfl))
  · -- a known preimage keeps its bytes
    rw [Option.getD_some, ← hs, Function.update_eq_self]
    exact .refl

end Io.Steps

theorem Runs.makes {env : Env} {sc : Scope} {α : Type} {m : IoM α}
    (h : ∀ io₀, Runs (Io.Steps env sc io₀) (fun _ => True) m) : Makes env sc m :=
  fun s => ⟨(h s.io s .refl).io, (h s.io s .refl).res_le⟩

/-! ## Operations -/

namespace IoOp

/-- The accounts that an operation reads into the cache. -/
def accounts : IoOp → List B160
  | touchAccount _ a _ | readAccount _ a _ _ | deployCode _ a _ | setBytecodeDetails _ a .. | setDelegation a _
  | incrementNonce _ a _ | updateBalance _ a .. => [a]
  | transfer _ a b _ | markForDeconstruction _ a b _ => [a, b]
  | _ => []

def writtenSlot : IoOp → Option SlotKey
  | storageWrite _ a k _ => some (a, k)
  | _ => none

def scope (o : IoOp) : Scope where
  accounts a := a ∈ o.accounts
  writes k := o.writtenSlot = some k
  pays := match o with
    | transfer .. | updateBalance .. | markForDeconstruction .. => True
    | _ => False
  deploys := match o with
    | deployCode .. | setBytecodeDetails .. => True
    | _ => False
  destroys := match o with
    | markForDeconstruction .. => True
    | _ => False
  sends a := match o with
    | emitL1Message b _ => a = b
    | _ => False
  refills := False
  edits := match o with
    | transientWrite .. | emitEvent .. | emitL1Message .. | emitL1L2TxLog .. | deployCode .. | setBytecodeDetails ..
    | setDelegation .. | incrementNonce .. => True
    | _ => False
  refunds := match o with
    | storageWrite .. | addEvmRefund .. => True
    | _ => False
  returns := False
  outcomes := match o with
    | emitL1L2TxLog .. => True
    | _ => False

theorem exec_runs (env : Env) (o : IoOp) (io₀ : Io) : Runs (Io.Steps env o.scope io₀) (fun _ => True) (o.exec env) := by
  have h : Admits env o.scope.accounts (fun _ => True) (Io.Steps env o.scope io₀) fun _ => True := Io.Steps.admits
  cases o with
  | storageRead ee a k => exact h.applyRead ee trivial false
  | storageWrite ee a k v =>
    refine .bind (h.applyWrite ee trivial fun io hio => hio.tail (.writeSlot io _ v rfl)) fun _ => ?_
    exact .ite (.modifyIo fun io hio => hio.tail (.setRefunds io _ trivial)) (.pure _)
  | transientRead ee a k =>
    exact .bind (h.charge _) fun _ => .bind (.modifyIo fun io hio => hio.tail (.insertTransient io _)) fun _ =>
      .bind .get fun _ => .pure _
  | transientWrite ee a k v =>
    refine .bind (h.charge _) fun _ => .modifyIo fun io hio => (hio.tail (.insertTransient io (a, k))).tail ?_
    exact .writeTransient _ (a, k) v trivial
  | storageTouch ee a k l => exact .bind (h.applyRead ee trivial l) fun _ => .pure _
  | touchAccount ee a l => exact h.materializeAccount ee ⟨List.mem_singleton_self a, trivial⟩ false l
  | emitEvent ee a ts d =>
    exact .bind (.ite (.pure _) (.throw trivial)) fun _ => .bind (h.charge _) fun _ =>
      .modifyIo fun io hio => hio.tail (.event io _ trivial)
  | emitL1Message a d =>
    refine .bind (h.charge _) fun _ => .bind (h.charge _) fun _ => .bind (.modifyIo fun io hio => hio.tail ?_) fun _ => .pure _
    exact .log io _ (fun b _ _ h => by cases h; rfl) trivial nofun
  | readAccount ee a b d => exact h.readAccountProperties ee ⟨List.mem_singleton_self a, trivial⟩ b d
  | selfBalance ee a =>
    refine .bind ?_ fun _ => .bind (h.accountItem a) fun _ => .pure _
    cases ee
    · exact .pure _
    · exact h.charge _
  | transfer ee a b v =>
    exact h.transferNominalTokenValue (fun _ => trivial) (Io.Steps.allowsPayments trivial) ee ⟨List.mem_cons_self, trivial⟩
      ⟨List.mem_cons_of_mem _ List.mem_cons_self, trivial⟩ v false
  | deployCode ee a c =>
    refine .bind (by cases ee <;> first | exact .pure _ | exact h.charge _) fun _ => .bind .get fun s =>
      .bind (.withInfiniteErgs (h.materializeAccount ee ⟨List.mem_singleton_self a, trivial⟩ false false)) fun _ =>
        .bind (h.require _) fun _ => .bind (h.charge _) fun _ => .bind (h.charge _) fun _ => ?_
    refine .bind (Io.Steps.storeBytecode trivial _ _ _) fun h' => .bind (h.charge _) fun _ => ?_
    exact Io.Steps.updateAccount (.update (.inr fun _ _ => rfl) (.inl trivial) (.inl trivial)) fun _ => rfl
  | setBytecodeDetails ee a _ l al oh ol =>
    refine .bind .get fun s => .bind (h.materializeAccount ee ⟨List.mem_singleton_self a, trivial⟩ false false) fun _ =>
      .bind (h.getPreimage _ _) fun code => .bind (h.require _) fun _ => .bind (h.charge _) fun _ => ?_
    refine .bind (Io.Steps.storeBytecode trivial _ _ _) fun h' => .bind (h.charge _) fun _ => ?_
    exact Io.Steps.updateAccount (.update (.inr fun _ _ => rfl) (.inl trivial) (.inl trivial)) fun _ => rfl
  | setDelegation a d =>
    have hset {f : AccountProperties → AccountProperties} (hb : ∀ v, (f v).balance = v.balance ∧ (f v).nonce = v.nonce) :
        Runs (Io.Steps env (scope (setDelegation a d)) io₀) (fun _ => True) (updateAccount a fun r => r.update fun v m =>
          (f v, { m with notPublishBytecode := false })) :=
      Io.Steps.updateAccount (f := fun r => r.update fun v m => (f v, { m with notPublishBytecode := false }))
        (.update (.inr fun v _ => (hb v).1) (.inr fun _ _ => rfl) (.inl trivial)) fun r => (hb r.value).2
    refine .bind (.withInfiniteErgs (h.materializeAccount .evm ⟨List.mem_singleton_self a, trivial⟩ false false)) fun _ =>
      .ite (.bind (h.charge _) fun _ => hset fun _ => ⟨rfl, rfl⟩) (.bind (h.charge _) fun _ => ?_)
    exact .bind (Io.Steps.storeBytecode trivial _ _ _) fun h' => .bind (h.charge _) fun _ => hset fun _ => ⟨rfl, rfl⟩
  | markForDeconstruction ee a b c =>
    refine h.markForDeconstruction (fun _ => trivial) (Io.Steps.allowsPayments trivial) ee ⟨List.mem_cons_self, trivial⟩
      ⟨List.mem_cons_of_mem _ List.mem_cons_self, trivial⟩ c fun io hio => hio.tail (.updateAccount io a _ ?_ ?_)
    · exact fun r => ⟨.inr rfl, .inr rfl, .inl trivial, .inr rfl, .inr rfl⟩
    · exact fun _ _ => BitVec.le_refl _
  | incrementNonce ee a n =>
    refine h.incrementNonce (fun _ => trivial) ee ⟨List.mem_singleton_self a, trivial⟩ n fun io e he hlt hio => ?_
    refine hio.tail (.updateAccount io a _ (.update (.inr fun _ _ => rfl) (.inr fun _ _ => rfl) (.inl trivial)) fun e' he' => ?_)
    -- the increment does not overflow
    cases he.symm.trans he'
    show e.current.value.nonce ≤ e.current.value.nonce + n
    rw [BitVec.le_def, BitVec.toNat_add, Nat.mod_eq_of_lt hlt]
    exact Nat.le_add_right _ _
  | updateBalance ee a d s f =>
    exact h.updateNominalTokenValue (fun _ => trivial) (Io.Steps.allowsPayments trivial) ee
      ⟨List.mem_singleton_self a, trivial⟩ _ false f
  | emitL1L2TxLog h' s p =>
    refine fun s' hs => ⟨hs.tail (.log s'.io _ ?_ trivial fun _ _ _ _ => trivial), .refl _, nofun⟩
    exact fun _ _ _ h => by cases h
  | refundCounter => exact fun _ hs => ⟨hs, .refl _, fun _ _ => trivial⟩
  | addEvmRefund n => exact fun s hs => ⟨hs.tail (.setRefunds s.io _ trivial), .refl _, nofun⟩
  | netPubdataUsed => exact fun _ hs => ⟨hs, .refl _, fun _ _ => trivial⟩
  | logsLen => exact fun _ hs => ⟨hs, .refl _, fun _ _ => trivial⟩

theorem exec_makes (env : Env) (o : IoOp) : Makes env o.scope (o.exec env) := Runs.makes (o.exec_runs env)

end IoOp

theorem Io.handler_steps (env : Env) (q : IoQuery) (io : Io) :
    Io.Steps env q.1.scope io ((Io.handler env).exec q io).2 := (q.1.exec_makes env ⟨io, q.2⟩).steps

end ZkOs
