import Mathlib.Data.List.Sort
import ZkOs.State.Steps

/-!
# Persisting account changes

`persist_changes` writes the hash of every changed account to the slot of its 20-byte address. It
iterates over the account cache in the order of the limbs of the keys.

* `persistChanges_ok` : if no two cached keys have the same low 20 bytes, every changed account is
  written to its slot and no other slot is touched.
-/

namespace ZkOs

open History ZkOs.Action

/-- The order of the keys of the account cache: limbs, the lowest first. -/
def B160.limbOrder (a : B160) : Nat :=
  (a.extractLsb' 0 64).toNat * 2 ^ 128 + (a.extractLsb' 64 64).toNat * 2 ^ 64 + (a.extractLsb' 128 64).toNat

def persistAccount (env : Env) (a : B160) : IoM Unit := do
  let e ← accountItem a
  match e.initialAndLast with
  | none => pure ()
  | some (l, r) =>
    if l.value = r.value then pure ()
    else
      -- both calls are paid from one infinite supply
      withInfiniteResources do
        recordPreimage .accountData (r.value.hash env) AccountProperties.encodedSize r.value.encoding
        let _ ← applyWrite env .noEE (accountSlot a) (r.value.hash env)
        pure ()

def persistAccounts (env : Env) : List B160 → IoM Unit
  | [] => pure ()
  | a :: as => do
    persistAccount env a
    persistAccounts env as

def persistChanges (env : Env) : IoM Unit := do
  let s ← get
  persistAccounts env (s.io.accounts.cache.keys.insertionSort fun a b => a.limbOrder ≤ b.limbOrder)

/-- The account has another value than at the start of the block. -/
def Changed (e : Element AccountRecord) : Prop := e.initial.value ≠ e.current.value

instance (e : Element AccountRecord) : Decidable (Changed e) :=
  inferInstanceAs (Decidable (e.initial.value ≠ e.current.value))

/-! ## Actions on one slot -/

/-- Only the slot `k` may change, and no account. -/
structure OnlySlot (k : SlotKey) (s s' : Sys) : Prop where
  accounts : s'.io.accounts = s.io.accounts
  slots : ∀ k' ≠ k, s'.io.storage.cache.elems k' = s.io.storage.cache.elems k'

namespace OnlySlot

variable {env : Env} {k : SlotKey} {s s' s'' : Sys}

theorem refl (s : Sys) : OnlySlot k s s := ⟨rfl, fun _ _ => rfl⟩

theorem updateSlot (h : OnlySlot k s s') (f : SlotRecord → SlotRecord) :
    OnlySlot k s { s' with io := s'.io.setSlots (s'.io.storage.cache.update k f) } := by
  refine ⟨h.accounts, fun k' hk => ?_⟩
  show (s'.io.storage.cache.update k f).elems k' = _
  rw [HistoryMap.elems_update, Function.update_of_ne hk, h.slots k' hk]

theorem admits (s : Sys) : Admits env (fun _ => False) (· = k) (fun io => OnlySlot k s ⟨io, s.res⟩) fun _ => True where
  errors _ _ := trivial
  ask _ h := ⟨h.accounts, h.slots⟩
  insertSlot k' n hk io h := by
    subst hk
    refine ⟨h.accounts, fun k'' hk => ?_⟩
    show (io.storage.cache.getOrInsert k' _).elems k'' = _
    rw [HistoryMap.elems_getOrInsert, Function.update_of_ne hk]
    exact h.slots k'' hk
  touchSlot k' tx hk io h := by
    subst hk
    exact h.updateSlot _
  learn _ _ _ _ _ _ h := ⟨h.accounts, h.slots⟩
  insertAccount _ _ _ ha := ha.elim
  touchAccount _ _ ha := ha.elim

theorem of_runs {α : Type} {m : IoM α} {x : Except Err α}
    (hm : Runs (fun io => OnlySlot k s ⟨io, s.res⟩) (fun _ => True) m) (h : m s = (x, s')) : OnlySlot k s s' := by
  obtain ⟨honly, -⟩ := hm.reached (refl s) h
  exact ⟨honly.accounts, honly.slots⟩

end OnlySlot

theorem applyWrite_ok {env : Env} {ee : ExecutionEnvironmentType} {k : SlotKey} {v : Bytes32} {x : Bytes32 × Bytes32}
    {s s' : Sys} (h : applyWrite env ee k v s = (.ok x, s')) :
    OnlySlot k s s' ∧ ∃ e, s'.io.storage.cache.elems k = some e ∧ e.current.value = v := by
  obtain ⟨_, s₁, h₁, t₁⟩ := bind_ok.mp h
  obtain ⟨e, s₂, h₂, t₂⟩ := bind_ok.mp t₁
  obtain ⟨_, s₃, h₃, t₃⟩ := bind_ok.mp t₂
  obtain ⟨_, s₄, h₄, t₄⟩ := bind_ok.mp t₃
  cases t₄
  cases h₄
  obtain ⟨hk, rfl⟩ := slotItem_ok h₂
  have hio := charge_ok h₃
  refine ⟨.of_runs ((OnlySlot.admits s).applyWrite ee rfl fun _ hio => hio.updateSlot _) h, ?_⟩
  refine ⟨e.update s₃.io.storage.cache.next fun r => r.update fun _ m => (v, m), ?_, ?_⟩
  · show (s₃.io.storage.cache.update k _).elems k = _
    rw [HistoryMap.elems_update, Function.update_self, hio, hk]
    rfl
  · rw [Element.current_update]
    rfl

/-! ## The loop -/

section Loop

variable {env : Env} {s s' : Sys}

theorem initialAndLast_changed {e : Element AccountRecord} :
    Changed e ↔ ∃ l r, e.initialAndLast = some (l, r) ∧ l.value ≠ r.value ∧ r = e.current := by
  unfold Element.initialAndLast Changed
  split
  · rename_i h
    simp only [Bool.and_eq_true, List.isEmpty_iff, Option.isNone_iff_eq_none] at h
    simp [Element.current, Element.top, Element.base, h.1, h.2]
  · constructor
    · intro hne
      exact ⟨_, _, rfl, hne, rfl⟩
    · rintro ⟨l, r, heq, hne, rfl⟩
      cases heq
      exact hne

theorem recordPreimage_ok {type : PreimageType} {hash : Bytes32} {len : Nat} {bytes : List UInt8}
    (h : recordPreimage type hash len bytes s = (.ok (), s')) :
    s'.io.accounts = s.io.accounts ∧ s'.io.storage = s.io.storage := by
  obtain ⟨_, s₁, h₁, t₁⟩ := bind_ok.mp h
  obtain ⟨_, s₂, h₂, t₂⟩ := bind_ok.mp t₁
  obtain ⟨-, rfl⟩ := require_ok h₂
  obtain ⟨_, s₃, h₃, t₃⟩ := bind_ok.mp t₂
  cases h₃
  obtain ⟨_, s₄, h₄, t₄⟩ := bind_ok.mp t₃
  obtain ⟨-, rfl⟩ := require_ok h₄
  cases t₄
  exact ⟨by rw [← charge_ok h₁], by rw [← charge_ok h₁]⟩

theorem persistAccount_ok {a : B160} (h : persistAccount env a s = (.ok (), s')) :
    OnlySlot (accountSlot a) s s' ∧ ∃ e, s.io.accounts.cache.elems a = some e ∧
      (Changed e → ∃ e', s'.io.storage.cache.elems (accountSlot a) = some e' ∧
        e'.current.value = e.current.value.hash env) ∧
      (¬Changed e → s'.io.storage.cache.elems (accountSlot a) = s.io.storage.cache.elems (accountSlot a)) := by
  obtain ⟨e, s₁, h₁, t₁⟩ := bind_ok.mp h
  obtain ⟨he, rfl⟩ := accountItem_ok h₁
  rcases hil : e.initialAndLast with _ | ⟨l, r⟩ <;> rw [hil] at t₁
  · cases t₁
    refine ⟨.refl _, e, he, fun hc => ?_, fun _ => rfl⟩
    obtain ⟨l, r, hlr, -⟩ := initialAndLast_changed.mp hc
    rw [hil] at hlr
    cases hlr
  · simp only at t₁
    split at t₁
    · rename_i hval
      cases t₁
      refine ⟨.refl _, e, he, fun hc => ?_, fun _ => rfl⟩
      obtain ⟨l', r', hlr, hne, -⟩ := initialAndLast_changed.mp hc
      rw [hil] at hlr
      cases hlr
      exact absurd hval hne
    · rename_i hval
      have hr : r = e.current := by
        unfold Element.initialAndLast at hil
        split at hil <;> cases hil
        rfl
      obtain ⟨t, hrun, hio⟩ := withInfiniteResources_ok t₁
      obtain ⟨_, s₂, h₂, t₂⟩ := bind_ok.mp hrun
      obtain ⟨x, s₃, h₃, t₃⟩ := bind_ok.mp t₂
      cases t₃
      obtain ⟨hacc, hst⟩ := recordPreimage_ok h₂
      obtain ⟨honly, e', he', hv⟩ := applyWrite_ok h₃
      refine ⟨⟨?_, fun k' hk => ?_⟩, e, he, fun _ => ⟨e', ?_, ?_⟩, fun hc => ?_⟩
      · rw [hio, honly.accounts, hacc]
      · rw [hio, honly.slots k' hk, hst]
      · rw [hio, he']
      · rw [hv, hr]
      · exact absurd (initialAndLast_changed.mpr ⟨l, r, hil, hval, hr⟩) hc

theorem accountSlot_inj {a b : B160} : accountSlot a = accountSlot b ↔ a.low20 = b.low20 := by
  unfold accountSlot addressIntoSpecialStorageKey
  simp only [Prod.mk.injEq, true_and]
  constructor
  · intro h
    have := congrArg (BitVec.setWidth 160) h
    simpa using this
  · intro h
    rw [h]

theorem persistAccounts_kept {l : List B160} (h : persistAccounts env l s = (.ok (), s')) :
    s'.io.accounts = s.io.accounts ∧
    (∀ k, (∀ a ∈ l, ∀ e, s.io.accounts.cache.elems a = some e → Changed e → k ≠ accountSlot a) →
      s'.io.storage.cache.elems k = s.io.storage.cache.elems k) := by
  induction l generalizing s with
  | nil =>
    cases h
    exact ⟨rfl, fun _ _ => rfl⟩
  | cons a l ih =>
    obtain ⟨_, s₁, h₁, t₁⟩ := bind_ok.mp h
    obtain ⟨honly, e, he, -, hsame⟩ := persistAccount_ok h₁
    obtain ⟨hacc, hkept⟩ := ih t₁
    rw [honly.accounts] at hacc hkept
    refine ⟨hacc, fun k hk => ?_⟩
    rw [hkept k fun b hb => hk b (List.mem_cons_of_mem _ hb)]
    by_cases hka : k = accountSlot a
    · by_cases hc : Changed e
      · exact absurd hka (hk a List.mem_cons_self e he hc)
      · rw [hka]
        exact hsame hc
    · exact honly.slots k hka

theorem persistAccounts_ok {l : List B160} (hinj : ∀ a ∈ l, ∀ b ∈ l, a.low20 = b.low20 → a = b)
    (h : persistAccounts env l s = (.ok (), s')) {a : B160} (ha : a ∈ l) {e : Element AccountRecord}
    (he : s.io.accounts.cache.elems a = some e) (hc : Changed e) :
    ∃ e', s'.io.storage.cache.elems (accountSlot a) = some e' ∧ e'.current.value = e.current.value.hash env := by
  induction l generalizing s with
  | nil => cases ha
  | cons b l ih =>
    obtain ⟨_, s₁, h₁, t₁⟩ := bind_ok.mp h
    obtain ⟨honly, e₀, he₀, hchanged, -⟩ := persistAccount_ok h₁
    by_cases hal : a ∈ l
    · refine ih (fun b hb c hc => hinj b (List.mem_cons_of_mem _ hb) c (List.mem_cons_of_mem _ hc)) t₁ hal ?_
      rw [honly.accounts, he]
    · obtain rfl : a = b := (List.mem_cons.mp ha).resolve_right hal
      rw [he] at he₀
      cases he₀
      -- no later key has the same slot
      rw [(persistAccounts_kept t₁).2 (accountSlot a) fun c hc _ _ _ heq => hal (by
        rwa [hinj a List.mem_cons_self c (List.mem_cons_of_mem _ hc) (accountSlot_inj.mp heq)])]
      exact hchanged hc

theorem mem_persisted {a : B160} : a ∈ s.io.accounts.cache.keys.insertionSort (fun a b => a.limbOrder ≤ b.limbOrder) ↔
    s.io.accounts.cache.elems a ≠ none := by
  rw [(List.perm_insertionSort _ _).mem_iff, s.io.accounts.cache.mem_keys]

theorem persistChanges_kept (h : persistChanges env s = (.ok (), s')) :
    s'.io.accounts = s.io.accounts ∧
    (∀ k, (∀ a e, s.io.accounts.cache.elems a = some e → Changed e → k ≠ accountSlot a) →
      s'.io.storage.cache.elems k = s.io.storage.cache.elems k) := by
  obtain ⟨_, s₁, h₁, t₁⟩ := bind_ok.mp h
  cases h₁
  obtain ⟨hacc, hkept⟩ := persistAccounts_kept t₁
  exact ⟨hacc, fun k hk => hkept k fun a _ => hk a⟩

/-- If no two cached keys stand for the same address, every changed account is written to its slot
and no other slot is touched. -/
theorem persistChanges_ok
    (hinj : ∀ a b, s.io.accounts.cache.elems a ≠ none → s.io.accounts.cache.elems b ≠ none →
      a.low20 = b.low20 → a = b)
    (h : persistChanges env s = (.ok (), s')) :
    (∀ a e, s.io.accounts.cache.elems a = some e → Changed e →
      ∃ e', s'.io.storage.cache.elems (accountSlot a) = some e' ∧ e'.current.value = e.current.value.hash env) ∧
    (∀ k, (∀ a e, s.io.accounts.cache.elems a = some e → Changed e → k ≠ accountSlot a) →
      s'.io.storage.cache.elems k = s.io.storage.cache.elems k) := by
  refine ⟨fun a e he hc => ?_, (persistChanges_kept h).2⟩
  obtain ⟨_, s₁, h₁, t₁⟩ := bind_ok.mp h
  cases h₁
  exact persistAccounts_ok (fun a ha b hb => hinj a b (mem_persisted.mp ha) (mem_persisted.mp hb)) t₁
    (mem_persisted.mpr (by simp [he])) he hc

end Loop

end ZkOs
