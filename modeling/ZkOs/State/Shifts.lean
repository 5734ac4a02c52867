import ZkOs.State.Balances

/-!
# Balances that move

* `Io.Shifts env δ io io'` : every balance moved by `δ`, and no other value of an account, no slot and
  no transient slot changed; `Shifts.trans` adds the movements up;
* `updateNominalTokenValue_shifts`, `transferNominalTokenValue_ok` : what the operations move;
* `debit_orderly` : a debit of an account that has the amount is not refused for lack of it.
-/

namespace ZkOs

open History ZkOs.Action

/-- `d` was added to the balance and nothing else changed. -/
def AccountRecord.Shifted (d : ℤ) (r r' : AccountRecord) : Prop :=
  r'.visible = ({ r.value with balance := r'.value.balance }, r.visible.2) ∧
    (r'.value.balance.toNat : ℤ) = r.value.balance.toNat + d

/-- The same for an entry of the cache; one that was loaded since then is compared with the record it
was loaded with. -/
def ShiftedEntry (d : ℤ) : Option (Element AccountRecord) → Option (Element AccountRecord) → Prop
  | some e, some e' => e'.initial = e.initial ∧ AccountRecord.Shifted d e.current e'.current
  | none, some e' => FreshAccount e'.initial ∧ AccountRecord.Shifted d e'.initial e'.current
  | none, none => d = 0
  | some _, none => False

section Entries

variable {d d' : ℤ} {r r' r'' : AccountRecord}

theorem AccountRecord.Shifted.of_visible (h : r'.visible = r.visible) : AccountRecord.Shifted 0 r r' := by
  have hv : r'.value = r.value := congrArg Prod.fst h
  refine ⟨?_, by rw [hv, add_zero]⟩
  rw [h, hv]
  rfl

theorem AccountRecord.Shifted.trans (h : AccountRecord.Shifted d r r') (h' : AccountRecord.Shifted d' r' r'') :
    AccountRecord.Shifted (d + d') r r'' := by
  have hv : r'.value = { r.value with balance := r'.value.balance } := congrArg Prod.fst h.1
  have hrest : r'.visible.2 = r.visible.2 := congrArg (fun x => x.2) h.1
  refine ⟨?_, by rw [h'.2, h.2, add_assoc]⟩
  rw [h'.1, hrest, hv]

theorem ShiftedEntry.trans {e e' e'' : Option (Element AccountRecord)} (h : ShiftedEntry d e e')
    (h' : ShiftedEntry d' e' e'') : ShiftedEntry (d + d') e e'' := by
  rcases e with _ | e <;> rcases e' with _ | e' <;> rcases e'' with _ | e''
  · show d + d' = 0
    rw [show d = 0 from h, show d' = 0 from h', add_zero]
  · rw [show d = 0 from h, zero_add]
    exact h'
  · exact h'.elim
  · obtain ⟨hi, hs⟩ := h'
    refine ⟨hi ▸ h.1, ?_⟩
    rw [hi]
    exact h.2.trans hs
  · exact h.elim
  · exact h.elim
  · exact h'.elim
  · exact ⟨h'.1.trans h.1, h.2.trans h'.2⟩

theorem ShiftedEntry.of_same {e e' : Option (Element AccountRecord)}
    (h : Io.SameEntry AccountRecord.visible FreshAccount e e') : ShiftedEntry 0 e e' := by
  rcases e with _ | e <;> rcases e' with _ | e'
  · rfl
  · exact ⟨h.1, .of_visible h.2⟩
  · exact h.elim
  · exact ⟨h.1, .of_visible h.2⟩

end Entries

namespace Io

variable {env : Env} {io io' io'' : Io} {δ δ' : B160 → ℤ}

/-- The balance of every account moved by `δ`; logs and events apart nothing else changed. -/
structure Shifts (env : Env) (δ : B160 → ℤ) (io io' : Io) : Prop where
  slots : ∀ k, SameEntry CacheRecord.value (InitialSlot env k) (io.storage.cache.elems k) (io'.storage.cache.elems k)
  accounts : ∀ a, ShiftedEntry (δ a) (io.accounts.cache.elems a) (io'.accounts.cache.elems a)
  transient : io'.transient.current (fun _ => 0) = io.transient.current fun _ => 0
  refunds : io'.storage.evmRefunds.value = io.storage.evmRefunds.value

theorem Shifts.trans (h : Shifts env δ io io') (h' : Shifts env δ' io' io'') : Shifts env (δ + δ') io io'' where
  slots k := (h.slots k).trans (h'.slots k)
  accounts a := (h.accounts a).trans (h'.accounts a)
  transient := h'.transient.trans h.transient
  refunds := h'.refunds.trans h.refunds

theorem SameValues.shifts (h : SameValues env io io') : Shifts env 0 io io' where
  slots := h.slots
  accounts a := .of_same (h.accounts a)
  transient := h.transient
  refunds := h.refunds

theorem Shifts.of_logs (h : Shifts env δ io io') (logs : LogsStorage) (events : List Event) :
    Shifts env δ io { io' with logs := logs, events := events } :=
  ⟨h.slots, h.accounts, h.transient, h.refunds⟩

namespace SetsBalance

variable {a : B160} {old new : U256}

theorem logs (h : SetsBalance env a old new io io') : io'.logs = io.logs := by
  obtain ⟨mid, e, hmid, -, -, g, -, rfl⟩ := h
  exact hmid.logs

theorem shifts (h : SetsBalance env a old new io io') :
    Shifts env (Pi.single a ((new.toNat : ℤ) - old.toNat)) io io' := by
  obtain ⟨mid, e, hmid, he, hold, g, hg, rfl⟩ := h
  have hset : Shifts env (Pi.single a ((new.toNat : ℤ) - old.toNat)) mid
      (mid.setAccounts (mid.accounts.cache.update a g)) := by
    refine ⟨fun _ => .refl _ _ _, fun b => ?_, rfl, rfl⟩
    simp only [setAccounts, HistoryMap.elems_update]
    by_cases hb : b = a
    · subst hb
      have hv := hg e.current
      have hnew : (g e.current).value.balance = new := congrArg (fun x => x.1.balance) hv
      simp only [Function.update_self, he, Option.map_some, Pi.single_eq_same]
      refine ⟨Element.update_initial _ _ _, ?_⟩
      rw [Element.current_update]
      refine ⟨by rw [hv, hnew], ?_⟩
      rw [hnew, hold]
      omega
    · rw [Function.update_of_ne hb, Pi.single_eq_of_ne hb]
      exact .of_same (.refl _ _ _)
  have h₀ := hmid.shifts.trans hset
  rwa [zero_add] at h₀

end SetsBalance

end Io

/-! ## Operations -/

section Operations

variable {env : Env} {s s' : Sys} {ee : ExecutionEnvironmentType} {a b : B160} {amount old : U256}

variable {sd fee : Bool} {α : Type} {m : IoM α}

theorem updateNominalTokenValue_shifts {f : U256 → Except Err U256}
    (h : updateNominalTokenValue env ee a f sd fee s = (.ok old, s')) :
    ∃ new, f old = .ok new ∧ Io.Shifts env (Pi.single a ((new.toNat : ℤ) - old.toNat)) s.io s'.io ∧
      s'.io.logs = s.io.logs := by
  obtain ⟨new, hnew, hset⟩ := updateNominalTokenValue_ok h
  exact ⟨new, hnew, hset.shifts, hset.logs⟩

theorem debit_ok (h : updateNominalTokenValue env ee a (subBalance amount) sd fee s = (.ok old, s')) :
    Io.Shifts env (Pi.single a (-(amount.toNat : ℤ))) s.io s'.io ∧ s'.io.logs = s.io.logs := by
  obtain ⟨new, hnew, hshift, hlogs⟩ := updateNominalTokenValue_shifts h
  have hval := subBalance_ok hnew
  rw [show (new.toNat : ℤ) - old.toNat = -(amount.toNat : ℤ) by omega] at hshift
  exact ⟨hshift, hlogs⟩

theorem transferNominalTokenValue_ok (h : transferNominalTokenValue env ee a b amount sd s = (.ok (), s')) :
    Io.Shifts env (Pi.single a (-(amount.toNat : ℤ)) + Pi.single b (amount.toNat : ℤ)) s.io s'.io ∧
      s'.io.logs = s.io.logs ∧ ∃ e, s'.io.accounts.cache.elems b = some e ∧ amount ≤ e.current.value.balance := by
  obtain ⟨_, s₁, h₁, h⟩ := bind_ok.mp h
  obtain ⟨mid, s₂, h₂, h⟩ := bind_ok.mp h
  cases h
  obtain ⟨hdebit, hlogs⟩ := debit_ok h₁
  obtain ⟨new, hadd, hset⟩ := updateNominalTokenValue_ok h₂
  have hval := addBalance_ok hadd
  obtain ⟨e, he, hnew, -⟩ := hset.entry
  have hcredit := hset.shifts
  rw [show (new.toNat : ℤ) - mid.toNat = (amount.toNat : ℤ) by omega] at hcredit
  refine ⟨hdebit.trans hcredit, hset.logs.trans hlogs, e, he, ?_⟩
  rw [hnew, BitVec.le_def]
  omega

/-- The account has the amount, as far as it was read. -/
def Io.HasFunds (io : Io) (a : B160) (amount : U256) : Prop :=
  amount = 0 ∨ ∃ e, io.accounts.cache.elems a = some e ∧ amount ≤ e.current.value.balance

/-- Not a misuse: out of resources or an internal error. -/
abbrev Orderly {α : Type} (m : IoM α) : Prop := Raises (fun e => e.isUsage = false) m

theorem admits_orderly : Admits env (fun _ => True) (fun _ => True) (fun _ => True) fun e => e.isUsage = false where
  errors _ h := h
  ask _ _ := trivial
  insertSlot _ _ _ _ _ := trivial
  touchSlot _ _ _ _ _ := trivial
  learn _ _ _ _ _ _ _ := trivial
  insertAccount _ _ _ _ _ _ _ _ := trivial
  touchAccount _ _ _ _ _ := trivial

theorem Runs.orderly (hm : Runs (fun _ => True) (fun e => e.isUsage = false) m) : Orderly m :=
  fun s => (hm s trivial).error

/-- A debit that the account can pay is not refused: it may only run out of resources, or the account
cannot be read. -/
theorem debit_orderly {e : Err} (hfunds : s.io.HasFunds a amount)
    (h : updateNominalTokenValue env ee a (subBalance amount) sd fee s = (.error e, s')) : e.isUsage = false := by
  have hadmits := @admits_orderly env
  rcases bind_error h with h₁ | ⟨_, s₁, h₁, h⟩
  · exact (hadmits.materializeAccount ee ⟨trivial, trivial⟩ sd false).orderly s e (congrArg Prod.fst h₁)
  rcases bind_error h with h₂ | ⟨_, s₂, h₂, h⟩
  · exact (hadmits.charge _).orderly s₁ e (congrArg Prod.fst h₂)
  rcases bind_error h with h₃ | ⟨elem, s₃, h₃, hlast⟩
  · exact (hadmits.accountItem a).orderly s₂ e (congrArg Prod.fst h₃)
  obtain ⟨helem, rfl⟩ := accountItem_ok h₃
  have hpays : subBalance amount elem.current.value.balance = .ok (elem.current.value.balance - amount) := by
    refine if_neg (BitVec.not_lt.mpr ?_)
    rcases hfunds with rfl | ⟨elem₀, helem₀, hle⟩
    · exact BitVec.le_def.mpr (Nat.zero_le _)
    · have hsame : Io.SameValues env s.io s₃.io := by
        rw [charge_ok h₂]
        exact ((@Io.Steps.admits env .reading s.io).materializeAccount ee ⟨trivial, trivial⟩ sd false |>.reached .refl h₁).1.sameValues
      have hentry := hsame.accounts a
      rw [helem₀, helem] at hentry
      rwa [show elem.current.value.balance = elem₀.current.value.balance from
        congrArg (fun x => x.1.balance) hentry.2]
  rw [hpays] at hlast
  cases hlast

end Operations

end ZkOs
