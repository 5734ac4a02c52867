import ZkOs.State.Reading

/-!
# What operations do to balances

* `Io.SetsBalance` : the balance of one account is replaced and no other value changes;
* `updateNominalTokenValue_ok`, `subBalance_ok`, `addBalance_ok` : what a successful update did;
* `Io.SetsBalance.sameValues` : a balance that is changed and changed back leaves all values alone;
* `selfTransfer_ok`, `selfTransfer_quiet` : a transfer to oneself changes nothing, unless it is interrupted.
-/

namespace ZkOs

open History ZkOs.Action

namespace Io

variable {env : Env} {io io' io'' : Io} {a : B160} {old new : U256}

/-- The balance of `a` was `old` and is `new`; entries may have been loaded before. -/
def SetsBalance (env : Env) (a : B160) (old new : U256) (io io' : Io) : Prop :=
  ∃ mid e, SameValues env io mid ∧ mid.accounts.cache.elems a = some e ∧ e.current.value.balance = old ∧
    ∃ g : AccountRecord → AccountRecord,
      (∀ r, (g r).visible = ({ r.value with balance := new }, r.visible.2)) ∧
      io' = mid.setAccounts (mid.accounts.cache.update a g)

namespace SetsBalance

theorem of_sameValues (h : SameValues env io io') (h' : SetsBalance env a old new io' io'') :
    SetsBalance env a old new io io'' := by
  obtain ⟨mid, e, hmid, hrest⟩ := h'
  exact ⟨mid, e, h.trans hmid, hrest⟩

theorem entry (h : SetsBalance env a old new io io') :
    ∃ e', io'.accounts.cache.elems a = some e' ∧ e'.current.value.balance = new ∧
      ∀ e, io.accounts.cache.elems a = some e → e.current.value.balance = old := by
  obtain ⟨mid, e, hmid, he, hold, g, hg, rfl⟩ := h
  refine ⟨e.update mid.accounts.cache.next g, ?_, ?_, fun e₀ he₀ => ?_⟩
  · simp [setAccounts, HistoryMap.elems_update, he]
  · rw [Element.current_update]
    exact congrArg (fun x => x.1.balance) (hg e.current)
  · have hsame := hmid.accounts a
    rw [he₀, he] at hsame
    rw [← hold]
    exact (congrArg (fun x => x.1.balance) hsame.2).symm

theorem sameValues {mid : U256} (h : SetsBalance env a old mid io io') (h' : SetsBalance env a mid old io' io'') :
    SameValues env io io'' := by
  obtain ⟨m₁, e₁, hm₁, he₁, hold, g₁, hg₁, rfl⟩ := h
  obtain ⟨m₂, e₂, hm₂, he₂, -, g₂, hg₂, rfl⟩ := h'
  refine hm₁.trans
    { slots := hm₂.slots, accounts := fun b => ?_, transient := hm₂.transient, logs := hm₂.logs
      events := hm₂.events, refunds := hm₂.refunds }
  have hb := hm₂.accounts b
  simp only [setAccounts, HistoryMap.elems_update] at hb ⊢
  by_cases hba : b = a
  · subst hba
    simp only [Function.update_self, he₁, he₂, Option.map_some] at hb ⊢
    obtain ⟨hi, hv⟩ := hb
    refine ⟨by rw [Element.update_initial, hi, Element.update_initial], ?_⟩
    rw [Element.current_update] at hv
    rw [Element.current_update, hg₂]
    have hv₁ := hv.trans (hg₁ e₁.current)
    rw [show e₂.current.value = { e₁.current.value with balance := mid } from congrArg Prod.fst hv₁,
      show e₂.current.visible.2 = e₁.current.visible.2 from congrArg (fun x => x.2) hv₁, ← hold]
    rfl
  · rwa [Function.update_of_ne hba] at hb ⊢

end SetsBalance

/-- No value changed, or one balance and no other value. -/
def Quiet (env : Env) (io io' : Io) : Prop :=
  SameValues env io io' ∨ ∃ a old new mid, SetsBalance env a old new io mid ∧ SameValues env mid io'

namespace Quiet

theorem after_sameValues (h : SameValues env io io') (h' : Quiet env io' io'') : Quiet env io io'' := by
  rcases h' with h' | ⟨a, old, new, mid, hset, h'⟩
  · exact .inl (h.trans h')
  · exact .inr ⟨a, old, new, mid, hset.of_sameValues h, h'⟩

theorem then_sameValues (h : Quiet env io io') (h' : SameValues env io' io'') : Quiet env io io'' := by
  rcases h with h | ⟨a, old, new, mid, hset, h⟩
  · exact .inl (h.trans h')
  · exact .inr ⟨a, old, new, mid, hset, h.trans h'⟩

end Quiet

end Io

section Operations

theorem AccountRecord.visible_update (r : AccountRecord) {f : AccountProperties → AccountPropertiesMetadata →
    AccountProperties × AccountPropertiesMetadata} (hf : (f r.value r.metadata).2.deployedInTx = r.metadata.deployedInTx) :
    AccountRecord.visible (r.update f) = ((f r.value r.metadata).1, r.visible.2) := by
  unfold visible CacheRecord.update
  by_cases h : r.appearance = .deconstructed
  · simp [h, hf]
  · simp [h, hf]

variable {env : Env} {s s' : Sys} {ee : ExecutionEnvironmentType} {a : B160}

variable {f : U256 → Except Err U256} {b fee : Bool} {old amount new : U256}

theorem updateNominalTokenValue_ok (h : updateNominalTokenValue env ee a f b fee s = (.ok old, s')) :
    ∃ new, f old = .ok new ∧ Io.SetsBalance env a old new s.io s'.io := by
  obtain ⟨_, s₁, h₁, hrest⟩ := bind_ok.mp h
  obtain ⟨_, s₂, h₂, hread⟩ := bind_ok.mp hrest
  obtain ⟨e, s₃, h₃, hlast⟩ := bind_ok.mp hread
  obtain ⟨he, rfl⟩ := accountItem_ok h₃
  have hmid : Io.SameValues env s.io s₃.io := by
    rw [charge_ok h₂]
    exact ((@Io.Steps.admits env .reading s.io).materializeAccount ee ⟨trivial, trivial⟩ b false |>.reached .refl h₁).1.sameValues
  rcases hf : f e.current.value.balance with err | new
  · rw [hf] at hlast
    cases hlast
  · rw [hf] at hlast
    obtain ⟨_, s₄, h₄, hpure⟩ := bind_ok.mp hlast
    cases h₄
    cases hpure
    exact ⟨new, hf, s₃.io, e, hmid, he, rfl, _, fun r => r.visible_update rfl, rfl⟩

/-- The balance is written last, so an update that fails changed nothing. -/
theorem updateNominalTokenValue_error {err : Err} (h : updateNominalTokenValue env ee a f b fee s = (.error err, s'))
    : Io.SameValues env s.io s'.io := by
  have hadmits := @Io.Steps.admits env .reading s.io
  have hfails : Fails (Io.Steps env .reading s.io) (updateNominalTokenValue env ee a f b fee) := by
    refine .bind (hadmits.materializeAccount ee ⟨trivial, trivial⟩ b false) fun _ => .bind (hadmits.charge _) fun _ =>
      .bind (hadmits.accountItem a) fun e => ?_
    intro s₁ err s₂ hs h
    rcases hf : f e.current.value.balance with err | new <;> rw [hf] at h
    · cases h
      exact ⟨hs, .refl _⟩
    · cases h
  exact (hfails s err s' .refl h).1.sameValues

theorem subBalance_ok (h : subBalance amount old = .ok new) :
    amount.toNat + new.toNat = old.toNat := by
  unfold subBalance at h
  split at h
  · cases h
  · rename_i hle
    cases h
    rw [BitVec.toNat_sub_of_le (BitVec.not_lt.mp hle)]
    exact Nat.add_sub_cancel' (BitVec.le_def.mp (BitVec.not_lt.mp hle))

theorem addBalance_ok (h : addBalance amount old = .ok new) :
    new.toNat = old.toNat + amount.toNat := by
  unfold addBalance at h
  split at h
  · cases h
  · rename_i hlt
    cases h
    rw [BitVec.toNat_add, Nat.mod_eq_of_lt (Nat.not_le.mp hlt)]

theorem selfTransfer_ok (h : transferNominalTokenValue env ee a a amount b s = (.ok (), s'))
    : Io.SameValues env s.io s'.io := by
  obtain ⟨old, s₁, h₁, h⟩ := bind_ok.mp h
  obtain ⟨mid, s₂, h₂, h⟩ := bind_ok.mp h
  cases h
  obtain ⟨new, hsub, hdebit⟩ := updateNominalTokenValue_ok h₁
  obtain ⟨back, hadd, hcredit⟩ := updateNominalTokenValue_ok h₂
  obtain ⟨e, he, hnew, -⟩ := hdebit.entry
  obtain ⟨-, -, -, hmid⟩ := hcredit.entry
  obtain rfl : new = mid := hnew.symm.trans (hmid e he)
  obtain rfl : back = old := BitVec.eq_of_toNat_eq (by
    rw [addBalance_ok hadd, ← subBalance_ok hsub, Nat.add_comm])
  exact hdebit.sameValues hcredit

/-- If the credit fails, the debit stays until an enclosing frame is undone. -/
theorem selfTransfer_quiet {x : Except Err Unit} (h : transferNominalTokenValue env ee a a amount b s = (x, s'))
    : Io.Quiet env s.io s'.io := by
  rcases x with e | _
  · rcases bind_error h with h₁ | ⟨old, s₁, h₁, h⟩
    · exact .inl (updateNominalTokenValue_error h₁)
    obtain ⟨new, -, hdebit⟩ := updateNominalTokenValue_ok h₁
    rcases bind_error h with h₂ | ⟨_, s₂, h₂, h⟩
    · exact .inr ⟨a, old, new, s₁.io, hdebit, updateNominalTokenValue_error h₂⟩
    · cases h
  · exact .inl (selfTransfer_ok h)

end Operations

end ZkOs
