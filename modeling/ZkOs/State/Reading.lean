import ZkOs.State.Frames

/-!
# Reading leaves the values alone

* `Io.SameValues` : no slot, transient slot, account, event, log or refund differs; entries may have
  been loaded into the caches and may have become warm;
* `Scope.reading`, `Io.Steps.sameValues` : the steps of operations that read keep all values;
* `Io.Loads.sameValues` : so does undoing a frame.
-/

namespace ZkOs

open History

/-- What other operations see of an account record, apart from its warm or cold flag. -/
def AccountRecord.visible (r : AccountRecord) : AccountProperties × Bool × Option Nat :=
  (r.value, decide (r.appearance = .deconstructed), r.metadata.deployedInTx)

/-- No changes at all, but entries of any account may be loaded. -/
def Scope.reading : Scope :=
  ⟨fun _ => True, fun _ => False, False, False, False, fun _ => False, False, False, False, True, False⟩

namespace Io

variable {env : Env} {io io' io'' : Io}

/-- All values are the same; entries of the caches may have been loaded or heated. -/
structure SameValues (env : Env) (io io' : Io) : Prop where
  slots : ∀ k, SameEntry CacheRecord.value (InitialSlot env k) (io.storage.cache.elems k) (io'.storage.cache.elems k)
  accounts : ∀ a, SameEntry AccountRecord.visible FreshAccount (io.accounts.cache.elems a) (io'.accounts.cache.elems a)
  transient : io'.transient.current (fun _ => 0) = io.transient.current fun _ => 0
  logs : io'.logs = io.logs
  events : io'.events = io.events
  refunds : io'.storage.evmRefunds.value = io.storage.evmRefunds.value

section Entries

variable {K V γ : Type} {f : V → γ} {Loaded : V → Prop}

theorem SameEntry.refl (f : V → γ) (Loaded : V → Prop) (e : Option (Element V)) : SameEntry f Loaded e e := by
  cases e with
  | none => exact trivial
  | some e => exact ⟨rfl, rfl⟩

theorem SameEntry.trans {e e' e'' : Option (Element V)} (h : SameEntry f Loaded e e')
    (h' : SameEntry f Loaded e' e'') : SameEntry f Loaded e e'' := by
  rcases e with _ | e <;> rcases e' with _ | e' <;> rcases e'' with _ | e''
  · exact trivial
  · exact h'
  · exact h'.elim
  · obtain ⟨hi, hc⟩ := h'
    refine ⟨hi ▸ h.1, ?_⟩
    rw [hc, h.2, hi]
  · exact h.elim
  · exact h.elim
  · exact h'
  · exact ⟨h'.1.trans h.1, h'.2.trans h.2⟩

theorem SameEntry.map {γ' : Type} (g : γ → γ') {e e' : Option (Element V)} (h : SameEntry f Loaded e e') :
    SameEntry (g ∘ f) Loaded e e' := by
  rcases e with _ | e <;> rcases e' with _ | e'
  · exact trivial
  · exact ⟨h.1, congrArg g h.2⟩
  · exact h
  · exact ⟨h.1, congrArg g h.2⟩

variable [DecidableEq K] {P : K → V → Prop}

theorem sameEntry_getOrInsert (m : HistoryMap K V) {k : K} {v : V} (hv : P k v) (k' : K) :
    SameEntry f (P k') (m.elems k') ((m.getOrInsert k v).elems k') := by
  rw [HistoryMap.elems_getOrInsert]
  by_cases hk : k' = k
  · subst hk
    rw [Function.update_self]
    cases m.elems k' with
    | none => exact ⟨hv, rfl⟩
    | some e => exact ⟨rfl, rfl⟩
  · rw [Function.update_of_ne hk]
    exact .refl _ _ _

theorem sameEntry_update (m : HistoryMap K V) (k : K) {g : V → V} (hg : ∀ v, f (g v) = f v) (k' : K) :
    SameEntry f (P k') (m.elems k') ((m.update k g).elems k') := by
  rw [HistoryMap.elems_update]
  by_cases hk : k' = k
  · subst hk
    rw [Function.update_self]
    cases m.elems k' with
    | none => exact trivial
    | some e => exact ⟨Element.update_initial _ _ _, by rw [Element.current_update, hg]⟩
  · rw [Function.update_of_ne hk]
    exact .refl _ _ _

end Entries

namespace SameValues

theorem refl (io : Io) : SameValues env io io :=
  ⟨fun _ => .refl _ _ _, fun _ => .refl _ _ _, rfl, rfl, rfl, rfl⟩

theorem trans (h : SameValues env io io') (h' : SameValues env io' io'') : SameValues env io io'' where
  slots k := (h.slots k).trans (h'.slots k)
  accounts a := (h.accounts a).trans (h'.accounts a)
  transient := h'.transient.trans h.transient
  logs := h'.logs.trans h.logs
  events := h'.events.trans h.events
  refunds := h'.refunds.trans h.refunds

theorem startFrame (io : Io) : SameValues env io io.startFrame.2 :=
  ⟨fun _ => .refl _ _ _, fun _ => .refl _ _ _, rfl, rfl, rfl, rfl⟩

theorem visible_of_change {r r' : AccountRecord} (h : Scope.reading.Change r r') : r'.visible = r.visible := by
  have hb := h.balance.resolve_left id
  have hd := h.deployedInTx.resolve_left id
  have hx := h.deconstructed.resolve_left id
  have hp := h.properties.resolve_left id
  rw [hb] at hp
  unfold AccountRecord.visible
  rw [hp, hd]
  simp only [hx]

theorem of_step (h : Step env .reading io io') : SameValues env io io' := by
  have keep := (refl io : SameValues env io io)
  cases h with
  | ask => exact { keep with }
  | insertSlot k n => exact { keep with slots := sameEntry_getOrInsert (P := InitialSlot env) _ ⟨n, rfl⟩ }
  | touchSlot k tx => exact { keep with slots := sameEntry_update (P := InitialSlot env) _ k fun _ => rfl }
  | writeSlot k v hk => exact hk.elim
  | insertAccount a ha e he r hr => exact { keep with accounts := sameEntry_getOrInsert (P := fun _ => FreshAccount) _ hr.fresh }
  | updateAccount a f hf hn =>
    exact { keep with accounts := sameEntry_update (P := fun _ => FreshAccount) _ a fun r => visible_of_change (hf r) }
  | learnPreimage hash bytes hs => exact { keep with }
  | publish type hash len he => exact he.elim
  | insertTransient k => exact { keep with transient := HistoryMap.current_getOrInsert _ _ _ }
  | writeTransient k v he => exact he.elim
  | setRefunds v hr => exact hr.elim
  | log c hc he => exact he.elim
  | event e he => exact he.elim

end SameValues

theorem Steps.sameValues (h : Steps env .reading io io') : SameValues env io io' := by
  induction h with
  | refl => exact .refl io
  | tail _ hstep ih => exact ih.trans (.of_step hstep)

theorem Loads.sameValues (h : Loads env io io') : SameValues env io io' where
  slots k := (sameEntry_of_loads h.slots k).map CacheRecord.value
  accounts a := (sameEntry_of_loads h.accounts a).map AccountRecord.visible
  transient := h.transient.current_eq
  logs := h.logs
  events := h.events
  refunds := by rw [h.refunds]; rfl

end Io

end ZkOs
