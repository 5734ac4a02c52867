import ZkOs.State.Balances
import ZkOs.State.Deconstruction
import ZkOs.State.Publication

/-!
# The charge for pubdata covers what will be published

A transaction is charged for the diffs between its start and its end, a block publishes the diffs between its
own start and end.

* `accountPublished_le`, `slotWeight_le` : an account or a slot grows at most by its charge;
* `Io.finishTx_accounts_sinceCommit`, `Io.finishTx_slots_sinceCommit` : the sweep at the end of a transaction
  changes records of the transaction only.
-/

namespace ZkOs

open History ZkOs.Action FrameProgram DiffLength ValueDiffCompressionStrategy

/-! ## One account or slot -/

section Elements

theorem accountPublished_new (r : AccountRecord) : accountPublished (Element.new r) = 0 := if_pos rfl

theorem accountPublished_commit (e : Element AccountRecord) : accountPublished e.commit = accountPublished e := by
  unfold accountPublished
  rw [Element.commit_current, Element.commit_initial]

/-- The code of the account is published in another way only if it is another code. -/
def FlagFollowsCode (e : Element AccountRecord) : Prop :=
  AccountProperties.SameCode e.base.value e.current.value →
    e.current.metadata.notPublishBytecode = e.base.metadata.notPublishBytecode

/-- What a transaction is charged for an account covers what it adds to the diff of the account. -/
theorem accountPublished_le (e : Element AccountRecord) (h : FlagFollowsCode e) :
    accountPublished e ≤ accountPublished e.atCommit + accountPubdata e := by
  have hcurrent : e.atCommit.current = e.base := rfl
  have hinitial : e.atCommit.initial = e.initial := rfl
  unfold accountPublished accountPubdata
  rw [hcurrent, hinitial]
  by_cases hi : e.current.value = e.initial.value
  · rw [if_pos hi]
    exact Nat.zero_le _
  rw [if_neg hi]
  by_cases hb : e.current.value = e.base.value
  · -- nothing changed in the transaction
    have hflag := h (by rw [hb]; exact .refl _)
    rw [if_neg (by rw [← hb]; exact hi), ← hb, hflag]
    exact Nat.le_add_right _ _
  · simp only [hi, hb, or_self, if_false]
    have hle := e.base.value.diffCompressionLength_le e.current.value e.current.metadata.notPublishBytecode
      e.current.metadata.notCompressBalance
    split
    · rename_i hbase
      rw [hbase] at hle ⊢
      omega
    · have htriangle := @AccountProperties.diffCompressionLength_triangle e.initial.value _ _ _ _ h
      omega

theorem slotWeight_new (k : SlotKey) (r : SlotRecord) : slotWeight k (Element.new r) = 0 := by
  unfold slotWeight slotPublished
  split
  · rfl
  · exact if_pos rfl

theorem slotWeight_commit (k : SlotKey) (e : Element SlotRecord) : slotWeight k e.commit = slotWeight k e := by
  unfold slotWeight slotPublished
  rw [Element.commit_current, Element.commit_initial]

/-- What a transaction is charged for a slot. -/
def slotCharge (k : SlotKey) (e : Element SlotRecord) : Nat :=
  if k.1 = accountPropertiesStorageAddress then 0 else slotPubdata e

theorem slotWeight_le (k : SlotKey) (e : Element SlotRecord) : slotWeight k e ≤ slotWeight k e.atCommit + slotCharge k e := by
  have hcurrent : e.atCommit.current = e.base := rfl
  have hinitial : e.atCommit.initial = e.initial := rfl
  unfold slotWeight slotCharge
  split
  · exact Nat.zero_le _
  unfold slotPublished slotPubdata
  rw [hcurrent, hinitial]
  by_cases hi : e.current.value = e.initial.value
  · rw [if_pos hi]
    exact Nat.zero_le _
  rw [if_neg hi]
  by_cases hb : e.current.value = e.base.value
  · rw [if_neg (by rw [← hb]; exact hi), ← hb]
    exact Nat.le_add_right _ _
  · simp only [hi, hb, or_self, if_false]
    have htriangle := optimalCompressionLength_triangle e.initial.value e.base.value e.current.value
    split
    · rename_i hbase
      rw [hbase]
      omega
    · omega

end Elements

/-! ## The charge of a transaction -/

namespace Io

variable {env : Env} {io io' io'' : Io}

/-! ## The sweep -/

theorem finishTx_accounts_sinceCommit (h : io.accounts.cache.SinceCommit io'.accounts.cache) :
    io.accounts.cache.SinceCommit io'.finishTx.accounts.cache := by
  refine h.of_atCommit fun a => ?_
  rw [finishTx_elems]
  split
  · rw [Option.map_map]
    refine congrArg (Option.map · _) (funext fun e => ?_)
    show (sweepElement e).atCommit = _
    unfold sweepElement
    split
    · exact Element.atCommit_mutateHead _ _
    · rfl
  · rfl

theorem atCommit_foldl_update {K V : Type} [DecidableEq K] (f : V → V) (l : List K) (m : HistoryMap K V) (k : K) :
    ((l.foldl (fun m k => m.update k f) m).elems k).map Element.atCommit = (m.elems k).map Element.atCommit := by
  induction l generalizing m with
  | nil => rfl
  | cons k' l ih =>
    rw [List.foldl_cons, ih, HistoryMap.elems_update]
    by_cases hk : k = k'
    · rw [hk, Function.update_self, Option.map_map]
      exact congrArg (Option.map · _) (funext fun e => Element.atCommit_update _ _ e)
    · rw [Function.update_of_ne hk]

theorem atCommit_sweepAccount (a : B160) (m : HistoryMap B160 AccountRecord) (c : StorageCache) (k : SlotKey) :
    ((sweepAccount a m c).2.cache.elems k).map Element.atCommit = (c.cache.elems k).map Element.atCommit := by
  unfold sweepAccount
  split
  · split
    · exact atCommit_foldl_update _ _ _ _
    · rfl
  · rfl

theorem finishTx_slots_sinceCommit (h : io.storage.cache.SinceCommit io'.storage.cache) :
    io.storage.cache.SinceCommit io'.finishTx.storage.cache := by
  refine h.of_atCommit fun k => ?_
  show ((io'.accounts.cache.pending.foldl (fun st p => sweepAccount p.1 st.1 st.2)
    (io'.accounts.cache, io'.storage)).2.cache.elems k).map Element.atCommit = _
  generalize io'.accounts.cache.pending = l
  generalize io'.accounts.cache = m, io'.storage = c
  induction l generalizing m c with
  | nil => rfl
  | cons p l ih => exact (ih _ _).trans (atCommit_sweepAccount _ _ _ _)

end Io

end ZkOs
