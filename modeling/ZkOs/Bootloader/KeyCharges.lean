import ZkOs.Bootloader.Deconstruction
import ZkOs.Bootloader.Keys
import ZkOs.Bootloader.Limits
import ZkOs.State.Charges

/-!
# What the transactions of a block are charged for one slot or account

* `publishedFor` : the bytes that the end of the block writes for a slot; `finishInternal_pieces` : all of them
  are the state diffs;
* `txEnds` : the states in which the transactions of a block ended;
* `slotCharges`, `accountCharges` : the parts of `pubdataUsedByTx` for one key, added up over the block;
* `published_le_keyCharges` : they cover what is published, for an account if its code is published in another way
  only when it is another code;
* `forced_deployment_undercharged` : a forced deployment of the code that the account already has.
-/

namespace ZkOs

open History ZkOs.Action Digits

/-! ## The bytes for one slot -/

def sortedKeys (c : StorageCache) : List SlotKey := c.cache.keys.insertionSort fun k k' => k.order ≤ k'.order

/-- The loop over `ks` up to the slot `k`, then its round for `k`. -/
def publishUpTo (env : Env) (ks : List SlotKey) (k : SlotKey) : IoM (List UInt8) := do
  let _ ← publishSlots env (ks.takeWhile (· ≠ k))
  publishSlot env k

/-- What the loop of `finish_internal` writes for the slot `k`. -/
def publishedFor (env : Env) (k : SlotKey) : IoM (List UInt8) := do
  persistChanges env
  let s ← get
  if k ∈ sortedKeys s.io.storage then publishUpTo env (sortedKeys s.io.storage) k else pure []

section Pieces

variable {env : Env} {s s' : Sys} {out : List UInt8}

theorem takeWhile_ne_append {K : Type} [DecidableEq K] {l l' : List K} {k : K} (h : k ∉ l) :
    (l ++ k :: l').takeWhile (· ≠ k) = l := by
  have hl : ∀ x ∈ l, decide (x ≠ k) = true := fun x hx => decide_eq_true fun hk => h (by rw [← hk]; exact hx)
  rw [List.takeWhile_append_of_pos hl, List.takeWhile_cons_of_neg (by simp), List.append_nil]

theorem publishSlots_append {ks ks' : List SlotKey} {s₁ : Sys} {out' : List UInt8}
    (h : publishSlots env ks s = (.ok out, s₁)) (h' : publishSlots env ks' s₁ = (.ok out', s')) :
    publishSlots env (ks ++ ks') s = (.ok (out ++ out'), s') := by
  induction ks generalizing s out with
  | nil =>
    cases h
    exact h'
  | cons k ks ih =>
    obtain ⟨bytes, s₂, h₁, t₁⟩ := bind_ok.mp h
    obtain ⟨rest, s₃, h₂, t₂⟩ := bind_ok.mp t₁
    cases t₂
    show (publishSlot env k >>= fun bytes => publishSlots env (ks ++ ks') >>= fun rest => pure (bytes ++ rest)) s = _
    rw [bind_of_ok h₁, bind_of_ok (ih h₂), List.append_assoc]
    rfl

theorem publishSlots_singleton {k : SlotKey} (h : publishSlot env k s = (.ok out, s')) :
    publishSlots env [k] s = (.ok out, s') := by
  show (publishSlot env k >>= fun bytes => publishSlots env [] >>= fun rest => pure (bytes ++ rest)) s = _
  rw [bind_of_ok h]
  exact congrArg (fun o => (Except.ok o, s')) (List.append_nil out)

theorem publishSlots_pieces (before : List SlotKey) {ks : List SlotKey} {out₀ : List UInt8} {s₀ : Sys}
    (hbefore : publishSlots env before s₀ = (.ok out₀, s)) (h : publishSlots env ks s = (.ok out, s'))
    (hnodup : (before ++ ks).Nodup) :
    ∃ pieces : SlotKey → List UInt8, out = ks.flatMap pieces ∧ ∀ k ∈ ks, ∃ t, publishUpTo env (before ++ ks) k s₀ =
        (.ok (pieces k), t) := by
  induction ks generalizing before out₀ s out with
  | nil =>
    cases h
    exact ⟨fun _ => [], rfl, fun k hk => nomatch hk⟩
  | cons k ks ih =>
    obtain ⟨bytes, s₁, h₁, t₁⟩ := bind_ok.mp h
    obtain ⟨rest, s₂, h₂, t₂⟩ := bind_ok.mp t₁
    cases t₂
    have hk : k ∉ before := fun hk =>
      (List.nodup_append.mp hnodup).2.2 k hk k List.mem_cons_self rfl
    have hks : k ∉ ks := (List.nodup_cons.mp (List.nodup_append.mp hnodup).2.1).1
    obtain ⟨out₁, hout₁⟩ : ∃ out₁, publishSlots env (before ++ [k]) s₀ = (.ok out₁, s₁) :=
      ⟨_, publishSlots_append hbefore (publishSlots_singleton h₁)⟩
    have hlist : before ++ k :: ks = before ++ [k] ++ ks := by rw [List.append_assoc, List.singleton_append]
    obtain ⟨pieces, rfl, hpieces⟩ := ih _ hout₁ h₂ (by rw [← hlist]; exact hnodup)
    refine ⟨Function.update pieces k bytes, ?_, fun k' hk' => ?_⟩
    · rw [List.flatMap_cons, Function.update_self]
      refine congrArg (bytes ++ ·) (List.flatMap_congr fun k' hk' => ?_)
      rw [Function.update_of_ne fun heq => hks (by rw [← heq]; exact hk')]
    · by_cases heq : k' = k
      · subst heq
        refine ⟨s₁, ?_⟩
        unfold publishUpTo
        rw [Function.update_self, takeWhile_ne_append hk, bind_of_ok hbefore]
        exact h₁
      · rw [Function.update_of_ne heq, hlist]
        exact hpieces k' ((List.mem_cons.mp hk').resolve_left heq)

theorem publishUpTo_entry {ks : List SlotKey} {k : SlotKey} (h : publishUpTo env ks k s = (.ok out, s')) :
    if k ∈ netDiffs s.io.storage then ∃ diff, out = beBytes 32 (deriveFlatStorageKey env k).toNat ++ diff
    else out = [] := by
  obtain ⟨_, s₁, h₁, t₁⟩ := bind_ok.mp h
  obtain ⟨e, s₂, h₂, t₂⟩ := bind_ok.mp t₁
  obtain ⟨he, rfl⟩ := slotItem_ok h₂
  have hmem : k ∈ netDiffs s.io.storage ↔ e.current.value ≠ e.initial.value := by
    rw [← (publishSlots_ok h₁).1.storage]
    simp [netDiffs, HistoryMap.mem_keys, he]
  simp only [hmem]
  rcases hil : e.initialAndLast with _ | ⟨l, r⟩ <;> rw [hil] at t₂
  · cases t₂
    rw [if_neg fun hne => hne (congrArg CacheRecord.value (current_of_initialAndLast hil))]
  · obtain ⟨rfl, rfl⟩ := initialAndLast_eq hil
    simp only at t₂
    split at t₂
    · rename_i hval
      cases t₂
      rw [if_neg fun hne => hne hval.symm]
    · rename_i hval
      obtain ⟨diff, s₃, -, t₃⟩ := bind_ok.mp t₂
      cases t₃
      rw [if_pos fun heq => hval heq.symm]
      exact ⟨diff, rfl⟩

/-- The count is that of the entries which follow, one for each slot that changed, in the order of the slots. -/
theorem finishInternal_pieces (h : finishInternal env s = (.ok out, s')) :
    ∃ s₁, persistChanges env s = (.ok (), s₁) ∧ ∃ pieces : SlotKey → List UInt8,
      out = beBytes 4 (netDiffs s₁.io.storage).length ++ (sortedKeys s₁.io.storage).flatMap pieces ∧
      ∀ k ∈ sortedKeys s₁.io.storage, (∃ t, publishedFor env k s = (.ok (pieces k), t)) ∧
        if k ∈ netDiffs s₁.io.storage then ∃ diff, pieces k = beBytes 32 (deriveFlatStorageKey env k).toNat ++ diff
        else pieces k = [] := by
  obtain ⟨_, s₁, h₁, t₁⟩ := bind_ok.mp h
  obtain ⟨_, s₂, h₂, t₂⟩ := bind_ok.mp t₁
  cases h₂
  obtain ⟨diffs, s₃, h₃, t₃⟩ := bind_ok.mp t₂
  cases t₃
  have hnodup : (sortedKeys s₁.io.storage).Nodup :=
    (List.perm_insertionSort _ _).nodup_iff.mpr s₁.io.storage.cache.keys_nodup
  obtain ⟨pieces, rfl, hpieces⟩ := publishSlots_pieces [] rfl h₃ hnodup
  refine ⟨s₁, h₁, pieces, rfl, fun k hk => ?_⟩
  obtain ⟨t, ht⟩ := hpieces k hk
  refine ⟨⟨t, ?_⟩, publishUpTo_entry ht⟩
  unfold publishedFor
  rw [bind_of_ok h₁, bind_of_ok (show Action.get s₁ = (.ok s₁, s₁) from rfl)]
  simp only [if_pos hk]
  exact ht

def oneWrite : Sys := ((IoOp.storageWrite .noEE 0x1111 1 7).exec Bootloader.emptyChain ⟨.new, .infinite⟩).2

theorem finishInternal_pieces_oneWrite : ∃ out s', finishInternal Bootloader.emptyChain oneWrite = (.ok out, s') ∧
    4 < out.length ∧ ∃ (s₁ : Sys) (pieces : SlotKey → List UInt8),
      out = beBytes 4 (netDiffs s₁.io.storage).length ++ (sortedKeys s₁.io.storage).flatMap pieces := by
  obtain ⟨out, s', h, hlen⟩ := exists_ok_of_any (x := finishInternal Bootloader.emptyChain oneWrite)
    (f := fun out _ => decide (4 < out.length)) (by decide +kernel)
  obtain ⟨s₁, -, pieces, hout, -⟩ := finishInternal_pieces h
  exact ⟨out, s', h, of_decide_eq_true hlen, s₁, pieces, hout⟩

theorem publishedFor_ok {k : SlotKey} (h : publishedFor env k s = (.ok out, s')) :
    (k.1 ≠ accountPropertiesStorageAddress → out.length ≤ s.io.storage.cache.entry slotWeight k) ∧
    (k.1 = accountPropertiesStorageAddress →
      (∀ e, s.io.accounts.cache.elems (u256ToB160 k.2) = some e → s'.io.CodeFitsAt e) →
      out.length ≤ s.io.accounts.cache.entry (fun _ => accountPublished) (u256ToB160 k.2)) := by
  obtain ⟨_, s₁, h₁, t₁⟩ := bind_ok.mp h
  obtain ⟨_, s₂, h₂, t₂⟩ := bind_ok.mp t₁
  cases h₂
  obtain ⟨haccounts, hkept⟩ := persistChanges_kept h₁
  split at t₂
  · obtain ⟨_, s₃, h₃, t₃⟩ := bind_ok.mp t₂
    have hlearns := (publishSlots_ok h₃).1
    obtain ⟨-, e, he, hsame, hslot, haccount⟩ := publishSlot_ok t₃
    refine ⟨fun hk => ?_, fun hk hfits => ?_⟩
    · rw [hlearns.storage, hkept k fun a _ _ _ hka => hk (by rw [hka]; rfl)] at he
      rw [HistoryMap.entry_of_some he]
      unfold slotWeight
      rw [if_neg hk]
      exact hslot hk
    · by_cases hval : e.current.value = e.initial.value
      · rw [hsame hval]
        exact Nat.zero_le _
      · obtain ⟨item, hitem, -, hlen⟩ := haccount hk hval
        rw [hlearns.accounts, haccounts] at hitem
        rw [HistoryMap.entry_of_some hitem]
        exact hlen (hfits item hitem)
  · cases t₂
    exact ⟨fun _ => Nat.zero_le _, fun _ _ => Nat.zero_le _⟩

end Pieces

end ZkOs

namespace ZkOs.Bootloader

open History ZkOs.Action SysM

/-! ## The ends of the transactions -/

structure TxEnd where
  included : Bool
  io : Io

/-- The ends of the transactions of a block, oldest first. -/
def txEnds (env : Env) (cfg : Config) (machine : Machine) (block : BlockMetadata) :
    BlockRun → List IncomingTx → List TxEnd
  | _, [] => []
  | s, tx :: txs =>
    match runTx env cfg machine block s.data s.io tx with
    | (.included r b, io) => ⟨true, io⟩ :: txEnds env cfg machine block ⟨io, b, s.results ++ [.ok r]⟩ txs
    | (.rejected e, io) => ⟨false, io⟩ :: txEnds env cfg machine block ⟨io, s.data, s.results ++ [.error e]⟩ txs
    | (.aborted, _) => []

/-- What included transactions are charged, given the charge in the state at the end of each. -/
def charges (c : Io → Nat) (ends : List TxEnd) : Nat := ((ends.filter (·.included)).map fun t => c t.io).sum

/-- The part of a slot in `calculate_pubdata_used_by_tx`. -/
def slotChargeAt (k : SlotKey) (io : Io) : Nat := io.storage.cache.entry slotCharge k

/-- The part of an account in `calculate_pubdata_used_by_tx`. -/
def accountChargeAt (a : B160) (io : Io) : Nat := io.accounts.cache.entry (fun _ => accountPubdata) a

section Charges

variable {env : Env} {cfg : Config} {machine : Machine} {block : BlockMetadata} {b b' : BlockData} {io io' : Io}
  {tx : IncomingTx} {r : TxProcessingResult}

theorem charges_cons (c : Io → Nat) (t : TxEnd) (ends : List TxEnd) :
    charges c (t :: ends) = (if t.included then c t.io else 0) + charges c ends := by
  unfold charges
  rw [List.filter_cons]
  rcases t with ⟨_ | _, io⟩
  · exact (Nat.zero_add _).symm
  · rfl

theorem runTx_sinceCommit {o : TxOutcome} (htx : tx ≠ .unreadable)
    (h : runTx env cfg machine block b io tx = (o, io')) :
    io.accounts.cache.SinceCommit io'.accounts.cache ∧ io.storage.cache.SinceCommit io'.storage.cache := by
  rw [runTx_eq htx] at h
  rcases hx : (txProgram env cfg machine block b tx).run env ⟨io.beginNextTx, .empty⟩ with ⟨e | o', s⟩
  · exact e.elim
  have hext := run_extends_of hx
  have haccounts := hext.accounts.sinceCommit
  have hslots := hext.slots.sinceCommit
  rw [hx] at h
  cases o' with
  | included r b' =>
    cases h
    exact ⟨Io.finishTx_accounts_sinceCommit haccounts, Io.finishTx_slots_sinceCommit hslots⟩
  | rejected e =>
    cases h
    exact ⟨haccounts, hslots⟩
  | aborted =>
    cases h
    exact ⟨haccounts, hslots⟩

theorem value_eq_base {K V γ : Type} {m m' : HistoryMap K V} [DecidableEq K] {f : V → γ} {P : V → Prop} {k : K}
    (h : m.SinceCommit m') (hsame : Io.SameEntry f P (m.commit.elems k) (m'.elems k)) {e' : Element V}
    (he' : m'.elems k = some e') : f e'.current = f e'.base := by
  rw [HistoryMap.commit_elems, he'] at hsame
  beta_reduce at hsame
  have hbase : e'.base = e'.atCommit.current := rfl
  rcases he : m.elems k with _ | e
  · rw [he] at hsame
    obtain ⟨v, hv⟩ := h.elems_none k e' he he'
    have hinitial : e'.initial = v := congrArg Element.initial hv
    rw [hbase, hv, hsame.2, hinitial]
    rfl
  · rw [he] at hsame
    obtain ⟨e₁, he₁, hcommit⟩ := h.elems_some k e he
    obtain rfl : e' = e₁ := Option.some.inj (he'.symm.trans he₁)
    rw [hbase, hcommit, hsame.2]

theorem slotChargeAt_of_rejected {e : InvalidTransaction} (htx : tx ≠ .unreadable)
    (h : runTx env cfg machine block b io tx = (.rejected e, io')) (k : SlotKey) : slotChargeAt k io' = 0 := by
  rcases he' : io'.storage.cache.elems k with _ | e'
  · exact HistoryMap.entry_of_none he'
  have hvalue := value_eq_base (runTx_sinceCommit htx h).2 ((runTx_rejected_sameValues htx h).slots k) he'
  refine (HistoryMap.entry_of_some he').trans ?_
  unfold slotCharge slotPubdata
  split
  · rfl
  · exact if_pos (.inr hvalue)

theorem accountChargeAt_of_rejected {e : InvalidTransaction} (htx : tx ≠ .unreadable)
    (h : runTx env cfg machine block b io tx = (.rejected e, io')) (a : B160) : accountChargeAt a io' = 0 := by
  rcases he' : io'.accounts.cache.elems a with _ | e'
  · exact HistoryMap.entry_of_none he'
  have hvisible := value_eq_base (runTx_sinceCommit htx h).1 ((runTx_rejected_sameValues htx h).accounts a) he'
  refine (HistoryMap.entry_of_some he').trans ?_
  unfold accountPubdata
  rw [if_pos (.inr (congrArg Prod.fst hvisible))]

/-- Over a block: if the weight of the state grows in a transaction at most by a charge, and rejected transactions
have none, then it grows at most by the charges of the included transactions. -/
theorem runTxs_le_charges {w c : Io → Nat} {P : Io → Prop}
    (hstep : ∀ io io' : Io, io.accounts.cache.SinceCommit io'.accounts.cache →
      io.storage.cache.SinceCommit io'.storage.cache → P io' → w io' ≤ w io + c io')
    (hrejected : ∀ {b io tx e io'}, tx ≠ .unreadable →
      runTx env cfg machine block b io tx = (.rejected e, io') → c io' = 0)
    {s s' : BlockRun} {txs : List IncomingTx} (hrun : runTxs env cfg machine block s txs = some s')
    (hP : ∀ t ∈ txEnds env cfg machine block s txs, P t.io) :
    w s'.io ≤ w s.io + charges c (txEnds env cfg machine block s txs) := by
  induction txs generalizing s with
  | nil =>
    cases hrun
    exact Nat.le_add_right _ _
  | cons tx txs ih =>
    unfold runTxs at hrun
    unfold txEnds at hP ⊢
    rcases hx : runTx env cfg machine block s.data s.io tx with ⟨r | e | _, io⟩
    · have htx : tx ≠ .unreadable := by
        rintro rfl
        cases hx
      rw [hx] at hrun hP
      obtain ⟨hio, hrest⟩ := List.forall_mem_cons.mp hP
      obtain ⟨haccounts, hslots⟩ := runTx_sinceCommit htx hx
      have hhead := hstep s.io io haccounts hslots hio
      have htail := ih hrun hrest
      rw [charges_cons]
      simp only [if_true] at *
      omega
    · rw [hx] at hrun hP
      obtain ⟨hio, hrest⟩ := List.forall_mem_cons.mp hP
      have htail := ih hrun hrest
      have hhead : w io ≤ w s.io := by
        by_cases htx : tx = .unreadable
        · subst htx
          cases hx
          exact Nat.le_refl _
        · obtain ⟨haccounts, hslots⟩ := runTx_sinceCommit htx hx
          have hle := hstep s.io io haccounts hslots hio
          rw [hrejected htx hx] at hle
          exact hle
      rw [charges_cons]
      simp only [Bool.false_eq_true, if_false] at *
      omega
    · rw [hx] at hrun
      cases hrun

/-- For every slot, and for every account whose code is published in another way only when it is another code, the
charges of the included transactions cover the bytes that are published at the end of the block. -/
theorem published_le_keyCharges {txs : List IncomingTx} {run : BlockRun} {res : Resources} {bytes : List UInt8} {s' : Sys}
    (hrun : runTxs env cfg machine block .new txs = some run) :
    (∀ k : SlotKey, k.1 ≠ accountPropertiesStorageAddress → publishedFor env k ⟨run.io, res⟩ = (.ok bytes, s') →
      bytes.length ≤ charges (slotChargeAt k) (txEnds env cfg machine block .new txs)) ∧
    ∀ x : BitVec 160, publishedFor env (accountSlot (.ofLow20 x)) ⟨run.io, res⟩ = (.ok bytes, s') →
      (∀ t ∈ txEnds env cfg machine block .new txs, ∀ e, t.io.accounts.cache.elems (.ofLow20 x) = some e →
        FlagFollowsCode e) →
      (∀ e, run.io.accounts.cache.elems (.ofLow20 x) = some e → s'.io.CodeFitsAt e) →
      bytes.length ≤ charges (accountChargeAt (.ofLow20 x)) (txEnds env cfg machine block .new txs) := by
  refine ⟨fun k hk hpublished => ?_, fun x hpublished hflags hfits => ?_⟩
  · have hle := runTxs_le_charges (w := fun io => io.storage.cache.entry slotWeight k) (c := slotChargeAt k)
      (P := fun _ => True)
      (fun io io' _ hslots _ => hslots.entry_le (slotWeight_new k) (slotWeight_commit k) fun e _ => slotWeight_le k e)
      (fun htx h => slotChargeAt_of_rejected htx h k) hrun fun _ _ => trivial
    have hbytes := (publishedFor_ok hpublished).1 hk
    have hstart : BlockRun.new.io.storage.cache.entry slotWeight k = 0 := rfl
    exact hbytes.trans (hle.trans (by rw [hstart, Nat.zero_add]))
  · let a := B160.ofLow20 x
    have hle := runTxs_le_charges (w := fun io => io.accounts.cache.entry (fun _ => accountPublished) a)
      (c := accountChargeAt a) (P := fun io => ∀ e, io.accounts.cache.elems a = some e → FlagFollowsCode e)
      (fun io io' haccounts _ hflag => haccounts.entry_le accountPublished_new accountPublished_commit
        fun e he => accountPublished_le e (hflag e he))
      (fun htx h => accountChargeAt_of_rejected htx h a) hrun hflags
    have haddress : u256ToB160 (accountSlot a).2 = a := by
      rw [u256ToB160_accountSlot]
      simp [a, B160.low20, B160.ofLow20]
    have hbytes := (publishedFor_ok hpublished).2 rfl
    rw [haddress] at hbytes
    have hbytes := hbytes hfits
    have hstart : BlockRun.new.io.accounts.cache.entry (fun _ => accountPublished) a = 0 := rfl
    exact hbytes.trans (hle.trans (by rw [hstart, Nat.zero_add]))

end Charges

/-! ## Forced deployment of the code that is there

The first transaction deploys one byte of code, for which it is charged in full. In the second one the upgrader
deploys the same code by force: the account does not change, but now it is published with the hash and the length
of its code, which are longer. -/

def upgraderBytecode : List UInt8 := paddedBytecode [2] (artifacts [2])

def upgraderAccount : AccountProperties :=
  AccountProperties.trivial.setCode ⟨7, 1, modHash upgraderBytecode, 1, 8⟩ (deployedVersioning 0)

/-- Only the upgrader has an account. -/
def upgraderChain : Env :=
  { emptyChain with
    slot := fun _ address key =>
      if (address, key) = accountSlot l2ComplexUpgraderAddress then (modHash upgraderAccount.encoding, false)
      else (0, true)
    preimage := fun _ hash =>
      if hash = modHash upgraderBytecode then upgraderBytecode
      else if hash = modHash [1] then [1]
      else upgraderAccount.encoding
    blake := modHash }

/-- `setBytecodeDetailsEVM` for the account `0x5555` and the code of one byte. -/
def forcedDeployment : List UInt8 :=
  setEvmBytecodeDetailsSelector ++ Digits.beBytes 32 0x5555 ++ Digits.beBytes 32 1 ++ Digits.beBytes 32 1 ++
    Digits.beBytes 32 0x5555

/-- Constructors return the code of one byte; other code calls the contract deployer. -/
def upgraderMachine : Machine where
  interpreter ctx :=
    if ctx.isConstructor then .exit (.success [1])
    else .call (.call .call 10000000 0x8006 0 forcedDeployment) fun _ _ => .exit (.success [])
  precompile _ _ := (.empty, none)

def callUpgrader : L2Transaction := { deploymentTx with nonce := 1, destination := some 0x800f, calldata := [] }

def upgraderRun (txs : List IncomingTx) : Option BlockRun :=
  runTxs upgraderChain ⟨true, false⟩ upgraderMachine freeBlock .new txs

def upgraderEnds (txs : List IncomingTx) : List TxEnd :=
  txEnds upgraderChain ⟨true, false⟩ upgraderMachine freeBlock .new txs

set_option maxRecDepth 100000 in
/-- Eight bytes more are published for the account than the transactions were charged for it. -/
theorem forced_deployment_undercharged : ∃ run bytes s',
    upgraderRun [.l2 deploymentTx, .l2 callUpgrader] = some run ∧
    publishedFor upgraderChain (accountSlot 0x5555) ⟨run.io, .empty⟩ = (.ok bytes, s') ∧
    charges (accountChargeAt 0x5555) (upgraderEnds [.l2 deploymentTx, .l2 callUpgrader]) = 72 ∧ bytes.length = 80 := by
  have h : ((upgraderRun [.l2 deploymentTx, .l2 callUpgrader]).any fun run =>
      (publishedFor upgraderChain (accountSlot 0x5555) ⟨run.io, .empty⟩).1.toOption.any fun bytes =>
        decide (bytes.length = 80)) = true := by decide +kernel
  have hcharges : charges (accountChargeAt 0x5555) (upgraderEnds [.l2 deploymentTx, .l2 callUpgrader]) = 72 := by
    decide +kernel
  obtain ⟨run, hrun, hbytes⟩ := (Option.any_eq_true _ _).mp h
  obtain ⟨bytes, s', hpublished, hlen⟩ := exists_ok_of_any
    (x := publishedFor upgraderChain (accountSlot 0x5555) ⟨run.io, .empty⟩)
    (f := fun bytes _ => decide (bytes.length = 80)) hbytes
  exact ⟨run, bytes, s', hrun, hpublished, hcharges, of_decide_eq_true hlen⟩

theorem forall_of_option_all {α : Type} {p : α → Prop} [DecidablePred p] {o : Option α}
    (h : (o.all fun x => decide (p x)) = true) : ∀ x, o = some x → p x := by
  rintro x rfl
  exact of_decide_eq_true h

instance (e : Element AccountRecord) : Decidable (FlagFollowsCode e) := inferInstanceAs (Decidable (_ → _))

/-- The code known for an account, checked as `CodeFitsAt` asks. -/
def codeFitsAt (io : Io) (e : Element AccountRecord) : Bool :=
  (io.preimages.storage e.current.value.bytecodeHash).all fun bytes =>
    decide (bytes.length ≤ e.current.value.fullBytecodeLen)

set_option maxRecDepth 100000 in
/-- The deployment alone: what is published was charged. -/
theorem published_le_keyCharges_deploymentTx : ∃ run bytes s', upgraderRun [.l2 deploymentTx] = some run ∧
    publishedFor upgraderChain (accountSlot 0x5555) ⟨run.io, .empty⟩ = (.ok bytes, s') ∧ bytes ≠ [] ∧
    bytes.length ≤ charges (accountChargeAt 0x5555) (upgraderEnds [.l2 deploymentTx]) := by
  have h : ((upgraderRun [.l2 deploymentTx]).any fun run =>
      let x := publishedFor upgraderChain (accountSlot 0x5555) ⟨run.io, .empty⟩
      x.1.toOption.any fun bytes => decide (bytes ≠ []) &&
        (run.io.accounts.cache.elems (.ofLow20 0x5555)).all fun e => decide (codeFitsAt x.2.io e = true)) = true := by
    decide +kernel
  have hflags : ((upgraderEnds [.l2 deploymentTx]).all fun t =>
      (t.io.accounts.cache.elems (.ofLow20 0x5555)).all fun e => decide (FlagFollowsCode e)) = true := by
    decide +kernel
  obtain ⟨run, hrun, hbytes⟩ := (Option.any_eq_true _ _).mp h
  obtain ⟨bytes, s', hpublished, hx⟩ := exists_ok_of_any
    (x := publishedFor upgraderChain (accountSlot 0x5555) ⟨run.io, .empty⟩)
    (f := fun bytes s' => decide (bytes ≠ []) &&
      (run.io.accounts.cache.elems (.ofLow20 0x5555)).all fun e => decide (codeFitsAt s'.io e = true)) hbytes
  obtain ⟨hne, hfits⟩ := Bool.and_eq_true_iff.mp hx
  refine ⟨run, bytes, s', hrun, hpublished, of_decide_eq_true hne, ?_⟩
  refine (published_le_keyCharges hrun).2 0x5555 hpublished (fun t ht => ?_) fun e he _ _ bytes hcode => ?_
  · exact forall_of_option_all (List.all_eq_true.mp hflags t ht)
  · have hfit := forall_of_option_all hfits e he
    exact forall_of_option_all hfit bytes hcode

end ZkOs.Bootloader
