import ZkOs.State.Lengths
import ZkOs.State.Persist
import ZkOs.State.Totals

/-!
# The pubdata of a block

At the end of a block the storage model publishes every slot that differs from its value at the start of the
block, where the slots that stand for accounts are published as diffs of the accounts; then all logs are
published.

* `finishInternal` : the bytes for the state, `LogsStorage.applyPubdata` : the bytes for the logs;
* `accountPublished`, `slotPublished` : the lengths of the diffs of an account and of a slot;
* `LogsStorage.length_applyPubdata` : the bytes for the logs are counted when the logs are pushed.
-/

namespace ZkOs

open History ZkOs.Action Digits ValueDiffCompressionStrategy

/-! ## Logs -/

/-- A log as it enters the tree of logs. -/
structure L2ToL1Log where
  l2ShardId : UInt8
  isService : Bool
  txNumberInBlock : BitVec 16
  sender : B160
  key : Bytes32
  value : Bytes32

namespace L2ToL1Log

def encode (l : L2ToL1Log) : List UInt8 :=
  [l.l2ShardId, if l.isService then 1 else 0] ++ beBytes 2 l.txNumberInBlock.toNat ++ beBytes 20 l.sender.low20.toNat ++
    beBytes 32 l.key.toNat ++ beBytes 32 l.value.toNat

/-- Messages are sent by the L1 messenger, logs of L1 transactions by the bootloader. -/
def ofContent (c : LogContent) : L2ToL1Log :=
  match c.data with
  | .userMsg address _ dataHash => ⟨0, true, BitVec.ofNat 16 c.txNumber, 0x8008, address.low20.setWidth 256, dataHash⟩
  | .l1TxLog txHash success _ => ⟨0, true, BitVec.ofNat 16 c.txNumber, 0x8001, txHash, if success then 1 else 0⟩

theorem length_encode (l : L2ToL1Log) : l.encode.length = 88 := by
  unfold encode
  simp [length_beBytes]

end L2ToL1Log

def LogContent.message (c : LogContent) : Option (List UInt8) :=
  match c.data with
  | .userMsg _ data _ => some data
  | .l1TxLog .. => none

namespace LogsStorage

def contents (l : LogsStorage) : List LogContent := l.list.reverse.map Prod.fst

/-- All logs, then the data of the messages. -/
def applyPubdata (l : LogsStorage) : List UInt8 :=
  let messages := l.contents.filterMap LogContent.message
  beBytes 4 l.contents.length ++ l.contents.flatMap (fun c => (L2ToL1Log.ofContent c).encode) ++
    (beBytes 4 messages.length ++ messages.flatMap fun data => beBytes 4 data.length ++ data)

/-- Bytes that are published for a list of logs, without the numbers of logs and messages. -/
def published (l : List (LogContent × Nat)) : Nat := (l.map fun x => x.1.pubdata).sum

theorem length_messages (l : List LogContent) : 88 * l.length +
    ((l.filterMap LogContent.message).flatMap fun data => beBytes 4 data.length ++ data).length =
      (l.map LogContent.pubdata).sum := by
  induction l with
  | nil => rfl
  | cons c l ih =>
    rw [List.length_cons, List.map_cons, List.sum_cons, ← ih, List.filterMap_cons]
    rcases c with ⟨n, ⟨a, data, dh⟩ | ⟨h, s, p⟩⟩
    · simp only [LogContent.message, LogContent.pubdata, List.flatMap_cons, List.length_append, length_beBytes]
      omega
    · simp only [LogContent.message, LogContent.pubdata]
      omega

theorem length_applyPubdata (l : LogsStorage) : l.applyPubdata.length = 8 + published l.list := by
  have hpublished : published l.list = (l.contents.map LogContent.pubdata).sum := by
    unfold published contents
    rw [List.map_map, List.map_reverse, List.sum_reverse]
    rfl
  have hlogs : (l.contents.flatMap fun c => (L2ToL1Log.ofContent c).encode).length = 88 * l.contents.length := by
    rw [List.length_flatMap]
    simp only [L2ToL1Log.length_encode, List.map_const', List.sum_replicate_nat]
    exact Nat.mul_comm _ _
  have hmessages := length_messages l.contents
  rw [hpublished]
  unfold applyPubdata
  simp only [List.length_append, length_beBytes, hlogs]
  omega

end LogsStorage

/-! ## State -/

def deriveFlatStorageKey (env : Env) (k : SlotKey) : Bytes32 :=
  env.blake (List.replicate 12 0 ++ beBytes 20 k.1.low20.toNat ++ beBytes 32 k.2.toNat)

/-- The order of the keys of the storage cache. -/
def SlotKey.order (k : SlotKey) : Nat := B160.limbOrder k.1 * 2 ^ 256 + k.2.toNat

/-- The diff that stands for a changed slot: that of an account, or of the value. -/
def slotDiff (env : Env) (k : SlotKey) (l r : Bytes32) : IoM (List UInt8) :=
  if k.1 = accountPropertiesStorageAddress then do
    let item ← accountItem (u256ToB160 k.2)
    match item.initialAndLast with
    | none => throw .defect
    | some (l, r) => AccountProperties.diffCompression env l.value r.value r.metadata.notPublishBytecode
  else
    match optimalCompression l r with
    | none => throw .defect
    | some diff => pure diff

def publishSlot (env : Env) (k : SlotKey) : IoM (List UInt8) := do
  let e ← slotItem k
  match e.initialAndLast with
  | none => pure []
  | some (l, r) =>
    if l.value = r.value then pure []
    else do
      let diff ← slotDiff env k l.value r.value
      pure (beBytes 32 (deriveFlatStorageKey env k).toNat ++ diff)

def publishSlots (env : Env) : List SlotKey → IoM (List UInt8)
  | [] => pure []
  | k :: ks => do
    let bytes ← publishSlot env k
    let rest ← publishSlots env ks
    pure (bytes ++ rest)

def netDiffs (c : StorageCache) : List SlotKey :=
  c.cache.keys.filter fun k => (c.cache.elems k).any fun e => decide (e.current.value ≠ e.initial.value)

/-- `finish_internal` up to the verification of the reads and writes: the number of diffs and the diffs. -/
def finishInternal (env : Env) : IoM (List UInt8) := do
  persistChanges env
  let s ← get
  let diffs ← publishSlots env (s.io.storage.cache.keys.insertionSort fun k k' => k.order ≤ k'.order)
  pure (beBytes 4 (netDiffs s.io.storage).length ++ diffs)

/-! ## Lengths -/

/-- Length of the diff of an account, with its key; nothing if it is what it was at the start of the block. -/
def accountPublished (e : Element AccountRecord) : Nat :=
  if e.current.value = e.initial.value then 0
  else 32 + e.initial.value.diffCompressionLength e.current.value e.current.metadata.notPublishBytecode false

def slotPublished (e : Element SlotRecord) : Nat :=
  if e.current.value = e.initial.value then 0
  else 32 + optimalCompressionLength e.initial.value e.current.value false

/-- The slots that stand for accounts are published as accounts. -/
def slotWeight (k : SlotKey) (e : Element SlotRecord) : Nat :=
  if k.1 = accountPropertiesStorageAddress then 0 else slotPublished e

namespace Io

/-- The bytecode known for a changed account is not longer than the account says. -/
def CodeFits (io : Io) : Prop :=
  ∀ a e, io.accounts.cache.elems a = some e → Changed e → ∀ bytes,
    io.preimages.storage e.current.value.bytecodeHash = some bytes → bytes.length ≤ e.current.value.fullBytecodeLen

/-- The bytecode known for an account whose new code is published in full is not longer than the account says. -/
def CodeFitsAt (io : Io) (e : Element AccountRecord) : Prop :=
  ¬AccountProperties.SameCode e.initial.value e.current.value → e.current.metadata.notPublishBytecode = false →
    ∀ bytes, io.preimages.storage e.current.value.bytecodeHash = some bytes →
      bytes.length ≤ e.current.value.fullBytecodeLen

theorem CodeFits.at {io : Io} (h : CodeFits io) {a : B160} {e : Element AccountRecord}
    (he : io.accounts.cache.elems a = some e) (hchanged : Changed e) : CodeFitsAt io e :=
  fun _ _ => h a e he hchanged

/-- Nothing but preimages was learned. -/
structure Learns (io io' : Io) : Prop where
  accounts : io'.accounts = io.accounts
  storage : io'.storage = io.storage
  preimages : ∀ h bytes, io.preimages.storage h = some bytes → io'.preimages.storage h = some bytes

namespace Learns

variable {io io' io'' : Io}

theorem refl (io : Io) : Learns io io := ⟨rfl, rfl, fun _ _ h => h⟩

theorem trans (h : Learns io io') (h' : Learns io' io'') : Learns io io'' :=
  ⟨h'.accounts.trans h.accounts, h'.storage.trans h.storage, fun x b hx => h'.preimages x b (h.preimages x b hx)⟩

theorem codeFits (h : Learns io io') (hfits : CodeFits io') : CodeFits io := by
  intro a e he hc bytes hb
  exact hfits a e (by rw [h.accounts]; exact he) hc bytes (h.preimages _ _ hb)

end Learns

end Io

section Loop

variable {env : Env} {s s' : Sys} {out : List UInt8}

theorem getPreimage_learns {hash : Bytes32} {len : Nat} {bytes : List UInt8}
    (h : getPreimage env hash len s = (.ok bytes, s')) : s.io.Learns s'.io := by
  by_cases h0 : hash = 0
  · rw [getPreimage, if_pos h0] at h
    cases h
    exact .refl _
  · rcases getPreimage_cases h0 h with ⟨-, hio⟩ | ⟨hs, -, hstorage, haccounts, hnew⟩
    · rw [hio]
      exact .refl _
    · refine ⟨haccounts, hstorage, fun x b hx => ?_⟩
      have hne : x ≠ hash := by
        rintro rfl
        rw [hs] at hx
        cases hx
      rw [hnew, Function.update_of_ne hne, hx]

theorem codeDiff_ok {final : AccountProperties} {np : Bool}
    (h : AccountProperties.codeDiff env final np s = (.ok out, s')) : s.io.Learns s'.io ∧
      ((np = false → ∀ bytes, s'.io.preimages.storage final.bytecodeHash = some bytes →
          bytes.length ≤ final.fullBytecodeLen) →
        out.length + 4 ≤ final.codeLength np) := by
  unfold AccountProperties.codeDiff at h
  unfold AccountProperties.codeLength
  cases np with
  | true =>
    cases h
    refine ⟨.refl _, fun _ => ?_⟩
    rw [length_beBytes, if_pos rfl]
    omega
  | false =>
    obtain ⟨bytes, s₁, h₁, t₁⟩ := bind_ok.mp h
    cases t₁
    obtain ⟨t, hrun, hio⟩ := withInfiniteResources_ok h₁
    have hlearns := getPreimage_learns hrun
    rw [hio]
    refine ⟨hlearns, fun hfits => ?_⟩
    have hlen : bytes.length ≤ final.fullBytecodeLen := by
      by_cases h0 : final.bytecodeHash = 0
      · unfold getPreimage at hrun
        rw [if_pos h0] at hrun
        cases hrun
        exact Nat.zero_le _
      · exact hfits rfl bytes (getPreimage_ok h0 hrun).1
    simp only [List.length_append, length_beBytes, Bool.false_eq_true, if_false]
    omega

theorem diffCompression_ok {initial final : AccountProperties} {np : Bool}
    (h : AccountProperties.diffCompression env initial final np s = (.ok out, s')) : s.io.Learns s'.io ∧
      initial ≠ final ∧
      ((¬AccountProperties.SameCode initial final → np = false →
          ∀ bytes, s'.io.preimages.storage final.bytecodeHash = some bytes → bytes.length ≤ final.fullBytecodeLen) →
        out.length ≤ initial.diffCompressionLength final np false) := by
  unfold AccountProperties.diffCompression at h
  rcases hn : AccountProperties.nonceDiff initial final with _ | nonce
  · rw [hn] at h
    cases h
  rcases hb : AccountProperties.balanceDiff initial final with _ | balance
  · rw [hn, hb] at h
    cases h
  rw [hn, hb] at h
  simp only at h
  have hnonce : nonce.length = optimalCompressionLength initial.nonceWord final.nonceWord false :=
    length_optimalCompression hn
  have hbalance : balance.length = optimalCompressionLength initial.balance final.balance false :=
    length_optimalCompression hb
  by_cases hfull : AccountProperties.fullDiff initial final
  · rw [if_pos hfull] at h
    obtain ⟨code, s₁, h₁, t₁⟩ := bind_ok.mp h
    cases t₁
    obtain ⟨hlearns, hcode⟩ := codeDiff_ok h₁
    refine ⟨hlearns, ?_, fun hfits => ?_⟩
    · rintro rfl
      exact AccountProperties.not_fullDiff_iff.mpr (.refl initial) hfull
    · rw [AccountProperties.diffCompressionLength_of_full fun hs => AccountProperties.not_fullDiff_iff.mpr hs hfull]
      have := hcode (hfits fun hs => AccountProperties.not_fullDiff_iff.mpr hs hfull)
      simp only [List.length_cons, List.length_append, length_beBytes, hnonce, hbalance]
      omega
  · rw [if_neg hfull] at h
    have hsame := AccountProperties.not_fullDiff_iff.mp hfull
    split at h
    · cases h
    · rename_i hne
      cases h
      refine ⟨.refl _, ?_, fun _ => ?_⟩
      · rintro rfl
        exact hne ⟨rfl, rfl⟩
      · rw [AccountProperties.diffCompressionLength_of_sameCode hsame]
        unfold changeLength
        simp only [ne_eq, AccountProperties.nonceWord_inj, List.length_cons, List.length_append]
        split <;> split <;> simp only [List.length_nil, hnonce, hbalance] <;> omega

theorem current_of_initialAndLast {V : Type} {e : Element V} (h : e.initialAndLast = none) : e.current = e.initial := by
  unfold Element.initialAndLast at h
  split at h
  · rename_i hc
    simp only [Bool.and_eq_true, List.isEmpty_iff, Option.isNone_iff_eq_none] at hc
    simp [Element.current, Element.top, Element.base, hc.1, hc.2]
  · cases h

theorem initialAndLast_eq {V : Type} {e : Element V} {l r : V} (h : e.initialAndLast = some (l, r)) :
    l = e.initial ∧ r = e.current := by
  unfold Element.initialAndLast at h
  split at h
  · cases h
  · cases h
    exact ⟨rfl, rfl⟩

theorem publishSlot_ok {k : SlotKey} (h : publishSlot env k s = (.ok out, s')) : s.io.Learns s'.io ∧
    ∃ e, s.io.storage.cache.elems k = some e ∧ (e.current.value = e.initial.value → out = []) ∧
      (k.1 ≠ accountPropertiesStorageAddress → out.length ≤ slotPublished e) ∧
      (k.1 = accountPropertiesStorageAddress → e.current.value ≠ e.initial.value →
        ∃ item, s.io.accounts.cache.elems (u256ToB160 k.2) = some item ∧ Changed item ∧
          (s'.io.CodeFitsAt item → out.length ≤ accountPublished item)) := by
  obtain ⟨e, s₁, h₁, t₁⟩ := bind_ok.mp h
  obtain ⟨he, rfl⟩ := slotItem_ok h₁
  rcases hil : e.initialAndLast with _ | ⟨l, r⟩
  · rw [hil] at t₁
    cases t₁
    have hval := congrArg CacheRecord.value (current_of_initialAndLast hil)
    exact ⟨.refl _, e, he, fun _ => rfl, fun _ => Nat.zero_le _, fun _ hne => absurd hval hne⟩
  · obtain ⟨rfl, rfl⟩ := initialAndLast_eq hil
    rw [hil] at t₁
    simp only at t₁
    by_cases hval : e.initial.value = e.current.value
    · rw [if_pos hval] at t₁
      cases t₁
      exact ⟨.refl _, e, he, fun _ => rfl, fun _ => Nat.zero_le _, fun _ hne => absurd hval.symm hne⟩
    · rw [if_neg hval] at t₁
      obtain ⟨diff, s₂, h₂, t₂⟩ := bind_ok.mp t₁
      cases t₂
      have hval' : e.current.value ≠ e.initial.value := fun h => hval h.symm
      unfold slotDiff at h₂
      by_cases hk : k.1 = accountPropertiesStorageAddress
      · rw [if_pos hk] at h₂
        obtain ⟨item, s₃, h₃, t₃⟩ := bind_ok.mp h₂
        obtain ⟨hitem, rfl⟩ := accountItem_ok h₃
        rcases hil' : item.initialAndLast with _ | ⟨l, r⟩
        · rw [hil'] at t₃
          cases t₃
        · obtain ⟨rfl, rfl⟩ := initialAndLast_eq hil'
          rw [hil'] at t₃
          obtain ⟨hlearns, hne, hlen⟩ := diffCompression_ok t₃
          refine ⟨hlearns, e, he, fun h => absurd h hval', fun h => absurd hk h,
            fun _ _ => ⟨item, hitem, hne, fun hfits => ?_⟩⟩
          have hdiff := hlen hfits
          unfold accountPublished
          rw [if_neg fun h => hne h.symm, List.length_append, length_beBytes]
          omega
      · rw [if_neg hk] at h₂
        rcases ho : optimalCompression e.initial.value e.current.value with _ | diff'
        · rw [ho] at h₂
          cases h₂
        · rw [ho] at h₂
          cases h₂
          refine ⟨.refl _, e, he, fun h => absurd h hval', fun _ => ?_, fun h => absurd h hk⟩
          unfold slotPublished
          rw [if_neg hval', List.length_append, length_beBytes, length_optimalCompression ho]

/-- The key that stands for a published slot: for the slot of an account, of the account. -/
def publishedAt (io : Io) (k : SlotKey) : Nat :=
  match io.storage.cache.elems k with
  | none => 0
  | some e =>
    if e.current.value = e.initial.value then 0
    else if k.1 = accountPropertiesStorageAddress then
      io.accounts.cache.entry (fun _ => accountPublished) (u256ToB160 k.2)
    else slotPublished e

theorem publishSlots_ok {ks : List SlotKey} (h : publishSlots env ks s = (.ok out, s')) : s.io.Learns s'.io ∧
    (s'.io.CodeFits → out.length ≤ (ks.map (publishedAt s.io)).sum) := by
  induction ks generalizing s out with
  | nil =>
    cases h
    exact ⟨.refl _, fun _ => Nat.le_refl _⟩
  | cons k ks ih =>
    obtain ⟨bytes, s₁, h₁, t₁⟩ := bind_ok.mp h
    obtain ⟨rest, s₂, h₂, t₂⟩ := bind_ok.mp t₁
    cases t₂
    obtain ⟨hl₁, e, he, hsame, hslot, haccount⟩ := publishSlot_ok h₁
    obtain ⟨hl₂, hrest⟩ := ih h₂
    refine ⟨hl₁.trans hl₂, fun hfits => ?_⟩
    have hat : publishedAt s₁.io = publishedAt s.io := by
      funext k'
      unfold publishedAt
      rw [hl₁.storage, hl₁.accounts]
    have hhead : bytes.length ≤ publishedAt s.io k := by
      unfold publishedAt
      rw [he]
      simp only
      by_cases hval : e.current.value = e.initial.value
      · rw [hsame hval]
        exact Nat.zero_le _
      · rw [if_neg hval]
        by_cases hk : k.1 = accountPropertiesStorageAddress
        · obtain ⟨item, hitem, hchanged, hlen⟩ := haccount hk hval
          rw [if_pos hk, HistoryMap.entry_of_some hitem]
          exact hlen ((hl₂.codeFits hfits).at (by rw [hl₁.accounts]; exact hitem) hchanged)
        · rw [if_neg hk]
          exact hslot hk
    have htail := hrest hfits
    rw [hat] at htail
    rw [List.length_append, List.map_cons, List.sum_cons]
    omega

end Loop

/-! ## All diffs -/

theorem u256ToB160_accountSlot (a : B160) : u256ToB160 (accountSlot a).2 = .ofLow20 a.low20 := by
  unfold u256ToB160 accountSlot addressIntoSpecialStorageKey
  simp

end ZkOs
