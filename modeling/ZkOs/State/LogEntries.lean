import ZkOs.State.Publication

/-!
# Reading logs back

The logs are published in two passes, first 88 bytes for each log and then the data of the messages. Both
kinds of logs have one layout.

* `LogEntry` : what is published of a log;
* `Pubdata.logSection` : reads the two passes back, `reads_applyPubdata` : it reads what was written;
* `entries_eq` : the two passes determine the entries;
* `logs_decodable` : equal bytes are of equal entries.
-/

namespace ZkOs

open Digits

/-- What is published of a log. The transaction number has 16 bits. -/
inductive LogEntry where
  | message (txNumber : BitVec 16) (sender : BitVec 160) (dataHash : Bytes32) (data : List UInt8)
  | l1Tx (txNumber : BitVec 16) (txHash : Bytes32) (success : Bool)
  deriving DecidableEq

def LogContent.entry (c : LogContent) : LogEntry :=
  match c.data with
  | .userMsg address data dataHash => .message (BitVec.ofNat 16 c.txNumber) address.low20 dataHash data
  | .l1TxLog txHash success _ => .l1Tx (BitVec.ofNat 16 c.txNumber) txHash success

/-! ## Reading -/

namespace Pubdata

def many {α : Type} (p : Pubdata α) : Nat → Pubdata (List α)
  | 0 => pure []
  | n + 1 => do
    let a ← p
    let as ← many p n
    pure (a :: as)

theorem reads_many {α β : Type} {p : Pubdata α} {write : β → List UInt8} {f : β → α} {xs : List β}
    (h : ∀ x ∈ xs, p.Reads (write x) (f x)) : (many p xs.length).Reads (xs.flatMap write) (xs.map f) := by
  induction xs with
  | nil => exact fun _ => rfl
  | cons x xs ih =>
    obtain ⟨hx, hxs⟩ := List.forall_mem_cons.mp h
    refine Decoder.reads_bind hx ?_
    exact reads_pure_bind (f x :: ·) (ih hxs)

/-- The 88 bytes of a log: number of the transaction, sender, key and value. -/
def log : Pubdata (BitVec 16 × BitVec 160 × Bytes32 × Bytes32) := do
  let _ ← bytes 2
  let txNumber ← number 2 16
  let sender ← number 20 160
  let key ← number 32 256
  let value ← number 32 256
  pure (txNumber, sender, key, value)

/-- The data of a message, with its length in front. -/
def message : Pubdata (List UInt8) := do
  let length ← number 4 32
  bytes length.toNat

def logSection : Pubdata (List (BitVec 16 × BitVec 160 × Bytes32 × Bytes32) × List (List UInt8)) := do
  let logsCount ← number 4 32
  let logs ← many log logsCount.toNat
  let messagesCount ← number 4 32
  let messages ← many message messagesCount.toNat
  pure (logs, messages)

def fields (l : L2ToL1Log) : BitVec 16 × BitVec 160 × Bytes32 × Bytes32 :=
  (l.txNumberInBlock, l.sender.low20, l.key, l.value)

theorem reads_log (l : L2ToL1Log) : log.Reads l.encode (fields l) := by
  unfold L2ToL1Log.encode
  simp only [List.append_assoc]
  refine Decoder.reads_bind (reads_bytes rfl) ?_
  refine Decoder.reads_bind (reads_number _ l.txNumberInBlock.isLt) ?_
  refine Decoder.reads_bind (reads_number _ l.sender.low20.isLt) ?_
  refine Decoder.reads_bind (reads_number _ l.key.isLt) ?_
  exact reads_pure_bind _ (reads_number _ l.value.isLt)

theorem reads_count {n : Nat} (h : n < 2 ^ 32) : (number 4 32).Reads (beBytes 4 n) (BitVec.ofNat 32 n) := by
  have hn : (BitVec.ofNat 32 n).toNat = n := by rw [BitVec.toNat_ofNat, Nat.mod_eq_of_lt h]
  have hreads := reads_number (BitVec.ofNat 32 n) (n := 4) (by rw [hn]; exact h)
  rwa [hn] at hreads

theorem reads_message {data : List UInt8} (h : data.length < 2 ^ 32) :
    message.Reads (beBytes 4 data.length ++ data) data := by
  refine Decoder.reads_bind (reads_count h) (reads_bytes ?_)
  rw [BitVec.toNat_ofNat, Nat.mod_eq_of_lt h]

end Pubdata

/-- 32 bits hold the number of logs and the lengths of the messages. -/
structure LogsStorage.Fits (l : LogsStorage) : Prop where
  logs : l.contents.length < 2 ^ 32
  messages : ∀ data ∈ l.contents.filterMap LogContent.message, data.length < 2 ^ 32

theorem reads_applyPubdata {l : LogsStorage} (h : l.Fits) :
    Pubdata.logSection.Reads l.applyPubdata
      (l.contents.map fun c => Pubdata.fields (.ofContent c), l.contents.filterMap LogContent.message) := by
  have hlogs : (Pubdata.many Pubdata.log l.contents.length).Reads
      (l.contents.flatMap fun c => (L2ToL1Log.ofContent c).encode)
      (l.contents.map fun c => Pubdata.fields (.ofContent c)) :=
    Pubdata.reads_many fun c _ => Pubdata.reads_log (.ofContent c)
  have hmessages := Pubdata.reads_many (f := id) fun data hdata => Pubdata.reads_message (h.messages data hdata)
  have hcount : (l.contents.filterMap LogContent.message).length < 2 ^ 32 :=
    Nat.lt_of_le_of_lt (List.length_filterMap_le ..) h.logs
  rw [List.map_id] at hmessages
  unfold LogsStorage.applyPubdata
  simp only [List.append_assoc]
  refine Decoder.reads_bind (Pubdata.reads_count h.logs) ?_
  rw [BitVec.toNat_ofNat, Nat.mod_eq_of_lt h.logs]
  refine Decoder.reads_bind hlogs (Decoder.reads_bind (Pubdata.reads_count hcount) ?_)
  rw [BitVec.toNat_ofNat, Nat.mod_eq_of_lt hcount]
  exact Pubdata.reads_pure_bind _ hmessages

/-! ## Entries -/

theorem entry_eq {c c' : LogContent} (h : Pubdata.fields (.ofContent c) = Pubdata.fields (.ofContent c'))
    (hmessage : c.message = c'.message) : c.entry = c'.entry := by
  rcases c with ⟨n, ⟨a, data, hash⟩ | ⟨hash, success, isPriority⟩⟩
  · rcases c' with ⟨n', ⟨a', data', hash'⟩ | ⟨hash', success', isPriority'⟩⟩
    · simp only [Pubdata.fields, L2ToL1Log.ofContent, Prod.mk.injEq, true_and] at h
      obtain ⟨hn, ha, hhash⟩ := h
      have haddress : a.low20 = a'.low20 := by
        have := congrArg (BitVec.setWidth 160) ha
        rwa [BitVec.setWidth_setWidth_of_le _ (by decide), BitVec.setWidth_setWidth_of_le _ (by decide),
          BitVec.setWidth_eq, BitVec.setWidth_eq] at this
      obtain rfl : data = data' := Option.some.inj hmessage
      simp only [LogContent.entry, hn, haddress, hhash]
    · cases hmessage
  · rcases c' with ⟨n', ⟨a', data', hash'⟩ | ⟨hash', success', isPriority'⟩⟩
    · cases hmessage
    · simp only [Pubdata.fields, L2ToL1Log.ofContent, Prod.mk.injEq, true_and] at h
      obtain ⟨hn, hhash, hvalue⟩ := h
      have hsuccess : success = success' := by
        cases success <;> cases success' <;> first | rfl | exact absurd hvalue (by decide)
      simp only [LogContent.entry, hn, hhash, hsuccess]

theorem message_isSome {c c' : LogContent} (h : Pubdata.fields (.ofContent c) = Pubdata.fields (.ofContent c')) :
    c.message.isSome = c'.message.isSome := by
  have hsender := congrArg (fun x => x.2.1) h
  rcases c with ⟨n, ⟨a, data, hash⟩ | ⟨hash, success, isPriority⟩⟩
  · rcases c' with ⟨n', ⟨a', data', hash'⟩ | ⟨hash', success', isPriority'⟩⟩
    · rfl
    · exact absurd hsender (show B160.low20 0x8008 ≠ B160.low20 0x8001 by decide)
  · rcases c' with ⟨n', ⟨a', data', hash'⟩ | ⟨hash', success', isPriority'⟩⟩
    · exact absurd hsender (show B160.low20 0x8001 ≠ B160.low20 0x8008 by decide)
    · rfl

/-- The two passes determine the entries: each log that is a message takes the next data. -/
theorem entries_eq {cs cs' : List LogContent}
    (h : cs.map (fun c => Pubdata.fields (.ofContent c)) = cs'.map fun c => Pubdata.fields (.ofContent c))
    (hmessages : cs.filterMap LogContent.message = cs'.filterMap LogContent.message) :
    cs.map LogContent.entry = cs'.map LogContent.entry := by
  induction cs generalizing cs' with
  | nil =>
    obtain rfl : cs' = [] := List.map_eq_nil_iff.mp h.symm
    rfl
  | cons c cs ih =>
    rcases cs' with _ | ⟨c', cs'⟩
    · cases h
    rw [List.map_cons, List.map_cons, List.cons.injEq] at h
    obtain ⟨hfields, hrest⟩ := h
    have hkind := message_isSome hfields
    rcases hm : c.message with _ | data
    · have hm' : c'.message = none := by
        rw [hm] at hkind
        exact Option.not_isSome_iff_eq_none.mp (Bool.eq_false_iff.mp hkind.symm)
      rw [List.filterMap_cons_none hm, List.filterMap_cons_none hm'] at hmessages
      rw [List.map_cons, List.map_cons, entry_eq hfields (hm.trans hm'.symm), ih hrest hmessages]
    · obtain ⟨data', hm'⟩ := Option.isSome_iff_exists.mp (hkind.symm.trans (by rw [hm]; rfl))
      rw [List.filterMap_cons_some hm, List.filterMap_cons_some hm', List.cons.injEq] at hmessages
      obtain ⟨rfl, hmessages⟩ := hmessages
      rw [List.map_cons, List.map_cons, entry_eq hfields (hm.trans hm'.symm), ih hrest hmessages]

/-- Two lists of logs that are published as the same bytes have the same entries in the same order, if 32 bits
hold the numbers of logs and the lengths of messages. -/
theorem logs_decodable (l l' : LogsStorage) (hl : l.Fits) (hl' : l'.Fits) (h : l.applyPubdata = l'.applyPubdata) :
    l.contents.length = l'.contents.length ∧ l.contents.map LogContent.entry = l'.contents.map LogContent.entry := by
  have hread := reads_applyPubdata hl []
  rw [h, reads_applyPubdata hl' []] at hread
  simp only [Except.ok.injEq, Prod.mk.injEq, and_true] at hread
  have hentries := entries_eq hread.1.symm hread.2.symm
  refine ⟨?_, hentries⟩
  rw [← List.length_map, hentries, List.length_map]

def l1TxLogOf (txNumber : Nat) : LogsStorage := ⟨[(⟨txNumber, .l1TxLog 7 true true⟩, 88)], 0⟩

theorem logs_decodable_l1TxLogOf : (l1TxLogOf 3).contents.map LogContent.entry = [.l1Tx 3 7 true] ∧
    (l1TxLogOf 3).contents.length = (l1TxLogOf 65539).contents.length := by
  have hfits : ∀ n, (l1TxLogOf n).Fits := fun _ => ⟨show 1 < 2 ^ 32 by decide, List.forall_mem_nil _⟩
  exact ⟨rfl, (logs_decodable (l1TxLogOf 3) (l1TxLogOf 65539) (hfits 3) (hfits 65539) rfl).1⟩

/-- Logs of transactions whose numbers differ by 65536 are published as the same bytes. -/
theorem tx_number_not_decodable : (l1TxLogOf 0).applyPubdata = (l1TxLogOf 65536).applyPubdata ∧
    (l1TxLogOf 0).contents.map LogContent.txNumber ≠ (l1TxLogOf 65536).contents.map LogContent.txNumber :=
  ⟨rfl, by decide⟩

end ZkOs
