import ZkOs.Lib.Decoder
import ZkOs.State.Io

/-!
# Compressed state diffs

The bytes that are published for a changed value and for changed account properties, and what can be read
back from them.

* `ValueDiffCompressionStrategy.optimalCompression`, `AccountProperties.diffCompression` : what is written;
* `Pubdata.valueDiff`, `Pubdata.accountDiff` : the documented formats, read back;
* `reads_optimalCompression` : a value diff can be read back;
* `account_diff_recoverable_iff` : account properties can be read back, except those of forced deployments.
-/

namespace ZkOs

open ZkOs.Action Digits

/-! ## Writing -/

namespace ValueDiffCompressionStrategy

/-- The last `length` of the 32 bytes of a word. -/
def lowBytes (x : U256) (length : Nat) : List UInt8 := (beBytes 32 x.toNat).drop (32 - length)

/-- The strategy in the low three bits, the length above them. -/
def metadataByte (length : Nat) (strategy : UInt8) : UInt8 := (UInt8.ofNat length <<< 3) ||| strategy

def compress (initialValue finalValue : U256) : ValueDiffCompressionStrategy → Option (List UInt8)
  | nothing => some (0 :: beBytes 32 finalValue.toNat)
  | add =>
    let result := finalValue - initialValue
    let length := byteLength result
    if finalValue < initialValue ∨ length = 32 then none
    else some (metadataByte length 1 :: lowBytes result length)
  | sub =>
    let result := initialValue - finalValue
    let length := byteLength result
    if initialValue < finalValue ∨ length = 32 then none
    else some (metadataByte length 2 :: lowBytes result length)
  | transform =>
    let length := byteLength finalValue
    if length = 32 then none else some (metadataByte length 3 :: lowBytes finalValue length)

/-- A strategy is taken if it is applicable and shorter. -/
def shorter (initialValue finalValue : U256) (optimal : ValueDiffCompressionStrategy × Nat)
    (strategy : ValueDiffCompressionStrategy) : ValueDiffCompressionStrategy × Nat :=
  match strategy.compressionLength initialValue finalValue with
  | some length => if length < optimal.2 then (strategy, length) else optimal
  | none => optimal

/-- The first of the shortest strategies, and its length. -/
def optimalStrategy (initialValue finalValue : U256) : ValueDiffCompressionStrategy × Nat :=
  [add, sub, transform].foldl (shorter initialValue finalValue) (nothing, 33)

/-- `optimal_compression_u256`; the source unwraps the result. -/
def optimalCompression (initialValue finalValue : U256) : Option (List UInt8) :=
  (optimalStrategy initialValue finalValue).1.compress initialValue finalValue

end ValueDiffCompressionStrategy

open ValueDiffCompressionStrategy

namespace AccountProperties

/-- Something except nonce and balance changed. -/
def fullDiff (initial final : AccountProperties) : Prop :=
  initial.versioningData ≠ final.versioningData ∨ initial.bytecodeHash ≠ final.bytecodeHash ∨
    initial.unpaddedCodeLen ≠ final.unpaddedCodeLen ∨ initial.artifactsLen ≠ final.artifactsLen ∨
    initial.observableBytecodeLen ≠ final.observableBytecodeLen ∨
    initial.observableBytecodeHash ≠ final.observableBytecodeHash

instance (initial final : AccountProperties) : Decidable (fullDiff initial final) :=
  inferInstanceAs (Decidable (_ ∨ _))

def nonceDiff (initial final : AccountProperties) : Option (List UInt8) :=
  optimalCompression (initial.nonce.setWidth 256) (final.nonce.setWidth 256)

def balanceDiff (initial final : AccountProperties) : Option (List UInt8) :=
  optimalCompression initial.balance final.balance

/-- The part of a full diff that describes the code. For a forced deployment it is the hash alone. -/
def codeDiff (env : Env) (final : AccountProperties) (notPublishBytecode : Bool) : IoM (List UInt8) :=
  if notPublishBytecode then pure (beBytes 32 final.bytecodeHash.toNat)
  else do
    let bytecode ← withInfiniteResources (getPreimage env final.bytecodeHash final.fullBytecodeLen)
    pure (beBytes 4 final.unpaddedCodeLen.toNat ++ beBytes 4 final.artifactsLen.toNat ++ bytecode)

def diffCompression (env : Env) (initial final : AccountProperties) (notPublishBytecode : Bool) :
    IoM (List UInt8) :=
  match nonceDiff initial final, balanceDiff initial final with
  | some nonce, some balance =>
    if fullDiff initial final then do
      let code ← codeDiff env final notPublishBytecode
      pure ((if notPublishBytecode then 0b00100100 else 0b00000100) ::
        (beBytes 8 final.versioningData.toNat ++ nonce ++ balance ++ code ++
          beBytes 4 final.observableBytecodeLen.toNat))
    else if initial.nonce = final.nonce ∧ initial.balance = final.balance then throw .defect
    else
      let metadata := (4 : UInt8) ||| (if initial.nonce ≠ final.nonce then (1 : UInt8) <<< 3 else 0) |||
        (if initial.balance ≠ final.balance then (2 : UInt8) <<< 3 else 0)
      pure (metadata :: ((if initial.nonce ≠ final.nonce then nonce else []) ++
        if initial.balance ≠ final.balance then balance else []))
  | _, _ => throw .defect

end AccountProperties

/-! ## Reading -/

abbrev Pubdata := Decoder UInt8 Unit

namespace Pubdata

def byte : Pubdata UInt8
  | [] => .error ()
  | b :: rest => .ok (b, rest)

def bytes (n : Nat) : Pubdata (List UInt8) := fun bs =>
  if bs.length < n then .error () else .ok (bs.take n, bs.drop n)

def number (n w : Nat) : Pubdata (BitVec w) := do pure (BitVec.ofNat w (beNat (← bytes n)))

/-- Four types: the final value, the value increased or decreased, the value without leading zeros. -/
def valueOfType (initial : U256) (length : Nat) : Nat → Pubdata U256
  | 0 => number 32 256
  | 1 => do pure (initial + (← number length 256))
  | 2 => do pure (initial - (← number length 256))
  | 3 => number length 256
  | _ => Decoder.fail ()

/-- The type in the low three bits of the metadata byte, the length above them. -/
def valueDiff (initial : U256) : Pubdata U256 := do
  let metadata ← byte
  valueOfType initial (metadata >>> 3).toNat (metadata &&& 7).toNat

def nonceDiff (initial : U64) : Pubdata U64 := do pure ((← valueDiff (initial.setWidth 256)).setWidth 64)

/-- The hash that describes code; an account that is not deployed has none. -/
def hashOfCode (hash : List UInt8 → Bytes32) (versioningData : U64) (code : List UInt8) : Bytes32 :=
  if versioningData >>> 56 = 0 then 0 else hash code

/-- Format 0: all fields and the bytecode. -/
def fullData (env : Env) (initial : AccountProperties) : Pubdata AccountProperties := do
  let versioningData ← number 8 64
  let nonce ← nonceDiff initial.nonce
  let balance ← valueDiff initial.balance
  let unpaddedCodeLen ← number 4 32
  let artifactsLen ← number 4 32
  let code ← bytes (unpaddedCodeLen.toNat + bytecodePaddingLen unpaddedCodeLen.toNat + artifactsLen.toNat)
  let observableBytecodeLen ← number 4 32
  pure
    { versioningData := versioningData
      nonce := nonce
      balance := balance
      bytecodeHash := hashOfCode env.blake versioningData code
      unpaddedCodeLen := unpaddedCodeLen
      artifactsLen := artifactsLen
      observableBytecodeHash := hashOfCode env.keccak versioningData (code.take observableBytecodeLen.toNat)
      observableBytecodeLen := observableBytecodeLen }

/-- Format 4: the bytecode is published elsewhere and found by its hash. -/
def forcedDeployment (env : Env) (published : Bytes32 → List UInt8) (initial : AccountProperties) :
    Pubdata AccountProperties := do
  let versioningData ← number 8 64
  let nonce ← nonceDiff initial.nonce
  let balance ← valueDiff initial.balance
  let bytecodeHash ← number 32 256
  let artifactsLen ← number 4 32
  let observableBytecodeLen ← number 4 32
  pure
    { versioningData := versioningData
      nonce := nonce
      balance := balance
      bytecodeHash := bytecodeHash
      unpaddedCodeLen := observableBytecodeLen
      artifactsLen := artifactsLen
      observableBytecodeHash := env.keccak ((published bytecodeHash).take observableBytecodeLen.toNat)
      observableBytecodeLen := observableBytecodeLen }

/-- The formats of account data. -/
def accountOfFormat (env : Env) (published : Bytes32 → List UInt8) (initial : AccountProperties) :
    Nat → Pubdata AccountProperties
  | 0 => fullData env initial
  | 1 => do pure { initial with nonce := ← nonceDiff initial.nonce }
  | 2 => do pure { initial with balance := ← valueDiff initial.balance }
  | 3 => do pure { initial with nonce := ← nonceDiff initial.nonce, balance := ← valueDiff initial.balance }
  | 4 => forcedDeployment env published initial
  | _ => Decoder.fail ()

/-- The type 4 in the low three bits of the metadata byte, the format above them. -/
def accountDiff (env : Env) (published : Bytes32 → List UInt8) (initial : AccountProperties) :
    Pubdata AccountProperties := do
  let metadata ← byte
  if metadata &&& 7 = 4 then accountOfFormat env published initial (metadata >>> 3).toNat else Decoder.fail ()

end Pubdata

/-! ## Values -/

section Values

theorem byteLength_le (x : U256) : byteLength x ≤ 32 := by
  unfold byteLength
  split
  · decide
  · rename_i hx
    have hlog : x.toNat.log2 < 256 :=
      (Nat.log2_lt fun h => hx (BitVec.eq_of_toNat_eq (h.trans rfl))).mpr x.isLt
    omega

theorem lt_pow_byteLength (x : U256) : x.toNat < 256 ^ byteLength x := by
  unfold byteLength
  split
  · rename_i hx
    rw [hx]
    decide
  · calc x.toNat < 2 ^ (x.toNat.log2 + 1) := Nat.lt_log2_self
      _ ≤ 2 ^ (8 * (x.toNat.log2 / 8 + 1)) := Nat.pow_le_pow_right (by decide) (by omega)
      _ = 256 ^ (x.toNat.log2 / 8 + 1) := pow_mul 2 8 _

theorem lowBytes_byteLength (x : U256) : lowBytes x (byteLength x) = beBytes (byteLength x) x.toNat := by
  have hsplit := beBytes_add (32 - byteLength x) (byteLength x) x.toNat
  rw [Nat.sub_add_cancel (byteLength_le x)] at hsplit
  rw [lowBytes, hsplit, List.drop_left' (length_beBytes _ _)]

theorem metadataByte_length : ∀ n < 32, ∀ strategy ∈ [1, 2, 3], (metadataByte n strategy >>> 3).toNat = n := by
  decide +kernel

theorem metadataByte_strategy : ∀ n < 32, ∀ strategy ∈ [1, 2, 3], metadataByte n strategy &&& 7 = strategy := by
  decide +kernel

namespace Pubdata

theorem reads_byte (b : UInt8) : byte.Reads [b] b := fun _ => rfl

theorem reads_bytes {bs : List UInt8} {n : Nat} (h : bs.length = n) : (bytes n).Reads bs bs := by
  intro rest
  unfold bytes
  rw [if_neg (by rw [List.length_append]; omega), List.take_left' h, List.drop_left' h]

theorem reads_pure_bind {α β : Type} {p : Pubdata α} {pre : List UInt8} {a : α} (f : α → β) (h : p.Reads pre a) :
    (do pure (f (← p)) : Pubdata β).Reads pre (f a) := by
  rw [← List.append_nil pre]
  exact Decoder.reads_bind h fun _ => rfl

theorem reads_number {n w : Nat} (x : BitVec w) (h : x.toNat < 256 ^ n) : (number n w).Reads (beBytes n x.toNat) x := by
  have hx : BitVec.ofNat w (beNat (beBytes n x.toNat)) = x := by
    rw [beNat_beBytes, Nat.mod_eq_of_lt h, BitVec.ofNat_toNat, BitVec.setWidth_eq]
  have hr := reads_pure_bind (fun bs => BitVec.ofNat w (beNat bs)) (reads_bytes (length_beBytes n x.toNat))
  rwa [hx] at hr

theorem reads_metadataByte {initial value d : U256} {strategy : UInt8} (hs : strategy ∈ ([1, 2, 3] : List UInt8))
    (hd : byteLength d ≠ 32)
    (h : (valueOfType initial (byteLength d) strategy.toNat).Reads (beBytes (byteLength d) d.toNat) value) :
    (valueDiff initial).Reads (metadataByte (byteLength d) strategy :: lowBytes d (byteLength d)) value := by
  have hlt : byteLength d < 32 := lt_of_le_of_ne (byteLength_le d) hd
  rw [lowBytes_byteLength, ← List.singleton_append]
  refine Decoder.reads_bind (reads_byte _) ?_
  rw [metadataByte_length _ hlt _ hs, metadataByte_strategy _ hlt _ hs]
  exact h

theorem reads_compress {initial final : U256} {st : ValueDiffCompressionStrategy} {out : List UInt8}
    (h : st.compress initial final = some out) : (valueDiff initial).Reads out final := by
  cases st with
  | nothing =>
    cases h
    rw [← List.singleton_append]
    exact Decoder.reads_bind (reads_byte _) (reads_number final final.isLt)
  | add =>
    obtain ⟨hc, hout⟩ := Option.ite_none_left_eq_some.mp h
    cases hout
    refine reads_metadataByte (by decide) (fun hd => hc (.inr hd)) ?_
    have hr := reads_pure_bind (initial + ·) (reads_number _ (lt_pow_byteLength (final - initial)))
    rwa [show initial + (final - initial) = final by rw [BitVec.add_comm, BitVec.sub_add_cancel]] at hr
  | sub =>
    obtain ⟨hc, hout⟩ := Option.ite_none_left_eq_some.mp h
    cases hout
    refine reads_metadataByte (by decide) (fun hd => hc (.inr hd)) ?_
    have hr := reads_pure_bind (initial - ·) (reads_number _ (lt_pow_byteLength (initial - final)))
    rwa [show initial - (initial - final) = final by bv_omega] at hr
  | transform =>
    obtain ⟨hc, hout⟩ := Option.ite_none_left_eq_some.mp h
    cases hout
    exact reads_metadataByte (by decide) hc (reads_number _ (lt_pow_byteLength final))

end Pubdata

theorem compress_isSome {initial final : U256} {st : ValueDiffCompressionStrategy}
    (h : (st.compressionLength initial final).isSome) : (st.compress initial final).isSome := by
  cases st with
  | nothing => rfl
  | add | sub | transform =>
    simp only [compressionLength] at h
    simp only [compress]
    split at h
    · cases h
    · rw [if_neg ‹_›]
      rfl

theorem optimalStrategy_isSome (initial final : U256) :
    ((optimalStrategy initial final).1.compressionLength initial final).isSome := by
  have step (l : List ValueDiffCompressionStrategy) (best : ValueDiffCompressionStrategy × Nat)
      (hbest : (best.1.compressionLength initial final).isSome) :
      ((l.foldl (shorter initial final) best).1.compressionLength initial final).isSome := by
    induction l generalizing best with
    | nil => exact hbest
    | cons st l ih =>
      refine ih _ ?_
      unfold shorter
      split
      · split
        · exact Option.isSome_of_eq_some ‹_›
        · exact hbest
      · exact hbest
  exact step _ _ rfl

theorem reads_optimalCompression (initial final : U256) :
    ∃ out, optimalCompression initial final = some out ∧ (Pubdata.valueDiff initial).Reads out final := by
  obtain ⟨out, h⟩ := Option.isSome_iff_exists.mp (compress_isSome (optimalStrategy_isSome initial final))
  exact ⟨out, h, Pubdata.reads_compress h⟩

end Values

/-! ## Accounts -/

/-- The hashes of the account are those of its code. -/
structure AccountProperties.DescribesCode (env : Env) (p : AccountProperties) (code : List UInt8) : Prop where
  length : code.length = p.fullBytecodeLen
  hash : p.bytecodeHash = Pubdata.hashOfCode env.blake p.versioningData code
  observable : p.observableBytecodeHash =
    Pubdata.hashOfCode env.keccak p.versioningData (code.take p.observableBytecodeLen.toNat)

namespace AccountProperties

variable {env : Env} {published : Bytes32 → List UInt8} {initial final : AccountProperties} {nonce balance : List UInt8}

theorem reads_nonceDiff (initial final : AccountProperties) :
    ∃ out, nonceDiff initial final = some out ∧ (Pubdata.nonceDiff initial.nonce).Reads out final.nonce := by
  obtain ⟨out, h, hr⟩ := reads_optimalCompression (initial.nonce.setWidth 256) (final.nonce.setWidth 256)
  have hnonce := Pubdata.reads_pure_bind (BitVec.setWidth 64) hr
  rw [BitVec.setWidth_setWidth_of_le _ (by decide), BitVec.setWidth_eq] at hnonce
  exact ⟨out, h, hnonce⟩

theorem reads_accountDiff {metadata : UInt8} {out : List UInt8} (hm : metadata &&& 7 = 4)
    (h : (Pubdata.accountOfFormat env published initial (metadata >>> 3).toNat).Reads out final) :
    (Pubdata.accountDiff env published initial).Reads (metadata :: out) final := by
  rw [← List.singleton_append]
  refine Decoder.reads_bind (Pubdata.reads_byte metadata) ?_
  rwa [if_pos hm]

theorem reads_fullData {code : List UInt8} (hcode : final.DescribesCode env code)
    (hnonce : (Pubdata.nonceDiff initial.nonce).Reads nonce final.nonce)
    (hbalance : (Pubdata.valueDiff initial.balance).Reads balance final.balance) :
    (Pubdata.fullData env initial).Reads (beBytes 8 final.versioningData.toNat ++ nonce ++ balance ++
      (beBytes 4 final.unpaddedCodeLen.toNat ++ beBytes 4 final.artifactsLen.toNat ++ code) ++
        beBytes 4 final.observableBytecodeLen.toNat) final := by
  simp only [List.append_assoc]
  refine Decoder.reads_bind (Pubdata.reads_number _ final.versioningData.isLt) ?_
  refine Decoder.reads_bind hnonce (Decoder.reads_bind hbalance ?_)
  refine Decoder.reads_bind (Pubdata.reads_number _ final.unpaddedCodeLen.isLt) ?_
  refine Decoder.reads_bind (Pubdata.reads_number _ final.artifactsLen.isLt) ?_
  refine Decoder.reads_bind (Pubdata.reads_bytes hcode.length) ?_
  rw [← List.append_nil (beBytes 4 final.observableBytecodeLen.toNat)]
  refine Decoder.reads_bind (Pubdata.reads_number _ final.observableBytecodeLen.isLt) fun rest => ?_
  rw [← hcode.hash, ← hcode.observable]
  rfl

/-- Format 4 as it is written lacks the length of the artifacts, so the reader comes to the end too early. -/
theorem forcedDeployment_fails {versioningData : U64} {bytecodeHash : Bytes32} {observableBytecodeLen : BitVec 32}
    {nonce' : U64} {balance' : U256} (hnonce : (Pubdata.nonceDiff initial.nonce).Reads nonce nonce')
    (hbalance : (Pubdata.valueDiff initial.balance).Reads balance balance') :
    Pubdata.forcedDeployment env published initial (beBytes 8 versioningData.toNat ++ nonce ++ balance ++
      beBytes 32 bytecodeHash.toNat ++ beBytes 4 observableBytecodeLen.toNat) = .error () := by
  simp only [List.append_assoc]
  unfold Pubdata.forcedDeployment
  rw [(Pubdata.reads_number _ versioningData.isLt).bind_apply, hnonce.bind_apply, hbalance.bind_apply,
    (Pubdata.reads_number _ bytecodeHash.isLt).bind_apply,
    ← List.append_nil (beBytes 4 observableBytecodeLen.toNat),
    (Pubdata.reads_number _ observableBytecodeLen.isLt).bind_apply]
  rfl

theorem reads_partialDiff (hfull : ¬fullDiff initial final)
    (hne : ¬(initial.nonce = final.nonce ∧ initial.balance = final.balance))
    (hnonce : (Pubdata.nonceDiff initial.nonce).Reads nonce final.nonce)
    (hbalance : (Pubdata.valueDiff initial.balance).Reads balance final.balance) :
    (Pubdata.accountDiff env published initial).Reads
      (((4 : UInt8) ||| (if initial.nonce ≠ final.nonce then (1 : UInt8) <<< 3 else 0) |||
        (if initial.balance ≠ final.balance then (2 : UInt8) <<< 3 else 0)) ::
          ((if initial.nonce ≠ final.nonce then nonce else []) ++ if initial.balance ≠ final.balance then balance else []))
      final := by
  have hfinal : final = { initial with nonce := final.nonce, balance := final.balance } := by
    simp only [fullDiff, not_or, not_not] at hfull
    obtain ⟨h₁, h₂, h₃, h₄, h₅, h₆⟩ := hfull
    rw [h₁, h₂, h₃, h₄, h₅, h₆]
  by_cases hn : initial.nonce = final.nonce <;> by_cases hb : initial.balance = final.balance
  · exact absurd ⟨hn, hb⟩ hne
  · simp only [hn, hb, ne_eq, not_true_eq_false, not_false_eq_true, if_true, if_false, List.nil_append]
    refine reads_accountDiff (by decide) ?_
    rw [← hn] at hfinal
    have hr := Pubdata.reads_pure_bind (fun b => { initial with balance := b }) hbalance
    rwa [← hfinal] at hr
  · simp only [hn, hb, ne_eq, not_true_eq_false, not_false_eq_true, if_true, if_false, List.append_nil]
    refine reads_accountDiff (by decide) ?_
    rw [← hb] at hfinal
    have hr := Pubdata.reads_pure_bind (fun n => { initial with nonce := n }) hnonce
    rwa [← hfinal] at hr
  · simp only [hn, hb, ne_eq, not_false_eq_true, if_true]
    refine reads_accountDiff (by decide) (Decoder.reads_bind hnonce ?_)
    have hr := Pubdata.reads_pure_bind (fun b => { initial with nonce := final.nonce, balance := b }) hbalance
    rwa [← hfinal] at hr

/-- The bytes that are written for changed account properties can be read back as documented exactly if they are not
those of a forced deployment. -/
theorem account_diff_recoverable_iff (env : Env) (published : Bytes32 → List UInt8)
    {initial final : AccountProperties} {notPublishBytecode : Bool} {s s' : Sys} {out : List UInt8}
    (h : diffCompression env initial final notPublishBytecode s = (.ok out, s'))
    (hcode : ∀ code u, withInfiniteResources (getPreimage env final.bytecodeHash final.fullBytecodeLen) s = (.ok code, u) →
      final.DescribesCode env code) :
    (Pubdata.accountDiff env published initial).Reads out final ↔
      ¬(fullDiff initial final ∧ notPublishBytecode = true) := by
  obtain ⟨nonce, hn, hnonce⟩ := reads_nonceDiff initial final
  obtain ⟨balance, hb, hbalance⟩ := reads_optimalCompression initial.balance final.balance
  simp only [diffCompression, hn, show balanceDiff initial final = some balance from hb] at h
  split at h
  · rename_i hfull
    obtain ⟨code, u, hdiff, hout⟩ := bind_ok.mp h
    cases hout
    cases notPublishBytecode with
    | true =>
      cases hdiff
      refine iff_of_false (fun hr => ?_) (fun hc => hc ⟨hfull, rfl⟩)
      have hfails := (hr []).symm.trans (show _ = Except.error () from ?_)
      · cases hfails
      · rw [List.append_nil]
        exact forcedDeployment_fails hnonce hbalance
    | false =>
      refine iff_of_true ?_ fun hc => Bool.false_ne_true hc.2
      obtain ⟨bytecode, v, hpreimage, hpure⟩ := bind_ok.mp hdiff
      cases hpure
      exact reads_accountDiff (by decide) (reads_fullData (hcode _ _ hpreimage) hnonce hbalance)
  · rename_i hfull
    split at h
    · cases h
    · rename_i hne
      cases h
      exact iff_of_true (reads_partialDiff hfull hne hnonce hbalance) fun hc => hfull hc.1

end AccountProperties

/-- A chain on which nothing is stored. -/
def blankChain : Env where
  slot _ _ _ := (0, true)
  preimage _ _ := [0x00, 0, 0, 0, 0, 0, 0, 0, 0, 0, 0, 0, 0, 0, 0, 0]
  blake bytes := BitVec.ofNat 256 (bytes.length + 1)
  keccak bytes := BitVec.ofNat 256 (bytes.length + 2)
  ecrecover _ _ _ _ := none
  proofEnv := true

def stopAccount (artifactsLen : BitVec 32) : AccountProperties where
  versioningData := deployedVersioning 0
  nonce := 1
  balance := 1000
  bytecodeHash := 17
  unpaddedCodeLen := 1
  artifactsLen := artifactsLen
  observableBytecodeHash := 3
  observableBytecodeLen := 1

def stopAccountDiff (artifactsLen : BitVec 32) (notPublishBytecode : Bool) : Except Err (List UInt8) × Sys :=
  AccountProperties.diffCompression blankChain .trivial (stopAccount artifactsLen) notPublishBytecode ⟨.new, .empty⟩

/-- Two accounts with different lengths of the artifacts are published as the same bytes, which the reader of the
documented format rejects. -/
theorem forced_deployment_not_recoverable : ∃ out, (stopAccountDiff 8 true).1 = .ok out ∧
    (stopAccountDiff 16 true).1 = .ok out ∧
      Pubdata.accountDiff blankChain (fun _ => [0x00]) .trivial out = .error () := by
  exact ⟨_, rfl, rfl, rfl⟩

theorem account_diff_recoverable_iff_stopAccount : ∃ out s', stopAccountDiff 8 false = (.ok out, s') ∧
    ((Pubdata.accountDiff blankChain (fun _ => []) .trivial).Reads out (stopAccount 8) ↔
      ¬(AccountProperties.fullDiff .trivial (stopAccount 8) ∧ false = true)) := by
  obtain ⟨out, s', hrun, -⟩ := exists_ok_of_any (x := stopAccountDiff 8 false) (f := fun _ _ => true) rfl
  refine ⟨out, s', hrun, AccountProperties.account_diff_recoverable_iff blankChain _ hrun fun code u hcode => ?_⟩
  cases hcode
  exact ⟨rfl, rfl, rfl⟩

end ZkOs
