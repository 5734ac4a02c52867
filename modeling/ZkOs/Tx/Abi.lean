import ZkOs.Lib.Digits

/-!
# ABI encoded transactions

Model of `abi_encoded/mod.rs` and `abi_encoded/u256be_ptr.rs`: 19 words, five of them offsets of a
tightly packed dynamic part.

* `Parse` : functions on a `Parser`, that is the unread bytes and their offset;
* `AbiEncodedTransaction.tryFromBuffer` : the parser and `validate_structure`;
* `Reads` : what a function reads at an offset, closed under composition;
* `tryFromBuffer_encode` : the encoding of every transaction that passes `validate_structure` is
  accepted.
-/

namespace ZkOs.Tx.Abi

open Digits

/-! ## The parser -/

/-- The bytes that are left, and the offset of the first of them. -/
structure Parser where
  slice : List UInt8
  offset : Nat

abbrev Parse := StateT Parser Option

def ensure (c : Prop) [Decidable c] : Parse Unit := fun p => if c then some ((), p) else none

/-- `U256BEPtr::try_from_slice`, advancing past the word. -/
def parseWord : Parse (List UInt8) := fun p =>
  if p.slice.length < 32 then none else some (p.slice.take 32, ⟨p.slice.drop 32, p.offset + 32⟩)

/-- A word whose bytes before the last `k` are zero. -/
def validate (k : Nat) (encoding : List UInt8) : Option Nat :=
  if (encoding.take (32 - k)).all (· = 0) then some (beNat (encoding.drop (32 - k))) else none

def validateU8 : List UInt8 → Option Nat := validate 1
def validateU32 : List UInt8 → Option Nat := validate 4
def validateU64 : List UInt8 → Option Nat := validate 8
def validateAddress : List UInt8 → Option Nat := validate 20

/-- A word that is validated and read as a number of `n` bits. -/
def parseWith (n : Nat) (v : List UInt8 → Option Nat) : Parse (BitVec n) := fun p => do
  let (word, p) ← parseWord p
  let value ← v word
  some (BitVec.ofNat n value, p)

def parseU8 : Parse (BitVec 8) := parseWith 8 validateU8
def parseU32 : Parse (BitVec 32) := parseWith 32 validateU32
def parseU64 : Parse (BitVec 64) := parseWith 64 validateU64
def parseAddress : Parse (BitVec 160) := parseWith 160 validateAddress
def parseU256 : Parse (BitVec 256) := parseWith 256 fun word => some (beNat word)

/-- The length of the unread bytes is compared as `u32`. -/
def takeBytes (n : Nat) : Parse (List UInt8) := fun p =>
  if p.slice.length % 2 ^ 32 < n then none else some (p.slice.take n, ⟨p.slice.drop n, p.offset + n⟩)

/-- A length and the bytes, padded with zeros to whole words. -/
def parseBytes : Parse (List UInt8) := do
  let length ← parseU32
  let paddedLen := (length.toNat + 31) / 32 * 32
  ensure (paddedLen < 2 ^ 32)
  let bytes ← takeBytes paddedLen
  ensure ((bytes.drop length.toNat).all (· = 0))
  pure (bytes.take length.toNat)

def parseBytes32Vector : Parse (List UInt8) := do
  let numElements ← parseU32
  ensure (numElements.toNat * 32 < 2 ^ 32)
  takeBytes (numElements.toNat * 32)

/-- An offset of the static part points to where the parser is. -/
def expectOffset (o : BitVec 32) : Parse Unit := fun p => if o.toNat = p.offset % 2 ^ 32 then some ((), p) else none

/-! ## Transactions -/

structure AbiEncodedTransaction where
  txType : BitVec 8
  fromAddress : BitVec 160
  toAddress : BitVec 160
  gasLimit : BitVec 64
  gasPerPubdataLimit : BitVec 32
  maxFeePerGas : BitVec 256
  maxPriorityFeePerGas : BitVec 256
  paymaster : BitVec 160
  nonce : BitVec 256
  value : BitVec 256
  reserved0 : BitVec 256
  reserved1 : BitVec 256
  reserved2 : BitVec 256
  reserved3 : BitVec 256
  data : List UInt8
  signature : List UInt8
  factoryDeps : List UInt8
  paymasterInput : List UInt8
  reservedDynamic : List UInt8
  deriving DecidableEq

namespace AbiEncodedTransaction

def upgradeTxType : BitVec 8 := 0x7e
def l1L2TxType : BitVec 8 := 0x7f

def dynamicPartExpectedOffset : Nat := 19 * 32

/-- The fields in the order of the encoding, with the checks of the offsets. -/
def parse : Parse AbiEncodedTransaction := do
  let txType ← parseU8
  let fromAddress ← parseAddress
  let toAddress ← parseAddress
  let gasLimit ← parseU64
  let gasPerPubdataLimit ← parseU32
  let maxFeePerGas ← parseU256
  let maxPriorityFeePerGas ← parseU256
  let paymaster ← parseAddress
  let nonce ← parseU256
  let value ← parseU256
  let reserved0 ← parseU256
  let reserved1 ← parseU256
  let reserved2 ← parseU256
  let reserved3 ← parseU256
  let dataOffset ← parseU32
  let signatureOffset ← parseU32
  let factoryDepsOffset ← parseU32
  let paymasterInputOffset ← parseU32
  let reservedDynamicOffset ← parseU32
  ensure (dataOffset.toNat = dynamicPartExpectedOffset)
  expectOffset dataOffset
  let data ← parseBytes
  expectOffset signatureOffset
  let signature ← parseBytes
  expectOffset factoryDepsOffset
  let factoryDeps ← parseBytes32Vector
  expectOffset paymasterInputOffset
  let paymasterInput ← parseBytes
  expectOffset reservedDynamicOffset
  let reservedDynamic ← parseBytes
  pure
    { txType, fromAddress, toAddress, gasLimit, gasPerPubdataLimit, maxFeePerGas, maxPriorityFeePerGas, paymaster
      nonce, value, reserved0, reserved1, reserved2, reserved3, data, signature, factoryDeps, paymasterInput
      reservedDynamic }

/-- `validate_structure`. Only two types pass, so the checks for other types are never made. Nothing is
asked of `reserved[0]` and `reserved[1]`. -/
def validateStructure (tx : AbiEncodedTransaction) : Bool :=
  (tx.txType = upgradeTxType || tx.txType = l1L2TxType) && tx.paymaster = 0 && tx.reserved2 = 0 && tx.reserved3 = 0 &&
    tx.signature.isEmpty && tx.paymasterInput.isEmpty && tx.reservedDynamic.isEmpty

def tryFromBuffer (buffer : List UInt8) : Option AbiEncodedTransaction := do
  let (tx, p) ← parse ⟨buffer, 0⟩
  if p.slice.isEmpty && tx.validateStructure then some tx else none

end AbiEncodedTransaction

/-! ## What functions read -/

section Reads

variable {α β : Type}

/-- At offset `o` the function reads `pre` and returns `a`, if the number of bytes that follow meets `P`. -/
def Reads (m : Parse α) (o : Nat) (pre : List UInt8) (a : α) (P : Nat → Prop) : Prop :=
  ∀ rest, P rest.length → m ⟨pre ++ rest, o⟩ = some (a, ⟨rest, o + pre.length⟩)

/-- A part of `l` bytes with `n` bytes after it passes the checks of its length, which are made in `u32`. -/
def Fits (l n : Nat) : Prop := l < 2 ^ 32 ∧ l ≤ (l + n) % 2 ^ 32

theorem Fits.of_lt {l n : Nat} (h : l + n < 2 ^ 32) : Fits l n := by
  refine ⟨by omega, ?_⟩
  rw [Nat.mod_eq_of_lt h]
  omega

theorem reads_pure (o : Nat) (a : α) : Reads (pure a) o [] a fun _ => True := fun _ _ => rfl

section Bind

variable {m : Parse α} {f : α → Parse β} {o : Nat} {pre pre' : List UInt8} {a : α} {b : β} {P P' : Nat → Prop}

theorem Reads.mono (hm : Reads m o pre a P) (h : ∀ n, P' n → P n) : Reads m o pre a P' :=
  fun rest hrest => hm rest (h _ hrest)

theorem Reads.bind (hm : Reads m o pre a P) (hf : Reads (f a) (o + pre.length) pre' b P') :
    Reads (m >>= f) o (pre ++ pre') b fun n => P (pre'.length + n) ∧ P' n := by
  intro rest h
  rw [List.append_assoc, List.length_append, ← Nat.add_assoc]
  show (m ⟨pre ++ (pre' ++ rest), o⟩).bind (fun x => f x.1 x.2) = _
  rw [hm (pre' ++ rest) (by rw [List.length_append]; exact h.1)]
  exact hf rest h.2

theorem Reads.next (hm : Reads m o pre a fun _ => True) (hf : Reads (f a) (o + pre.length) pre' b P) :
    Reads (m >>= f) o (pre ++ pre') b P :=
  (hm.bind hf).mono fun _ h => ⟨trivial, h⟩

theorem Reads.of_nil (hm : Reads m o [] a fun _ => True) (hf : Reads (f a) o pre b P) : Reads (m >>= f) o pre b P :=
  hm.next hf

end Bind

theorem reads_ensure {c : Prop} [Decidable c] (o : Nat) (hc : c) : Reads (ensure c) o [] () fun _ => True :=
  fun _ _ => if_pos hc

theorem reads_expectOffset (o : Nat) : Reads (expectOffset (BitVec.ofNat 32 o)) o [] () fun _ => True :=
  fun _ _ => if_pos (BitVec.toNat_ofNat o 32)

theorem reads_word (o : Nat) (v : Nat) : Reads parseWord o (beBytes 32 v) (beBytes 32 v) fun _ => True := by
  intro rest _
  rw [parseWord, if_neg (by simp), List.take_left' (length_beBytes 32 v), List.drop_left' (length_beBytes 32 v),
    length_beBytes]

theorem validate_beBytes {k v : Nat} (hk : k ≤ 32) (hv : v < 256 ^ k) : validate k (beBytes 32 v) = some v := by
  have hsplit : beBytes 32 v = List.replicate (32 - k) 0 ++ beBytes k v := by
    conv_lhs => rw [← Nat.sub_add_cancel hk, beBytes_add, Nat.div_eq_of_lt hv, beBytes_zero]
  have hlen : (List.replicate (32 - k) (0 : UInt8)).length = 32 - k := List.length_replicate
  rw [validate, hsplit, List.take_left' hlen, List.drop_left' hlen, if_pos, beNat_beBytes, Nat.mod_eq_of_lt hv]
  rw [List.all_replicate]
  simp

theorem reads_with {n : Nat} {v : List UInt8 → Option Nat} (o : Nat) (x : BitVec n)
    (hv : v (beBytes 32 x.toNat) = some x.toNat) : Reads (parseWith n v) o (beBytes 32 x.toNat) x fun _ => True := by
  intro rest h
  rw [parseWith, reads_word o x.toNat rest h]
  show ((v (beBytes 32 x.toNat)).bind fun value => some (BitVec.ofNat n value, _)) = _
  rw [hv, Option.bind_some, BitVec.ofNat_toNat, BitVec.setWidth_eq]

theorem reads_u8 (o : Nat) (x : BitVec 8) : Reads parseU8 o (beBytes 32 x.toNat) x fun _ => True :=
  reads_with o x (validate_beBytes (by decide) x.isLt)

theorem reads_u32 (o : Nat) (x : BitVec 32) : Reads parseU32 o (beBytes 32 x.toNat) x fun _ => True :=
  reads_with o x (validate_beBytes (by decide) x.isLt)

theorem reads_u64 (o : Nat) (x : BitVec 64) : Reads parseU64 o (beBytes 32 x.toNat) x fun _ => True :=
  reads_with o x (validate_beBytes (by decide) x.isLt)

theorem reads_address (o : Nat) (x : BitVec 160) : Reads parseAddress o (beBytes 32 x.toNat) x fun _ => True :=
  reads_with o x (validate_beBytes (by decide) x.isLt)

theorem reads_u256 (o : Nat) (x : BitVec 256) : Reads parseU256 o (beBytes 32 x.toNat) x fun _ => True := by
  refine reads_with o x (congrArg some ?_)
  rw [beNat_beBytes]
  exact Nat.mod_eq_of_lt x.isLt

theorem reads_takeBytes (o : Nat) (bytes : List UInt8) :
    Reads (takeBytes bytes.length) o bytes bytes (Fits bytes.length) := by
  intro rest h
  rw [takeBytes, List.length_append, if_neg (Nat.not_lt.mpr h.2), List.take_left' rfl, List.drop_left' rfl]

/-! ## Encodings -/

/-- Bytes with zeros up to a whole number of words. -/
def padded (bytes : List UInt8) : List UInt8 :=
  bytes ++ List.replicate ((bytes.length + 31) / 32 * 32 - bytes.length) 0

def encodeBytes (bytes : List UInt8) : List UInt8 := beBytes 32 bytes.length ++ padded bytes

def encodeBytes32Vector (words : List UInt8) : List UInt8 := beBytes 32 (words.length / 32) ++ words

theorem length_padded (bytes : List UInt8) : (padded bytes).length = (bytes.length + 31) / 32 * 32 := by
  rw [padded, List.length_append, List.length_replicate]
  omega

theorem length_encodeBytes (bytes : List UInt8) : (encodeBytes bytes).length = 32 + (padded bytes).length := by
  rw [encodeBytes, List.length_append, length_beBytes]

theorem length_encodeBytes32Vector (words : List UInt8) : (encodeBytes32Vector words).length = 32 + words.length := by
  rw [encodeBytes32Vector, List.length_append, length_beBytes]

theorem reads_offset (o n : Nat) : Reads parseU32 o (beBytes 32 (n % 2 ^ 32)) (BitVec.ofNat 32 n) fun _ => True := by
  have h := reads_u32 o (BitVec.ofNat 32 n)
  rwa [BitVec.toNat_ofNat] at h

theorem reads_length {o n : Nat} (hn : n < 2 ^ 32) :
    Reads parseU32 o (beBytes 32 n) (BitVec.ofNat 32 n) fun _ => True := by
  have h := reads_offset o n
  rwa [Nat.mod_eq_of_lt hn] at h

theorem reads_bytes (o : Nat) (bytes : List UInt8) :
    Reads parseBytes o (encodeBytes bytes) bytes (Fits (padded bytes).length) := by
  intro rest hfits
  have hlen := length_padded bytes
  have hlt := hfits.1
  have hn : bytes.length < 2 ^ 32 := by omega
  have hzeros : ((padded bytes).drop bytes.length).all (· = 0) = true := by
    rw [padded, List.drop_left' rfl, List.all_replicate]
    simp
  have htake : (padded bytes).take bytes.length = bytes := List.take_left' rfl
  have hread : Reads parseBytes o (encodeBytes bytes) bytes
      fun n => Fits (padded bytes).length ((List.length ([] : List UInt8)) + n) ∧ True := by
    refine .next (reads_length hn) ?_
    rw [BitVec.toNat_ofNat, Nat.mod_eq_of_lt hn, ← hlen]
    refine .of_nil (reads_ensure _ hlt) ?_
    have hread := (reads_takeBytes (o + (beBytes 32 bytes.length).length) (padded bytes)).bind
      (f := fun bs => ensure ((bs.drop bytes.length).all (· = 0)) >>= fun _ => pure (bs.take bytes.length))
      (.of_nil (reads_ensure _ hzeros) (reads_pure _ _))
    rwa [htake, List.append_nil] at hread
  exact hread rest ⟨by rwa [List.length_nil, Nat.zero_add], trivial⟩

theorem reads_bytes32Vector (o : Nat) {words : List UInt8} (hdvd : 32 ∣ words.length) :
    Reads parseBytes32Vector o (encodeBytes32Vector words) words (Fits words.length) := by
  intro rest hfits
  have hlt := hfits.1
  have hread : Reads parseBytes32Vector o (encodeBytes32Vector words) words (Fits words.length) := by
    refine .next (reads_length (by omega)) ?_
    rw [BitVec.toNat_ofNat, Nat.mod_eq_of_lt (by omega), Nat.div_mul_cancel hdvd]
    exact .of_nil (reads_ensure _ hlt) (reads_takeBytes _ words)
  exact hread rest hfits

end Reads

namespace AbiEncodedTransaction

variable (tx : AbiEncodedTransaction)

/-- Offsets of the parts of the dynamic part. -/
def signatureOffset : Nat := dynamicPartExpectedOffset + (encodeBytes tx.data).length
def factoryDepsOffset : Nat := tx.signatureOffset + (encodeBytes tx.signature).length
def paymasterInputOffset : Nat := tx.factoryDepsOffset + (encodeBytes32Vector tx.factoryDeps).length
def reservedDynamicOffset : Nat := tx.paymasterInputOffset + (encodeBytes tx.paymasterInput).length

def words : List Nat :=
  [tx.txType.toNat, tx.fromAddress.toNat, tx.toAddress.toNat, tx.gasLimit.toNat, tx.gasPerPubdataLimit.toNat,
    tx.maxFeePerGas.toNat, tx.maxPriorityFeePerGas.toNat, tx.paymaster.toNat, tx.nonce.toNat, tx.value.toNat,
    tx.reserved0.toNat, tx.reserved1.toNat, tx.reserved2.toNat, tx.reserved3.toNat,
    dynamicPartExpectedOffset, tx.signatureOffset, tx.factoryDepsOffset, tx.paymasterInputOffset,
    tx.reservedDynamicOffset]

/-- The ABI encoding of the fields, tightly packed. -/
def encode : List UInt8 :=
  tx.words.flatMap (beBytes 32) ++ (encodeBytes tx.data ++ (encodeBytes tx.signature ++
    (encodeBytes32Vector tx.factoryDeps ++ (encodeBytes tx.paymasterInput ++ encodeBytes tx.reservedDynamic))))

theorem length_encode : tx.encode.length = tx.reservedDynamicOffset + (encodeBytes tx.reservedDynamic).length := by
  have hwords : tx.words.length * 32 = dynamicPartExpectedOffset := rfl
  rw [encode, List.length_append, length_flatMap_beBytes, hwords]
  simp only [List.length_append, reservedDynamicOffset, paymasterInputOffset, factoryDepsOffset, signatureOffset]
  omega

/-- The static part with the offsets as the parser compares them, in `u32`. -/
def wrappedWords : List Nat :=
  [tx.txType.toNat, tx.fromAddress.toNat, tx.toAddress.toNat, tx.gasLimit.toNat, tx.gasPerPubdataLimit.toNat,
    tx.maxFeePerGas.toNat, tx.maxPriorityFeePerGas.toNat, tx.paymaster.toNat, tx.nonce.toNat, tx.value.toNat,
    tx.reserved0.toNat, tx.reserved1.toNat, tx.reserved2.toNat, tx.reserved3.toNat,
    dynamicPartExpectedOffset, tx.signatureOffset % 2 ^ 32, tx.factoryDepsOffset % 2 ^ 32,
    tx.paymasterInputOffset % 2 ^ 32, tx.reservedDynamicOffset % 2 ^ 32]

/-- What follows the parts of the dynamic part. -/
def afterPaymasterInput : List UInt8 := encodeBytes tx.reservedDynamic
def afterFactoryDeps : List UInt8 := encodeBytes tx.paymasterInput ++ tx.afterPaymasterInput
def afterSignature : List UInt8 := encodeBytes32Vector tx.factoryDeps ++ tx.afterFactoryDeps
def afterData : List UInt8 := encodeBytes tx.signature ++ tx.afterSignature

/-- The encoding with its offsets in `u32`. -/
def wrapped : List UInt8 :=
  tx.wrappedWords.flatMap (beBytes 32) ++ (encodeBytes tx.data ++ tx.afterData)

/-- The lengths of the dynamic part pass their checks. -/
structure Fitting : Prop where
  data : Fits (padded tx.data).length tx.afterData.length
  signature : Fits (padded tx.signature).length tx.afterSignature.length
  factoryDeps : Fits tx.factoryDeps.length tx.afterFactoryDeps.length
  paymasterInput : Fits (padded tx.paymasterInput).length tx.afterPaymasterInput.length
  reservedDynamic : Fits (padded tx.reservedDynamic).length 0

theorem length_afterData : tx.signatureOffset + tx.afterData.length = tx.encode.length := by
  rw [length_encode]
  simp only [afterData, afterSignature, afterFactoryDeps, afterPaymasterInput, List.length_append, reservedDynamicOffset,
    paymasterInputOffset, factoryDepsOffset]
  omega

variable {tx}

theorem reads_parse (hdvd : 32 ∣ tx.factoryDeps.length) :
    Reads parse 0 tx.wrapped tx fun n => n = 0 ∧ tx.Fitting := by
  have hread : Reads parse 0 tx.wrapped tx fun n =>
      Fits (padded tx.data).length (tx.afterData.length + n) ∧
      Fits (padded tx.signature).length (tx.afterSignature.length + n) ∧
      Fits tx.factoryDeps.length (tx.afterFactoryDeps.length + n) ∧
      Fits (padded tx.paymasterInput).length (tx.afterPaymasterInput.length + n) ∧
      Fits (padded tx.reservedDynamic).length (0 + n) ∧ True := by
    simp only [wrapped, wrappedWords, List.flatMap_cons, List.flatMap_nil, List.append_assoc, List.append_nil]
    refine .next (reads_u8 _ _) (.next (reads_address _ _) (.next (reads_address _ _) (.next (reads_u64 _ _)
      (.next (reads_u32 _ _) (.next (reads_u256 _ _) (.next (reads_u256 _ _) (.next (reads_address _ _) ?_)))))))
    refine .next (reads_u256 _ _) (.next (reads_u256 _ _) (.next (reads_u256 _ _) (.next (reads_u256 _ _)
      (.next (reads_u256 _ _) (.next (reads_u256 _ _) ?_)))))
    refine .next (reads_length (by decide)) (.next (reads_offset _ _) (.next (reads_offset _ _)
      (.next (reads_offset _ _) (.next (reads_offset _ _) ?_))))
    simp only [length_beBytes]
    refine .of_nil (reads_ensure _ rfl) (.of_nil (reads_expectOffset _) (.bind (reads_bytes _ _) ?_))
    refine .of_nil (reads_expectOffset _) (.bind (reads_bytes _ _) ?_)
    refine .of_nil (reads_expectOffset _) (.bind (reads_bytes32Vector _ hdvd) ?_)
    refine .of_nil (reads_expectOffset _) (.bind (reads_bytes _ _) ?_)
    refine .of_nil (reads_expectOffset _) ?_
    have hlast : Reads (parseBytes >>= fun reservedDynamic => pure { tx with reservedDynamic }) tx.reservedDynamicOffset
        (encodeBytes tx.reservedDynamic ++ []) tx fun n => Fits (padded tx.reservedDynamic).length (0 + n) ∧ True :=
      .bind (reads_bytes _ _) (reads_pure _ _)
    rwa [List.append_nil] at hlast
  refine hread.mono ?_
  rintro n ⟨rfl, hfit⟩
  simp only [Nat.add_zero]
  exact ⟨hfit.data, hfit.signature, hfit.factoryDeps, hfit.paymasterInput, hfit.reservedDynamic, trivial⟩

theorem wrapped_eq_encode (h : tx.encode.length < 2 ^ 32) : tx.wrapped = tx.encode := by
  rw [length_encode] at h
  have h₂ : tx.factoryDepsOffset = tx.signatureOffset + _ := rfl
  have h₃ : tx.paymasterInputOffset = tx.factoryDepsOffset + _ := rfl
  have h₄ : tx.reservedDynamicOffset = tx.paymasterInputOffset + _ := rfl
  have hwords : tx.wrappedWords = tx.words := by
    rw [wrappedWords, words, Nat.mod_eq_of_lt (a := tx.signatureOffset) (by omega),
      Nat.mod_eq_of_lt (a := tx.factoryDepsOffset) (by omega), Nat.mod_eq_of_lt (a := tx.paymasterInputOffset) (by omega),
      Nat.mod_eq_of_lt (a := tx.reservedDynamicOffset) (by omega)]
  rw [wrapped, hwords]
  rfl

theorem Fitting.of_length (h : tx.encode.length < 2 ^ 32) : tx.Fitting := by
  have hall := tx.length_afterData
  have hoff : tx.signatureOffset = dynamicPartExpectedOffset + _ := rfl
  have hdata := length_encodeBytes tx.data
  have hsig := length_encodeBytes tx.signature
  have hdeps := length_encodeBytes32Vector tx.factoryDeps
  have hinput := length_encodeBytes tx.paymasterInput
  have hdyn := length_encodeBytes tx.reservedDynamic
  have h₁ : tx.afterData.length = _ := List.length_append
  have h₂ : tx.afterSignature.length = _ := List.length_append
  have h₃ : tx.afterFactoryDeps.length = _ := List.length_append
  have h₄ : tx.afterPaymasterInput.length = (encodeBytes tx.reservedDynamic).length := rfl
  constructor <;> exact Fits.of_lt (by omega)

theorem tryFromBuffer_wrapped (hvalid : tx.validateStructure = true) (hdvd : 32 ∣ tx.factoryDeps.length)
    (hfit : tx.Fitting) : tryFromBuffer tx.wrapped = some tx := by
  have h := reads_parse hdvd [] ⟨rfl, hfit⟩
  rw [List.append_nil] at h
  rw [tryFromBuffer, h]
  exact if_pos hvalid

/-- Every transaction that passes `validate_structure` has an encoding, whatever the fields are that are
not looked at. -/
theorem tryFromBuffer_encode (hvalid : tx.validateStructure = true) (hdvd : 32 ∣ tx.factoryDeps.length)
    (hlen : tx.encode.length < 2 ^ 32) : tryFromBuffer tx.encode = some tx := by
  rw [← wrapped_eq_encode hlen]
  exact tryFromBuffer_wrapped hvalid hdvd (.of_length hlen)

end AbiEncodedTransaction

end ZkOs.Tx.Abi
