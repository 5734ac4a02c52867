import ZkOs.Lib.Cursor
import ZkOs.Tx.Encoded

/-!
# The transaction parser with its panics

Model of `minimal_rlp_parser.rs`, `rlp/mod.rs`, the transaction types, `eip_2718_tx_envelope.rs` and
`rlp_encoded/transaction.rs` at the level of slices: every index, subtraction, conversion and
`expect` of the source is one that can panic.  `usizeBits` is the width of `usize`.

* `bytes`, `list`, `u8`, `bool`, `u64`, `u256` : the items, through a cursor;
* `fixedList`, `homList` : lists kept as raw bytes, and `FixedListIter.next`, `HomListIter.next`, the
  iterators that decode them again;
* `parseFromBuffer`, `sigParityRS` : the entry point and the signature accessor.
-/

namespace ZkOs.Tx.Checked

open Digits InvalidTransaction Fallible CursorM

/-- Functions on a `&mut Rlp`. -/
abbrev Parse := CursorM UInt8 InvalidTransaction

/-! ## Cursor -/

def consumedSince (c : Cursor UInt8) (mark : Nat) : Fallible InvalidTransaction (List UInt8) :=
  slice c.bytes mark c.pos

def remaining (c : Cursor UInt8) : Fallible InvalidTransaction (List UInt8) :=
  slice c.bytes c.pos c.bytes.length

section
variable (usizeBits : Nat)

def takeExact (n : Nat) : Parse (List UInt8) := fun c =>
  -- `checked_add`
  if 2 ^ usizeBits ≤ c.pos + n then .error (.err invalidStructure)
  else if c.bytes.length < c.pos + n then .error (.err invalidStructure)
  else do
    let out ← slice c.bytes c.pos (c.pos + n)
    return (out, { c with pos := c.pos + n })

def take1 : Parse UInt8 := fun c =>
  if c.bytes.length ≤ c.pos then .error (.err invalidStructure)
  else do
    let b ← index c.bytes c.pos
    let pos ← add usizeBits c.pos 1
    return (b, { c with pos })

/-- A big-endian `u32`, shifted together byte by byte. -/
def beU32 (s : List UInt8) : Fallible InvalidTransaction Nat :=
  if 4 < s.length then .error (.err invalidStructure)
  else .ok (s.foldl (fun v b => (v <<< 8) % 2 ^ 32 ||| b.toNat) 0)

/-- The length in a long form, which `bytes` and `list` read in the same way. -/
def longLength (ll : Nat) : Parse Nat := do
  CursorM.ensure (ll ≤ 4) invalidStructure
  let s ← takeExact usizeBits ll
  let len ← lift (beU32 s)
  CursorM.ensure (56 ≤ len) invalidStructure
  return len

def bytes : Parse (List UInt8) := do
  let m ← take1 usizeBits
  if m < 0x80 then do
    let c ← CursorM.get
    let start ← lift (sub c.pos 1)
    lift (slice c.bytes start c.pos)
  else if m ≤ 0xb7 then do
    let len ← lift (sub m.toNat 0x80)
    let payload ← takeExact usizeBits len
    if len = 1 then do
      let b ← lift (index payload 0)
      CursorM.ensure (¬ b < 0x80) invalidStructure
      return payload
    else return payload
  else if m < 0xc0 then do
    let ll ← lift (sub m.toNat 0xb7)
    let len ← longLength usizeBits ll
    takeExact usizeBits len
  else CursorM.fail invalidStructure

/-- A cursor limited to the list payload. -/
def list : Parse (Cursor UInt8) := do
  let m ← take1 usizeBits
  CursorM.ensure (0xc0 ≤ m) invalidStructure
  let len ← (if m ≤ 0xf7 then lift (sub m.toNat 0xc0) else do
    let ll ← lift (sub m.toNat 0xf7)
    longLength usizeBits ll)
  let content ← takeExact usizeBits len
  return .new content

/-! ## Scalars -/

def u8 : Parse Nat := do
  let s ← bytes usizeBits
  if s.length = 0 then return 0
  else if s.length = 1 then do
    let b ← lift (index s 0)
    CursorM.ensure (b ≠ 0) invalidStructure
    return b.toNat
  else CursorM.fail invalidStructure

def bool : Parse Bool := do
  let v ← u8 usizeBits
  if v = 0 then return false
  else if v = 1 then return true
  else CursorM.fail invalidStructure

/-- `s.len() >= 1 && s[0] == 0` is an error. -/
def ensureNoLeadingZero (s : List UInt8) : Parse Unit :=
  if 1 ≤ s.length then do
    let b ← lift (index s 0)
    CursorM.ensure (b ≠ 0) invalidStructure
  else return ()

/-- `dst[start..].copy_from_slice(src)` -/
def copyFromSlice (dst : List UInt8) (start : Nat) (src : List UInt8) : Fallible InvalidTransaction (List UInt8) := do
  let tail ← slice dst start dst.length
  if tail.length = src.length then return dst.take start ++ src else throw .panic

def u64 : Parse Nat := do
  let s ← bytes usizeBits
  CursorM.ensure (s.length ≤ 8) invalidStructure
  ensureNoLeadingZero s
  let start ← lift (sub 8 s.length)
  let buf ← lift (copyFromSlice (List.replicate 8 0) start s)
  return beNat buf

def u256 : Parse Nat := do
  let s ← bytes usizeBits
  ensureNoLeadingZero s
  -- `try_from_be_slice`
  CursorM.ensure (s.length ≤ 32) invalidStructure
  return beNat s

/-! ## Lists -/

def decodeListFrom {α : Type} (body : Parse α) : Parse α := do
  let inner ← list usizeBits
  lift (body.runFull invalidStructure inner)

def fixedList (encodingLen : Nat) : Parse Rlp.FixedList := do
  let inner ← list usizeBits
  let all ← lift (remaining inner)
  CursorM.ensure (all.length % encodingLen = 0) invalidStructure
  let _ ← lift (takeExact usizeBits all.length inner)
  return ⟨all, all.length / encodingLen⟩

end

/-- `while !chk.is_empty()`: decode items and count them. A loop that outlasts `fuel` rounds does
not end. -/
def countItems {α : Type} (item : Parse α) : Nat → Cursor UInt8 → Fallible InvalidTransaction Nat
  | 0, _ => .error .hang
  | fuel + 1, chk =>
    if chk.isEmpty then .ok 0
    else do
      let (_, chk) ← item chk
      let c ← countItems item fuel chk
      return c + 1

def homList (usizeBits : Nat) {α : Type} (item : Parse α) : Parse Rlp.HomList := do
  let inner ← list usizeBits
  let all ← lift (remaining inner)
  let count ← lift (countItems item (all.length + 1) (.new all))
  let _ ← lift (takeExact usizeBits all.length inner)
  return ⟨all, count⟩

/-! ## Iterators -/

/-- `HomListIter::next` of a validated list. -/
def HomListIter.next {α : Type} (item : Parse α) (r : Cursor UInt8) :
    Fallible InvalidTransaction (Option (α × Cursor UInt8)) :=
  if r.isEmpty then .ok none
  else do
    let v ← expect (item r)
    return some v

def HomListIter.collect {α : Type} (item : Parse α) : Nat → Cursor UInt8 → Fallible InvalidTransaction (List α)
  | 0, _ => .error .hang
  | fuel + 1, r => do
    match ← HomListIter.next item r with
    | none => return []
    | some (v, r) =>
      let vs ← HomListIter.collect item fuel r
      return v :: vs

def HomList.iterate {α : Type} (item : Parse α) (l : Rlp.HomList) : Fallible InvalidTransaction (List α) :=
  HomListIter.collect item (l.payload.length + 1) (.new l.payload)

structure FixedListIter where
  payload : List UInt8
  idx : Nat
  count : Nat

/-- `<&[u8; 32]>::decode_from_fixed` -/
def decodeFromFixed (encoded : List UInt8) : Fallible InvalidTransaction (List UInt8) := do
  if encoded.length ≠ 33 then throw (.err invalidStructure)
  let b ← index encoded 0
  if b ≠ 0xa0 then throw (.err invalidStructure)
  let key ← slice encoded 1 encoded.length
  unwrapArray 32 key

section
variable (usizeBits : Nat)

/-- `FixedListIter::next` over storage keys. -/
def FixedListIter.next (it : FixedListIter) :
    Fallible InvalidTransaction (Option (Except InvalidTransaction (List UInt8) × FixedListIter)) :=
  if it.count ≤ it.idx then .ok none
  else do
    let start ← mul usizeBits it.idx 33
    let stop ← add usizeBits start 33
    let idx ← add usizeBits it.idx 1
    let encoded ← slice it.payload start stop
    let key ← attempt (decodeFromFixed encoded)
    return some (key, { it with idx })

def FixedListIter.collect : Nat → FixedListIter →
    Fallible InvalidTransaction (List (Except InvalidTransaction (List UInt8)))
  | 0, _ => .error .hang
  | fuel + 1, it => do
    match ← FixedListIter.next usizeBits it with
    | none => return []
    | some (key, it) =>
      let keys ← FixedListIter.collect fuel it
      return key :: keys

def FixedList.iterate (l : Rlp.FixedList) :
    Fallible InvalidTransaction (List (Except InvalidTransaction (List UInt8))) :=
  FixedListIter.collect usizeBits (l.count + 1) ⟨l.payload, 0, l.count⟩

/-! ## Fields -/

def destination : Parse (List UInt8) := do
  let s ← bytes usizeBits
  CursorM.ensure (s = [] ∨ s.length = 20) invalidStructure
  return s

def address20 : Parse (List UInt8) := do
  let s ← bytes usizeBits
  CursorM.ensure (s.length = 20) invalidStructure
  lift (unwrapArray 20 s)

/-- `x.len() > 32 || !x.is_empty() && x[0] == 0` -/
def badSigWord (x : List UInt8) : Fallible InvalidTransaction Bool :=
  if 32 < x.length then .ok true
  else if x ≠ [] then do
    let b ← index x 0
    return b == 0
  else .ok false

/-- `r` and `s` together, as both signature formats check them. -/
def badSignature (r s : List UInt8) : Fallible InvalidTransaction Bool :=
  if 32 < r.length then .ok true
  else if 32 < s.length then .ok true
  else do
    let badR ← badSigWord r
    if badR then return true else badSigWord s

/-! ## Transaction types -/

def LegacyTXInner.decodeListBody : Parse LegacyTXInner := do
  let nonce ← u64 usizeBits
  let gasPrice ← u256 usizeBits
  let gasLimit ← u64 usizeBits
  let toAddress ← destination usizeBits
  let value ← u256 usizeBits
  let data ← bytes usizeBits
  return { nonce, gasPrice, gasLimit, toAddress, value, data }

def LegacySignatureData.decodeListBody : Parse LegacySignatureData := do
  let v ← u256 usizeBits
  let r ← bytes usizeBits
  let s ← bytes usizeBits
  let bad ← lift (badSignature r s)
  CursorM.ensure (bad = false) invalidStructure
  return { v, r, s }

def AccessListForAddress.decodeListBody : Parse AccessListForAddress := do
  let address ← address20 usizeBits
  let slotsList ← fixedList usizeBits 33
  return { address, slotsList }

def accessListItem : Parse AccessListForAddress :=
  decodeListFrom usizeBits (AccessListForAddress.decodeListBody usizeBits)

def accessList : Parse Rlp.HomList := homList usizeBits (accessListItem usizeBits)

def EIP2930Tx.decodeListBody : Parse EIP2930Tx := do
  let chainId ← u64 usizeBits
  let nonce ← u64 usizeBits
  let gasPrice ← u256 usizeBits
  let gasLimit ← u64 usizeBits
  let toAddress ← destination usizeBits
  let value ← u256 usizeBits
  let data ← bytes usizeBits
  let accessList ← accessList usizeBits
  return { chainId, nonce, gasPrice, gasLimit, toAddress, value, data, accessList }

def EIP1559Tx.decodeListBody : Parse EIP1559Tx := do
  let chainId ← u64 usizeBits
  let nonce ← u64 usizeBits
  let maxPriorityFeePerGas ← u256 usizeBits
  let maxFeePerGas ← u256 usizeBits
  let gasLimit ← u64 usizeBits
  let toAddress ← destination usizeBits
  let value ← u256 usizeBits
  let data ← bytes usizeBits
  let accessList ← accessList usizeBits
  return { chainId, nonce, maxPriorityFeePerGas, maxFeePerGas, gasLimit, toAddress, value, data,
           accessList }

def AuthorizationEntry.decodeListBody : Parse AuthorizationEntry := do
  let chainId ← u256 usizeBits
  let address ← address20 usizeBits
  let nonce ← u64 usizeBits
  let yParity ← u8 usizeBits
  let r ← bytes usizeBits
  let badR ← lift (badSigWord r)
  CursorM.ensure (badR = false) invalidStructure
  let s ← bytes usizeBits
  let badS ← lift (badSigWord s)
  CursorM.ensure (badS = false) invalidStructure
  return { chainId, address, nonce, yParity, r, s }

def authorizationItem : Parse AuthorizationEntry :=
  decodeListFrom usizeBits (AuthorizationEntry.decodeListBody usizeBits)

def authorizationList : Parse Rlp.HomList := homList usizeBits (authorizationItem usizeBits)

def EIP7702Tx.decodeListBody : Parse EIP7702Tx := do
  let chainId ← u64 usizeBits
  let nonce ← u64 usizeBits
  let maxPriorityFeePerGas ← u256 usizeBits
  let maxFeePerGas ← u256 usizeBits
  let gasLimit ← u64 usizeBits
  let toAddress ← address20 usizeBits
  let value ← u256 usizeBits
  let data ← bytes usizeBits
  let accessList ← accessList usizeBits
  let authorizationList ← authorizationList usizeBits
  CursorM.ensure (authorizationList.count ≠ 0) authListIsEmpty
  return { chainId, nonce, maxPriorityFeePerGas, maxFeePerGas, gasLimit, toAddress, value, data,
           accessList, authorizationList }

def EIP2718SignatureData.decodeListBody : Parse EIP2718SignatureData := do
  let yParity ← bool usizeBits
  let r ← bytes usizeBits
  let s ← bytes usizeBits
  let bad ← lift (badSignature r s)
  CursorM.ensure (bad = false) invalidStructure
  return { yParity, r, s }

end

/-! ## Signed hashes -/

/-- `leading_zeros` of a `width`-bit integer. -/
def leadingZeros (width n : Nat) : Nat := width - n.size

/-- The last bytes of the `n`-byte form of `value`, as many as its bits need, behind the marker
`base + their number`. -/
def markedBytes (n base value : Nat) : Fallible InvalidTransaction (List UInt8) := do
  let bits ← sub (8 * n) (leadingZeros (8 * n) value)
  -- `bits.next_multiple_of(8) / 8`
  let encodingBytes := (bits + 7) / 8
  let marker ← add 8 base encodingBytes
  let start ← sub n encodingBytes
  let tail ← slice (beBytes n value) start n
  return UInt8.ofNat marker :: tail

/-- `apply_list_concatenation_encoding_to_hash` -/
def listHeader (length : Nat) : Fallible InvalidTransaction (List UInt8) :=
  if length < 56 then do
    let marker ← add 8 0xc0 length
    return [UInt8.ofNat marker]
  else markedBytes 4 (0xc0 + 55) length

def u64EncodingLen (value : Nat) : Fallible InvalidTransaction Nat :=
  if value < 0x80 then .ok 1
  else do
    let bits ← sub 64 (leadingZeros 64 value)
    return 1 + (bits + 7) / 8

/-- `apply_u64_encoding_to_hash` -/
def u64Encoding (value : Nat) : Fallible InvalidTransaction (List UInt8) :=
  if value = 0 then .ok [0x80]
  else if value < 0x80 then .ok [UInt8.ofNat value]
  else markedBytes 8 0x80 value

section
variable (usizeBits : Nat) {D : Type} (keccak : List UInt8 → D)

/-- Payload, signature and the bytes of the payload fields, of a list that is the whole input. -/
def parsePayloadAndSignature {P S : Type} (payloadBody : Parse P) (signatureBody : Parse S) (src : List UInt8) :
    Fallible InvalidTransaction (P × S × List UInt8) := do
  let inner ← (list usizeBits).runFull invalidStructure (.new src)
  let mark := inner.pos
  let (payload, inner) ← payloadBody inner
  let innerSlice ← consumedSince inner mark
  let sig ← signatureBody.runFull invalidStructure inner
  return (payload, sig, innerSlice)

/-- `EIP2718PayloadParser::try_parse_and_hash_for_signature_verification` -/
def parseEip2718 {P : Type} (txType : UInt8) (payloadBody : Parse P) (src : List UInt8) :
    Fallible InvalidTransaction (P × EIP2718SignatureData × D) := do
  let (payload, sig, innerSlice) ←
    parsePayloadAndSignature usizeBits payloadBody (EIP2718SignatureData.decodeListBody usizeBits) src
  let header ← listHeader (innerSlice.length % 2 ^ 32)
  return (payload, sig, keccak (txType :: (header ++ innerSlice)))

/-- `LegacyPayloadParser::try_parse_and_hash_for_signature_verification` -/
def parseLegacy (src : List UInt8) (expectedChainId : Nat) :
    Fallible InvalidTransaction (LegacyTXInner × LegacySignatureData × D) := do
  let (legacyInner, sig, innerSlice) ←
    parsePayloadAndSignature usizeBits (LegacyTXInner.decodeListBody usizeBits)
      (LegacySignatureData.decodeListBody usizeBits) src
  if sig.isEip155 then do
    let twice ← mul 256 expectedChainId 2
    let minV ← add 256 35 twice
    let maxV ← add 256 minV 1
    if sig.v = minV ∨ sig.v = maxV then do
      let encodingLen ← u64EncodingLen expectedChainId
      let len ← add usizeBits innerSlice.length encodingLen
      let len ← add usizeBits len 2
      let header ← listHeader (len % 2 ^ 32)
      let chainId ← u64Encoding expectedChainId
      return (legacyInner, sig, keccak (header ++ (innerSlice ++ (chainId ++ [0x80, 0x80]))))
    else throw (.err invalidEncoding)
  else do
    let header ← listHeader (innerSlice.length % 2 ^ 32)
    return (legacyInner, sig, keccak (header ++ innerSlice))

/-! ## The transaction -/

def parseTyped {P : Type} (txType : UInt8) (payloadBody : Parse P) (chainId : P → Nat)
    (mk : P → EIP2718SignatureData → RlpEncodedTxInner) (src : List UInt8) (expectedChainId : Nat) :
    Fallible InvalidTransaction (RlpEncodedTxInner × D) := do
  let (tx, sig, sigHash) ← parseEip2718 usizeBits keccak txType payloadBody src
  if chainId tx = expectedChainId then return (mk tx sig, sigHash) else throw (.err invalidChainId)

def parseAndComputeSignedHash (input : List UInt8) (expectedChainId : Nat) :
    Fallible InvalidTransaction (RlpEncodedTxInner × D) := do
  -- `if let Ok(tx_type) = r.u8()`
  match ← attempt (u8 usizeBits (.new input)) with
  | .ok (txType, r) => do
    let src ← remaining r
    if txType = 1 then
      parseTyped usizeBits keccak 1 (EIP2930Tx.decodeListBody usizeBits) EIP2930Tx.chainId .eip2930 src
        expectedChainId
    else if txType = 2 then
      parseTyped usizeBits keccak 2 (EIP1559Tx.decodeListBody usizeBits) EIP1559Tx.chainId .eip1559 src
        expectedChainId
    else if txType = 4 then
      parseTyped usizeBits keccak 4 (EIP7702Tx.decodeListBody usizeBits) EIP7702Tx.chainId .eip7702 src
        expectedChainId
    else throw (.err invalidEncoding)
  | .error _ => do
    let (tx, sig, sigHash) ← parseLegacy usizeBits keccak input expectedChainId
    return (if sig.isEip155 then .legacyWithEIP155 tx sig else .legacy tx sig, sigHash)

def parseFromBuffer (buffer : List UInt8) (expectedChainId : Nat) :
    Fallible InvalidTransaction (RlpEncodedTransaction D) := do
  let (inner, sigHash) ← parseAndComputeSignedHash usizeBits keccak buffer expectedChainId
  return { buffer, inner, chainId := expectedChainId, sigHash }

end

section
variable {D : Type}

def accessListOf (tx : RlpEncodedTransaction D) : Option Rlp.HomList :=
  match tx.inner with
  | .legacy _ _ | .legacyWithEIP155 _ _ => none
  | .eip2930 tx _ => some tx.accessList
  | .eip1559 tx _ => some tx.accessList
  | .eip7702 tx _ => some tx.accessList

def authorizationListOf (tx : RlpEncodedTransaction D) : Option Rlp.HomList :=
  match tx.inner with
  | .eip7702 tx _ => some tx.authorizationList
  | _ => none

def sigParityRS (tx : RlpEncodedTransaction D) : Fallible InvalidTransaction (Bool × List UInt8 × List UInt8) :=
  match tx.inner with
  | .legacy _ sig => do
    let d ← sub sig.v 27
    return (d == 1, sig.r, sig.s)
  | .legacyWithEIP155 _ sig => do
    let d ← sub sig.v 35
    let twice ← mul 256 tx.chainId 2
    let d ← sub d twice
    return (d == 1, sig.r, sig.s)
  | .eip2930 _ sig | .eip1559 _ sig | .eip7702 _ sig => .ok (sig.yParity, sig.r, sig.s)

end

end ZkOs.Tx.Checked
