import ZkOs.Tx.Rlp

/-!
# RLP-encoded transactions

Model of `rlp_encoded/transaction_types`, `eip_2718_tx_envelope.rs`, `rlp_encoded/mod.rs` and the
accessors of `rlp_encoded/transaction.rs` used for signature verification.  The hash function is a
parameter `keccak : List UInt8 → D`.
-/

namespace ZkOs.Tx

open Digits InvalidTransaction

/-! ## Fields -/

/-- `to`: empty for a deployment or a 20-byte address. -/
def destination : Rlp (List UInt8) := do
  let s ← Rlp.bytes
  Decoder.ensure (s = [] ∨ s.length = 20) invalidStructure
  return s

def address20 : Rlp (List UInt8) := do
  let s ← Rlp.bytes
  Decoder.ensure (s.length = 20) invalidStructure
  return s

/-- `r` or `s` of a signature: at most 32 bytes, no leading zeroes. -/
def SigWord (x : List UInt8) : Prop := x.length ≤ 32 ∧ Rlp.NoLeadingZero x

instance (x : List UInt8) : Decidable (SigWord x) :=
  inferInstanceAs (Decidable (x.length ≤ 32 ∧ Rlp.NoLeadingZero x))

/-! ## Legacy transactions -/

structure LegacyTXInner where
  nonce : Nat
  gasPrice : Nat
  gasLimit : Nat
  toAddress : List UInt8
  value : Nat
  data : List UInt8
  deriving DecidableEq

def LegacyTXInner.decodeListBody : Rlp LegacyTXInner := do
  let nonce ← Rlp.u64
  let gasPrice ← Rlp.u256
  let gasLimit ← Rlp.u64
  let toAddress ← destination
  let value ← Rlp.u256
  let data ← Rlp.bytes
  return { nonce, gasPrice, gasLimit, toAddress, value, data }

structure LegacySignatureData where
  v : Nat
  r : List UInt8
  s : List UInt8
  deriving DecidableEq

def LegacySignatureData.decodeListBody : Rlp LegacySignatureData := do
  let v ← Rlp.u256
  let r ← Rlp.bytes
  let s ← Rlp.bytes
  Decoder.ensure (SigWord r ∧ SigWord s) invalidStructure
  return { v, r, s }

def LegacySignatureData.isEip155 (sig : LegacySignatureData) : Bool := sig.v != 27 && sig.v != 28

/-! ## Typed transactions -/

structure AccessListForAddress where
  address : List UInt8
  slotsList : Rlp.FixedList
  deriving DecidableEq

/-- `[address, storageKeys]`, each key encoded in 33 bytes. -/
def AccessListForAddress.decodeListBody : Rlp AccessListForAddress := do
  let address ← address20
  let slotsList ← Rlp.fixedList 33
  return { address, slotsList }

def accessList : Rlp Rlp.HomList :=
  Rlp.homList (Rlp.decodeListFrom AccessListForAddress.decodeListBody)

structure EIP2930Tx where
  chainId : Nat
  nonce : Nat
  gasPrice : Nat
  gasLimit : Nat
  toAddress : List UInt8
  value : Nat
  data : List UInt8
  accessList : Rlp.HomList
  deriving DecidableEq

def EIP2930Tx.decodeListBody : Rlp EIP2930Tx := do
  let chainId ← Rlp.u64
  let nonce ← Rlp.u64
  let gasPrice ← Rlp.u256
  let gasLimit ← Rlp.u64
  let toAddress ← destination
  let value ← Rlp.u256
  let data ← Rlp.bytes
  let accessList ← Tx.accessList
  return { chainId, nonce, gasPrice, gasLimit, toAddress, value, data, accessList }

structure EIP1559Tx where
  chainId : Nat
  nonce : Nat
  maxPriorityFeePerGas : Nat
  maxFeePerGas : Nat
  gasLimit : Nat
  toAddress : List UInt8
  value : Nat
  data : List UInt8
  accessList : Rlp.HomList
  deriving DecidableEq

def EIP1559Tx.decodeListBody : Rlp EIP1559Tx := do
  let chainId ← Rlp.u64
  let nonce ← Rlp.u64
  let maxPriorityFeePerGas ← Rlp.u256
  let maxFeePerGas ← Rlp.u256
  let gasLimit ← Rlp.u64
  let toAddress ← destination
  let value ← Rlp.u256
  let data ← Rlp.bytes
  let accessList ← Tx.accessList
  return { chainId, nonce, maxPriorityFeePerGas, maxFeePerGas, gasLimit, toAddress, value, data,
           accessList }

structure AuthorizationEntry where
  chainId : Nat
  address : List UInt8
  nonce : Nat
  yParity : Nat
  r : List UInt8
  s : List UInt8
  deriving DecidableEq

def AuthorizationEntry.decodeListBody : Rlp AuthorizationEntry := do
  let chainId ← Rlp.u256
  let address ← address20
  let nonce ← Rlp.u64
  let yParity ← Rlp.u8
  let r ← Rlp.bytes
  Decoder.ensure (SigWord r) invalidStructure
  let s ← Rlp.bytes
  Decoder.ensure (SigWord s) invalidStructure
  return { chainId, address, nonce, yParity, r, s }

def authorizationList : Rlp Rlp.HomList :=
  Rlp.homList (Rlp.decodeListFrom AuthorizationEntry.decodeListBody)

structure EIP7702Tx where
  chainId : Nat
  nonce : Nat
  maxPriorityFeePerGas : Nat
  maxFeePerGas : Nat
  gasLimit : Nat
  toAddress : List UInt8
  value : Nat
  data : List UInt8
  accessList : Rlp.HomList
  authorizationList : Rlp.HomList
  deriving DecidableEq

def EIP7702Tx.decodeListBody : Rlp EIP7702Tx := do
  let chainId ← Rlp.u64
  let nonce ← Rlp.u64
  let maxPriorityFeePerGas ← Rlp.u256
  let maxFeePerGas ← Rlp.u256
  let gasLimit ← Rlp.u64
  let toAddress ← address20
  let value ← Rlp.u256
  let data ← Rlp.bytes
  let accessList ← Tx.accessList
  let authorizationList ← Tx.authorizationList
  Decoder.ensure (authorizationList.count ≠ 0) authListIsEmpty
  return { chainId, nonce, maxPriorityFeePerGas, maxFeePerGas, gasLimit, toAddress, value, data,
           accessList, authorizationList }

structure EIP2718SignatureData where
  yParity : Bool
  r : List UInt8
  s : List UInt8
  deriving DecidableEq

def EIP2718SignatureData.decodeListBody : Rlp EIP2718SignatureData := do
  let yParity ← Rlp.bool
  let r ← Rlp.bytes
  let s ← Rlp.bytes
  Decoder.ensure (SigWord r ∧ SigWord s) invalidStructure
  return { yParity, r, s }

/-! ## Signed hashes -/

section
variable {D : Type} (keccak : List UInt8 → D)

/-- Payload, signature, and the bytes of the payload fields, from a list of payload and signature
fields that is the whole input. -/
def parsePayloadAndSignature {P S : Type} (payloadBody : Rlp P) (signatureBody : Rlp S)
    (src : List UInt8) : Except InvalidTransaction (P × S × List UInt8) := do
  let inner ← Rlp.list.runAll invalidStructure src
  let (payload, rest) ← payloadBody inner
  let innerSlice := inner.take (inner.length - rest.length)
  let sig ← signatureBody.runAll invalidStructure rest
  return (payload, sig, innerSlice)

/-- `EIP2718PayloadParser::try_parse_and_hash_for_signature_verification` -/
def parseEip2718 {P : Type} (txType : UInt8) (payloadBody : Rlp P) (src : List UInt8) :
    Except InvalidTransaction (P × EIP2718SignatureData × D) := do
  let (payload, sig, innerSlice) ←
    parsePayloadAndSignature payloadBody EIP2718SignatureData.decodeListBody src
  let sigHash := keccak (txType :: (listHeader (innerSlice.length % 2 ^ 32) ++ innerSlice))
  return (payload, sig, sigHash)

/-- The smallest EIP-155 `v` of a chain. -/
def minV (chainId : Nat) : Nat := 35 + chainId * 2

/-- What is hashed for the signature of an unprotected legacy transaction. -/
def legacyPreimage (innerSlice : List UInt8) : List UInt8 :=
  listHeader (innerSlice.length % 2 ^ 32) ++ innerSlice

/-- What is hashed for the signature of an EIP-155 transaction. -/
def eip155Preimage (chainId : Nat) (innerSlice : List UInt8) : List UInt8 :=
  listHeader ((innerSlice.length + u64EncodingLen chainId + 2) % 2 ^ 32) ++
    (innerSlice ++ (u64Encoding chainId ++ [0x80, 0x80]))

/-- `LegacyPayloadParser::try_parse_and_hash_for_signature_verification` -/
def parseLegacy (src : List UInt8) (expectedChainId : Nat) :
    Except InvalidTransaction (LegacyTXInner × LegacySignatureData × D) := do
  let (legacyInner, sig, innerSlice) ←
    parsePayloadAndSignature LegacyTXInner.decodeListBody LegacySignatureData.decodeListBody src
  if sig.isEip155 then
    if sig.v = minV expectedChainId ∨ sig.v = minV expectedChainId + 1 then
      return (legacyInner, sig, keccak (eip155Preimage expectedChainId innerSlice))
    else throw invalidEncoding
  else return (legacyInner, sig, keccak (legacyPreimage innerSlice))

end

/-! ## The transaction -/

inductive RlpEncodedTxInner where
  | legacy (tx : LegacyTXInner) (sig : LegacySignatureData)
  | legacyWithEIP155 (tx : LegacyTXInner) (sig : LegacySignatureData)
  | eip2930 (tx : EIP2930Tx) (sig : EIP2718SignatureData)
  | eip1559 (tx : EIP1559Tx) (sig : EIP2718SignatureData)
  | eip7702 (tx : EIP7702Tx) (sig : EIP2718SignatureData)
  deriving DecidableEq

section
variable {D : Type} (keccak : List UInt8 → D)

def parseTyped {P : Type} (txType : UInt8) (payloadBody : Rlp P) (chainId : P → Nat)
    (mk : P → EIP2718SignatureData → RlpEncodedTxInner) (src : List UInt8) (expectedChainId : Nat) :
    Except InvalidTransaction (RlpEncodedTxInner × D) := do
  let (tx, sig, sigHash) ← parseEip2718 keccak txType payloadBody src
  if chainId tx = expectedChainId then return (mk tx sig, sigHash) else throw invalidChainId

def parseAndComputeSignedHash (input : List UInt8) (expectedChainId : Nat) :
    Except InvalidTransaction (RlpEncodedTxInner × D) :=
  match Rlp.u8 input with
  | .ok (txType, remaining) =>
    if txType = 1 then
      parseTyped keccak 1 EIP2930Tx.decodeListBody EIP2930Tx.chainId .eip2930 remaining
        expectedChainId
    else if txType = 2 then
      parseTyped keccak 2 EIP1559Tx.decodeListBody EIP1559Tx.chainId .eip1559 remaining
        expectedChainId
    else if txType = 4 then
      parseTyped keccak 4 EIP7702Tx.decodeListBody EIP7702Tx.chainId .eip7702 remaining
        expectedChainId
    else throw invalidEncoding
  | .error _ => do
    let (tx, sig, sigHash) ← parseLegacy keccak input expectedChainId
    return (if sig.isEip155 then .legacyWithEIP155 tx sig else .legacy tx sig, sigHash)

/-- A parsed transaction together with the raw bytes it came from. -/
structure RlpEncodedTransaction (D : Type) where
  buffer : List UInt8
  inner : RlpEncodedTxInner
  chainId : Nat
  sigHash : D

def RlpEncodedTransaction.parseFromBuffer (buffer : List UInt8) (expectedChainId : Nat) :
    Except InvalidTransaction (RlpEncodedTransaction D) := do
  let (inner, sigHash) ← parseAndComputeSignedHash keccak buffer expectedChainId
  return { buffer, inner, chainId := expectedChainId, sigHash }

namespace RlpEncodedTransaction

def transactionHash (tx : RlpEncodedTransaction D) : D := keccak tx.buffer

def txType (tx : RlpEncodedTransaction D) : Nat :=
  match tx.inner with
  | .legacy _ _ | .legacyWithEIP155 _ _ => 0
  | .eip2930 _ _ => 1
  | .eip1559 _ _ => 2
  | .eip7702 _ _ => 4

/-- Parity, `r` and `s` of the signature. -/
def sigParityRS (tx : RlpEncodedTransaction D) : Bool × List UInt8 × List UInt8 :=
  match tx.inner with
  | .legacy _ sig => (sig.v - 27 == 1, sig.r, sig.s)
  | .legacyWithEIP155 _ sig => (sig.v - 35 - tx.chainId * 2 == 1, sig.r, sig.s)
  | .eip2930 _ sig | .eip1559 _ sig | .eip7702 _ sig => (sig.yParity, sig.r, sig.s)

end RlpEncodedTransaction

end

end ZkOs.Tx
