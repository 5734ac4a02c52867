import ZkOs.Lib.Decoder
import ZkOs.Lib.Digits
import Mathlib.Data.Nat.Size

/-!
# The minimal RLP parser and the encoders fed to the hasher

Model of `rlp_encoded/rlp/minimal_rlp_parser.rs` and `rlp_encoded/rlp/mod.rs`.  A cursor is the
list of bytes it has not consumed yet.

* `bytes`, `list`, `u8`, `bool`, `u64`, `u256` : the items of the parser;
* `decodeListFrom`, `fixedList`, `homList` : lists of fields, of fixed-size and of validated items;
* `listHeader`, `u64Encoding` : the bytes that `apply_list_concatenation_encoding_to_hash` and
  `apply_u64_encoding_to_hash` feed to the hasher.
-/

namespace ZkOs.Tx

open Digits

/-- The errors of `InvalidTransaction` that parsing can return. -/
inductive InvalidTransaction where
  | invalidStructure
  | invalidEncoding
  | invalidChainId
  | authListIsEmpty
  deriving DecidableEq, Repr

open InvalidTransaction

abbrev Rlp := Decoder UInt8 InvalidTransaction

namespace Rlp

def takeExact (n : Nat) : Rlp (List UInt8) := fun xs =>
  if xs.length < n then .error invalidStructure else .ok (xs.take n, xs.drop n)

def take1 : Rlp UInt8
  | [] => .error invalidStructure
  | b :: xs => .ok (b, xs)

/-- A long-form length of `ll` bytes: at most four bytes, and at least 56. Leading zero bytes are
not rejected. -/
def longLength (ll : Nat) : Rlp Nat := do
  Decoder.ensure (ll ≤ 4) invalidStructure
  let lenBytes ← takeExact ll
  Decoder.ensure (56 ≤ beNat lenBytes) invalidStructure
  return beNat lenBytes

def bytes : Rlp (List UInt8) := do
  let m ← take1
  if m < 0x80 then return [m]
  else if m ≤ 0xb7 then do
    let payload ← takeExact (m.toNat - 0x80)
    Decoder.ensure (¬ (m.toNat - 0x80 = 1 ∧ payload.headD 0 < 0x80)) invalidStructure
    return payload
  else if m < 0xc0 then do
    let len ← longLength (m.toNat - 0xb7)
    takeExact len
  else Decoder.fail invalidStructure

/-- Enter a list; the result is the list payload. -/
def list : Rlp (List UInt8) := do
  let m ← take1
  Decoder.ensure (0xc0 ≤ m) invalidStructure
  let len ← (if m ≤ 0xf7 then pure (m.toNat - 0xc0) else longLength (m.toNat - 0xf7))
  takeExact len

def NoLeadingZero (s : List UInt8) : Prop := s.head? ≠ some 0

instance (s : List UInt8) : Decidable (NoLeadingZero s) :=
  inferInstanceAs (Decidable (s.head? ≠ some 0))

def u8 : Rlp Nat := do
  let s ← bytes
  Decoder.ensure (s.length ≤ 1 ∧ NoLeadingZero s) invalidStructure
  return beNat s

def bool : Rlp Bool := do
  let v ← u8
  Decoder.ensure (v ≤ 1) invalidStructure
  return v == 1

/-- A big-endian integer of at most `n` bytes, without leading zeroes. -/
def uint (n : Nat) : Rlp Nat := do
  let s ← bytes
  Decoder.ensure (s.length ≤ n) invalidStructure
  Decoder.ensure (NoLeadingZero s) invalidStructure
  return beNat s

def u64 : Rlp Nat := uint 8

def u256 : Rlp Nat := uint 32

/-- Strip the list header, decode the body and require it to be consumed. -/
def decodeListFrom {α : Type} (body : Rlp α) : Rlp α := do
  let content ← list
  Decoder.lift (body.runAll invalidStructure content)

/-- A list of items of one fixed encoded length, kept as raw bytes. -/
structure FixedList where
  payload : List UInt8
  count : Nat
  deriving DecidableEq

def fixedList (encodingLen : Nat) : Rlp FixedList := do
  let all ← list
  Decoder.ensure (all.length % encodingLen = 0) invalidStructure
  return ⟨all, all.length / encodingLen⟩

/-- A list whose items were checked when it was parsed, kept as raw bytes. -/
structure HomList where
  payload : List UInt8
  count : Nat
  deriving DecidableEq

/-- `while !chk.is_empty()`: decode items until the input is consumed. Every item takes at least
one byte, so the length of the input bounds the number of rounds. -/
def countItems {α : Type} (item : Rlp α) : Nat → List UInt8 → Except InvalidTransaction Nat
  | _, [] => .ok 0
  | 0, _ :: _ => .error invalidStructure
  | fuel + 1, xs =>
    match item xs with
    | .error e => .error e
    | .ok (_, rest) =>
      match countItems item fuel rest with
      | .error e => .error e
      | .ok c => .ok (c + 1)

def homList {α : Type} (item : Rlp α) : Rlp HomList := do
  let all ← list
  let count ← Decoder.lift (countItems item all.length all)
  return ⟨all, count⟩

end Rlp

/-! ## Encoders -/

/-- Number of bytes of the shortest big-endian form. -/
def byteLen (n : Nat) : Nat := (n.size + 7) / 8

/-- `apply_list_concatenation_encoding_to_hash` -/
def listHeader (length : Nat) : List UInt8 :=
  if length < 56 then [UInt8.ofNat (0xc0 + length)]
  else UInt8.ofNat (0xc0 + 55 + byteLen length) :: beBytes (byteLen length) length

def u64EncodingLen (value : Nat) : Nat := if value < 0x80 then 1 else 1 + byteLen value

/-- `apply_u64_encoding_to_hash` -/
def u64Encoding (value : Nat) : List UInt8 :=
  if value = 0 then [0x80]
  else if value < 0x80 then [UInt8.ofNat value]
  else UInt8.ofNat (0x80 + byteLen value) :: beBytes (byteLen value) value

end ZkOs.Tx
