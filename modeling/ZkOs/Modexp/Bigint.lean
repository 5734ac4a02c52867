import ZkOs.Lib.OracleProgram
import ZkOs.Lib.Digits

/-!
# Delegated big integers and modular exponentiation

Model of `modexp/delegation/bigint.rs` and `modexp/delegation/u256.rs`, for a build without debug
assertions.  A failed assertion, a slice index out of range and a failed `unwrap` all stop the
computation.

* `DelegatedU256` and the operations of the 256-bit delegation;
* `BigintRepr` : the digits in use and the capacity of the backing vector;
* `fma` : schoolbook `a * b + c` into a scratch buffer, digit by digit as in the source;
* `modpow` : square-and-multiply, with every quotient and remainder asked from the advisor;
* `OracleAdvisor.respond` : the advisor used on the prover, over an oracle's word stream.
-/

namespace ZkOs.Modexp

open Digits

/-- A 256-bit digit of the delegation circuit. -/
abbrev DelegatedU256 := BitVec 256

namespace DelegatedU256

/-- `x.as_limbs_mut()[0] = v`. -/
def setLimb0 (x : DelegatedU256) (v : Nat) : DelegatedU256 :=
  BitVec.ofNat 256 (x.toNat / 2 ^ 64 * 2 ^ 64 + v % 2 ^ 64)

/-- `from_be_bytes_in_place` on at most 32 bytes, padded with zeroes on the left. -/
def fromBeBytes (bytes : List UInt8) : DelegatedU256 := BitVec.ofNat 256 (beNat bytes)

def toBeBytes (x : DelegatedU256) : List UInt8 :=
  (List.range 32).map fun i => UInt8.ofNat (x.toNat / 256 ^ (31 - i))

/-- Borrow of the delegation's `SubAndNegate`: `b - a - borrow` underflows. -/
def subAndNegateBorrow (a b : DelegatedU256) (borrow : Bool) : Bool :=
  decide (b.toNat < a.toNat + borrow.toNat)

end DelegatedU256

/-- Digits in use, least significant first, in a vector of the given capacity. -/
structure BigintRepr where
  backing : List DelegatedU256
  capacity : Nat
  le_capacity : backing.length ≤ capacity
  deriving DecidableEq

namespace BigintRepr

def digits (x : BigintRepr) : Nat := x.backing.length

def toNat (x : BigintRepr) : Nat := val x.backing

def withCapacity (capacity : Nat) : BigintRepr := ⟨[], capacity, Nat.zero_le _⟩

def duplicateWithCapacity (x : BigintRepr) (capacity : Nat) : Option BigintRepr :=
  if h : x.backing.length ≤ capacity then some ⟨x.backing, capacity, h⟩ else none

/-- Overwrite the digits of a buffer (`clear_as_capacity_mut`, writes, `set_num_digits`). -/
def store (dst : BigintRepr) (ds : List DelegatedU256) : Option BigintRepr :=
  if h : ds.length ≤ dst.capacity then some ⟨ds, dst.capacity, h⟩ else none

/-! ## Parsing and printing -/

/-- The first `k` chunks of 32 bytes. -/
def chunks32 : Nat → List UInt8 → List (List UInt8)
  | 0, _ => []
  | k + 1, bytes => bytes.take 32 :: chunks32 k (bytes.drop 32)

def asRchunks32 (bytes : List UInt8) : List UInt8 × List (List UInt8) :=
  (bytes.take (bytes.length % 32), chunks32 (bytes.length / 32) (bytes.drop (bytes.length % 32)))

/-- Digits written by `from_big_endian`, before the leading zero digits are dropped. -/
def rawDigits (remainder : List UInt8) (digitsBytes : List (List UInt8)) : List DelegatedU256 :=
  digitsBytes.reverse.map DelegatedU256.fromBeBytes ++
    if remainder.isEmpty then [] else [DelegatedU256.fromBeBytes remainder]

def fromBigEndian (remainder : List UInt8) (digitsBytes : List (List UInt8)) (capacity : Nat) :
    Option BigintRepr :=
  (withCapacity capacity).store ((rawDigits remainder digitsBytes).rdropWhile (· == 0))

def fromBigEndianWithDoubleCapacity (bytes : List UInt8) : Option BigintRepr :=
  if bytes.isEmpty then some (withCapacity 0)
  else
    let (remainder, digitsBytes) := asRchunks32 bytes
    let maxDigits := digitsBytes.length + if remainder.isEmpty then 0 else 1
    fromBigEndian remainder digitsBytes (maxDigits * 2)

def fromBigEndianWithDoubleCapacityOrMinCapacity (bytes : List UInt8) (minCapacity : Nat) :
    Option BigintRepr :=
  if bytes.isEmpty then some (withCapacity minCapacity)
  else
    let (remainder, digitsBytes) := asRchunks32 bytes
    let maxDigits := digitsBytes.length + if remainder.isEmpty then 0 else 1
    fromBigEndian remainder digitsBytes (max minCapacity (maxDigits * 2))

/-- Bytes of the digits from the first nonzero one, most significant first. -/
def toBigEndian (x : BigintRepr) : List UInt8 :=
  (x.backing.reverse.dropWhile (· == 0)).flatMap DelegatedU256.toBeBytes

/-! ## Fused multiply-add -/

/-- The four digit buffers that the caller lends to `fma`. -/
structure DigitScratch where
  scratch0 : DelegatedU256
  scratch1 : DelegatedU256
  scratch2 : DelegatedU256
  carryPropagation : DelegatedU256
  deriving DecidableEq

/-- Local state of `fma`. `dst` is the initialised prefix of the destination, so that
`next_to_init_digit` is its length; `swapped` tells which buffer the rotating pointers
`scratch_high` and `carry_scratch` stand for. -/
structure FmaState where
  dst : List DelegatedU256
  low : DelegatedU256
  high : DelegatedU256
  carry : DelegatedU256
  swapped : Bool
  carryPropagation : DelegatedU256

def FmaState.rotate (s : FmaState) : FmaState :=
  { s with high := s.carry, carry := s.high, swapped := !s.swapped }

/-- Add a nonzero overflow count to the high word of the current product. -/
def FmaState.addToHigh (s : FmaState) (of : Nat) : FmaState :=
  if 0 < of then
    let c := s.carryPropagation.setLimb0 of
    { s with high := addLow s.high c, carryPropagation := c }
  else s

/-- One step of the loop over the digits of `a`. -/
def fmaDigit (capacity : Nat) (a b : DelegatedU256) (aIdx bIdx : Nat) (s : FmaState) :
    Option FmaState := do
  let dstDigit := aIdx + bIdx
  guard (dstDigit ≤ s.dst.length)
  if dstDigit = s.dst.length then
    -- the destination digit is not initialised and counts as zero
    guard (dstDigit < capacity)
    let low := mulLow a b
    let s := { s with high := mulHigh a b }
    if 0 < aIdx then
      let s := { s with dst := s.dst ++ [addLow low s.carry] }.addToHigh (addCarry low s.carry)
      return s.rotate
    else
      return { s with dst := s.dst ++ [low] }.rotate
  else
    let d ← s.dst[dstDigit]?
    let low := mulLow a b
    let d0 := addLow d low
    let of0 := addCarry d low
    let d1 := if 0 < aIdx then addLow d0 s.carry else d0
    let of1 := if 0 < aIdx then addCarry d0 s.carry else 0
    let s := { s with low := low, high := mulHigh a b, dst := s.dst.set dstDigit d1 }
    return (s.addToHigh (of0 + of1)).rotate

/-- The loop over the digits of `a` for one digit of `b`. -/
def fmaRow (capacity : Nat) (b : DelegatedU256) (bIdx : Nat) :
    List DelegatedU256 → Nat → FmaState → Option FmaState
  | [], _, s => some s
  | a :: as, aIdx, s => do
    let s ← fmaDigit capacity a b aIdx bIdx s
    fmaRow capacity b bIdx as (aIdx + 1) s

/-- `while of > 0`: carry `of` into the digit above `currentDigit`. The first argument bounds the
number of digits left below `max_product_digits`. -/
def fmaPropagate (maxProductDigits : Nat) : Nat → Nat → Nat → FmaState → FmaState
  | 0, _, _, s => s
  | n + 1, currentDigit, of, s =>
    if 0 < of then
      let currentDigit := currentDigit + 1
      if maxProductDigits ≤ currentDigit then s
      else
        let c := s.carryPropagation.setLimb0 of
        let s := { s with carryPropagation := c }
        if currentDigit = s.dst.length then { s with dst := s.dst ++ [c] }
        else
          match s.dst[currentDigit]? with
          | none => s
          | some d =>
            fmaPropagate maxProductDigits n currentDigit (addCarry d c)
              { s with dst := s.dst.set currentDigit (addLow d c) }
    else s

/-- The final carry of a row, at position `dstDigit`. Digits from `maxProductDigits` on are
dropped without a check. -/
def fmaFinishRow (capacity maxProductDigits dstDigit : Nat) (s : FmaState) : Option FmaState := do
  if maxProductDigits ≤ dstDigit then return s
  guard (dstDigit ≤ s.dst.length)
  if dstDigit = s.dst.length then
    guard (dstDigit < capacity)
    return { s with dst := s.dst ++ [s.carry] }
  else
    let d ← s.dst[dstDigit]?
    let s' := { s with dst := s.dst.set dstDigit (addLow d s.carry) }
    return fmaPropagate maxProductDigits maxProductDigits dstDigit (addCarry d s.carry) s'

def fmaRows (capacity maxProductDigits : Nat) (a : List DelegatedU256) :
    List DelegatedU256 → Nat → FmaState → Option FmaState
  | [], _, s => some s
  | b :: bs, bIdx, s => do
    let s ← fmaRow capacity b bIdx a 0 s
    let s ← (if a.length = 0 then some s
      else fmaFinishRow capacity maxProductDigits (a.length + bIdx) s)
    fmaRows capacity maxProductDigits a bs (bIdx + 1) s

/-- Give the rotated buffers back to the caller. -/
def FmaState.scratch (s : FmaState) : DigitScratch where
  scratch0 := s.low
  scratch1 := if s.swapped then s.carry else s.high
  scratch2 := if s.swapped then s.high else s.carry
  carryPropagation := s.carryPropagation

/-- `dst_scratch := a * b + c`, using at most `maxProductDigits` digits. -/
def fma (dstScratch a b : BigintRepr) (c : Option BigintRepr) (scratch : DigitScratch)
    (maxProductDigits : Nat) : Option (BigintRepr × DigitScratch) := do
  let capacity := dstScratch.capacity
  guard (maxProductDigits ≤ capacity)
  if maxProductDigits = 0 then
    guard ((c.map digits).getD 0 = 0)
    return (withCapacity capacity, scratch)
  else
    let cDigits := (c.map backing).getD []
    guard (cDigits.length ≤ capacity)
    let s ← fmaRows capacity maxProductDigits a.backing b.backing 0
      { dst := cDigits, low := scratch.scratch0, high := scratch.scratch1,
        carry := scratch.scratch2, swapped := false,
        carryPropagation := scratch.carryPropagation }
    guard (s.dst.length ≤ maxProductDigits)
    let dst ← dstScratch.store s.dst
    return (dst, s.scratch)

/-! ## Checks -/

/-- Equal digits, and zero digits where one number is longer. -/
def assertEq (a b : BigintRepr) : Bool :=
  let floor := min a.digits b.digits
  (a.backing.zip b.backing).all (fun p => p.1 == p.2) &&
    (a.backing.drop floor).all (· == 0) && (b.backing.drop floor).all (· == 0)

/-- Borrow of the long subtraction `self - modulus`. -/
def borrowChain : List DelegatedU256 → List DelegatedU256 → Bool → Bool
  | m :: ms, x :: xs, borrow => borrowChain ms xs (DelegatedU256.subAndNegateBorrow m x borrow)
  | _, _, borrow => borrow

def assertFullyReduced (x modulus : BigintRepr) : Bool :=
  decide (x.digits ≤ modulus.digits) &&
    (decide (x.digits < modulus.digits) || borrowChain modulus.backing x.backing false)

end BigintRepr

/-! ## The advisor -/

/-- A question to the advisor: quotient and remainder of `a` by `m`, to be written into buffers of
the given capacities. -/
structure ReductionQuery where
  a : List DelegatedU256
  m : List DelegatedU256
  quotientCapacity : Nat
  remainderCapacity : Nat

/-- The digits an advisor writes. Nothing about them is trusted. -/
structure ReductionAdvice where
  quotient : List DelegatedU256
  remainder : List DelegatedU256

/-- Computations that consult a `ModexpAdvisor`. -/
abbrev Advised := OracleM ReductionQuery fun _ => ReductionAdvice

abbrev ModexpAdvisor (σ : Type) := Oracle ReductionQuery (fun _ => ReductionAdvice) σ

open BigintRepr OracleM

/-- `get_reduction_op_advice`, returning the two overwritten buffers. -/
def getReductionOpAdvice (a m quotientDst remainderDst : BigintRepr) :
    Advised (BigintRepr × BigintRepr) := do
  let advice ← query ⟨a.backing, m.backing, quotientDst.capacity, remainderDst.capacity⟩
  let q ← ofOption (quotientDst.store advice.quotient)
  let r ← ofOption (remainderDst.store advice.remainder)
  return (q, r)

/-! ## Modular exponentiation -/

structure ScratchPool where
  scratch0 : BigintRepr
  scratch1 : BigintRepr
  scratch2 : BigintRepr
  scratch3 : BigintRepr
  digit : DigitScratch

def reduceInitially (current modulus : BigintRepr) (pool : ScratchPool) :
    Advised (BigintRepr × ScratchPool) := do
  let (q, r) ← getReductionOpAdvice current modulus pool.scratch0 pool.scratch1
  require (r.digits ≤ modulus.digits)
  require (modulus.digits + current.digits ≤ pool.scratch2.capacity)
  let (product, digit) ← ofOption
    (fma pool.scratch2 q modulus (some r) pool.digit (q.digits + modulus.digits))
  require (assertEq current product)
  return (r, { pool with scratch0 := current, scratch1 := q, scratch2 := product, digit := digit })

def maxQuotientDigits (aDigits mDigits : Nat) : Nat :=
  if aDigits < mDigits then 0 else if aDigits = mDigits then 1 else aDigits + 1 - mDigits

/-- Common body of `mul_step` and `square_step`: multiply into `scratch2` with the given digit
bound, ask for quotient and remainder, recompute `q * modulus + r` into `scratch3` with as many
digits as the product has, and compare. -/
def reductionStep (current other modulus : BigintRepr) (maxProductDigits : Nat)
    (pool : ScratchPool) : Advised (BigintRepr × ScratchPool) := do
  require (0 < current.digits)
  require (modulus.digits < pool.scratch0.capacity)
  require (modulus.digits ≤ pool.scratch1.capacity)
  require (modulus.digits * 2 ≤ pool.scratch2.capacity)
  require (modulus.digits * 2 ≤ pool.scratch3.capacity)
  let (product, digit) ← ofOption
    (fma pool.scratch2 current other none pool.digit maxProductDigits)
  let (q, r) ← getReductionOpAdvice product modulus pool.scratch0 pool.scratch1
  require (q.digits ≤ maxQuotientDigits product.digits modulus.digits)
  require (r.digits ≤ modulus.digits)
  let (check, digit) ← ofOption (fma pool.scratch3 q modulus (some r) digit product.digits)
  require (assertEq product check)
  return (r, ⟨current, q, product, check, digit⟩)

def mulStep (current other modulus : BigintRepr) (pool : ScratchPool) :
    Advised (BigintRepr × ScratchPool) :=
  reductionStep current other modulus (current.digits + other.digits) pool

def squareStep (a modulus : BigintRepr) (pool : ScratchPool) :
    Advised (BigintRepr × ScratchPool) :=
  reductionStep a a modulus (a.digits * 2) pool

/-- The bits of a byte, most significant first. -/
def bitsBE (byte : UInt8) : List Bool :=
  [7, 6, 5, 4, 3, 2, 1, 0].map fun i => byte.toNat.testBit i

/-- The loop over the exponent bits; returns `first_found` and the accumulator. -/
def exponentLoop (base modulus : BigintRepr) :
    List Bool → Bool → BigintRepr → ScratchPool → Advised (Bool × BigintRepr)
  | [], firstFound, current, _ => return (firstFound, current)
  | bit :: bits, false, current, pool => exponentLoop base modulus bits bit current pool
  | bit :: bits, true, current, pool =>
    -- an accumulator without digits is zero and stays zero
    if current.digits = 0 then return (true, current)
    else do
      let (current, pool) ← squareStep current modulus pool
      if bit then
        if current.digits = 0 then return (true, current)
        else do
          let (current, pool) ← mulStep current base modulus pool
          exponentLoop base modulus bits true current pool
      else exponentLoop base modulus bits true current pool

def modpow (self : BigintRepr) (exp : List UInt8) (modulus : BigintRepr) :
    Advised BigintRepr := do
  require (0 < modulus.digits)
  let capacity := max (modulus.digits * 2) (modulus.digits + self.digits)
  let pool : ScratchPool :=
    ⟨withCapacity capacity, withCapacity capacity, withCapacity capacity,
      withCapacity (modulus.digits * 2), ⟨0, 0, 0, 0⟩⟩
  let (current, pool) ←
    (if modulus.digits ≤ self.digits then reduceInitially self modulus pool
    else OracleM.ret (self, pool))
  require (current.digits ≤ modulus.digits)
  let base ← ofOption (current.duplicateWithCapacity current.digits)
  let (firstFound, current) ← exponentLoop base modulus (exp.flatMap bitsBE) false current pool
  if firstFound then
    require (assertFullyReduced current modulus)
    return current
  else
    return ⟨[1], 1, le_rfl⟩

/-- The precompile body around `modpow`. -/
def modexpInner (base exp modulus : List UInt8) : Advised (List UInt8) := do
  let m ← ofOption (fromBigEndianWithDoubleCapacity modulus)
  if m.digits = 0 then return []
  if m.backing = [1] then return []
  let x ← ofOption (fromBigEndianWithDoubleCapacityOrMinCapacity base m.capacity)
  let x ← modpow x exp m
  return x.toBigEndian

/-! ## The oracle advisor -/

namespace OracleAdvisor

/-- `n.next_multiple_of(8)` on a 32-bit `usize`. -/
def nextMultipleOf8 (n : Nat) : Nat := (n + 7) / 8 * 8 % 2 ^ 32

/-- Digits of eight 32-bit words each; missing words are zero. -/
def wordsToDigits : Nat → List (BitVec 32) → List DelegatedU256
  | 0, _ => []
  | k + 1, ws => BitVec.ofNat 256 (val (ws.take 8)) :: wordsToDigits k (ws.drop 8)

/-- The digits written and the rest of the iterator. -/
def writeBigint (it : List (BitVec 32)) (toConsume capacity : Nat) :
    Option (List DelegatedU256 × List (BitVec 32)) := do
  let numDigits := nextMultipleOf8 toConsume / 8
  guard (numDigits ≤ capacity)
  let consumed := min toConsume (numDigits * 8)
  guard (consumed ≤ it.length)
  guard (toConsume = consumed)
  return (wordsToDigits numDigits (it.take consumed), it.drop consumed)

/-- The prover's advisor: the oracle answers with the two lengths and the words. -/
def respond {σ : Type} (rawQuery : σ → ReductionQuery → Option (List (BitVec 32) × σ)) :
    ModexpAdvisor σ := fun s arg => do
  guard (0 < arg.m.length)
  let (words, s) ← rawQuery s arg
  match words with
  | qLen :: rLen :: it =>
    guard (nextMultipleOf8 qLen.toNat / 8 ≤ maxQuotientDigits arg.a.length arg.m.length)
    guard (nextMultipleOf8 rLen.toNat / 8 ≤ arg.m.length)
    let (q, it) ← writeBigint it qLen.toNat arg.quotientCapacity
    let (r, it) ← writeBigint it rLen.toNat arg.remainderCapacity
    guard (it = [])
    return (⟨q, r⟩, s)
  | _ => none

end OracleAdvisor

end ZkOs.Modexp
