import Mathlib.Logic.Function.Basic
import ZkOs.Lib.Digits

/-!
# Nodes of the Ethereum trie

Model of `mpt/nodes.rs`, `mpt/parse_node.rs` and of the helpers in `mpt/mod.rs`.

* `RlpSlice`, `RlpSlice.parse` : an RLP string in its encoding;
* `NodeType`, `LeafNode`, `ExtensionNode`, `BranchNode`, `OpaqueValue` : nodes and the indices that stand for them;
* `internNibbles`, `parseNodeFromBytes` : a node from the bytes that were hashed;
* `follow`, `followCommonPrefix`, `takeBranch` : steps along a path, which is the list of nibbles that remain.

`none` is the error `()`.
-/

namespace ZkOs.Mpt

open Digits

def consume (src : List UInt8) (bytes : Nat) : Option (List UInt8 × List UInt8) :=
  if bytes ≤ src.length then some (src.take bytes, src.drop bytes) else none

def emptySliceEncoding : List UInt8 := [0x80]

/-- `EMPTY_ROOT_HASH`, the hash of the RLP encoded empty slice. -/
def emptyRootHash : List UInt8 :=
  [0x56, 0xe8, 0x1f, 0x17, 0x1b, 0xcc, 0x55, 0xa6, 0xff, 0x83, 0x45, 0xe6, 0x92, 0xc0, 0xf8, 0x6e,
   0x5b, 0x48, 0xe0, 0x1b, 0x99, 0x6c, 0xad, 0xc0, 0x01, 0x62, 0x2f, 0xb5, 0xe3, 0x63, 0xb4, 0x21]

def rlpParseShortBytes (src : List UInt8) : Option (List UInt8) := do
  let (b0, data) ← consume src 1
  let bb0 := b0.headD 0
  guard (bb0 < 0xc0)
  if bb0 < 0x80 then
    guard (src.length = 1)
    return src
  else if bb0 < 0xb8 then
    guard (data.length = bb0.toNat - 0x80)
    return data
  else none

/-! ## RLP strings -/

/-- A string with its encoding, and where its data starts in it. -/
structure RlpSlice where
  fullEncoding : List UInt8
  rawDataOffset : Nat
  deriving DecidableEq, Repr

namespace RlpSlice

def empty : RlpSlice := ⟨emptySliceEncoding, 1⟩

def data (s : RlpSlice) : List UInt8 := s.fullEncoding.drop s.rawDataOffset

def isEmpty (s : RlpSlice) : Bool := s.rawDataOffset = s.fullEncoding.length

/-- The slice between `data` and what is left of it. -/
def upTo (data rest : List UInt8) (rawDataOffset : Nat) : RlpSlice × List UInt8 :=
  (⟨data.take (data.length - rest.length), rawDataOffset⟩, rest)

def parse (data : List UInt8) : Option (RlpSlice × List UInt8) := do
  let (b0, rest) ← consume data 1
  let bb0 := b0.headD 0
  -- it can not be a list
  guard (bb0 < 0xc0)
  if bb0 < 0x80 then return upTo data rest 0
  else if bb0 < 0xb8 then
    let (_, rest) ← consume rest (bb0.toNat - 0x80)
    return upTo data rest 1
  else
    let lengthEncodingLength := bb0.toNat - 0xb7
    let (lengthEncodingBytes, rest) ← consume rest lengthEncodingLength
    guard (lengthEncodingBytes.length ≤ 2)
    let (_, rest) ← consume rest (beNat lengthEncodingBytes)
    return upTo data rest (1 + lengthEncodingLength)

end RlpSlice

/-! ## Nodes -/

/-- A stable index of a node or of a value in a branch. -/
inductive NodeType where
  | empty
  | leaf (index : Nat)
  | extension (index : Nat)
  | branch (index : Nat)
  | unreferencedValueInBranch (index : Nat)
  | unlinked
  | terminalValueInBranch (index : Nat)
  | opaqueNontrivialRoot
  deriving DecidableEq, Repr

structure LeafNode where
  pathSegment : List UInt8
  parentNode : NodeType
  rawNibblesEncoding : List UInt8
  value : RlpSlice
  deriving DecidableEq, Repr

structure ExtensionNode where
  pathSegment : List UInt8
  parentNode : NodeType
  childNode : NodeType
  rawNibblesEncoding : List UInt8
  nextNodeKey : RlpSlice
  deriving DecidableEq, Repr

structure OpaqueValue where
  parentNode : NodeType
  branchIndex : Nat
  encoding : RlpSlice
  deriving DecidableEq, Repr

structure BranchNode where
  parentNode : NodeType
  childNodes : List NodeType
  deriving DecidableEq, Repr

inductive ParsedNode where
  | leaf (node : LeafNode)
  | extension (node : ExtensionNode)
  | branch (node : BranchNode)
  deriving DecidableEq, Repr

/-- At most `count` strings up to the end of `data`. -/
def parsePieces : Nat → List UInt8 → Option (List RlpSlice × List UInt8)
  | 0, data => some ([], data)
  | count + 1, data => do
    let (piece, data) ← RlpSlice.parse data
    if data = [] then return ([piece], [])
    else
      let (pieces, data) ← parsePieces count data
      return (piece :: pieces, data)

/-- The strings of a list without its header. -/
def listPayload (raw : List UInt8) : Option (List UInt8) := do
  let (b0, data) ← consume raw 1
  let b0 := b0.headD 0
  guard (0xc0 ≤ b0)
  if b0 < 0xf8 then
    guard (data.length = b0.toNat - 0xc0)
    return data
  else
    let (lengthEncodingBytes, data) ← consume data (b0.toNat - 0xf7)
    guard (lengthEncodingBytes.length ≤ 2)
    guard (data.length = beNat lengthEncodingBytes)
    return data

/-- The pieces that are filled. -/
def parseInitial (raw : List UInt8) : Option (List RlpSlice) := do
  guard (3 ≤ raw.length)
  let data ← listPayload raw
  let (pieces, data) ← parsePieces 17 data
  guard (data = [])
  return pieces

def nibblesOf (b : UInt8) : List UInt8 := [b >>> 4, b &&& 0x0f]

/-- The nibbles and whether they belong to a leaf. -/
def internNibbles (nibblesEncoding : List UInt8) : Option (List UInt8 × Bool) :=
  match nibblesEncoding with
  | [] => none
  | b :: rest => do
    let t := b >>> 4
    if t = 0 ∨ t = 2 then
      guard (b &&& 0x0f = 0)
      return (rest.flatMap nibblesOf, t = 2)
    else if t = 1 ∨ t = 3 then return ((b &&& 0x0f) :: rest.flatMap nibblesOf, t = 3)
    else none

/-- `parse_node_from_bytes`, with the pieces -/
def parseNodeFromBytes (raw : List UInt8) : Option (ParsedNode × List RlpSlice) := do
  let pieces ← parseInitial raw
  match pieces with
  | [nibblesEncoding, value] => do
    let (pathSegment, isLeaf) ← internNibbles nibblesEncoding.data
    if isLeaf then
      return (.leaf ⟨pathSegment, .unlinked, nibblesEncoding.fullEncoding, value⟩, pieces)
    else
      return (.extension ⟨pathSegment, .unlinked, .unlinked, nibblesEncoding.fullEncoding, value⟩, pieces)
  | _ => do
    guard (pieces.length = 17)
    -- a branch has no value of its own
    guard ((pieces.getD 16 .empty).isEmpty)
    guard (2 ≤ pieces.countP fun piece => !piece.isEmpty)
    guard (∀ piece ∈ pieces.take 16, piece.data.length ≤ 32)
    return (.branch ⟨.unlinked, List.replicate 16 .unlinked⟩, pieces)

/-! ## Paths -/

/-- Follow a segment if the path starts with it. -/
def follow (path segment : List UInt8) : Option (Bool × List UInt8) :=
  if path.length < segment.length then none
  else if segment <+: path then some (true, path.drop segment.length)
  else some (false, path)

/-- How many nibbles of the segment the path starts with. -/
def commonPrefixLen : List UInt8 → List UInt8 → Nat
  | a :: segment, b :: path => if a = b then commonPrefixLen segment path + 1 else 0
  | _, _ => 0

def followCommonPrefix (path segment : List UInt8) : Option (Nat × List UInt8) :=
  if path.length < segment.length then none
  else some (commonPrefixLen segment path, path.drop (commonPrefixLen segment path))

def takeBranch : List UInt8 → Option (Nat × List UInt8)
  | [] => none
  | t :: path => some (t.toNat, path)

end ZkOs.Mpt
