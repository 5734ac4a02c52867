import ZkOs.Lib.MerkleTree
import ZkOs.Lib.OrderedMap
import ZkOs.State.Basic
import Mathlib.Data.List.Sort

/-!
# The tree that holds the flat storage

The storage is a binary hash tree of depth `n` over an array of leaves.  A leaf holds a key, a value and the
position of the leaf with the next key; two guard leaves hold the least and the greatest key.

* `FlatStorageLeaf`, `FlatStorageHasher`, `LeafProof`, `recomputeRootFromProof` : leaves and paths;
* `FlatStorageBacking` : the leaves, the digests of each level, and the positions by key;
* `newInWithLeaves`, `getProofForPosition`, `insertAtPosition`, `insert`, `getValue` : its operations.

`none` is a panic.  Digests are an arbitrary type, as the hasher is a parameter.
-/

namespace ZkOs.Tree

instance : LinearOrder Bytes32 where
  le_refl a := Nat.le_refl a.toNat
  le_trans a b c := Nat.le_trans (n := a.toNat) (m := b.toNat) (k := c.toNat)
  le_antisymm a b h h' := BitVec.eq_of_toNat_eq (Nat.le_antisymm h h')
  le_total a b := Nat.le_total a.toNat b.toNat
  lt_iff_le_not_ge a b := Nat.lt_iff_le_and_not_ge (m := a.toNat) (n := b.toNat)
  toDecidableLE := inferInstance
  toDecidableLT := inferInstance

def minKeyLeafMarkerIdx : Nat := 0

def maxKeyLeafMarkerIdx : Nat := 1

def maxKey : Bytes32 := BitVec.allOnes 256

theorem zero_le_key (k : Bytes32) : 0 ≤ k := Nat.zero_le k.toNat

theorem key_le_max (k : Bytes32) : k ≤ maxKey := by
  rw [BitVec.le_def, maxKey, BitVec.toNat_allOnes]
  exact Nat.le_sub_one_of_lt k.isLt

structure FlatStorageLeaf where
  key : Bytes32
  value : Bytes32
  next : Nat
  deriving DecidableEq, Repr

def FlatStorageLeaf.empty : FlatStorageLeaf := ⟨0, 0, 0⟩

structure FlatStorageHasher (D : Type) where
  hashLeaf : FlatStorageLeaf → D
  hashNode : D → D → D

/-- Digests that are the terms they hash, so that no two inputs share one. -/
inductive TermDigest where
  | leaf (leaf : FlatStorageLeaf)
  | node (left right : TermDigest)
  deriving DecidableEq

def termHasher : FlatStorageHasher TermDigest := ⟨.leaf, .node⟩

theorem termHasher_hashLeaf_injective : Function.Injective termHasher.hashLeaf := fun _ _ heq => TermDigest.leaf.inj heq

theorem termHasher_hashNode_injective : Function.Injective2 termHasher.hashNode :=
  fun _ _ _ _ heq => TermDigest.node.inj heq

/-- A leaf, its position and the siblings on the way to the root. -/
structure LeafProof (D : Type) (n : Nat) where
  index : Nat
  leaf : FlatStorageLeaf
  path : Fin n → D
  deriving DecidableEq

variable {D : Type} [DecidableEq D] {n : Nat} (h : FlatStorageHasher D)

omit [DecidableEq D] in
def recomputeRootFromProof (proof : LeafProof D n) : Option D := do
  -- the index after a shift per level
  guard (proof.index / 2 ^ n = 0)
  return Merkle.climb h.hashNode proof.index (h.hashLeaf proof.leaf) (List.ofFn proof.path)

def verifyProofForRoot (proof : LeafProof D n) (root : D) : Option Bool := do
  let computed ← recomputeRootFromProof h proof
  return decide (computed = root)

def emptyHash : Nat → D
  | 0 => h.hashLeaf .empty
  | k + 1 => h.hashNode (emptyHash k) (emptyHash k)

/-- The digests of each level by their index. -/
abbrev HashesStore (D : Type) := OrderedMap Nat (OrderedMap Nat D)

structure FlatStorageBacking (D : Type) (n : Nat) where
  leaves : OrderedMap Nat FlatStorageLeaf
  /-- By depth: the root first, the empty leaf last. -/
  emptyHashes : List D
  /-- By depth and index. -/
  hashes : HashesStore D
  nextFreeSlot : Nat
  keyLookup : OrderedMap Bytes32 Nat
  deriving DecidableEq

/-- How the crate is built: with the feature `testing`, and the parameter `RANDOMIZED`. -/
structure Build where
  testing : Bool
  randomized : Bool
  deriving DecidableEq, Repr

namespace FlatStorageBacking

/-! ## Construction -/

/-- `initial_positions`; `draw` are the random positions, in the order the set gives them out. -/
def initialPositions (build : Build) (draw : List Nat) (len : Nat) : List Nat × Nat :=
  if build.testing && build.randomized then (draw, draw.foldl max 1 + 1)
  else ((List.range len).map (· + 2), len + 2)

def startGuard (positions : List Nat) : FlatStorageLeaf :=
  ⟨0, 0, match positions with | [] => 1 | first :: _ => first⟩

def endGuard : FlatStorageLeaf := ⟨maxKey, 0, 1⟩

def windows (xs : List Nat) : List (Nat × Nat) := xs.zip xs.tail

/-- The leaf for a pair, at the first position of a window. -/
def windowLeaf (p : Nat × Nat) (pair : Bytes32 × Bytes32) : FlatStorageLeaf :=
  ⟨pair.1, pair.2, if p.2 = 0 then 1 else p.1⟩

/-- The leaves: the guards, and one for each pair. -/
def initialLeaves (positions : List Nat) (pairs : List (Bytes32 × Bytes32)) : OrderedMap Nat FlatStorageLeaf :=
  -- the `0` at the end marks the last window
  ((windows (positions ++ [0])).zip pairs).foldl (fun leaves e => leaves.insert e.1.1 (windowLeaf e.1 e.2))
    ((OrderedMap.empty.insert 0 (startGuard positions)).insert 1 endGuard)

/-- The digests of empty subtrees by depth, for a tree of depth `k`. -/
def initialEmptyHashes : Nat → List D
  | 0 => [emptyHash h 0]
  | k + 1 => emptyHash h (k + 1) :: initialEmptyHashes k

/-- The level above `level`, where `empty` stands for a missing digest. -/
def parentLevel (empty : D) (level : OrderedMap Nat D) : OrderedMap Nat D :=
  level.entries.foldl
    (fun parents e =>
      let parent :=
        if e.1 % 2 = 0 then h.hashNode e.2 ((level.get? (e.1 + 1)).getD empty)
        else h.hashNode ((level.get? (e.1 - 1)).getD empty) e.2
      parents.insert (e.1 / 2) parent)
    .empty

/-- The levels above depth `d`, up to the root. -/
def fillLevels (emptyHashes : List D) : Nat → HashesStore D → Option (HashesStore D)
  | 0, hashes => some hashes
  | d + 1, hashes => do
    let nextLevel ← hashes.get? (d + 1)
    let empty ← emptyHashes[d + 1]?
    fillLevels emptyHashes d (hashes.insert d (parentLevel h empty nextLevel))

def leafHashes (leaves : OrderedMap Nat FlatStorageLeaf) : OrderedMap Nat D :=
  leaves.entries.foldl (fun hashes e => hashes.insert e.1 (h.hashLeaf e.2)) .empty

def newInWithLeaves (n : Nat) (build : Build) (draw : List Nat) (pairs : List (Bytes32 × Bytes32)) :
    Option (FlatStorageBacking D n) := do
  let (positions, next) := initialPositions build draw pairs.length
  let pairs := pairs.insertionSort fun a b => a.1 ≤ b.1
  let leaves := initialLeaves positions pairs
  let emptyHashes := initialEmptyHashes h n
  let hashes ← fillLevels h emptyHashes n (OrderedMap.empty.insert n (leafHashes h leaves))
  let guards := (OrderedMap.empty.insert (startGuard positions).key 0).insert endGuard.key 1
  let keyLookup := leaves.entries.foldl (fun lookup e => lookup.insert e.2.key e.1) guards
  return { leaves, emptyHashes, hashes, nextFreeSlot := next, keyLookup }

/-! ## Reading -/

def root (b : FlatStorageBacking D n) : Option D := do
  let level ← b.hashes.get? 0
  level.get? 0

def verifyProof (b : FlatStorageBacking D n) (proof : LeafProof D n) : Option Bool := do
  let root ← b.root
  verifyProofForRoot h proof root

/-- The siblings of `index` and of the nodes above it, from depth `d` to the root. -/
def siblings (b : FlatStorageBacking D n) : Nat → Nat → Option (List D)
  | 0, _ => some []
  | d + 1, index => do
    let level ← b.hashes.get? (d + 1)
    let empty ← b.emptyHashes[d + 1]?
    let rest ← siblings b d (index / 2)
    return (level.get? (index ^^^ 1)).getD empty :: rest

/-- `get_proof_for_position`, with its debug assertion. -/
def getProofForPosition (b : FlatStorageBacking D n) (position : Nat) : Option (LeafProof D n) := do
  let leaf := (b.leaves.get? position).getD .empty
  let path ← siblings b n position
  guard (position / 2 ^ n = 0)
  if hpath : path.length = n then
    let proof : LeafProof D n := { index := position, leaf, path := fun i => path.get (i.cast hpath.symm) }
    let verified ← b.verifyProof h proof
    guard verified
    return proof
  else none

def getValue (b : FlatStorageBacking D n) (key : Bytes32) : Option (Option Bytes32) :=
  match b.keyLookup.get? key with
  | none => some none
  | some existing => do
    let leaf ← b.leaves.get? existing
    return some leaf.value

def getIndexForExisting (b : FlatStorageBacking D n) (key : Bytes32) : Option Nat := b.keyLookup.get? key

def getPrevIndex (b : FlatStorageBacking D n) (key : Bytes32) : Option Nat := (b.keyLookup.lastLE? key).map Prod.snd

/-! ## Insertion -/

def maxPosition (n : Nat) : Nat := if 2 ^ n < 2 ^ 64 then 2 ^ n else 2 ^ 64 - 1

/-- `new_position`; `draw` is the position that the random loop ends with. -/
def newPosition (build : Build) (draw : Nat) (b : FlatStorageBacking D n) : Option (Nat × FlatStorageBacking D n) :=
  if build.testing then
    if build.randomized then do
      guard (draw < maxPosition n ∧ b.leaves.get? draw = none)
      if b.nextFreeSlot < draw then
        guard (b.leaves.get? (draw + 1) = none)
        return (draw, { b with nextFreeSlot := draw + 1 })
      else return (draw, b)
    else some (b.nextFreeSlot, { b with nextFreeSlot := b.nextFreeSlot + 1 })
  else some (b.nextFreeSlot + 1, b)

/-- The first half of `insert_at_position`: the leaf, its digest and its key are stored. -/
def storeLeaf (build : Build) (b : FlatStorageBacking D n) (position : Nat) (leaf : FlatStorageLeaf) :
    Option (FlatStorageBacking D n) := do
  let leafHashes ← b.hashes.get? n
  match b.leaves.get? position with
  | some existing =>
    guard (build.randomized ∨ position < b.nextFreeSlot)
    guard (existing.key = leaf.key)
    let _ ← leafHashes.get? position
    return { b with
      leaves := b.leaves.insert position leaf
      hashes := b.hashes.insert n (leafHashes.insert position (h.hashLeaf leaf)) }
  | none =>
    guard (build.randomized ∨ position + 1 = b.nextFreeSlot)
    let leaves := b.leaves.insert position leaf
    guard (build.randomized ∨ leaves.size = position + 1)
    let leafHashes := leafHashes.insert position (h.hashLeaf leaf)
    guard (build.randomized ∨ leafHashes.size = position + 1)
    let keyLookup := b.keyLookup.insert leaf.key position
    guard (build.randomized ∨ keyLookup.size = position + 1)
    return { b with leaves, hashes := b.hashes.insert n leafHashes, keyLookup }

/-- The digests above `index` at depth `d`, where `current` was put, are computed anew. -/
def rehash (emptyHashes : List D) : Nat → Nat → D → HashesStore D → Option (HashesStore D × Nat)
  | 0, index, _, hashes => some (hashes, index)
  | d + 1, index, current, hashes => do
    let level ← hashes.get? (d + 1)
    let empty ← emptyHashes[d + 1]?
    let siblingHash := (level.get? (index ^^^ 1)).getD empty
    let newHash := if index % 2 = 0 then h.hashNode current siblingHash else h.hashNode siblingHash current
    let parentLevel ← hashes.get? d
    rehash emptyHashes d (index / 2) newHash (hashes.insert d (parentLevel.insert (index / 2) newHash))

def insertAtPosition (build : Build) (b : FlatStorageBacking D n) (position : Nat) (leaf : FlatStorageLeaf) :
    Option (FlatStorageBacking D n) := do
  let b ← storeLeaf h build b position leaf
  let (hashes, index) ← rehash h b.emptyHashes n position (h.hashLeaf leaf) b.hashes
  guard (index = 0)
  return { b with hashes }

end FlatStorageBacking

inductive WriteValueWithProof (D : Type) (n : Nat) where
  | existing (proof : LeafProof D n)
  | new (previous next newInsert : LeafProof D n)
  deriving DecidableEq

namespace FlatStorageBacking

def insert (build : Build) (draw : Nat) (b : FlatStorageBacking D n) (key value : Bytes32) :
    Option (FlatStorageBacking D n × WriteValueWithProof D n) :=
  match b.keyLookup.get? key with
  | some existingPos => do
    let existing ← b.getProofForPosition h existingPos
    let existingLeaf ← b.leaves.get? existingPos
    let b ← b.insertAtPosition h build existingPos { existingLeaf with key, value }
    return (b, .existing existing)
  | none => do
    let (_, previousPos) ← b.keyLookup.lastLE? key
    let (_, nextPos) ← b.keyLookup.firstGE? key
    let (insertPos, b) ← newPosition build draw b
    let previous ← b.getProofForPosition h previousPos
    let b ← b.insertAtPosition h build previousPos { previous.leaf with next := insertPos }
    let next ← b.getProofForPosition h nextPos
    let nextPosProof ← b.getProofForPosition h insertPos
    guard (nextPosProof.leaf = .empty)
    let b ← b.insertAtPosition h build insertPos { key, value, next := nextPos }
    return (b, .new previous next nextPosProof)

end FlatStorageBacking

end ZkOs.Tree
