import ZkOs.Tree.Backing

/-!
# Verifying a batch of reads and writes against the root

`verify_and_apply_batch` knows the root and the next free slot only.  It asks an oracle for positions, leaves and
paths, collects them in two caches, links the new leaves, and then computes the old and the new root in one pass that
joins all paths level by level.

* `WarmStorageValue`, `BatchOracle`, `Caches` : the entries, the oracle and the caches;
* `verifyRead`, `applyWrite` : one entry, `relink` : the pointers of the new leaves and of those before them;
* `HashEntry`, `mergeLoop`, `mergeLevels` : the digests of one level and the pass over the levels;
* `verifyAndApplyBatch` : the whole call.

`none` is a panic.
-/

namespace ZkOs.Tree

/-- The fields of a cached slot that the batch reads. -/
structure WarmStorageValue where
  initialValue : Bytes32
  currentValue : Bytes32
  initialValueUsed : Bool
  isNewStorageSlot : Bool
  deriving DecidableEq, Repr

structure FlatStorageCommitment (D : Type) where
  root : D
  nextFreeSlot : Nat
  deriving DecidableEq

structure LeafUpdateRecord where
  value : Option Bytes32
  next : Option Nat
  deriving DecidableEq, Repr

def LeafUpdateRecord.setNext (r : LeafUpdateRecord) (next : Nat) : Option LeafUpdateRecord := do
  guard (r.next = none)
  return { r with next := some next }

/-- An oracle: its answers depend on how many queries it has answered.  They are deserialized as `u64`. -/
structure BatchOracle (D : Type) (n : Nat) where
  prevIndex : Nat → Bytes32 → Nat
  index : Nat → Bytes32 → Nat
  proof : Nat → Nat → LeafProof D n
  prevIndex_lt : ∀ asked key, prevIndex asked key < 2 ^ 64
  index_lt : ∀ asked key, index asked key < 2 ^ 64
  next_lt : ∀ asked i, (proof asked i).leaf.next < 2 ^ 64

/-- `key_to_index_cache` and `index_to_leaf_cache`, with the number of queries so far. -/
structure Caches (D : Type) (n : Nat) where
  keyToIndex : OrderedMap Bytes32 Nat
  indexToLeaf : OrderedMap Nat (LeafProof D n × Option LeafUpdateRecord)
  asked : Nat

variable {D : Type} {n : Nat}

namespace Caches

def empty : Caches D n := ⟨.empty, .empty, 0⟩

/-- A key that is not in the cache yet. -/
def insertKey (c : Caches D n) (key : Bytes32) (index : Nat) : Option (Caches D n) := do
  guard (c.keyToIndex.get? key = none)
  return { c with keyToIndex := c.keyToIndex.insert key index }

def setLeaf (c : Caches D n) (index : Nat) (leaf : LeafProof D n) (modification : Option LeafUpdateRecord) :
    Caches D n :=
  { c with indexToLeaf := c.indexToLeaf.insert index (leaf, modification) }

def getProofForIndex (oracle : BatchOracle D n) (c : Caches D n) (index : Nat) : Option (LeafProof D n × Caches D n) := do
  let proof := oracle.proof c.asked index
  guard (proof.index = index)
  return (proof, { c with asked := c.asked + 1 })

/-- The leaf at `index`, from the cache or from the oracle.  `check` is made either way, `fresh` of an answer of the
oracle only. -/
def openLeaf (oracle : BatchOracle D n) (c : Caches D n) (index : Nat) (check fresh : FlatStorageLeaf → Bool) :
    Option (LeafProof D n × Caches D n) :=
  match c.indexToLeaf.get? index with
  | some (proof, _) => do
    guard (check proof.leaf)
    return (proof, c)
  | none => do
    let (proof, c) ← getProofForIndex oracle c index
    guard (check proof.leaf)
    guard (fresh proof.leaf)
    let c ← c.insertKey proof.leaf.key index
    return (proof, c.setLeaf index proof none)

def openNeighbours (oracle : BatchOracle D n) (saved : Nat) (c : Caches D n) (flatKey : Bytes32) :
    Option (Caches D n) := do
  let previousIdx := oracle.prevIndex c.asked flatKey
  let c := { c with asked := c.asked + 1 }
  guard (previousIdx < saved)
  let (previous, c) ← openLeaf oracle c previousIdx (fun leaf => leaf.key < flatKey) (fun leaf => leaf.next < saved)
  let (_, c) ← openLeaf oracle c previous.leaf.next (fun leaf => flatKey < leaf.key) (fun _ => true)
  return c

end Caches

/-! ## The entries -/

def verifyRead (oracle : BatchOracle D n) (saved : Nat) (c : Caches D n) (flatKey : Bytes32) (value : WarmStorageValue) :
    Option (Caches D n) := do
  guard value.initialValueUsed
  if value.isNewStorageSlot then
    guard (value.initialValue = 0)
    c.openNeighbours oracle saved flatKey
  else
    let index := oracle.index c.asked flatKey
    let c := { c with asked := c.asked + 1 }
    let (_, c) ← c.openLeaf oracle index (fun leaf => leaf.key = flatKey ∧ leaf.value = value.currentValue) (fun _ => true)
    return c

/-- The caches, the new leaves by position, and the counter. -/
structure Writes (D : Type) (n : Nat) where
  caches : Caches D n
  newWrites : List (Nat × FlatStorageLeaf)
  nextFreeSlot : Nat

def applyWrite (oracle : BatchOracle D n) (saved : Nat) (w : Writes D n) (flatKey : Bytes32) (value : WarmStorageValue) :
    Option (Writes D n) :=
  if value.isNewStorageSlot then do
    let c ← w.caches.openNeighbours oracle saved flatKey
    let index := w.nextFreeSlot
    let c ← c.insertKey flatKey index
    return {
      caches := c
      newWrites := w.newWrites ++ [(index, ⟨flatKey, value.currentValue, 0⟩)]
      nextFreeSlot := (w.nextFreeSlot + 1) % 2 ^ 64 }
  else
    match w.caches.keyToIndex.get? flatKey with
    | some existingIndex => do
      let (proof, modification) ← w.caches.indexToLeaf.get? existingIndex
      guard (proof.leaf.key = flatKey)
      guard (proof.leaf.value = value.initialValue)
      guard (modification = none)
      return { w with caches := w.caches.setLeaf existingIndex proof (some ⟨some value.currentValue, none⟩) }
    | none => do
      let index := oracle.index w.caches.asked flatKey
      let c := { w.caches with asked := w.caches.asked + 1 }
      let (proof, c) ← c.getProofForIndex oracle index
      guard (proof.leaf.key = flatKey)
      guard (proof.leaf.value = value.initialValue)
      let c ← c.insertKey proof.leaf.key index
      guard (c.indexToLeaf.get? index = none)
      return { w with caches := c.setLeaf index proof (some ⟨some value.currentValue, none⟩) }

/-! ## The links -/

/-- The leaves of the caches and the new leaves, while they are linked. -/
structure Leaves (D : Type) (n : Nat) where
  indexToLeaf : OrderedMap Nat (LeafProof D n × Option LeafUpdateRecord)
  newWrites : List (Nat × FlatStorageLeaf)

/-- The checks of a leaf at the end of the list, which is one of the tree: a guard is not modified. -/
def checkGuard (l : Leaves D n) (index marker : Nat) (key : Bytes32) : Option Unit := do
  let (proof, modification) ← l.indexToLeaf.get? index
  if index = marker then
    guard (modification = none)
    guard (proof.leaf.key = key)

/-- The record of the first leaf, with the pointer to the second. -/
def linkFirstRecord (modification : Option LeafUpdateRecord) (secondIndex : Nat) : Option LeafUpdateRecord :=
  match modification with
  | some modification => modification.setNext secondIndex
  | none => some ⟨none, some secondIndex⟩

/-- The first leaf, which is one of the tree, and the leaf after it. -/
def linkFirst (saved : Nat) (l : Leaves D n) (firstIndex secondIndex : Nat) : Option (Leaves D n) := do
  let (proof, modification) ← l.indexToLeaf.get? firstIndex
  -- two old leaves are not linked, there may be others between them
  if saved ≤ secondIndex then
    let modification ← linkFirstRecord modification secondIndex
    return { l with indexToLeaf := l.indexToLeaf.insert firstIndex (proof, some modification) }
  else return l

/-- The record of another leaf, with the pointer to the next one unless it is there already. -/
def linkNextRecord (leaf : FlatStorageLeaf) (modification : Option LeafUpdateRecord) (nextIndex : Nat) :
    Option LeafUpdateRecord :=
  if leaf.next ≠ nextIndex then (modification.getD ⟨none, none⟩).setNext nextIndex
  else some (modification.getD ⟨none, none⟩)

/-- One round of the loop over the keys: the leaf at `currentIndex` and the one after it. -/
def linkNext (saved : Nat) (l : Leaves D n) (currentIndex nextIndex : Nat) : Option (Leaves D n) :=
  match l.indexToLeaf.get? currentIndex with
  | some (proof, modification) =>
    if saved ≤ nextIndex then do
      let modification ← linkNextRecord proof.leaf modification nextIndex
      return { l with indexToLeaf := l.indexToLeaf.insert currentIndex (proof, some modification) }
    else some l
  | none => do
    let idx := currentIndex - saved
    let (expectedTreeIndex, leaf) ← l.newWrites[idx]?
    guard (expectedTreeIndex = currentIndex)
    return { l with newWrites := l.newWrites.set idx (expectedTreeIndex, { leaf with next := nextIndex }) }

/-- The loop over the positions in the order of the keys, from the second on; it ends with the last position. -/
def linkRest (saved : Nat) : Leaves D n → Nat → List Nat → Option (Leaves D n × Nat)
  | l, currentIndex, [] => some (l, currentIndex)
  | l, currentIndex, nextIndex :: rest => do
    let l ← linkNext saved l currentIndex nextIndex
    linkRest saved l nextIndex rest

/-- The leaves are linked in the order of their keys; `indices` are their positions in that order. -/
def relink (saved : Nat) (l : Leaves D n) (indices : List Nat) : Option (Leaves D n) :=
  match indices with
  | firstIndex :: secondIndex :: rest => do
    checkGuard l firstIndex minKeyLeafMarkerIdx 0
    let l ← linkFirst saved l firstIndex secondIndex
    let (l, lastIndex) ← linkRest saved l secondIndex rest
    checkGuard l lastIndex maxKeyLeafMarkerIdx maxKey
    return l
  | _ => none

/-- The rightmost leaf, whose path is needed to append others. -/
def openRightmost (oracle : BatchOracle D n) (saved asked : Nat) (l : Leaves D n) : Option (Leaves D n) :=
  match l.indexToLeaf.get? (saved - 1) with
  | some _ => some l
  | none => do
    let proof := oracle.proof asked (saved - 1)
    guard (proof.index = saved - 1)
    return { l with indexToLeaf := l.indexToLeaf.insert (saved - 1) (proof, none) }

/-! ## The digests -/

/-- A node on a path: its index on the level, the leaf that it was first computed from, its digest before and after
the writes. -/
structure HashEntry (D : Type) where
  index : Nat
  leafIndex : Nat
  read : Option D
  write : Option D
  deriving DecidableEq

def updatedLeaf (leaf : FlatStorageLeaf) (modification : LeafUpdateRecord) : FlatStorageLeaf :=
  { leaf with value := modification.value.getD leaf.value, next := modification.next.getD leaf.next }

variable (h : FlatStorageHasher D)

def hashEntries (l : Leaves D n) : List (HashEntry D) :=
  (l.indexToLeaf.entries.map fun e =>
    ⟨e.1, e.1, some (h.hashLeaf e.2.1.leaf), e.2.2.map fun m => h.hashLeaf (updatedLeaf e.2.1.leaf m)⟩) ++
  l.newWrites.map fun e => ⟨e.1, e.1, none, some (h.hashLeaf e.2)⟩

def LeafProof.sibling (proof : LeafProof D n) (level : Nat) : Option D :=
  if hlevel : level < n then some (proof.path ⟨level, hlevel⟩) else none

def processSingle (l : Leaves D n) (level : Nat) (a : HashEntry D) : Option (HashEntry D) := do
  let proof ←
    match l.indexToLeaf.get? a.leafIndex with
    | some (leaf, _) => leaf.sibling level
    | none => some (emptyHash h level)
  return {
    index := a.index / 2
    leafIndex := a.leafIndex
    read := a.read.map fun d => Merkle.join h.hashNode a.index d proof
    write := a.write.map fun d => Merkle.join h.hashNode a.index d proof }

/-- Two paths that converge, `a` as the left child. -/
def mergePair (saved level : Nat) (a b : HashEntry D) : Option (HashEntry D) := do
  let emptyPath := emptyHash h level
  let aRead := a.read.getD emptyPath
  let bRead := b.read.getD emptyPath
  let read := if a.read.isSome ∨ b.read.isSome then some (h.hashNode aRead bRead) else none
  if read.isNone then
    guard (saved ≤ a.leafIndex)
    guard (saved ≤ b.leafIndex)
  let write :=
    if a.write.isSome ∨ b.write.isSome then some (h.hashNode (a.write.getD aRead) (b.write.getD bRead)) else none
  if write.isNone then guard read.isSome
  return { index := a.index / 2, leafIndex := a.leafIndex, read, write }

def mergeLoop (l : Leaves D n) (saved level : Nat) : List (HashEntry D) → Option (List (HashEntry D))
  | [] => some []
  | [a] => do
    let a ← processSingle h l level a
    return [a]
  | a :: b :: rest => do
    guard (a.index ≠ b.index)
    if a.index / 2 = b.index / 2 then
      let merged ← mergePair h saved level a b
      -- the window that starts with `b` is skipped
      let rest ← mergeLoop l saved level rest
      return merged :: rest
    else
      let a ← processSingle h l level a
      let rest ← mergeLoop l saved level (b :: rest)
      return a :: rest

def mergeLevels (l : Leaves D n) (saved : Nat) : Nat → Nat → List (HashEntry D) → Option (List (HashEntry D))
  | 0, _, buffer => some buffer
  | levels + 1, level, buffer => do
    guard (buffer ≠ [])
    let buffer ← mergeLoop h l saved level buffer
    mergeLevels l saved levels (level + 1) buffer

/-! ## The whole call -/

variable {Key : Type} (flatKey : Key → Bytes32)

def isRead (e : Key × WarmStorageValue) : Bool := e.2.currentValue = e.2.initialValue

def verifyReads (oracle : BatchOracle D n) (saved : Nat) (source : List (Key × WarmStorageValue)) : Option (Caches D n) :=
  (source.filter isRead).foldlM (fun c e => verifyRead oracle saved c (flatKey e.1) e.2) .empty

def applyWrites (oracle : BatchOracle D n) (saved : Nat) (c : Caches D n) (source : List (Key × WarmStorageValue)) :
    Option (Writes D n) :=
  (source.filter fun e => !isRead e).foldlM (fun w e => applyWrite oracle saved w (flatKey e.1) e.2) ⟨c, [], saved⟩

/-- How many entries of the batch are reads of slots that are new. -/
def numNonexistingReads (source : List (Key × WarmStorageValue)) : Nat :=
  source.countP fun e => isRead e && e.2.isNewStorageSlot

def numNewWrites (source : List (Key × WarmStorageValue)) : Nat :=
  source.countP fun e => !isRead e && e.2.isNewStorageSlot

def numTotalWrites (source : List (Key × WarmStorageValue)) : Nat := source.countP fun e => !isRead e

/-- The links, and the leaf that new ones are appended to. -/
def adjustIndexes (oracle : BatchOracle D n) (saved : Nat) (w : Writes D n) (source : List (Key × WarmStorageValue)) :
    Option (Leaves D n) :=
  let l : Leaves D n := ⟨w.caches.indexToLeaf, w.newWrites⟩
  if numNonexistingReads source + numNewWrites source = 0 then some l
  else do
    let l ← relink saved l (w.caches.keyToIndex.entries.map Prod.snd)
    if 0 < numNewWrites source then openRightmost oracle saved w.caches.asked l else some l

def verifyAndApplyBatch [DecidableEq D] (oracle : BatchOracle D n) (commitment : FlatStorageCommitment D)
    (source : List (Key × WarmStorageValue)) : Option (FlatStorageCommitment D) :=
  if source.isEmpty then some commitment
  else do
    let saved := commitment.nextFreeSlot
    let c ← verifyReads flatKey oracle saved source
    let w ← applyWrites flatKey oracle saved c source
    let l ← adjustIndexes oracle saved w source
    let buffer ← mergeLevels h l saved n 0 (hashEntries h l)
    match buffer with
    | [a] => do
      guard (a.read = some commitment.root)
      match a.write with
      | some newRoot =>
        if 0 < numTotalWrites source then guard (newRoot ≠ commitment.root)
        return ⟨newRoot, w.nextFreeSlot⟩
      | none =>
        guard (numNewWrites source = 0)
        return ⟨commitment.root, w.nextFreeSlot⟩
    | _ => none

end ZkOs.Tree
