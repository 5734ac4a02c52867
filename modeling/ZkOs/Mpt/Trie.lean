import ZkOs.Lib.Action
import ZkOs.Mpt.Node

/-!
# Reading the Ethereum trie

Model of `mpt/trie.rs`.  The trie keeps the nodes that it has seen in an arena.  A read descends through these nodes,
and from the first missing one on through nodes that it asks a preimage oracle for.

* `EthereumMpt` : the arena with its caches, `newIn` : a trie that knows the root hash only;
* `Env` : the answers of the oracle and of the interner;
* `descendThroughExistingNodes`, `descendThroughProof` : one step, `linkIfNeeded` : a node in its parent's slot;
* `get` : the read.

The hash is a parameter.  Nothing is undone by an error.
-/

namespace ZkOs.Mpt

/-- How a read fails: with the error `()`, with a panic, or in a loop that takes more rounds than a path allows. -/
inductive Fail where
  | err
  | panic
  | fuel
  deriving DecidableEq, Repr

structure EthereumMpt where
  root : NodeType
  internedRootNodeKey : List UInt8
  leafNodes : List LeafNode
  extensionNodes : List ExtensionNode
  branchNodes : List BranchNode
  branchUnreferencedValues : List OpaqueValue
  branchTerminalValues : List OpaqueValue
  preimagesCache : List UInt8 → Option (List UInt8)
  keysCache : NodeType → Option (List UInt8)

/-- The answers that a call gets: preimages by hash, and whether there is a buffer of a capacity. -/
structure Env where
  providePreimage : List UInt8 → Option (List UInt8)
  getBuffer : EthereumMpt → Nat → Bool

/-- `new_in`; `buffer` says whether the interner has one. -/
def newIn (rootHash : List UInt8) (buffer : Bool) : Option EthereumMpt := do
  let root := if rootHash = emptyRootHash then NodeType.empty else .opaqueNontrivialRoot
  guard (root = .empty ∨ buffer)
  let internedRootNodeKey := if root = .empty then emptySliceEncoding else 0xa0 :: rootHash
  return {
    root, internedRootNodeKey
    leafNodes := []
    extensionNodes := []
    branchNodes := []
    branchUnreferencedValues := []
    branchTerminalValues := []
    preimagesCache := fun _ => none
    keysCache := fun _ => none }

abbrev Call := Action Fail EthereumMpt

/-! ## Nodes that are there -/

inductive DescendPath where
  | pathDiverged (alternativeNode : NodeType) (commonPrefixLen : Nat)
  | emptyBranchTaken (branchNode : NodeType) (branchIndex : Nat)
  | follow (nextNode : NodeType)
  | leafReached (finalNode : NodeType) (value : RlpSlice)
  | branchReached (finalBranchNode : NodeType) (branchIndex : Nat) (value : RlpSlice)
  | unreferencedPathEncountered (lastKnownNode : NodeType) (branchIndex : Nat) (nextKey : RlpSlice)
  deriving DecidableEq, Repr

namespace EthereumMpt

/-- The branch `currentNode` at the child `branchIndex`, with the rest of the path. -/
def descendThroughBranch (mpt : EthereumMpt) (path : List UInt8) (currentNode : NodeType) (branchIndex : Nat) :
    NodeType → Except Fail DescendPath
  | .empty =>
    if path = [] then .ok (.branchReached currentNode branchIndex .empty)
    else .ok (.emptyBranchTaken currentNode branchIndex)
  | .terminalValueInBranch index =>
    if path = [] then
      match mpt.branchTerminalValues[index]? with
      | some value => .ok (.branchReached currentNode branchIndex value.encoding)
      | none => .error .panic
    else .error .err
  | .unreferencedValueInBranch index =>
    if path = [] then .error .err
    else
      match mpt.branchUnreferencedValues[index]? with
      | some value => .ok (.unreferencedPathEncountered currentNode branchIndex value.encoding)
      | none => .error .panic
  | .branch index => if path = [] then .error .err else .ok (.follow (.branch index))
  | .extension index => if path = [] then .error .err else .ok (.follow (.extension index))
  | .leaf index => if path = [] then .error .err else .ok (.follow (.leaf index))
  | .unlinked | .opaqueNontrivialRoot => .error .err

/-- `descend_through_existing_nodes`, with the rest of the path. -/
def descendThroughExistingNodes (mpt : EthereumMpt) (path : List UInt8) (currentNode : NodeType) :
    Except Fail (DescendPath × List UInt8) :=
  if 64 < path.length then .error .err
  else
    match currentNode with
    | .leaf index =>
      match mpt.leafNodes[index]? with
      | none => .error .panic
      | some existingLeaf =>
        match followCommonPrefix path existingLeaf.pathSegment with
        | none => .error .err
        | some (commonPrefixLen, path) =>
          if path = [] then .ok (.leafReached currentNode existingLeaf.value, path)
          else .ok (.pathDiverged currentNode commonPrefixLen, path)
    | .extension index =>
      match mpt.extensionNodes[index]? with
      | none => .error .panic
      | some existingExtension =>
        match followCommonPrefix path existingExtension.pathSegment with
        | none => .error .err
        | some (commonPrefixLen, path) =>
          -- an extension does not end a path
          if path = [] then .error .err
          else if commonPrefixLen = existingExtension.pathSegment.length then
            if existingExtension.childNode = .unlinked then
              .ok (.unreferencedPathEncountered currentNode 0 existingExtension.nextNodeKey, path)
            else .ok (.follow existingExtension.childNode, path)
          else .ok (.pathDiverged currentNode commonPrefixLen, path)
    | .branch index =>
      match mpt.branchNodes[index]? with
      | none => .error .panic
      | some existingBranch =>
        match takeBranch path with
        | none => .error .err
        | some (branchIndex, path) =>
          match existingBranch.childNodes[branchIndex]? with
          | none => .error .panic
          | some childNode => do
            let step ← descendThroughBranch mpt path currentNode branchIndex childNode
            return (step, path)
    | _ => .error .err

end EthereumMpt

/-- Where the descent through the nodes that are there ends: with a value, or at a slot whose node is missing. -/
inductive Descent where
  | found (value : List UInt8)
  | missing (node : NodeType) (branchIndex : Nat) (key : RlpSlice) (path : List UInt8)
  deriving DecidableEq, Repr

/-- The first loop of `get`. -/
def descendLoop (mpt : EthereumMpt) : Nat → List UInt8 → NodeType → Except Fail Descent
  | 0, _, _ => .error .fuel
  | fuel + 1, path, currentNode => do
    let (step, path) ← mpt.descendThroughExistingNodes path currentNode
    match step with
    | .pathDiverged _ _ | .emptyBranchTaken _ _ => return .found []
    | .leafReached _ value | .branchReached _ _ value => return .found value.data
    | .unreferencedPathEncountered node branchIndex key => return .missing node branchIndex key path
    | .follow nextNode => descendLoop mpt fuel path nextNode

/-! ## Nodes from the oracle -/

variable (keccak : List UInt8 → List UInt8) (env : Env)

def consultCacheOrOracle (key : List UInt8) : Call (List UInt8) := do
  if key.length < 32 then return key
  else if key.length = 32 then
    let mpt ← Action.get
    match mpt.preimagesCache key with
    | some known => return known
    | none =>
      match env.providePreimage key with
      | none => Action.throw .err
      | some new => do
        Action.require (keccak new = key) .panic
        Action.modify fun mpt => { mpt with preimagesCache := Function.update mpt.preimagesCache key (some new) }
        return new
  else Action.throw .err

/-- `parse_node_from_bytes`, with a buffer for the nibbles. -/
def parseNode (raw : List UInt8) : Call (ParsedNode × List RlpSlice) := do
  let mpt ← Action.get
  match parseNodeFromBytes raw with
  | none => Action.throw .err
  | some (.leaf leaf, pieces) => do
    Action.require (env.getBuffer mpt leaf.pathSegment.length) .err
    return (.leaf leaf, pieces)
  | some (.extension extension, pieces) => do
    Action.require (env.getBuffer mpt extension.pathSegment.length) .err
    return (.extension extension, pieces)
  | some (.branch branch, pieces) => return (.branch branch, pieces)

namespace EthereumMpt

/-- A node of the arena with the key that it was read by. -/
def pushLeaf (mpt : EthereumMpt) (leaf : LeafNode) : EthereumMpt :=
  { mpt with leafNodes := mpt.leafNodes ++ [leaf] }

def pushExtension (mpt : EthereumMpt) (extension : ExtensionNode) : EthereumMpt :=
  { mpt with extensionNodes := mpt.extensionNodes ++ [extension] }

def pushBranch (mpt : EthereumMpt) (branch : BranchNode) : EthereumMpt :=
  { mpt with branchNodes := mpt.branchNodes ++ [branch] }

def insertKey (mpt : EthereumMpt) (node : NodeType) (key : List UInt8) : EthereumMpt :=
  { mpt with keysCache := Function.update mpt.keysCache node (some key) }

end EthereumMpt

/-- The children of a new branch, the values with theirs, and the keys of the slots. -/
structure Children where
  nodes : List NodeType
  values : List OpaqueValue
  keysCache : NodeType → Option (List UInt8)

/-- The loop over the children of a new branch: a value for each that is not empty. -/
def allocateChildren (slot : Nat → NodeType) (parentNode : NodeType) : List RlpSlice → Nat → Children → Children
  | [], _, children => children
  | encoding :: pieces, branchIndex, children =>
    allocateChildren slot parentNode pieces (branchIndex + 1)
      (if encoding.isEmpty then { children with nodes := children.nodes ++ [.empty] }
      else {
        nodes := children.nodes ++ [slot children.values.length]
        values := children.values ++ [⟨parentNode, branchIndex, encoding⟩]
        keysCache :=
          Function.update children.keysCache (slot children.values.length) (some encoding.fullEncoding) })

namespace EthereumMpt

/-- The unreferenced values of a new branch. -/
def unreferencedChildren (mpt : EthereumMpt) (parentNode : NodeType) (pieces : List RlpSlice) : Children :=
  allocateChildren .unreferencedValueInBranch parentNode (pieces.take 16) 0
    ⟨[], mpt.branchUnreferencedValues, mpt.keysCache⟩

/-- The terminal values of a new branch. -/
def terminalChildren (mpt : EthereumMpt) (parentNode : NodeType) (pieces : List RlpSlice) : Children :=
  allocateChildren .terminalValueInBranch parentNode (pieces.take 16) 0
    ⟨[], mpt.branchTerminalValues, mpt.keysCache⟩

end EthereumMpt

def allocateRootNodeFromOracle (key : List UInt8) (parentNode : NodeType) : Call NodeType := do
  let raw ← consultCacheOrOracle keccak env key
  let (parsed, pieces) ← parseNode env raw
  let mpt ← Action.get
  match parsed with
  | .leaf leaf => do
    Action.require (leaf.pathSegment.length = 64) .panic
    Action.modify fun mpt => mpt.pushLeaf { leaf with parentNode }
    return .leaf mpt.leafNodes.length
  | .extension extension => do
    Action.require (extension.pathSegment.length = 64) .panic
    Action.modify fun mpt => mpt.pushExtension { extension with parentNode }
    return .extension mpt.extensionNodes.length
  | .branch _ => do
    let children := mpt.unreferencedChildren parentNode pieces
    Action.modify fun mpt =>
      { mpt with branchUnreferencedValues := children.values, keysCache := children.keysCache }.pushBranch
        ⟨parentNode, children.nodes⟩
    return .branch mpt.branchNodes.length

inductive AppendPath where
  | pathDiverged (allocatedNode : NodeType)
  | emptyBranchTaken (allocatedNode : NodeType)
  | follow (allocatedNode : NodeType) (nextKey : RlpSlice)
  | branchTaken (allocatedNode : NodeType) (branchIndex : Nat) (nextKey : RlpSlice)
  | leafReached (allocatedNode : NodeType) (value : RlpSlice)
  | branchReached (finalBranchNode : NodeType) (value : RlpSlice)
  deriving DecidableEq, Repr

/-- `parent_node.is_empty() || parent_node.is_branch()` -/
def NodeType.isEmptyOrBranch : NodeType → Bool
  | .empty | .branch _ => true
  | _ => false

def NodeType.isExtension : NodeType → Bool
  | .extension _ => true
  | _ => false

def appendLeaf (path : List UInt8) (key : RlpSlice) (parentNode : NodeType) (leaf : LeafNode) :
    Call (AppendPath × List UInt8) := do
  Action.require (parentNode.isEmptyOrBranch ∨ parentNode.isExtension) .err
  let (follows, path) ← Action.ofOption .err (follow path leaf.pathSegment)
  let mpt ← Action.get
  let node := NodeType.leaf mpt.leafNodes.length
  Action.modify fun mpt => (mpt.pushLeaf { leaf with parentNode }).insertKey node key.fullEncoding
  return (if follows then .leafReached node leaf.value else .pathDiverged node, path)

def appendExtension (path : List UInt8) (key : RlpSlice) (parentNode : NodeType) (extension : ExtensionNode) :
    Call (AppendPath × List UInt8) := do
  Action.require (parentNode.isEmptyOrBranch) .err
  let (follows, path) ← Action.ofOption .err (follow path extension.pathSegment)
  let mpt ← Action.get
  let node := NodeType.extension mpt.extensionNodes.length
  Action.modify fun mpt => (mpt.pushExtension { extension with parentNode }).insertKey node key.fullEncoding
  return (if follows then .follow node extension.nextNodeKey else .pathDiverged node, path)

/-- A branch from the oracle.  Its children are values if the path ends here. -/
def appendBranch (path : List UInt8) (key : RlpSlice) (parentNode : NodeType) (pieces : List RlpSlice) :
    Call (AppendPath × List UInt8) := do
  Action.require (parentNode.isEmptyOrBranch ∨ parentNode.isExtension) .err
  let (branchIndex, path) ← Action.ofOption .err (takeBranch path)
  Action.require (branchIndex < 16) .err
  let mpt ← Action.get
  let node := NodeType.branch mpt.branchNodes.length
  let encoding := pieces.getD branchIndex .empty
  if path = [] then do
    let children := mpt.terminalChildren node pieces
    Action.modify fun mpt =>
      ({ mpt with branchTerminalValues := children.values, keysCache := children.keysCache }.pushBranch
        ⟨parentNode, children.nodes⟩).insertKey node key.fullEncoding
    return (.branchReached node (if encoding.isEmpty then .empty else encoding), path)
  else do
    let children := mpt.unreferencedChildren node pieces
    Action.modify fun mpt =>
      ({ mpt with branchUnreferencedValues := children.values, keysCache := children.keysCache }.pushBranch
        ⟨parentNode, children.nodes⟩).insertKey node key.fullEncoding
    return (if encoding.isEmpty then .emptyBranchTaken node else .branchTaken node branchIndex encoding, path)

/-- `descend_through_proof`, with the rest of the path. -/
def descendThroughProof (path : List UInt8) (key : RlpSlice) (parentNode : NodeType) :
    Call (AppendPath × List UInt8) := do
  Action.require (path.length ≤ 64) .err
  let raw ← consultCacheOrOracle keccak env key.data
  let (parsed, pieces) ← parseNode env raw
  match parsed with
  | .leaf leaf => appendLeaf path key parentNode leaf
  | .extension extension => appendExtension path key parentNode extension
  | .branch _ => appendBranch path key parentNode pieces

def linkIfNeeded (parentNode : NodeType) (parentBranchIndex : Nat) (childNode : NodeType) : Call Unit := do
  let mpt ← Action.get
  match parentNode with
  | .branch index =>
    match mpt.branchNodes[index]? with
    | none => Action.throw .panic
    | some parent =>
      match parent.childNodes[parentBranchIndex]? with
      | none => Action.throw .panic
      | some (.unreferencedValueInBranch _) =>
        let linked := { parent with childNodes := parent.childNodes.set parentBranchIndex childNode }
        Action.modify fun mpt => { mpt with branchNodes := mpt.branchNodes.set index linked }
      | some branchChild => Action.require (childNode = branchChild) .err
  | .extension index =>
    match mpt.extensionNodes[index]? with
    | none => Action.throw .panic
    | some parent =>
      if parent.childNode = .unlinked then
        let linked := { parent with childNode }
        Action.modify fun mpt => { mpt with extensionNodes := mpt.extensionNodes.set index linked }
      else Action.require (childNode = parent.childNode) .err
  | _ => return ()

/-- The second loop of `get`. -/
def appendLoop : Nat → List UInt8 → RlpSlice → NodeType → Nat → Call (List UInt8)
  | 0, _, _, _, _ => Action.throw .fuel
  | fuel + 1, path, key, currentNode, parentBranchIndex => do
    let (step, path) ← descendThroughProof keccak env path key currentNode
    match step with
    | .pathDiverged allocatedNode | .emptyBranchTaken allocatedNode => do
      linkIfNeeded currentNode parentBranchIndex allocatedNode
      return []
    | .branchTaken allocatedNode branchIndex nextKey => do
      linkIfNeeded currentNode parentBranchIndex allocatedNode
      appendLoop fuel path nextKey allocatedNode branchIndex
    | .leafReached allocatedNode value | .branchReached allocatedNode value => do
      linkIfNeeded currentNode parentBranchIndex allocatedNode
      return value.data
    | .follow allocatedNode nextKey => do
      linkIfNeeded currentNode parentBranchIndex allocatedNode
      appendLoop fuel path nextKey allocatedNode parentBranchIndex

/-- More rounds than a loop over a path takes: an extension is not followed by another one. -/
def rounds (path : List UInt8) : Nat := 2 * path.length + 2

/-- The root from the oracle, once. -/
def allocateRoot : Call Unit := do
  let mpt ← Action.get
  if mpt.root = .opaqueNontrivialRoot then
    let key ← Action.ofOption .err (rlpParseShortBytes mpt.internedRootNodeKey)
    let root ← allocateRootNodeFromOracle keccak env key .empty
    Action.modify fun mpt => { mpt with root }.insertKey root mpt.internedRootNodeKey

def get (path : List UInt8) : Call (List UInt8) := do
  let mpt ← Action.get
  if mpt.root = .empty then return []
  else do
    allocateRoot keccak env
    let mpt ← Action.get
    match descendLoop mpt (rounds path) path mpt.root with
    | .error e => Action.throw e
    | .ok (.found value) => return value
    | .ok (.missing node branchIndex key path) => appendLoop keccak env (rounds path) path key node branchIndex

end ZkOs.Mpt
