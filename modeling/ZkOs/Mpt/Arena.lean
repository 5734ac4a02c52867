import ZkOs.Mpt.Walk

/-!
# What the arena holds

Every node of the arena gets a label: the key that it was read by, how many nibbles of a path remain there, and whether
it is the child of an extension.

* `Inv keccak rootHash label s` : the nodes are those of their labels, and links lead to nodes with the right labels;
* `Grows` : nodes are added, `Inv.pushLeaf`, `Inv.pushExtension`, `Inv.pushBranch` : with a label of their own;
* `Slot` : a place for a node that is missing, `linkIfNeeded_spec` : it is filled.
-/

namespace ZkOs.Mpt

structure Label where
  key : List UInt8
  remaining : Nat
  afterExtension : Bool
  deriving DecidableEq, Repr

namespace EthereumMpt

def Allocated (s : EthereumMpt) : NodeType → Prop
  | .leaf i => i < s.leafNodes.length
  | .extension i => i < s.extensionNodes.length
  | .branch i => i < s.branchNodes.length
  | _ => False

end EthereumMpt

section Nodes

variable (s : EthereumMpt) (label : NodeType → Label)

/-- The leaf is the one with the key of its label. -/
def LeafOk (l : Label) (n : LeafNode) : Prop :=
  ∃ leaf pieces, nodeAt s.preimagesCache l.key = some (.leaf leaf, pieces) ∧
    leaf.pathSegment = n.pathSegment ∧ leaf.value = n.value

/-- The extension is the one with the key of its label, and its child has the key that it names. -/
structure ExtensionOk (l : Label) (n : ExtensionNode) : Prop where
  parsed : ∃ extension pieces, nodeAt s.preimagesCache l.key = some (.extension extension, pieces) ∧
    extension.pathSegment = n.pathSegment ∧ extension.nextNodeKey = n.nextNodeKey
  notAfter : l.afterExtension = false
  child : n.childNode = .unlinked ∨ s.Allocated n.childNode ∧
    label n.childNode = ⟨n.nextNodeKey.data, l.remaining - n.pathSegment.length, true⟩

/-- What the slot of a child holds: nothing, its encoding, or a node with the key that the branch names. -/
def ChildOk (remaining : Nat) (encoding : RlpSlice) : NodeType → Prop
  | .empty => encoding.isEmpty = true
  | .unreferencedValueInBranch i => encoding.isEmpty = false ∧ 1 < remaining ∧
    (s.branchUnreferencedValues[i]?).map OpaqueValue.encoding = some encoding
  | .terminalValueInBranch i => encoding.isEmpty = false ∧ remaining = 1 ∧
    (s.branchTerminalValues[i]?).map OpaqueValue.encoding = some encoding
  | node => encoding.isEmpty = false ∧ 1 < remaining ∧ s.Allocated node ∧
    label node = ⟨encoding.data, remaining - 1, false⟩

/-- The branch is the one with the key of its label, and so are its children. -/
structure BranchOk (l : Label) (n : BranchNode) : Prop where
  parsed : ∃ branch pieces, nodeAt s.preimagesCache l.key = some (.branch branch, pieces) ∧
    ∀ j c, n.childNodes[j]? = some c → ChildOk s label l.remaining (pieces.getD j .empty) c
  length : n.childNodes.length = 16

end Nodes

/-- A root that is a leaf or an extension has the whole path. -/
def RootShape (pre : Preimages) (rootHash : List UInt8) : Prop :=
  ∀ node pieces, nodeAt pre rootHash = some (node, pieces) →
    (∀ leaf, node = .leaf leaf → leaf.pathSegment.length = 64) ∧
    ∀ extension, node = .extension extension → extension.pathSegment.length = 64

theorem RootShape.knows {pre pre' : Preimages} {rootHash : List UInt8} (h : Knows pre pre')
    {node : ParsedNode × List RlpSlice} (hnode : nodeAt pre rootHash = some node) (hshape : RootShape pre rootHash) :
    RootShape pre' rootHash := by
  intro node' pieces hnode'
  rw [h.nodeAt hnode] at hnode'
  cases hnode'
  exact hshape node' pieces hnode

structure Inv (keccak : List UInt8 → List UInt8) (rootHash : List UInt8) (label : NodeType → Label) (s : EthereumMpt) :
    Prop where
  interned : s.internedRootNodeKey = 0xa0 :: rootHash
  cache : ∀ k x, s.preimagesCache k = some x → keccak x = k
  root : s.root = .opaqueNontrivialRoot ∨
    s.Allocated s.root ∧ label s.root = ⟨rootHash, 64, false⟩ ∧ ∃ node, nodeAt s.preimagesCache rootHash = some node ∧
      RootShape s.preimagesCache rootHash
  leaf : ∀ i n, s.leafNodes[i]? = some n → LeafOk s (label (.leaf i)) n
  extension : ∀ i n, s.extensionNodes[i]? = some n → ExtensionOk s label (label (.extension i)) n
  branch : ∀ i n, s.branchNodes[i]? = some n → BranchOk s label (label (.branch i)) n

theorem Inv.root_ne_empty {keccak : List UInt8 → List UInt8} {rootHash : List UInt8} {label : NodeType → Label}
    {s : EthereumMpt} (hi : Inv keccak rootHash label s) : s.root ≠ .empty := by
  intro heq
  have hroot := hi.root
  rw [heq] at hroot
  rcases hroot with h | ⟨ha, -⟩
  · cases h
  · exact ha

/-! ## Growth -/

/-- Nodes, values and preimages are added, and those that were there stay with their labels. -/
structure Grows (s : EthereumMpt) (label : NodeType → Label) (s' : EthereumMpt) (label' : NodeType → Label) : Prop where
  knows : Knows s.preimagesCache s'.preimagesCache
  leaves : s.leafNodes <+: s'.leafNodes
  extensions : s.extensionNodes <+: s'.extensionNodes
  branches : s.branchNodes <+: s'.branchNodes
  unreferenced : s.branchUnreferencedValues <+: s'.branchUnreferencedValues
  terminal : s.branchTerminalValues <+: s'.branchTerminalValues
  label : ∀ node, s.Allocated node → label' node = label node

variable {keccak : List UInt8 → List UInt8} {rootHash : List UInt8} {label label' : NodeType → Label}
  {s s' : EthereumMpt}

variable {α : Type} {xs : List α} {i : Nat} {x : α}

theorem getElem?_extend {ys : List α} (h : xs <+: ys) (hi : xs[i]? = some x) :
    ys[i]? = some x := by
  obtain ⟨zs, rfl⟩ := h
  rw [List.getElem?_append_left (List.getElem?_eq_some_iff.mp hi).1]
  exact hi

theorem getElem?_concat_new {y : α} (hle : xs.length ≤ i) (hi : (xs ++ [x])[i]? = some y) : i = xs.length ∧ y = x := by
  rw [List.getElem?_append_right hle, List.getElem?_singleton] at hi
  split at hi
  · next heq => exact ⟨by omega, (Option.some.inj hi).symm⟩
  · cases hi

theorem no_new {p : Nat → α → Prop} (i : Nat) (x : α) (hle : xs.length ≤ i) (hi : xs[i]? = some x) : p i x := by
  rw [List.getElem?_eq_none hle] at hi
  cases hi

/-- What is known of a node stays so: links and labels lead to the same nodes. -/
structure Carries (s : EthereumMpt) (label : NodeType → Label) (s' : EthereumMpt) (label' : NodeType → Label) :
    Prop where
  knows : Knows s.preimagesCache s'.preimagesCache
  allocated : ∀ node, s.Allocated node → s'.Allocated node
  unreferenced : s.branchUnreferencedValues <+: s'.branchUnreferencedValues
  terminal : s.branchTerminalValues <+: s'.branchTerminalValues
  label : ∀ node, s.Allocated node → label' node = label node

namespace Carries

variable {l : Label}

theorem leafOk (hc : Carries s label s' label') {n : LeafNode} (hn : LeafOk s l n) : LeafOk s' l n := by
  obtain ⟨leaf, pieces, hnode, heq⟩ := hn
  exact ⟨leaf, pieces, hc.knows.nodeAt hnode, heq⟩

theorem extensionOk (hc : Carries s label s' label') {n : ExtensionNode} (hn : ExtensionOk s label l n) :
    ExtensionOk s' label' l n := by
  obtain ⟨⟨extension, pieces, hnode, heq⟩, hnot, hchild⟩ := hn
  refine ⟨⟨extension, pieces, hc.knows.nodeAt hnode, heq⟩, hnot, hchild.imp id fun ⟨ha, hl⟩ => ?_⟩
  exact ⟨hc.allocated _ ha, (hc.label _ ha).trans hl⟩

theorem childOk (hc : Carries s label s' label') {remaining : Nat} {encoding : RlpSlice} {c : NodeType}
    (hchild : ChildOk s label remaining encoding c) : ChildOk s' label' remaining encoding c := by
  cases c with
  | empty => exact hchild
  | unreferencedValueInBranch i =>
    obtain ⟨hne, hrem, hmap⟩ := hchild
    obtain ⟨value, hvalue, henc⟩ := Option.map_eq_some_iff.mp hmap
    exact ⟨hne, hrem, by rw [getElem?_extend hc.unreferenced hvalue, Option.map_some, henc]⟩
  | terminalValueInBranch i =>
    obtain ⟨hne, hrem, hmap⟩ := hchild
    obtain ⟨value, hvalue, henc⟩ := Option.map_eq_some_iff.mp hmap
    exact ⟨hne, hrem, by rw [getElem?_extend hc.terminal hvalue, Option.map_some, henc]⟩
  | leaf | extension | branch =>
    obtain ⟨hne, hrem, ha, hl⟩ := hchild
    exact ⟨hne, hrem, hc.allocated _ ha, (hc.label _ ha).trans hl⟩
  | unlinked | opaqueNontrivialRoot => exact absurd hchild.2.2.1 (by exact id)

theorem branchOk (hc : Carries s label s' label') {n : BranchNode} (hn : BranchOk s label l n) :
    BranchOk s' label' l n := by
  obtain ⟨⟨branch, pieces, hnode, hchildren⟩, hlen⟩ := hn
  exact ⟨⟨branch, pieces, hc.knows.nodeAt hnode, fun j c hj => hc.childOk (hchildren j c hj)⟩, hlen⟩

theorem root (hc : Carries s label s' label') (hroot : s'.root = s.root) (hi : Inv keccak rootHash label s) :
    s'.root = .opaqueNontrivialRoot ∨
      s'.Allocated s'.root ∧ label' s'.root = ⟨rootHash, 64, false⟩ ∧
        ∃ node, nodeAt s'.preimagesCache rootHash = some node ∧ RootShape s'.preimagesCache rootHash := by
  rw [hroot]
  refine hi.root.imp id fun ⟨ha, hl, node, hnode, hshape⟩ => ?_
  exact ⟨hc.allocated _ ha, (hc.label _ ha).trans hl, node, hc.knows.nodeAt hnode, hshape.knows hc.knows hnode⟩

end Carries

/-- The arena has grown and keeps its invariant. -/
def Adds (keccak : List UInt8 → List UInt8) (rootHash : List UInt8) (label : NodeType → Label) (s : EthereumMpt)
    (label' : NodeType → Label) (s' : EthereumMpt) : Prop :=
  Inv keccak rootHash label' s' ∧ Grows s label s' label'

namespace Grows

theorem refl (s : EthereumMpt) (label : NodeType → Label) : Grows s label s label :=
  ⟨.refl _, List.prefix_rfl, List.prefix_rfl, List.prefix_rfl, List.prefix_rfl, List.prefix_rfl, fun _ _ => rfl⟩

theorem allocated (hg : Grows s label s' label') {node : NodeType} (hn : s.Allocated node) : s'.Allocated node := by
  cases node with
  | leaf i => exact hn.trans_le hg.leaves.length_le
  | extension i => exact hn.trans_le hg.extensions.length_le
  | branch i => exact hn.trans_le hg.branches.length_le
  | empty | unreferencedValueInBranch | unlinked | terminalValueInBranch | opaqueNontrivialRoot => exact hn

theorem trans {s'' : EthereumMpt} {label'' : NodeType → Label} (hg : Grows s label s' label')
    (hg' : Grows s' label' s'' label'') : Grows s label s'' label'' :=
  ⟨hg.knows.trans hg'.knows, hg.leaves.trans hg'.leaves, hg.extensions.trans hg'.extensions,
    hg.branches.trans hg'.branches, hg.unreferenced.trans hg'.unreferenced, hg.terminal.trans hg'.terminal,
    fun node hn => (hg'.label node (hg.allocated hn)).trans (hg.label node hn)⟩

theorem carries (hg : Grows s label s' label') : Carries s label s' label' :=
  ⟨hg.knows, fun _ => hg.allocated, hg.unreferenced, hg.terminal, hg.label⟩

theorem adds (hg : Grows s label s' label') (hi : Inv keccak rootHash label s)
    (hinterned : s'.internedRootNodeKey = s.internedRootNodeKey) (hroot : s'.root = s.root)
    (hcache : ∀ k x, s'.preimagesCache k = some x → keccak x = k)
    (hleaf : ∀ i n, s.leafNodes.length ≤ i → s'.leafNodes[i]? = some n → LeafOk s (label' (.leaf i)) n)
    (hextension : ∀ i n, s.extensionNodes.length ≤ i → s'.extensionNodes[i]? = some n →
      ExtensionOk s label (label' (.extension i)) n)
    (hbranch : ∀ i n, s.branchNodes.length ≤ i → s'.branchNodes[i]? = some n →
      BranchOk s label (label' (.branch i)) n) : Adds keccak rootHash label s label' s' := by
  have hold : ∀ {α : Type} {xs ys : List α}, xs <+: ys → ∀ {i : Nat} {y : α}, i < xs.length → ys[i]? = some y →
      xs[i]? = some y := by
    rintro α xs ys ⟨zs, rfl⟩ i y hi hy
    rwa [List.getElem?_append_left hi] at hy
  have hc := hg.carries
  refine ⟨⟨hinterned.trans hi.interned, hcache, hc.root hroot hi, fun i n hn => hc.leafOk ?_,
    fun i n hn => hc.extensionOk ?_, fun i n hn => hc.branchOk ?_⟩, hg⟩
  · by_cases hlt : i < s.leafNodes.length
    · rw [hg.label (.leaf i) hlt]
      exact hi.leaf i n (hold hg.leaves hlt hn)
    · exact hleaf i n (not_lt.mp hlt) hn
  · by_cases hlt : i < s.extensionNodes.length
    · rw [hg.label (.extension i) hlt]
      exact hi.extension i n (hold hg.extensions hlt hn)
    · exact hextension i n (not_lt.mp hlt) hn
  · by_cases hlt : i < s.branchNodes.length
    · rw [hg.label (.branch i) hlt]
      exact hi.branch i n (hold hg.branches hlt hn)
    · exact hbranch i n (not_lt.mp hlt) hn

end Grows

theorem allocated_pushLeaf (s : EthereumMpt) (leaf : LeafNode) :
    (s.pushLeaf leaf).Allocated (.leaf s.leafNodes.length) := by
  simp [EthereumMpt.Allocated, EthereumMpt.pushLeaf]

theorem allocated_pushExtension (s : EthereumMpt) (extension : ExtensionNode) :
    (s.pushExtension extension).Allocated (.extension s.extensionNodes.length) := by
  simp [EthereumMpt.Allocated, EthereumMpt.pushExtension]

theorem allocated_pushBranch (s : EthereumMpt) (branch : BranchNode) :
    (s.pushBranch branch).Allocated (.branch s.branchNodes.length) := by
  simp [EthereumMpt.Allocated, EthereumMpt.pushBranch]

theorem update_label {node : NodeType} (hnew : ¬ s.Allocated node) (l : Label) :
    ∀ n, s.Allocated n → Function.update label node l n = label n := by
  intro n hn
  refine Function.update_of_ne ?_ _ _
  rintro rfl
  exact hnew hn

theorem Adds.trans {s'' : EthereumMpt} {label'' : NodeType → Label} (h : Adds keccak rootHash label s label' s')
    (h' : Adds keccak rootHash label' s' label'' s'') : Adds keccak rootHash label s label'' s'' :=
  ⟨h'.1, h.2.trans h'.2⟩

namespace Inv

theorem insertPreimage (hi : Inv keccak rootHash label s) {k x : List UInt8} (hx : keccak x = k)
    (hk : s.preimagesCache k = none) :
    Adds keccak rootHash label s label { s with preimagesCache := Function.update s.preimagesCache k (some x) } := by
  have hknows : Knows s.preimagesCache (Function.update s.preimagesCache k (some x)) := by
    intro k' x' hk'
    rw [Function.update_of_ne, hk']
    rintro rfl
    rw [hk] at hk'
    cases hk'
  have hcache : ∀ k' x', Function.update s.preimagesCache k (some x) k' = some x' → keccak x' = k' := by
    intro k' x' hk'
    by_cases heq : k' = k
    · subst heq
      rw [Function.update_self] at hk'
      cases hk'
      exact hx
    · rw [Function.update_of_ne heq] at hk'
      exact hi.cache k' x' hk'
  exact Grows.adds { Grows.refl s label with knows := hknows } hi rfl rfl hcache no_new no_new no_new

theorem setValues (hi : Inv keccak rootHash label s) {unreferenced terminal : List OpaqueValue}
    (hu : s.branchUnreferencedValues <+: unreferenced) (ht : s.branchTerminalValues <+: terminal)
    (keys : NodeType → Option (List UInt8)) :
    Adds keccak rootHash label s label { s with
      branchUnreferencedValues := unreferenced, branchTerminalValues := terminal, keysCache := keys } :=
  Grows.adds { Grows.refl s label with unreferenced := hu, terminal := ht } hi rfl rfl hi.cache no_new no_new no_new

theorem insertKey (hi : Inv keccak rootHash label s) (node : NodeType) (key : List UInt8) :
    Adds keccak rootHash label s label (s.insertKey node key) :=
  hi.setValues List.prefix_rfl List.prefix_rfl _

variable {l : Label}

theorem pushLeaf (hi : Inv keccak rootHash label s) {leaf : LeafNode} (hleaf : LeafOk s l leaf) :
    Adds keccak rootHash label s (Function.update label (.leaf s.leafNodes.length) l) (s.pushLeaf leaf) := by
  refine Grows.adds { Grows.refl s label with
    leaves := List.prefix_append _ _
    label := update_label (Nat.lt_irrefl _) l } hi rfl rfl hi.cache (fun i n hle hn => ?_) no_new no_new
  obtain ⟨rfl, rfl⟩ := getElem?_concat_new hle hn
  rw [Function.update_self]
  exact hleaf

theorem pushExtension (hi : Inv keccak rootHash label s) {extension : ExtensionNode}
    (hextension : ExtensionOk s label l extension) :
    Adds keccak rootHash label s (Function.update label (.extension s.extensionNodes.length) l)
      (s.pushExtension extension) := by
  refine Grows.adds { Grows.refl s label with
    extensions := List.prefix_append _ _
    label := update_label (Nat.lt_irrefl _) l } hi rfl rfl hi.cache no_new (fun i n hle hn => ?_) no_new
  obtain ⟨rfl, rfl⟩ := getElem?_concat_new hle hn
  rw [Function.update_self]
  exact hextension

theorem pushBranch (hi : Inv keccak rootHash label s) {branch : BranchNode} (hbranch : BranchOk s label l branch) :
    Adds keccak rootHash label s (Function.update label (.branch s.branchNodes.length) l) (s.pushBranch branch) := by
  refine Grows.adds { Grows.refl s label with
    branches := List.prefix_append _ _
    label := update_label (Nat.lt_irrefl _) l } hi rfl rfl hi.cache no_new no_new fun i n hle hn => ?_
  obtain ⟨rfl, rfl⟩ := getElem?_concat_new hle hn
  rw [Function.update_self]
  exact hbranch

end Inv

/-! ## Children of a new branch -/

/-- What `allocateChildren` leaves for each piece. -/
structure ChildrenOf (slot : Nat → NodeType) (before after : Children) (pieces : List RlpSlice) (nodes : List NodeType) :
    Prop where
  nodes_eq : after.nodes = before.nodes ++ nodes
  length : nodes.length = pieces.length
  values : before.values <+: after.values
  child : ∀ (j : Nat) c, nodes[j]? = some c → ∃ e, pieces[j]? = some e ∧
    (e.isEmpty = true ∧ c = .empty ∨
      e.isEmpty = false ∧ ∃ i, c = slot i ∧ (after.values[i]?).map OpaqueValue.encoding = some e)

theorem allocateChildren_spec (slot : Nat → NodeType) (parent : NodeType) (pieces : List RlpSlice) (i : Nat)
    (children : Children) :
    ∃ nodes, ChildrenOf slot children (allocateChildren slot parent pieces i children) pieces nodes := by
  induction pieces generalizing i children with
  | nil => exact ⟨[], (List.append_nil _).symm, rfl, List.prefix_rfl, fun j c hc => by simp at hc⟩
  | cons e pieces ih =>
    rw [allocateChildren]
    cases hempty : e.isEmpty with
    | true =>
      obtain ⟨nodes, hn, hlen, hv, hchild⟩ := ih (i + 1) { children with nodes := children.nodes ++ [.empty] }
      refine ⟨.empty :: nodes, ?_, by simp [hlen], hv, ?_⟩
      · rw [if_pos rfl, hn]
        simp
      · intro j c hc
        cases j with
        | zero => exact ⟨e, rfl, .inl ⟨hempty, (Option.some.inj hc).symm⟩⟩
        | succ j => exact hchild j c hc
    | false =>
      rw [if_neg Bool.false_ne_true]
      obtain ⟨nodes, hn, hlen, hv, hchild⟩ := ih (i + 1) {
        nodes := children.nodes ++ [slot children.values.length]
        values := children.values ++ [⟨parent, i, e⟩]
        keysCache := Function.update children.keysCache (slot children.values.length) (some e.fullEncoding) }
      refine ⟨slot children.values.length :: nodes, ?_, by simp [hlen], (List.prefix_append _ _).trans hv, ?_⟩
      · rw [hn]
        simp
      · intro j c hc
        cases j with
        | zero =>
          refine ⟨e, rfl, .inr ⟨hempty, children.values.length, (Option.some.inj hc).symm, ?_⟩⟩
          rw [getElem?_extend hv List.getElem?_concat_length]
          rfl
        | succ j => exact hchild j c hc

/-! ## Links -/

/-- The slot of a missing node with a key, from where `remaining` nibbles are left. -/
def Slot (s : EthereumMpt) (label : NodeType → Label) (key : RlpSlice) (remaining idx : Nat) : NodeType → Prop
  | .branch b => ∃ n i, s.branchNodes[b]? = some n ∧
    n.childNodes[idx]? = some (.unreferencedValueInBranch i) ∧
    (s.branchUnreferencedValues[i]?).map OpaqueValue.encoding = some key ∧
    (label (.branch b)).remaining = remaining + 1
  | .extension e => ∃ n, s.extensionNodes[e]? = some n ∧ n.childNode = .unlinked ∧ n.nextNodeKey = key ∧
    (label (.extension e)).remaining - n.pathSegment.length = remaining
  | _ => False

variable {key : RlpSlice} {remaining idx : Nat} {parent child : NodeType}

theorem Slot.allocated (h : Slot s label key remaining idx parent) : s.Allocated parent := by
  cases parent with
  | branch b =>
    obtain ⟨n, i, hn, -⟩ := h
    exact (List.getElem?_eq_some_iff.mp hn).1
  | extension e =>
    obtain ⟨n, hn, -⟩ := h
    exact (List.getElem?_eq_some_iff.mp hn).1
  | empty | leaf | unreferencedValueInBranch | unlinked | terminalValueInBranch | opaqueNontrivialRoot => exact h.elim

theorem Grows.slot (hg : Grows s label s' label') (h : Slot s label key remaining idx parent) :
    Slot s' label' key remaining idx parent := by
  cases parent with
  | branch b =>
    obtain ⟨n, i, hn, hc, hv, hl⟩ := h
    obtain ⟨value, hvalue, henc⟩ := Option.map_eq_some_iff.mp hv
    refine ⟨n, i, getElem?_extend hg.branches hn, hc, ?_, ?_⟩
    · rw [getElem?_extend hg.unreferenced hvalue, Option.map_some, henc]
    · rw [hg.label (.branch b) (List.getElem?_eq_some_iff.mp hn).1]
      exact hl
  | extension e =>
    obtain ⟨n, hn, hc, hk, hl⟩ := h
    refine ⟨n, getElem?_extend hg.extensions hn, hc, hk, ?_⟩
    rw [hg.label (.extension e) (List.getElem?_eq_some_iff.mp hn).1]
    exact hl
  | empty | leaf | unreferencedValueInBranch | unlinked | terminalValueInBranch | opaqueNontrivialRoot => exact h.elim

/-- A node in the arena is a child of a branch if it has the label of one. -/
theorem childOk_of_allocated {encoding : RlpSlice} (hne : encoding.isEmpty = false) (hrem : 1 < remaining)
    (ha : s.Allocated child) (hl : label child = ⟨encoding.data, remaining - 1, false⟩) :
    ChildOk s label remaining encoding child := by
  cases child with
  | leaf | extension | branch => exact ⟨hne, hrem, ha, hl⟩
  | empty | unreferencedValueInBranch | unlinked | terminalValueInBranch | opaqueNontrivialRoot => exact ha.elim

/-- The arena with a node in the slot of a branch. -/
def EthereumMpt.linkBranch (s : EthereumMpt) (b idx : Nat) (n : BranchNode) (child : NodeType) : EthereumMpt :=
  { s with branchNodes := s.branchNodes.set b { n with childNodes := n.childNodes.set idx child } }

/-- The arena with a node as the child of an extension. -/
def EthereumMpt.linkExtension (s : EthereumMpt) (e : Nat) (n : ExtensionNode) (child : NodeType) : EthereumMpt :=
  { s with extensionNodes := s.extensionNodes.set e { n with childNode := child } }

theorem carries_linkBranch (label : NodeType → Label) (s : EthereumMpt) (b idx : Nat) (n : BranchNode) (child : NodeType) :
    Carries s label (s.linkBranch b idx n child) label := by
  refine ⟨.refl _, fun node hn => ?_, List.prefix_rfl, List.prefix_rfl, fun _ _ => rfl⟩
  cases node with
  | branch i => exact hn.trans_eq List.length_set.symm
  | leaf | extension | empty | unreferencedValueInBranch | unlinked | terminalValueInBranch | opaqueNontrivialRoot => exact hn

theorem carries_linkExtension (label : NodeType → Label) (s : EthereumMpt) (e : Nat) (n : ExtensionNode) (child : NodeType) :
    Carries s label (s.linkExtension e n child) label := by
  refine ⟨.refl _, fun node hn => ?_, List.prefix_rfl, List.prefix_rfl, fun _ _ => rfl⟩
  cases node with
  | extension i => exact hn.trans_eq List.length_set.symm
  | leaf | branch | empty | unreferencedValueInBranch | unlinked | terminalValueInBranch | opaqueNontrivialRoot => exact hn

theorem Inv.linkBranch (hi : Inv keccak rootHash label s) {b : Nat} {n : BranchNode} (hn : s.branchNodes[b]? = some n)
    (hslot : n.childNodes[idx]? = some (.unreferencedValueInBranch i))
    (hv : (s.branchUnreferencedValues[i]?).map OpaqueValue.encoding = some key) (ha : s.Allocated child)
    (hl : label child = ⟨key.data, (label (.branch b)).remaining - 1, false⟩) :
    Inv keccak rootHash label (s.linkBranch b idx n child) := by
  have hc := carries_linkBranch label s b idx n child
  refine ⟨hi.interned, hi.cache, hc.root rfl hi, fun i n hn => hc.leafOk (hi.leaf i n hn),
    fun i n hn => hc.extensionOk (hi.extension i n hn), fun j m hm => ?_⟩
  by_cases heq : b = j
  · subst heq
    obtain ⟨⟨branch, pieces, hnode, hchildren⟩, hlen⟩ := hi.branch b n hn
    obtain rfl : { n with childNodes := n.childNodes.set idx child } = m := by
      have hlt := (List.getElem?_eq_some_iff.mp hn).1
      rw [EthereumMpt.linkBranch, List.getElem?_set_self hlt] at hm
      exact Option.some.inj hm
    refine ⟨⟨branch, pieces, hnode, fun j c hj => ?_⟩, List.length_set.trans hlen⟩
    by_cases hidx : idx = j
    · subst hidx
      obtain ⟨hne, hrem, hmap⟩ := hchildren idx _ hslot
      rw [hv] at hmap
      obtain rfl := Option.some.inj hmap
      rw [List.getElem?_set_self (List.getElem?_eq_some_iff.mp hslot).1] at hj
      obtain rfl := Option.some.inj hj
      exact hc.childOk (childOk_of_allocated hne hrem ha hl)
    · rw [List.getElem?_set_ne hidx] at hj
      exact hc.childOk (hchildren j c hj)
  · rw [EthereumMpt.linkBranch, List.getElem?_set_ne heq] at hm
    exact hc.branchOk (hi.branch j m hm)

theorem Inv.linkExtension (hi : Inv keccak rootHash label s) {e : Nat} {n : ExtensionNode}
    (hn : s.extensionNodes[e]? = some n) (ha : s.Allocated child)
    (hl : label child = ⟨n.nextNodeKey.data, (label (.extension e)).remaining - n.pathSegment.length, true⟩) :
    Inv keccak rootHash label (s.linkExtension e n child) := by
  have hc := carries_linkExtension label s e n child
  refine ⟨hi.interned, hi.cache, hc.root rfl hi, fun i n hn => hc.leafOk (hi.leaf i n hn), fun j m hm => ?_,
    fun i n hn => hc.branchOk (hi.branch i n hn)⟩
  by_cases heq : e = j
  · subst heq
    have hold := hc.extensionOk (hi.extension e n hn)
    obtain rfl : { n with childNode := child } = m := by
      have hlt := (List.getElem?_eq_some_iff.mp hn).1
      rw [EthereumMpt.linkExtension, List.getElem?_set_self hlt] at hm
      exact Option.some.inj hm
    exact ⟨hold.parsed, hold.notAfter, .inr ⟨hc.allocated _ ha, hl⟩⟩
  · rw [EthereumMpt.linkExtension, List.getElem?_set_ne heq] at hm
    exact hc.extensionOk (hi.extension j m hm)

theorem linkIfNeeded_spec (hi : Inv keccak rootHash label s) (hslot : Slot s label key remaining idx parent)
    (ha : s.Allocated child) (hl : label child = ⟨key.data, remaining, parent.isExtension⟩) :
    ∃ s', linkIfNeeded parent idx child s = (.ok (), s') ∧ Inv keccak rootHash label s' ∧
      s'.preimagesCache = s.preimagesCache ∧
      ∀ node k r j, node ≠ parent → Slot s label k r j node → Slot s' label k r j node := by
  cases parent with
  | branch b =>
    obtain ⟨n, i, hn, hc, hv, hrem⟩ := hslot
    refine ⟨s.linkBranch b idx n child, ?_, hi.linkBranch hn hc hv ha (by rw [hl, hrem]; rfl), rfl, ?_⟩
    · simp only [linkIfNeeded, Action.bind_apply, Action.get_apply, hn, hc]
      rfl
    · intro node k r j hne h
      cases node with
      | branch b' =>
        obtain ⟨m, i', hm, h⟩ := h
        refine ⟨m, i', ?_, h⟩
        rw [EthereumMpt.linkBranch, List.getElem?_set_ne (by rintro rfl; exact hne rfl)]
        exact hm
      | extension | empty | leaf | unreferencedValueInBranch | unlinked | terminalValueInBranch
      | opaqueNontrivialRoot => exact h
  | extension e =>
    obtain ⟨n, hn, hc, hk, hrem⟩ := hslot
    subst hk hrem
    refine ⟨s.linkExtension e n child, ?_, hi.linkExtension hn ha hl, rfl, ?_⟩
    · simp only [linkIfNeeded, Action.bind_apply, Action.get_apply, hn, hc, if_pos]
      rfl
    · intro node k r j hne h
      cases node with
      | extension e' =>
        obtain ⟨m, hm, h⟩ := h
        refine ⟨m, ?_, h⟩
        rw [EthereumMpt.linkExtension, List.getElem?_set_ne (by rintro rfl; exact hne rfl)]
        exact hm
      | branch | empty | leaf | unreferencedValueInBranch | unlinked | terminalValueInBranch
      | opaqueNontrivialRoot => exact h
  | empty | leaf | unreferencedValueInBranch | unlinked | terminalValueInBranch | opaqueNontrivialRoot =>
    exact hslot.elim

end ZkOs.Mpt
