import ZkOs.Lib.Outcomes
import ZkOs.Mpt.Arena

/-!
# Nodes that a read adds to the arena

* `consultCacheOrOracle_meets`, `parseNode_meets` : a node of the oracle is the node with its key;
* `Appended`, `Arrives` : what a step adds, and where it leaves the path;
* `descendThroughProof_meets` : every step does so, or fails and leaves the arena with its invariant.
-/

namespace ZkOs.Mpt

open ZkOs.Action (Meets)

variable {keccak : List UInt8 → List UInt8} {rootHash : List UInt8} {label label' : NodeType → Label}
  {s s' : EthereumMpt} {env : Env}

/-! ## Nodes of the oracle -/

theorem consultCacheOrOracle_meets (hi : Inv keccak rootHash label s) (k : List UInt8) :
    Meets (consultCacheOrOracle keccak env k) s
      (fun e s' => e ≠ .fuel ∧ Adds keccak rootHash label s label s')
      (fun raw s' => Adds keccak rootHash label s label s' ∧ rawOf s'.preimagesCache k = some raw) := by
  have hsame : Adds keccak rootHash label s label s := ⟨hi, .refl s label⟩
  rw [consultCacheOrOracle]
  split
  · next hlt => exact ⟨hsame, if_pos hlt⟩
  · next hlt =>
    split
    · next h32 =>
      rw [Action.meets_get_bind]
      cases hk : s.preimagesCache k with
      | some known => exact ⟨hsame, by rw [rawOf, if_neg hlt, if_pos h32, hk]⟩
      | none =>
        cases hnew : env.providePreimage k with
        | none => exact ⟨by decide, hsame⟩
        | some new =>
          refine Meets.require_bind (fun _ => ⟨by decide, hsame⟩) fun hhash => ?_
          rw [Action.meets_modify_bind]
          refine ⟨hi.insertPreimage hhash hk, ?_⟩
          rw [rawOf, if_neg hlt, if_pos h32]
          exact Function.update_self _ _ _
    · exact ⟨by decide, hsame⟩

theorem parseNode_meets (raw : List UInt8) :
    Meets (parseNode env raw) s (fun e s' => e ≠ .fuel ∧ s' = s)
      (fun node s' => s' = s ∧ parseNodeFromBytes raw = some node) := by
  rw [parseNode, Action.meets_get_bind]
  rcases hparse : parseNodeFromBytes raw with _ | ⟨node, pieces⟩
  · exact ⟨by decide, rfl⟩
  · cases node with
    | leaf leaf => exact Meets.require_bind (fun _ => ⟨by decide, rfl⟩) fun _ => ⟨rfl, rfl⟩
    | extension extension => exact Meets.require_bind (fun _ => ⟨by decide, rfl⟩) fun _ => ⟨rfl, rfl⟩
    | branch branch => exact ⟨rfl, rfl⟩

variable {raw k : List UInt8} {pre : Preimages} {slot : Nat → NodeType} {before after : Children}
    {nodes : List NodeType} {l : Label} {branch : BranchNode}

theorem parseNodeFromBytes_shape {node : ParsedNode} {pieces : List RlpSlice}
    (h : parseNodeFromBytes raw = some (node, pieces)) :
    (∀ extension, node = .extension extension → extension.childNode = .unlinked) ∧
      ∀ branch, node = .branch branch → pieces.length = 17 := by
  rw [parseNodeFromBytes, Option.bind_eq_bind, Option.bind_eq_some_iff] at h
  obtain ⟨parsed, -, h⟩ := h
  split at h
  · next nibbles value =>
    obtain ⟨⟨segment, isLeaf⟩, -, h⟩ := Option.bind_eq_some_iff.mp h
    cases isLeaf <;> cases h <;> simp
  · simp only [Option.bind_eq_bind, Option.bind_eq_some_iff, Option.pure_def, Option.some.injEq, Prod.mk.injEq] at h
    obtain ⟨_, hguard, _, -, _, -, _, -, rfl, rfl⟩ := h
    have hlen : parsed.length = 17 := by simpa using hguard
    exact ⟨fun _ h => (nomatch h), fun _ _ => hlen⟩

theorem nodeAt_shape {node : ParsedNode} {pieces : List RlpSlice} (h : nodeAt pre k = some (node, pieces)) :
    (∀ extension, node = .extension extension → extension.childNode = .unlinked) ∧
      ∀ branch, node = .branch branch → pieces.length = 17 := by
  obtain ⟨raw, -, hparse⟩ := Option.bind_eq_some_iff.mp h
  exact parseNodeFromBytes_shape hparse

theorem nodeAt_of_raw {node : ParsedNode × List RlpSlice} (hraw : rawOf pre k = some raw)
    (hnode : parseNodeFromBytes raw = some node) : nodeAt pre k = some node := by
  rw [nodeAt, hraw]
  exact hnode

/-! ## Nodes that are added -/

def AppendPath.node : AppendPath → NodeType
  | .pathDiverged node | .emptyBranchTaken node | .follow node _ | .branchTaken node _ _ | .leafReached node _
  | .branchReached node _ => node

/-- Rounds that a path allows from the child of a node on. -/
def budget (afterExtension : Bool) (path : List UInt8) : Nat := 2 * path.length + (if afterExtension then 0 else 1)

/-- Where the path leads that a step has left: to its end, or to the child of the node that the step has added. -/
def Arrives (label : NodeType → Label) (s : EthereumMpt) (afterExtension : Bool) (key path : List UInt8)
    (path' : List UInt8) : AppendPath → Prop
  | .pathDiverged _ | .emptyBranchTaken _ => ∃ o, Ends s.preimagesCache afterExtension key path o ∧ o.fresh = []
  | .leafReached _ value | .branchReached _ value =>
    ∃ o, Ends s.preimagesCache afterExtension key path o ∧ o.fresh = value.data
  | .follow node nextKey => (∀ idx, Slot s label nextKey path'.length idx node) ∧
    budget node.isExtension path' < budget afterExtension path ∧
    ∀ pre o, Knows s.preimagesCache pre → Ends pre node.isExtension nextKey.data path' o → Ends pre afterExtension key path o
  | .branchTaken node idx nextKey => Slot s label nextKey path'.length idx node ∧
    budget node.isExtension path' < budget afterExtension path ∧
    ∀ pre o, Knows s.preimagesCache pre → Ends pre node.isExtension nextKey.data path' o → Ends pre afterExtension key path o

/-- A step from the slot of `current` has added the node with the key. -/
def Appended (keccak : List UInt8 → List UInt8) (rootHash : List UInt8) (label : NodeType → Label) (s : EthereumMpt)
    (current : NodeType) (key path : List UInt8) (r : AppendPath × List UInt8) (s' : EthereumMpt) : Prop :=
  ∃ label', (Inv keccak rootHash label' s' ∧ Grows s label s' label') ∧
    ¬ s.Allocated r.1.node ∧ s'.Allocated r.1.node ∧
    label' r.1.node = ⟨key, path.length, current.isExtension⟩ ∧
    Arrives label' s' current.isExtension key path r.2 r.1

/-- A step that fails has left the arena as it was, or has added to it. -/
def Kept (keccak : List UInt8 → List UInt8) (rootHash : List UInt8) (label : NodeType → Label) (s : EthereumMpt)
    (e : Fail) (s' : EthereumMpt) : Prop :=
  e ≠ .fuel ∧ ∃ label', Inv keccak rootHash label' s' ∧ Grows s label s' label'

variable {path : List UInt8} {key : RlpSlice} {current : NodeType} {pieces : List RlpSlice}

theorem Inv.kept (hi : Inv keccak rootHash label s) {e : Fail} (he : e ≠ .fuel) : Kept keccak rootHash label s e s :=
  ⟨he, label, hi, .refl s label⟩

theorem Appended.of_node {node : NodeType} {r : AppendPath × List UInt8} (hr : r.1.node = node)
    (hadds : Adds keccak rootHash label s label' s') (hnew : ¬ s.Allocated node) (ha : s'.Allocated node)
    (hl : label' node = ⟨k, path.length, current.isExtension⟩) (harrives : Arrives label' s' current.isExtension k path r.2 r.1) :
    Appended keccak rootHash label s current k path r s' := by
  subst hr
  exact ⟨label', hadds, hnew, ha, hl, harrives⟩

theorem follow_eq_some {segment path' : List UInt8} {follows : Bool} (h : follow path segment = some (follows, path')) :
    segment.length ≤ path.length ∧
      (follows = true ∧ segment <+: path ∧ path' = path.drop segment.length ∨
        follows = false ∧ ¬ segment <+: path ∧ path' = path) := by
  rw [follow] at h
  split at h
  · cases h
  · next hlen =>
    refine ⟨not_lt.mp hlen, ?_⟩
    split at h
    · next hstarts =>
      cases h
      exact .inl ⟨rfl, hstarts, rfl⟩
    · next hstarts =>
      cases h
      exact .inr ⟨rfl, hstarts, rfl⟩

theorem appendLeaf_meets (hi : Inv keccak rootHash label s) {leaf : LeafNode}
    (hnode : nodeAt s.preimagesCache key.data = some (.leaf leaf, pieces)) :
    Meets (appendLeaf path key current leaf) s (Kept keccak rootHash label s)
      (Appended keccak rootHash label s current key.data path) := by
  refine Meets.require_bind (fun _ => hi.kept (by decide)) fun _ => ?_
  refine Meets.ofOption_bind (fun _ => hi.kept (by decide)) fun ⟨follows, path'⟩ hfollow => ?_
  obtain ⟨hlen, hcases⟩ := follow_eq_some hfollow
  have hleaf : LeafOk s ⟨key.data, path.length, current.isExtension⟩ { leaf with parentNode := current } :=
    ⟨leaf, pieces, hnode, rfl, rfl⟩
  have hpushed := hi.pushLeaf hleaf
  have hkeyed := hpushed.1.insertKey (.leaf s.leafNodes.length) key.fullEncoding
  have hends := Ends.leaf (a := current.isExtension) ((hpushed.trans hkeyed).2.knows.nodeAt hnode) hlen
  refine .of_node (by cases follows <;> rfl) (hpushed.trans hkeyed) (Nat.lt_irrefl _)
    (hkeyed.2.allocated (allocated_pushLeaf s _)) (Function.update_self _ _ _) ?_
  rcases hcases with ⟨rfl, hstarts, -⟩ | ⟨rfl, hstarts, -⟩
  · refine ⟨_, hends, ?_⟩
    rw [if_pos hstarts]
    split <;> rfl
  · refine ⟨_, hends, ?_⟩
    have hne : leaf.pathSegment ≠ path := by
      intro heq
      exact hstarts (heq ▸ List.prefix_rfl)
    rw [if_neg hne, if_neg hstarts]
    rfl

theorem appendExtension_meets (hi : Inv keccak rootHash label s) {extension : ExtensionNode}
    (hnode : nodeAt s.preimagesCache key.data = some (.extension extension, pieces))
    (hunlinked : extension.childNode = .unlinked) :
    Meets (appendExtension path key current extension) s (Kept keccak rootHash label s)
      (Appended keccak rootHash label s current key.data path) := by
  refine Meets.require_bind (fun _ => hi.kept (by decide)) fun hparent => ?_
  refine Meets.ofOption_bind (fun _ => hi.kept (by decide)) fun ⟨follows, path'⟩ hfollow => ?_
  obtain ⟨hlen, hcases⟩ := follow_eq_some hfollow
  have hnot : current.isExtension = false := by
    cases current with
    | extension => cases hparent
    | empty | leaf | branch | unreferencedValueInBranch | unlinked | terminalValueInBranch | opaqueNontrivialRoot => rfl
  have hextension : ExtensionOk s label ⟨key.data, path.length, current.isExtension⟩
      { extension with parentNode := current } :=
    ⟨⟨extension, pieces, hnode, rfl, rfl⟩, hnot, .inl hunlinked⟩
  have hpushed := hi.pushExtension hextension
  have hkeyed := hpushed.1.insertKey (.extension s.extensionNodes.length) key.fullEncoding
  have hnode' := (hpushed.trans hkeyed).2.knows.nodeAt hnode
  refine .of_node (by cases follows <;> rfl) (hpushed.trans hkeyed) (Nat.lt_irrefl _)
    (hkeyed.2.allocated (allocated_pushExtension s _)) (Function.update_self _ _ _) ?_
  rcases hcases with ⟨rfl, hstarts, rfl⟩ | ⟨rfl, hstarts, rfl⟩
  · refine ⟨fun idx => ⟨_, List.getElem?_concat_length, hunlinked, rfl, ?_⟩, ?_, fun pre o hknows ho => ?_⟩
    · rw [Function.update_self, List.length_drop]
    · rw [hnot, budget, budget, List.length_drop]
      simp only [NodeType.isExtension, if_true, Bool.false_eq_true, if_false]
      omega
    · exact Ends.extension (hknows.nodeAt hnode') hnot hstarts ho
  · exact ⟨_, Ends.diverged hnode' hnot hlen hstarts, rfl⟩

theorem childrenOf_length (h : ChildrenOf slot before after (pieces.take 16) nodes) (hlen : pieces.length = 17)
    : nodes.length = 16 := by
  rw [h.length, List.length_take]
  omega

theorem childrenOf_child (h : ChildrenOf slot before after (pieces.take 16) nodes) {j : Nat} {c : NodeType}
    (hc : nodes[j]? = some c) :
    (pieces.getD j .empty).isEmpty = true ∧ c = .empty ∨
      (pieces.getD j .empty).isEmpty = false ∧
        ∃ i, c = slot i ∧ (after.values[i]?).map OpaqueValue.encoding = some (pieces.getD j .empty) := by
  obtain ⟨e, he, hcases⟩ := h.child j c hc
  have hget : pieces.getD j .empty = e := by
    rw [List.getElem?_take] at he
    split at he
    · rw [List.getD_eq_getElem?_getD, he]
      rfl
    · cases he
  rw [hget]
  exact hcases

theorem Inv.addBranch (hi : Inv keccak rootHash label s) {unreferenced terminal : List OpaqueValue}
    {keys : NodeType → Option (List UInt8)} (hu : s.branchUnreferencedValues <+: unreferenced)
    (ht : s.branchTerminalValues <+: terminal) (hnode : nodeAt s.preimagesCache l.key = some (.branch branch, pieces))
    (hlen : nodes.length = 16) (hchild : ∀ (j : Nat) c, nodes[j]? = some c → ChildOk
      { s with branchUnreferencedValues := unreferenced, branchTerminalValues := terminal, keysCache := keys }
      label l.remaining (pieces.getD j .empty) c) :
    Adds keccak rootHash label s (Function.update label (.branch s.branchNodes.length) l) ({ s with
      branchUnreferencedValues := unreferenced
      branchTerminalValues := terminal
      keysCache := keys }.pushBranch ⟨current, nodes⟩) := by
  have hvalues := hi.setValues hu ht keys
  exact hvalues.trans (hvalues.1.pushBranch ⟨⟨branch, pieces, hnode, hchild⟩, hlen⟩)

theorem Inv.addUnreferenced (hi : Inv keccak rootHash label s) (current parent : NodeType)
    (hnode : nodeAt s.preimagesCache l.key = some (.branch branch, pieces)) (hrem : 1 < l.remaining) :
    let children := s.unreferencedChildren parent pieces
    let s' := { s with branchUnreferencedValues := children.values, keysCache := children.keysCache }.pushBranch
      ⟨current, children.nodes⟩
    Adds keccak rootHash label s (Function.update label (.branch s.branchNodes.length) l) s' ∧
      ∀ j < 16, (pieces.getD j .empty).isEmpty = false →
        Slot s' (Function.update label (.branch s.branchNodes.length) l) (pieces.getD j .empty) (l.remaining - 1) j
          (.branch s.branchNodes.length) := by
  intro children s'
  obtain ⟨nodes, hof⟩ := allocateChildren_spec .unreferencedValueInBranch parent (pieces.take 16) 0
    ⟨[], s.branchUnreferencedValues, s.keysCache⟩
  have hnodes : children.nodes = nodes := hof.nodes_eq
  have hlen := childrenOf_length hof ((nodeAt_shape hnode).2 branch rfl)
  refine ⟨hi.addBranch hof.values List.prefix_rfl hnode (hnodes ▸ hlen) fun j c hc => ?_, fun j hj hne => ?_⟩
  · rw [hnodes] at hc
    rcases childrenOf_child hof hc with ⟨hempty, rfl⟩ | ⟨hne, i, rfl, hv⟩
    · exact hempty
    · exact ⟨hne, hrem, hv⟩
  · have hc : nodes[j]? = some (nodes.get ⟨j, hlen ▸ hj⟩) := List.getElem?_eq_getElem _
    rcases childrenOf_child hof hc with ⟨hempty, -⟩ | ⟨-, i, hslot, hv⟩
    · rw [hne] at hempty
      cases hempty
    · refine ⟨⟨current, children.nodes⟩, i, List.getElem?_concat_length, ?_, hv, ?_⟩
      · rw [hnodes, hc, hslot]
      · rw [Function.update_self]
        omega

theorem Inv.addTerminal (hi : Inv keccak rootHash label s) (current parent : NodeType)
    (hnode : nodeAt s.preimagesCache l.key = some (.branch branch, pieces)) (hrem : l.remaining = 1) :
    let children := s.terminalChildren parent pieces
    let s' := { s with branchTerminalValues := children.values, keysCache := children.keysCache }.pushBranch
      ⟨current, children.nodes⟩
    Adds keccak rootHash label s (Function.update label (.branch s.branchNodes.length) l) s' := by
  intro children s'
  obtain ⟨nodes, hof⟩ := allocateChildren_spec .terminalValueInBranch parent (pieces.take 16) 0
    ⟨[], s.branchTerminalValues, s.keysCache⟩
  have hnodes : children.nodes = nodes := hof.nodes_eq
  have hlen := childrenOf_length hof ((nodeAt_shape hnode).2 branch rfl)
  refine hi.addBranch List.prefix_rfl hof.values hnode (hnodes ▸ hlen) fun j c hc => ?_
  rw [hnodes] at hc
  rcases childrenOf_child hof hc with ⟨hempty, rfl⟩ | ⟨hne, i, rfl, hv⟩
  · exact hempty
  · exact ⟨hne, hrem, hv⟩

theorem appendBranch_meets (hi : Inv keccak rootHash label s)
    (hnode : nodeAt s.preimagesCache key.data = some (.branch branch, pieces)) :
    Meets (appendBranch path key current pieces) s (Kept keccak rootHash label s)
      (Appended keccak rootHash label s current key.data path) := by
  refine Meets.require_bind (fun _ => hi.kept (by decide)) fun _ => ?_
  refine Meets.ofOption_bind (fun _ => hi.kept (by decide)) fun ⟨branchIndex, path'⟩ htake => ?_
  refine Meets.require_bind (fun _ => hi.kept (by decide)) fun hlt => ?_
  rw [Action.meets_get_bind]
  cases path with
  | nil => cases htake
  | cons t path =>
    cases htake
    dsimp only
    split
    · next hnil =>
      subst hnil
      have hadded := hi.addTerminal (l := ⟨key.data, 1, current.isExtension⟩) current (.branch s.branchNodes.length) hnode rfl
      have hkeyed := hadded.1.insertKey (.branch s.branchNodes.length) key.fullEncoding
      refine ⟨_, hadded.trans hkeyed, Nat.lt_irrefl _, hkeyed.2.allocated (allocated_pushBranch _ _),
        Function.update_self _ _ _, ?_⟩
      have hnode' := (hadded.trans hkeyed).2.knows.nodeAt hnode
      cases hempty : (pieces.getD t.toNat .empty).isEmpty with
      | true => exact ⟨_, Ends.branch_empty hnode' hempty, rfl⟩
      | false => exact ⟨_, Ends.branch_value hnode' hempty, rfl⟩
    · next hnil =>
      have hpos := List.length_pos_iff.mpr hnil
      obtain ⟨hadded, hslots⟩ := hi.addUnreferenced (l := ⟨key.data, (t :: path').length, current.isExtension⟩) current
        (.branch s.branchNodes.length) hnode (Nat.succ_lt_succ hpos)
      have hkeyed := hadded.1.insertKey (.branch s.branchNodes.length) key.fullEncoding
      refine .of_node (by dsimp only; split <;> rfl) (hadded.trans hkeyed) (Nat.lt_irrefl _)
        (hkeyed.2.allocated (allocated_pushBranch _ _)) (Function.update_self _ _ _) ?_
      have hnode' := (hadded.trans hkeyed).2.knows.nodeAt hnode
      cases hempty : (pieces.getD t.toNat .empty).isEmpty with
      | true => exact ⟨_, Ends.branch_empty hnode' hempty, rfl⟩
      | false =>
        refine ⟨hkeyed.2.slot (hslots t.toNat hlt hempty), ?_, fun pre o hknows ho => ?_⟩
        · rw [budget, budget, List.length_cons]
          simp only [NodeType.isExtension, Bool.false_eq_true, if_false]
          omega
        · exact Ends.branch_child (hknows.nodeAt hnode') hempty hnil ho

theorem descendThroughProof_meets (hi : Inv keccak rootHash label s) :
    Meets (descendThroughProof keccak env path key current) s (Kept keccak rootHash label s)
      (Appended keccak rootHash label s current key.data path) := by
  refine Meets.require_bind (fun _ => hi.kept (by decide)) fun _ => ?_
  refine Meets.bind ((consultCacheOrOracle_meets hi key.data).mono ?_ fun _ _ h => h) ?_
  · rintro e s' ⟨he, h⟩
    exact ⟨he, label, h⟩
  · rintro raw s₁ ⟨⟨hi₁, hg₁⟩, hraw⟩
    have hkept : ∀ e s', Kept keccak rootHash label s₁ e s' → Kept keccak rootHash label s e s' := by
      rintro e s' ⟨he, label', hi', hg'⟩
      exact ⟨he, label', hi', hg₁.trans hg'⟩
    have happended : ∀ r s', Appended keccak rootHash label s₁ current key.data path r s' →
        Appended keccak rootHash label s current key.data path r s' := by
      rintro r s' ⟨label', ⟨hi', hg'⟩, hnew, hrest⟩
      exact ⟨label', ⟨hi', hg₁.trans hg'⟩, fun ha => hnew (hg₁.allocated ha), hrest⟩
    refine Meets.bind ((parseNode_meets raw).mono ?_ fun _ _ h => h) ?_
    · rintro e s' ⟨he, rfl⟩
      exact hkept e _ (hi₁.kept he)
    · rintro ⟨node, pieces⟩ s' ⟨rfl, hparse⟩
      have hnode := nodeAt_of_raw hraw hparse
      cases node with
      | leaf leaf => exact (appendLeaf_meets hi₁ hnode).mono hkept happended
      | extension extension =>
        exact (appendExtension_meets hi₁ hnode ((nodeAt_shape hnode).1 extension rfl)).mono hkept happended
      | branch branch => exact (appendBranch_meets hi₁ hnode).mono hkept happended

end ZkOs.Mpt
