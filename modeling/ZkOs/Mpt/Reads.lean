import ZkOs.Mpt.Append

/-!
# What a read of the trie returns

* `Lands` : where a descent through the arena ends, `descendLoop_lands` : it ends there;
* `appendLoop_meets` : from a missing node on, the read returns what is at the end of the path;
* `get_meets` : so does the whole read.  A leaf in the arena that is too short for the path counts as absent.
-/

namespace ZkOs.Mpt

open ZkOs.Action (Meets)

variable {keccak : List UInt8 → List UInt8} {rootHash : List UInt8} {label label' : NodeType → Label}
  {s s' : EthereumMpt} {env : Env}

/-! ## Segments and paths -/

theorem commonPrefixLen_le (segment path : List UInt8) : commonPrefixLen segment path ≤ segment.length := by
  induction segment generalizing path with
  | nil => exact Nat.zero_le _
  | cons a segment ih =>
    cases path with
    | nil => exact Nat.zero_le _
    | cons b path =>
      rw [commonPrefixLen]
      split
      · exact Nat.succ_le_succ (ih path)
      · exact Nat.zero_le _

variable {segment : List UInt8} {i fuel : Nat} {c : NodeType} {pieces : List RlpSlice} {pre : Preimages}

theorem commonPrefixLen_eq_length {path : List UInt8} :
    commonPrefixLen segment path = segment.length ↔ segment <+: path := by
  induction segment generalizing path with
  | nil => simp [commonPrefixLen]
  | cons a segment ih =>
    cases path with
    | nil => simp [commonPrefixLen]
    | cons b path =>
      rw [commonPrefixLen, List.cons_prefix_cons]
      split
      · next heq => simp [heq, ih]
      · next heq => simp [heq]

theorem drop_commonPrefixLen_eq_nil {path : List UInt8} (hlen : segment.length ≤ path.length) :
    path.drop (commonPrefixLen segment path) = [] ↔ segment = path := by
  rw [List.drop_eq_nil_iff]
  constructor
  · intro hle
    have heq : commonPrefixLen segment path = segment.length := by
      have := commonPrefixLen_le segment path
      omega
    refine (commonPrefixLen_eq_length.mp heq).eq_of_length ?_
    have := commonPrefixLen_le segment path
    omega
  · rintro rfl
    exact (commonPrefixLen_eq_length.mpr List.prefix_rfl).ge

/-! ## Nodes that are there -/

/-- Where a descent from a node of the arena ends: with the value that the path ends at, or at the slot of the next
node on the path. -/
def Lands (label : NodeType → Label) (s : EthereumMpt) (node : NodeType) (path : List UInt8) : Descent → Prop
  | .found value => ∃ o, Ends s.preimagesCache (label node).afterExtension (label node).key path o ∧ o.cached = value
  | .missing parent idx key path' => Slot s label key path'.length idx parent ∧
    ∀ pre o, Knows s.preimagesCache pre → Ends pre parent.isExtension key.data path' o →
      Ends pre (label node).afterExtension (label node).key path o

/-- What one step through the arena does: it ends the descent, or goes on to a node with a smaller budget. -/
def Steps (label : NodeType → Label) (s : EthereumMpt) (node : NodeType) (path path' : List UInt8) : DescendPath → Prop
  | .pathDiverged _ _ | .emptyBranchTaken _ _ => Lands label s node path (.found [])
  | .leafReached _ value | .branchReached _ _ value => Lands label s node path (.found value.data)
  | .unreferencedPathEncountered parent idx key => Lands label s node path (.missing parent idx key path')
  | .follow next => s.Allocated next ∧ (label next).remaining = path'.length ∧
    budget (label next).afterExtension path' < budget (label node).afterExtension path ∧
    ∀ pre o, Knows s.preimagesCache pre → Ends pre (label next).afterExtension (label next).key path' o →
      Ends pre (label node).afterExtension (label node).key path o

variable {node : NodeType} {path path' : List UInt8} {step : DescendPath}

theorem leaf_steps (hi : Inv keccak rootHash label s)
    (h : s.descendThroughExistingNodes path (.leaf i) = .ok (step, path')) :
    Steps label s (.leaf i) path path' step := by
  rw [EthereumMpt.descendThroughExistingNodes] at h
  split at h
  · cases h
  · split at h
    · cases h
    · next n hn =>
      obtain ⟨leaf, pieces, hnode, hsegment, hvalue⟩ := hi.leaf i n hn
      rw [followCommonPrefix] at h
      split at h
      · cases h
      · next hfollow =>
        split at hfollow
        · cases hfollow
        · next hlen =>
          cases hfollow
          rw [← hsegment, not_lt] at hlen
          have hends := Ends.leaf (a := (label (.leaf i)).afterExtension) hnode hlen
          rw [← hsegment, ← hvalue] at h
          simp only [drop_commonPrefixLen_eq_nil hlen] at h
          split at h
          · next heq =>
            cases h
            rw [if_pos heq] at hends
            exact ⟨_, hends, rfl⟩
          · next hne =>
            cases h
            refine ⟨_, hends, ?_⟩
            rw [if_neg hne]
            split <;> rfl

theorem extension_steps (hi : Inv keccak rootHash label s) (hrem : (label (.extension i)).remaining = path.length)
    (h : s.descendThroughExistingNodes path (.extension i) = .ok (step, path')) :
    Steps label s (.extension i) path path' step := by
  rw [EthereumMpt.descendThroughExistingNodes] at h
  split at h
  · cases h
  · split at h
    · cases h
    · next n hn =>
      obtain ⟨⟨extension, pieces, hnode, hsegment, hkey⟩, hnot, hchild⟩ := hi.extension i n hn
      rw [← hsegment, hrem, ← hkey] at hchild
      rw [followCommonPrefix] at h
      split at h
      · cases h
      · next hfollow =>
        split at hfollow
        · cases hfollow
        · next hlen =>
          cases hfollow
          rw [← hsegment, not_lt] at hlen
          rw [← hsegment, ← hkey] at h
          split at h
          · cases h
          · simp only [commonPrefixLen_eq_length] at h
            split at h
            · next hstarts =>
              rw [commonPrefixLen_eq_length.mpr hstarts] at h
              split at h
              · next hunlinked =>
                cases h
                refine ⟨⟨n, hn, hunlinked, hkey.symm, ?_⟩, fun pre o hknows ho => ?_⟩
                · rw [hrem, ← hsegment, List.length_drop]
                · exact Ends.extension (hknows.nodeAt hnode) hnot hstarts ho
              · next hlinked =>
                cases h
                obtain ⟨ha, hl⟩ := hchild.resolve_left hlinked
                refine ⟨ha, ?_, ?_, fun pre o hknows ho => ?_⟩
                · rw [hl, List.length_drop]
                · rw [hl, hnot, budget, budget, List.length_drop]
                  simp only [if_true, Bool.false_eq_true, if_false]
                  omega
                · rw [hl] at ho
                  exact Ends.extension (hknows.nodeAt hnode) hnot hstarts ho
            · next hstarts =>
              cases h
              exact ⟨_, Ends.diverged hnode hnot hlen hstarts, rfl⟩

/-- The step of a branch to its child, by what the slot of the child holds. -/
theorem child_steps {idx : Nat} {t : UInt8} {branch : BranchNode} {n : BranchNode} (hn : s.branchNodes[i]? = some n)
    (hc : n.childNodes[t.toNat]? = some c)
    (hnode : nodeAt s.preimagesCache (label (.branch i)).key = some (.branch branch, pieces))
    (hrem : (label (.branch i)).remaining = (t :: path).length) (hidx : idx = t.toNat)
    (hchild : ChildOk s label (t :: path).length (pieces.getD t.toNat .empty) c)
    (h : s.descendThroughBranch path (.branch i) idx c = .ok step) :
    Steps label s (.branch i) (t :: path) path step := by
  subst hidx
  -- a node in the slot of a child is followed unless the path ends at the branch
  have hlinked : ∀ next, s.Allocated next ∧
      label next = ⟨(pieces.getD t.toNat .empty).data, (t :: path).length - 1, false⟩ →
      (pieces.getD t.toNat .empty).isEmpty = false → path ≠ [] →
      Steps label s (.branch i) (t :: path) path (.follow next) := by
    rintro next ⟨ha, hl⟩ hne hpath
    refine ⟨ha, ?_, ?_, fun pre o hknows ho => ?_⟩
    · rw [hl]
      rfl
    · rw [hl, budget, budget, List.length_cons]
      simp only [Bool.false_eq_true, if_false]
      omega
    · rw [hl] at ho
      exact Ends.branch_child (hknows.nodeAt hnode) hne hpath ho
  cases c with
  | empty =>
    rw [EthereumMpt.descendThroughBranch] at h
    split at h
    · cases h
      exact ⟨_, Ends.branch_empty hnode hchild, rfl⟩
    · cases h
      exact ⟨_, Ends.branch_empty hnode hchild, rfl⟩
  | terminalValueInBranch j =>
    obtain ⟨hne, hone, hv⟩ := hchild
    obtain ⟨value, hvalue, henc⟩ := Option.map_eq_some_iff.mp hv
    rw [EthereumMpt.descendThroughBranch] at h
    split at h
    · next hpath =>
      subst hpath
      rw [hvalue] at h
      cases h
      rw [← henc] at hne
      refine ⟨_, Ends.branch_value hnode (henc ▸ hne), ?_⟩
      rw [henc]
      rfl
    · cases h
  | unreferencedValueInBranch j =>
    obtain ⟨hne, -, hv⟩ := hchild
    obtain ⟨value, hvalue, henc⟩ := Option.map_eq_some_iff.mp hv
    rw [EthereumMpt.descendThroughBranch] at h
    split at h
    · cases h
    · next hpath =>
      rw [hvalue] at h
      cases h
      refine ⟨⟨n, j, hn, hc, ?_, hrem⟩, fun pre o hknows ho => ?_⟩
      · rw [hvalue]
        rfl
      · rw [henc] at ho
        exact Ends.branch_child (hknows.nodeAt hnode) hne hpath ho
  | branch j | extension j | leaf j =>
    obtain ⟨hne, -, hnext⟩ := hchild
    rw [EthereumMpt.descendThroughBranch] at h
    split at h
    · cases h
    · next hpath =>
      cases h
      exact hlinked _ hnext hne hpath
  | unlinked | opaqueNontrivialRoot => cases h

theorem branch_steps (hi : Inv keccak rootHash label s) (hrem : (label (.branch i)).remaining = path.length)
    (h : s.descendThroughExistingNodes path (.branch i) = .ok (step, path')) :
    Steps label s (.branch i) path path' step := by
  rw [EthereumMpt.descendThroughExistingNodes] at h
  split at h
  · cases h
  · split at h
    · cases h
    · next n hn =>
      obtain ⟨⟨branch, pieces, hnode, hchildren⟩, -⟩ := hi.branch i n hn
      cases path with
      | nil => cases h
      | cons t path =>
        dsimp only [takeBranch] at h
        split at h
        · cases h
        · next c hc =>
          have hchild := hchildren t.toNat c hc
          rw [hrem] at hchild
          cases hstep : s.descendThroughBranch path (.branch i) t.toNat c with
          | error e =>
            rw [hstep] at h
            cases h
          | ok step' =>
            rw [hstep] at h
            cases h
            exact child_steps hn hc hnode hrem rfl hchild hstep

theorem descendThroughExistingNodes_steps (hi : Inv keccak rootHash label s)
    (hrem : (label node).remaining = path.length)
    (h : s.descendThroughExistingNodes path node = .ok (step, path')) : Steps label s node path path' step := by
  cases node with
  | leaf i => exact leaf_steps hi h
  | extension i => exact extension_steps hi hrem h
  | branch i => exact branch_steps hi hrem h
  | empty | unreferencedValueInBranch | unlinked | terminalValueInBranch | opaqueNontrivialRoot =>
    simp only [EthereumMpt.descendThroughExistingNodes] at h
    split at h <;> cases h

theorem descendLoop_lands (hi : Inv keccak rootHash label s) {d : Descent} (hrem : (label node).remaining = path.length)
    (h : descendLoop s fuel path node = .ok d) :
    Lands label s node path d := by
  induction fuel generalizing path node with
  | zero => cases h
  | succ fuel ih =>
    rw [descendLoop] at h
    cases hstep : s.descendThroughExistingNodes path node with
    | error e =>
      rw [hstep] at h
      cases h
    | ok r =>
      obtain ⟨step, path'⟩ := r
      rw [hstep] at h
      have hs := descendThroughExistingNodes_steps hi hrem hstep
      cases step with
      | pathDiverged | emptyBranchTaken | leafReached | branchReached | unreferencedPathEncountered =>
        cases h
        exact hs
      | follow next =>
        obtain ⟨-, hrem', -, hon⟩ := hs
        have hlands := ih hrem' h
        cases d with
        | found value =>
          obtain ⟨o, ho, hv⟩ := hlands
          exact ⟨o, hon _ o (.refl _) ho, hv⟩
        | missing parent idx key path₁ =>
          obtain ⟨hslot, hrest⟩ := hlands
          exact ⟨hslot, fun pre o hknows ho => hon pre o hknows (hrest pre o hknows ho)⟩

theorem descendThroughBranch_ne_fuel :
    s.descendThroughBranch path node i c ≠ .error .fuel := by
  cases c <;> grind [EthereumMpt.descendThroughBranch]

theorem descendThroughExistingNodes_ne_fuel : s.descendThroughExistingNodes path node ≠ .error .fuel := by
  intro h
  cases node with
  | branch i =>
    rw [EthereumMpt.descendThroughExistingNodes] at h
    split at h
    · cases h
    split at h
    · cases h
    split at h
    · cases h
    split at h
    · cases h
    next c _ =>
      rcases hstep : s.descendThroughBranch _ (.branch i) _ c with e | step <;> rw [hstep] at h <;> cases h
      exact descendThroughBranch_ne_fuel hstep
  | leaf | extension | empty | unreferencedValueInBranch | unlinked | terminalValueInBranch | opaqueNontrivialRoot =>
    grind [EthereumMpt.descendThroughExistingNodes]

theorem descendLoop_ne_fuel (hi : Inv keccak rootHash label s) (hrem : (label node).remaining = path.length)
    (hfuel : budget (label node).afterExtension path < fuel) :
    descendLoop s fuel path node ≠ .error .fuel := by
  induction fuel generalizing path node with
  | zero => exact absurd hfuel (Nat.not_lt_zero _)
  | succ fuel ih =>
    rw [descendLoop]
    cases hstep : s.descendThroughExistingNodes path node with
    | error e =>
      rintro heq
      cases heq
      exact descendThroughExistingNodes_ne_fuel hstep
    | ok r =>
      obtain ⟨step, path'⟩ := r
      have hs := descendThroughExistingNodes_steps hi hrem hstep
      cases step with
      | pathDiverged | emptyBranchTaken | leafReached | branchReached | unreferencedPathEncountered => exact nofun
      | follow next =>
        obtain ⟨-, hrem', hbudget, -⟩ := hs
        exact ih hrem' (by omega)

/-! ## The whole read -/

variable {key : RlpSlice} {current : NodeType} {idx : Nat}

/-- A call that fails has rounds enough and keeps the invariant. -/
def Stops (keccak : List UInt8 → List UInt8) (rootHash : List UInt8) (e : Fail) (s : EthereumMpt) : Prop :=
  e ≠ .fuel ∧ ∃ label, Inv keccak rootHash label s

theorem appendLoop_meets (hi : Inv keccak rootHash label s) (hslot : Slot s label key path.length idx current)
    (hfuel : budget current.isExtension path < fuel) :
    Meets (appendLoop keccak env fuel path key current idx) s (Stops keccak rootHash)
      (fun v s' => (∃ label', Inv keccak rootHash label' s') ∧ Knows s.preimagesCache s'.preimagesCache ∧
        ∃ o, Ends s'.preimagesCache current.isExtension key.data path o ∧ o.fresh = v) := by
  induction fuel generalizing s label path key current idx with
  | zero => exact absurd hfuel (Nat.not_lt_zero _)
  | succ fuel ih =>
    rw [appendLoop]
    refine Meets.bind ((descendThroughProof_meets hi).mono ?_ fun _ _ h => h) ?_
    · rintro e s' ⟨he, label', hi', -⟩
      exact ⟨he, label', hi'⟩
    · rintro ⟨step, path'⟩ s₁ ⟨label', ⟨hi₁, hg⟩, hnew, ha, hl, harrives⟩
      obtain ⟨s₂, hlink, hi₂, hcache, hslots⟩ := linkIfNeeded_spec hi₁ (hg.slot hslot) ha hl
      have hne : step.node ≠ current := by
        rintro rfl
        exact hnew hslot.allocated
      have hknows : Knows s.preimagesCache s₂.preimagesCache := hcache ▸ hg.knows
      -- the path goes on from its slot
      have hon : ∀ nextKey j, Slot s₁ label' nextKey path'.length j step.node →
          budget step.node.isExtension path' < budget current.isExtension path →
          (∀ pre o, Knows s₁.preimagesCache pre → Ends pre step.node.isExtension nextKey.data path' o →
            Ends pre current.isExtension key.data path o) →
          Meets (appendLoop keccak env fuel path' nextKey step.node j) s₂ (Stops keccak rootHash)
            (fun v s' => (∃ label', Inv keccak rootHash label' s') ∧ Knows s.preimagesCache s'.preimagesCache ∧
              ∃ o, Ends s'.preimagesCache current.isExtension key.data path o ∧ o.fresh = v) := by
        intro nextKey j hslot' hbudget hends
        refine (ih hi₂ (hslots _ _ _ _ hne hslot') (by omega)).mono (fun _ _ h => h) ?_
        rintro v s' ⟨hi', hknows', o, ho, hv⟩
        exact ⟨hi', hknows.trans hknows', o, hends _ o (hcache ▸ hknows') ho, hv⟩
      cases step with
      | pathDiverged | emptyBranchTaken | leafReached | branchReached =>
        exact .after_ok hlink ⟨⟨label', hi₂⟩, hknows, hcache ▸ harrives⟩
      | follow node nextKey => exact .after_ok hlink (hon nextKey idx (harrives.1 idx) harrives.2.1 harrives.2.2)
      | branchTaken node j nextKey => exact .after_ok hlink (hon nextKey j harrives.1 harrives.2.1 harrives.2.2)

theorem rlpParseShortBytes_hash (hlen : rootHash.length = 32) :
    rlpParseShortBytes (0xa0 :: rootHash) = some rootHash := by
  simp [rlpParseShortBytes, consume, hlen]

/-- What is known of the root once it is in the arena. -/
def RootKnown (label : NodeType → Label) (s : EthereumMpt) (rootHash : List UInt8) (root : NodeType) : Prop :=
  s.Allocated root ∧ label root = ⟨rootHash, 64, false⟩ ∧
    ∃ node, nodeAt s.preimagesCache rootHash = some node ∧ RootShape s.preimagesCache rootHash

theorem rootShape_of_node {node : ParsedNode} (hnode : nodeAt pre rootHash = some (node, pieces))
    (hleaf : ∀ leaf, node = .leaf leaf → leaf.pathSegment.length = 64)
    (hextension : ∀ extension, node = .extension extension → extension.pathSegment.length = 64) :
    RootShape pre rootHash := by
  intro node' pieces' hnode'
  rw [hnode] at hnode'
  cases hnode'
  exact ⟨hleaf, hextension⟩

theorem allocateRootNodeFromOracle_meets (hi : Inv keccak rootHash label s) :
    Meets (allocateRootNodeFromOracle keccak env rootHash .empty) s (Stops keccak rootHash)
      (fun root s' => Knows s.preimagesCache s'.preimagesCache ∧
        ∃ label', Inv keccak rootHash label' s' ∧ RootKnown label' s' rootHash root) := by
  refine Meets.bind ((consultCacheOrOracle_meets hi rootHash).mono ?_ fun _ _ h => h) ?_
  · rintro e s' ⟨he, hi', -⟩
    exact ⟨he, label, hi'⟩
  · rintro raw s₁ ⟨⟨hi₁, hg₁⟩, hraw⟩
    refine Meets.bind ((parseNode_meets raw).mono ?_ fun _ _ h => h) ?_
    · rintro e s' ⟨he, rfl⟩
      exact ⟨he, label, hi₁⟩
    · rintro ⟨node, pieces⟩ s' ⟨rfl, hparse⟩
      have hnode := nodeAt_of_raw hraw hparse
      rw [Action.meets_get_bind]
      cases node with
      | leaf leaf =>
        refine Meets.require_bind (fun _ => ⟨by decide, label, hi₁⟩) fun h64 => ?_
        have hleaf : LeafOk s' ⟨rootHash, 64, false⟩ { leaf with parentNode := .empty } :=
          ⟨leaf, pieces, hnode, rfl, rfl⟩
        obtain ⟨hpushed, -⟩ := hi₁.pushLeaf hleaf
        refine ⟨hg₁.knows, _, hpushed, allocated_pushLeaf s' _, Function.update_self _ _ _, _, hnode,
          rootShape_of_node hnode ?_ nofun⟩
        rintro _ ⟨⟩
        exact h64
      | extension extension =>
        refine Meets.require_bind (fun _ => ⟨by decide, label, hi₁⟩) fun h64 => ?_
        have hextension : ExtensionOk s' label ⟨rootHash, 64, false⟩ { extension with parentNode := .empty } :=
          ⟨⟨extension, pieces, hnode, rfl, rfl⟩, rfl, .inl ((nodeAt_shape hnode).1 extension rfl)⟩
        obtain ⟨hpushed, -⟩ := hi₁.pushExtension hextension
        refine ⟨hg₁.knows, _, hpushed, allocated_pushExtension s' _, Function.update_self _ _ _, _, hnode,
          rootShape_of_node hnode nofun ?_⟩
        rintro _ ⟨⟩
        exact h64
      | branch branch =>
        obtain ⟨⟨hadded, -⟩, -⟩ := hi₁.addUnreferenced (l := ⟨rootHash, 64, false⟩) .empty .empty hnode (show 1 < 64 by decide)
        exact ⟨hg₁.knows, _, hadded, allocated_pushBranch _ _, Function.update_self _ _ _, _, hnode,
          rootShape_of_node hnode nofun nofun⟩

theorem Inv.setRoot (hi : Inv keccak rootHash label s) {root : NodeType} (hroot : RootKnown label s rootHash root) :
    Inv keccak rootHash label { s with root } := by
  have hc : Carries s label { s with root } label := by
    refine ⟨.refl _, fun node hn => ?_, List.prefix_rfl, List.prefix_rfl, fun _ _ => rfl⟩
    cases node <;> exact hn
  obtain ⟨ha, hrest⟩ := hroot
  exact ⟨hi.interned, hi.cache, .inr ⟨hc.allocated _ ha, hrest⟩, fun i n hn => hc.leafOk (hi.leaf i n hn),
    fun i n hn => hc.extensionOk (hi.extension i n hn), fun i n hn => hc.branchOk (hi.branch i n hn)⟩

theorem allocateRoot_meets (hi : Inv keccak rootHash label s) (hlen : rootHash.length = 32) :
    Meets (allocateRoot keccak env) s (Stops keccak rootHash)
      (fun _ s' => Knows s.preimagesCache s'.preimagesCache ∧
        ∃ label', Inv keccak rootHash label' s' ∧ RootKnown label' s' rootHash s'.root) := by
  rw [allocateRoot, Action.meets_get_bind]
  split
  · rw [hi.interned, rlpParseShortBytes_hash hlen]
    refine Meets.ofOption_bind (fun h => nomatch h) fun _ heq => ?_
    cases heq
    refine Meets.bind (allocateRootNodeFromOracle_meets hi) ?_
    rintro root s₁ ⟨hknows, label', hi₁, hroot⟩
    have hne : root ≠ .opaqueNontrivialRoot := by
      rintro rfl
      exact hroot.1
    obtain ⟨hi₂, -⟩ := (hi₁.setRoot hroot).insertKey root s₁.internedRootNodeKey
    exact ⟨hknows, label', hi₂, hi₂.root.resolve_left hne⟩
  · next hne => exact ⟨.refl _, label, hi, hi.root.resolve_left hne⟩

theorem get_meets (hi : Inv keccak rootHash label s) (hlen : rootHash.length = 32) (hpath : path.length = 64) :
    Meets (get keccak env path) s (Stops keccak rootHash)
      (fun v s' => (∃ label', Inv keccak rootHash label' s') ∧ Knows s.preimagesCache s'.preimagesCache ∧
        RootShape s'.preimagesCache rootHash ∧
        ∃ o, Ends s'.preimagesCache false rootHash path o ∧ (o.fresh = v ∨ o.cached = v)) := by
  rw [get, Action.meets_get_bind, if_neg hi.root_ne_empty]
  refine Meets.bind (allocateRoot_meets hi hlen) ?_
  rintro ⟨⟩ s₁ ⟨hknows₁, label₁, hi₁, ha, hl, node, hnode, hshape⟩
  rw [Action.meets_get_bind]
  have hrem : (label₁ s₁.root).remaining = path.length := by rw [hl, hpath]
  have hfuel : budget (label₁ s₁.root).afterExtension path < rounds path := by
    rw [budget, rounds]
    split <;> omega
  cases hloop : descendLoop s₁ (rounds path) path s₁.root with
  | error e =>
    refine ⟨?_, label₁, hi₁⟩
    rintro rfl
    exact descendLoop_ne_fuel hi₁ hrem hfuel hloop
  | ok d =>
    have hlands := descendLoop_lands hi₁ hrem hloop
    cases d with
    | found value =>
      obtain ⟨o, ho, hv⟩ := hlands
      rw [hl] at ho
      exact ⟨⟨label₁, hi₁⟩, hknows₁, hshape, o, ho, .inr hv⟩
    | missing parent idx key path' =>
      obtain ⟨hslot, hrest⟩ := hlands
      have hfuel' : budget parent.isExtension path' < rounds path' := by
        rw [budget, rounds]
        split <;> omega
      refine (appendLoop_meets hi₁ hslot hfuel').mono (fun _ _ h => h) ?_
      rintro v s' ⟨hi', hknows, o, ho, hv⟩
      have ho' := hrest _ o hknows ho
      rw [hl] at ho'
      exact ⟨hi', hknows₁.trans hknows, hshape.knows hknows hnode, o, ho', .inl hv⟩

/-! ## Any reads before -/

/-- The tries that reads leave, whatever the answers to them were. -/
inductive Reachable (keccak : List UInt8 → List UInt8) (rootHash : List UInt8) : EthereumMpt → Prop
  | new {s : EthereumMpt} {buffer : Bool} (h : newIn rootHash buffer = some s) : Reachable keccak rootHash s
  | get {s : EthereumMpt} (env : Env) {path : List UInt8} (hpath : path.length = 64)
    (hs : Reachable keccak rootHash s) : Reachable keccak rootHash (Mpt.get keccak env path s).2

theorem newIn_inv {buffer : Bool} (hne : rootHash ≠ emptyRootHash) (h : newIn rootHash buffer = some s) :
    Inv keccak rootHash label s := by
  simp only [newIn, if_neg hne, Option.bind_eq_bind, Option.bind_eq_some_iff, Option.pure_def, Option.some.injEq] at h
  obtain ⟨_, -, rfl⟩ := h
  exact ⟨rfl, nofun, .inl rfl, nofun, nofun, nofun⟩

theorem Reachable.inv (hne : rootHash ≠ emptyRootHash) (hlen : rootHash.length = 32)
    (hs : Reachable keccak rootHash s) : ∃ label, Inv keccak rootHash label s := by
  induction hs with
  | new h => exact ⟨fun _ => ⟨[], 0, false⟩, newIn_inv hne h⟩
  | @get s env path hpath _ ih =>
    obtain ⟨label, hi⟩ := ih
    rcases hrun : Mpt.get keccak env path s with ⟨e | v, s'⟩
    · exact ((get_meets hi hlen hpath).of_error hrun).2
    · exact ((get_meets hi hlen hpath).of_ok hrun).1

theorem get_of_empty (hroot : s.root = .empty) : get keccak env path s = (.ok [], s) := by
  rw [get, Action.bind_of_ok (Action.get_apply s), if_pos hroot]
  rfl

theorem Reachable.root_empty (heq : rootHash = emptyRootHash) (hs : Reachable keccak rootHash s) : s.root = .empty := by
  induction hs with
  | new h =>
    simp only [newIn, if_pos heq, Option.bind_eq_bind, Option.bind_eq_some_iff, Option.pure_def, Option.some.injEq] at h
    obtain ⟨_, -, rfl⟩ := h
    rfl
  | get env hpath _ ih =>
    rw [get_of_empty ih]
    exact ih

/-- No two of the preimages have the same hash. -/
def NoCollision (keccak : List UInt8 → List UInt8) (pre pre' : Preimages) : Prop :=
  ∀ k k' x y, pre k = some x → pre' k' = some y → keccak x = keccak y → x = y

/-- No preimages lead the path to a leaf with a value and too short a segment. -/
def NoShortLeaf (keccak : List UInt8 → List UInt8) (rootHash path : List UInt8) : Prop :=
  ∀ pre w, (∀ k x, pre k = some x → keccak x = k) → RootShape pre rootHash → Ends pre false rootHash path (.short w) → w = []

/-- Preimages that a later read keeps do not collide with those of before. -/
theorem noCollision_of_knows {pre' : Preimages} (h : Knows pre pre') (hpre : ∀ k x, pre k = some x → keccak x = k)
    (hpre' : ∀ k x, pre' k = some x → keccak x = k) : NoCollision keccak pre pre' := by
  intro k k' x y hx hy heq
  rw [hpre k x hx, hpre' k' y hy] at heq
  subst heq
  exact Option.some.inj ((h k x hx).symm.trans hy)

/-- Two reads of a path return the same unless a leaf on the path is too short: such a leaf is read as its value when it
comes from the oracle, and as absent when it is in the arena. -/
theorem get_agrees {env' : Env} {v v' : List UInt8} {t t' : EthereumMpt} (hlen : rootHash.length = 32)
    (hpath : path.length = 64) (hshort : NoShortLeaf keccak rootHash path) (hs : Reachable keccak rootHash s)
    (hs' : Reachable keccak rootHash s') (hget : get keccak env path s = (.ok v, t))
    (hget' : get keccak env' path s' = (.ok v', t')) (hno : NoCollision keccak t.preimagesCache t'.preimagesCache) :
    v = v' := by
  by_cases hempty : rootHash = emptyRootHash
  · rw [get_of_empty (hs.root_empty hempty)] at hget
    rw [get_of_empty (hs'.root_empty hempty)] at hget'
    cases hget
    cases hget'
    rfl
  · obtain ⟨label, hi⟩ := hs.inv hempty hlen
    obtain ⟨label', hi'⟩ := hs'.inv hempty hlen
    obtain ⟨⟨_, ht⟩, -, hshape, o, ho, hv⟩ := (get_meets hi hlen hpath).of_ok hget
    obtain ⟨⟨_, ht'⟩, -, -, o', ho', hv'⟩ := (get_meets hi' hlen hpath).of_ok hget'
    have hagree : Agree t.preimagesCache t'.preimagesCache := by
      intro k x y hx hy
      exact hno k k x y hx hy ((ht.cache k x hx).trans (ht'.cache k y hy).symm)
    obtain rfl := Ends.agree hagree ho ho'
    have hsame : o.fresh = o.cached := by
      cases o with
      | absent | value => rfl
      | short w => exact hshort _ w ht.cache hshape ho
    rw [hsame, or_self] at hv hv'
    exact hv.symm.trans hv'

def sumHash (bytes : List UInt8) : List UInt8 := List.replicate 32 (bytes.foldl (· + ·) 0)

/-- A branch with two leaves, each with one nibble and the value 7. -/
def twoLeaves : List UInt8 :=
  0xd7 :: ([0x83, 0xc2, 0x31, 0x07] ++ [0x83, 0xc2, 0x31, 0x07] ++ List.replicate 15 0x80)

def twoLeavesEnv : Env := ⟨fun _ => some twoLeaves, fun _ _ => true⟩

def leafPath : List UInt8 := 0 :: 1 :: List.replicate 62 0

/-- The first read returns the value of the leaf, the second one with the same oracle returns nothing. -/
theorem get_disagrees :
    ∃ s t t', newIn (sumHash twoLeaves) true = some s ∧ get sumHash twoLeavesEnv leafPath s = (.ok [7], t) ∧
      get sumHash twoLeavesEnv leafPath t = (.ok [], t') ∧ NoCollision sumHash t.preimagesCache t'.preimagesCache := by
  have hruns : (newIn (sumHash twoLeaves) true).map (fun s =>
      ((get sumHash twoLeavesEnv leafPath s).1.toOption,
        (get sumHash twoLeavesEnv leafPath (get sumHash twoLeavesEnv leafPath s).2).1.toOption)) =
      some (some [7], some []) := by
    decide +kernel
  obtain ⟨s, hs, hvalues⟩ := Option.map_eq_some_iff.mp hruns
  rcases hget : get sumHash twoLeavesEnv leafPath s with ⟨_ | v, t⟩ <;> rw [hget] at hvalues
  · cases hvalues
  rcases hget' : get sumHash twoLeavesEnv leafPath t with ⟨_ | v', t'⟩ <;> simp only [hget'] at hvalues
  · cases hvalues
  cases hvalues
  have hlen : (sumHash twoLeaves).length = 32 := List.length_replicate
  have hi : Inv sumHash (sumHash twoLeaves) (fun _ => ⟨[], 0, false⟩) s := newIn_inv (by decide +kernel) hs
  obtain ⟨⟨_, ht⟩, -⟩ := (get_meets hi hlen (by decide)).of_ok hget
  obtain ⟨⟨_, ht'⟩, hknows, -⟩ := (get_meets ht hlen (by decide)).of_ok hget'
  exact ⟨s, t, t', hs, hget, hget', noCollision_of_knows hknows ht.cache ht'.cache⟩

/-- A trie with one leaf, whose segment is the whole path. -/
def oneLeaf : List UInt8 := 0xe3 :: 0xa1 :: 0x20 :: (List.replicate 32 0 ++ [7])

/-- A hash that tells the leaf from everything else. -/
def oneLeafHash (bytes : List UInt8) : List UInt8 := if bytes = oneLeaf then List.replicate 32 1 else []

def oneLeafEnv : Env := ⟨fun _ => some oneLeaf, fun _ _ => true⟩

theorem noShortLeaf_oneLeaf : NoShortLeaf oneLeafHash (List.replicate 32 1) (List.replicate 64 0) := by
  rintro pre w hpre - ⟨fuel, hwalk⟩
  exfalso
  cases fuel with
  | zero => cases hwalk
  | succ fuel =>
    rw [walk] at hwalk
    have hraw : rawOf pre (List.replicate 32 1) = pre (List.replicate 32 1) := rfl
    cases hx : pre (List.replicate 32 1) with
    | none =>
      rw [nodeAt, hraw, hx] at hwalk
      cases hwalk
    | some x =>
      have hhash := hpre _ x hx
      have heq : x = oneLeaf := by
        by_contra hne
        rw [oneLeafHash, if_neg hne] at hhash
        cases hhash
      have hnode : parseNodeFromBytes oneLeaf = some (.leaf ⟨List.replicate 64 0, .unlinked,
          0xa1 :: 0x20 :: List.replicate 32 0, ⟨[7], 0⟩⟩,
          [⟨0xa1 :: 0x20 :: List.replicate 32 0, 1⟩, ⟨[7], 0⟩]) := by
        decide +kernel
      rw [nodeAt, hraw, hx, heq, Option.bind_some, hnode] at hwalk
      cases hwalk

theorem get_agrees_oneLeaf :
    ∃ s t t' v, newIn (List.replicate 32 1) true = some s ∧
      get oneLeafHash oneLeafEnv (List.replicate 64 0) s = (.ok [7], t) ∧
      get oneLeafHash oneLeafEnv (List.replicate 64 0) t = (.ok v, t') ∧ [7] = v := by
  have hruns : (newIn (List.replicate 32 1) true).map (fun s =>
      ((get oneLeafHash oneLeafEnv (List.replicate 64 0) s).1.toOption,
        (get oneLeafHash oneLeafEnv (List.replicate 64 0)
          (get oneLeafHash oneLeafEnv (List.replicate 64 0) s).2).1.toOption)) =
      some (some [7], some [7]) := by
    decide +kernel
  obtain ⟨s, hs, hvalues⟩ := Option.map_eq_some_iff.mp hruns
  rcases hget : get oneLeafHash oneLeafEnv (List.replicate 64 0) s with ⟨_ | v, t⟩ <;> rw [hget] at hvalues
  · cases hvalues
  rcases hget' : get oneLeafHash oneLeafEnv (List.replicate 64 0) t with ⟨_ | v', t'⟩ <;>
    simp only [hget'] at hvalues
  · cases hvalues
  obtain rfl : v = [7] := by
    cases hvalues
    rfl
  have hi : Inv oneLeafHash (List.replicate 32 1) (fun _ => ⟨[], 0, false⟩) s := newIn_inv (by decide +kernel) hs
  obtain ⟨⟨_, ht⟩, -⟩ := (get_meets hi List.length_replicate List.length_replicate).of_ok hget
  obtain ⟨⟨_, ht'⟩, hknows, -⟩ := (get_meets ht List.length_replicate List.length_replicate).of_ok hget'
  have hreach : Reachable oneLeafHash (List.replicate 32 1) t := by
    have hstep : Reachable oneLeafHash (List.replicate 32 1)
        (get oneLeafHash oneLeafEnv (List.replicate 64 0) s).2 :=
      .get oneLeafEnv List.length_replicate (.new hs)
    rw [hget] at hstep
    exact hstep
  exact ⟨s, t, t', v', hs, hget, hget', get_agrees List.length_replicate List.length_replicate noShortLeaf_oneLeaf
    (.new hs) hreach hget hget' (noCollision_of_knows hknows ht.cache ht'.cache)⟩

end ZkOs.Mpt
