import ZkOs.Mpt.Trie

/-!
# What preimages say about a path

Given the preimages of hashes, the nodes on a path from the root are determined, and with them where the path ends.

* `nodeAt` : the node with a key, which is its encoding or the hash of it;
* `End` : where a path ends.  A leaf whose segment ends before the path (`short`) is read in two ways: as its value from
  the oracle, as absent from the arena;
* `walk` : the way along a path, `walk_agree` : it is the same for all preimages that agree;
* `Ends` : where a path ends, with as many rounds as it takes.
-/

namespace ZkOs.Mpt

abbrev Preimages := List UInt8 → Option (List UInt8)

/-- The encoding of the node with a key: short ones are keys themselves. -/
def rawOf (pre : Preimages) (key : List UInt8) : Option (List UInt8) :=
  if key.length < 32 then some key else if key.length = 32 then pre key else none

def nodeAt (pre : Preimages) (key : List UInt8) : Option (ParsedNode × List RlpSlice) :=
  (rawOf pre key).bind parseNodeFromBytes

inductive End where
  | absent
  | value (v : List UInt8)
  | short (v : List UInt8)
  deriving DecidableEq, Repr

/-- What a read returns that asks the oracle for the last node. -/
def End.fresh : End → List UInt8
  | .absent => []
  | .value v | .short v => v

/-- What a read returns that finds the last node in the arena. -/
def End.cached : End → List UInt8
  | .absent | .short _ => []
  | .value v => v

/-- The way along a path from the node with a key; `afterExtension` if that node is the child of an extension. -/
def walk (pre : Preimages) : Nat → Bool → List UInt8 → List UInt8 → Option End
  | 0, _, _, _ => none
  | fuel + 1, afterExtension, key, path =>
    match nodeAt pre key with
    | none => none
    | some (.leaf leaf, _) =>
      if path.length < leaf.pathSegment.length then none
      else if leaf.pathSegment = path then some (.value leaf.value.data)
      else if leaf.pathSegment <+: path then some (.short leaf.value.data)
      else some .absent
    | some (.extension extension, _) =>
      if afterExtension ∨ path.length < extension.pathSegment.length then none
      else if extension.pathSegment <+: path then
        walk pre fuel true extension.nextNodeKey.data (path.drop extension.pathSegment.length)
      else some .absent
    | some (.branch _, pieces) =>
      match path with
      | [] => none
      | branchIndex :: path =>
        let encoding := pieces.getD branchIndex.toNat .empty
        if encoding.isEmpty then some .absent
        else if path = [] then some (.value encoding.data)
        else walk pre fuel false encoding.data path

variable {pre pre' : Preimages}

/-- The preimages agree where both are known. -/
def Agree (pre pre' : Preimages) : Prop := ∀ k x y, pre k = some x → pre' k = some y → x = y

theorem Agree.nodeAt (h : Agree pre pre') {key : List UInt8} {a b : ParsedNode × List RlpSlice}
    (ha : nodeAt pre key = some a) (hb : nodeAt pre' key = some b) : a = b := by
  obtain ⟨raw, hraw, ha⟩ := Option.bind_eq_some_iff.mp ha
  obtain ⟨raw', hraw', hb⟩ := Option.bind_eq_some_iff.mp hb
  have heq : raw = raw' := by
    rw [rawOf] at hraw hraw'
    split at hraw
    · next hlt =>
      rw [if_pos hlt] at hraw'
      exact Option.some.inj (hraw.symm.trans hraw')
    · next hlt =>
      rw [if_neg hlt] at hraw'
      split at hraw
      · next h32 =>
        rw [if_pos h32] at hraw'
        exact h key raw raw' hraw hraw'
      · cases hraw
  rw [heq, hb] at ha
  exact (Option.some.inj ha).symm

/-- The end of a path does not depend on which preimages are known. -/
theorem walk_agree (h : Agree pre pre') {fuel fuel' : Nat} {afterExtension : Bool} {key path : List UInt8} {o o' : End}
    (ho : walk pre fuel afterExtension key path = some o) (ho' : walk pre' fuel' afterExtension key path = some o') :
    o = o' := by
  induction fuel generalizing fuel' afterExtension key path with
  | zero => cases ho
  | succ fuel ih =>
    cases fuel' with
    | zero => cases ho'
    | succ fuel' =>
      rw [walk] at ho ho'
      cases hnode : nodeAt pre key with
      | none =>
        rw [hnode] at ho
        cases ho
      | some node =>
        cases hnode' : nodeAt pre' key with
        | none =>
          rw [hnode'] at ho'
          cases ho'
        | some node' =>
          obtain rfl := h.nodeAt hnode hnode'
          rw [hnode] at ho
          rw [hnode'] at ho'
          match node with
          | (.leaf leaf, _) => exact Option.some.inj (ho.symm.trans ho')
          | (.extension extension, _) =>
            dsimp only at ho ho'
            split at ho
            · cases ho
            · next hlen =>
              rw [if_neg hlen] at ho'
              split at ho
              · next hstarts =>
                rw [if_pos hstarts] at ho'
                exact ih ho ho'
              · next hstarts =>
                rw [if_neg hstarts] at ho'
                exact Option.some.inj (ho.symm.trans ho')
          | (.branch _, pieces) =>
            cases path with
            | nil => cases ho
            | cons t path =>
              dsimp only at ho ho'
              split at ho
              · next hempty =>
                rw [if_pos hempty] at ho'
                exact Option.some.inj (ho.symm.trans ho')
              · next hempty =>
                rw [if_neg hempty] at ho'
                split at ho
                · next hpath =>
                  rw [if_pos hpath] at ho'
                  exact Option.some.inj (ho.symm.trans ho')
                · next hpath =>
                  rw [if_neg hpath] at ho'
                  exact ih ho ho'

def Knows (pre pre' : Preimages) : Prop := ∀ k x, pre k = some x → pre' k = some x

theorem Knows.refl (pre : Preimages) : Knows pre pre := fun _ _ h => h

theorem Knows.trans {pre'' : Preimages} (h : Knows pre pre') (h' : Knows pre' pre'') : Knows pre pre'' :=
  fun k x hk => h' k x (h k x hk)

theorem Knows.nodeAt (h : Knows pre pre') {key : List UInt8} {node : ParsedNode × List RlpSlice}
    (hnode : Mpt.nodeAt pre key = some node) : Mpt.nodeAt pre' key = some node := by
  obtain ⟨raw, hraw, hparse⟩ := Option.bind_eq_some_iff.mp hnode
  refine Option.bind_eq_some_iff.mpr ⟨raw, ?_, hparse⟩
  rw [rawOf] at hraw ⊢
  split at hraw
  · next hlt =>
    rw [if_pos hlt]
    exact hraw
  · next hlt =>
    rw [if_neg hlt]
    split at hraw
    · next h32 =>
      rw [if_pos h32]
      exact h key raw hraw
    · cases hraw

/-! ## Ends of paths -/

/-- Where a path ends, with as many rounds as it takes. -/
def Ends (pre : Preimages) (afterExtension : Bool) (key path : List UInt8) (o : End) : Prop :=
  ∃ fuel, walk pre fuel afterExtension key path = some o

namespace Ends

variable {a : Bool} {key path : List UInt8} {o : End} {pieces : List RlpSlice}

theorem agree (h : Agree pre pre') {o' : End} (ho : Ends pre a key path o)
    (ho' : Ends pre' a key path o') : o = o' := by
  obtain ⟨fuel, ho⟩ := ho
  obtain ⟨fuel', ho'⟩ := ho'
  exact walk_agree h ho ho'

theorem leaf {leaf : LeafNode} (hnode : nodeAt pre key = some (.leaf leaf, pieces))
    (hlen : leaf.pathSegment.length ≤ path.length) :
    Ends pre a key path
      (if leaf.pathSegment = path then .value leaf.value.data
      else if leaf.pathSegment <+: path then .short leaf.value.data
      else .absent) := by
  refine ⟨1, ?_⟩
  rw [walk, hnode]
  dsimp only
  rw [if_neg (not_lt.mpr hlen)]
  split
  · rfl
  · split <;> rfl

theorem extension {extension : ExtensionNode} (hnode : nodeAt pre key = some (.extension extension, pieces))
    (hnot : a = false) (hstarts : extension.pathSegment <+: path)
    (ho : Ends pre true extension.nextNodeKey.data (path.drop extension.pathSegment.length) o) :
    Ends pre a key path o := by
  obtain ⟨fuel, ho⟩ := ho
  refine ⟨fuel + 1, ?_⟩
  rw [walk, hnode]
  dsimp only
  rw [if_neg (by simpa [hnot] using hstarts.length_le), if_pos hstarts, ho]

theorem diverged {extension : ExtensionNode} (hnode : nodeAt pre key = some (.extension extension, pieces))
    (hnot : a = false) (hlen : extension.pathSegment.length ≤ path.length)
    (hstarts : ¬ extension.pathSegment <+: path) : Ends pre a key path .absent := by
  refine ⟨1, ?_⟩
  rw [walk, hnode]
  dsimp only
  rw [if_neg (by simpa [hnot] using hlen), if_neg hstarts]

variable {branch : BranchNode} {t : UInt8}

theorem branch_empty (hnode : nodeAt pre key = some (.branch branch, pieces))
    (hempty : (pieces.getD t.toNat .empty).isEmpty = true) : Ends pre a key (t :: path) .absent := by
  refine ⟨1, ?_⟩
  rw [walk, hnode]
  dsimp only
  rw [if_pos hempty]

theorem branch_value (hnode : nodeAt pre key = some (.branch branch, pieces))
    (hempty : (pieces.getD t.toNat .empty).isEmpty = false) :
    Ends pre a key [t] (.value (pieces.getD t.toNat .empty).data) := by
  refine ⟨1, ?_⟩
  rw [walk, hnode]
  dsimp only
  rw [if_neg (by rw [hempty]; exact Bool.false_ne_true), if_pos rfl]

theorem branch_child (hnode : nodeAt pre key = some (.branch branch, pieces))
    (hempty : (pieces.getD t.toNat .empty).isEmpty = false) (hpath : path ≠ [])
    (ho : Ends pre false (pieces.getD t.toNat .empty).data path o) : Ends pre a key (t :: path) o := by
  obtain ⟨fuel, ho⟩ := ho
  refine ⟨fuel + 1, ?_⟩
  rw [walk, hnode]
  dsimp only
  rw [if_neg (by rw [hempty]; exact Bool.false_ne_true), if_neg hpath, ho]

end Ends

end ZkOs.Mpt
