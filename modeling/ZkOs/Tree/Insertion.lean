import ZkOs.Tree.Construction

/-!
# Inserting into the tree

* `Consistent.linked` : the links as a successor relation, `Consistent.size` : the counts of sequential positions;
* `newPosition_ok` : a build with the feature `testing` finds an unused position when there is room;
* `insert_existing_ok`, `insert_new_ok` : the leaves after `insert`;
* `insert_consistent` : `insert` keeps the representation invariant and sets one key.
-/

namespace ZkOs.Tree.FlatStorageBacking

variable {D : Type} {n : Nat} {h : FlatStorageHasher D} {build : Build} {b : FlatStorageBacking D n}

def occupied (b : FlatStorageBacking D n) : Set Nat := {i | (b.leaves.get? i).isSome}

def keyAt (b : FlatStorageBacking D n) (i : Nat) : Bytes32 := (leafIn b.leaves i).key

def nextAt (b : FlatStorageBacking D n) (i : Nat) : Nat := (leafIn b.leaves i).next

variable {i draw : Nat} {key value : Bytes32}

theorem get?_of_mem (hi : i ∈ b.occupied) : b.leaves.get? i = some (leafIn b.leaves i) := by
  obtain ⟨leaf, hleaf⟩ := Option.isSome_iff_exists.mp hi
  rw [hleaf, leafIn_of_get? hleaf]

theorem mem_of_get? {leaf : FlatStorageLeaf} (hi : b.leaves.get? i = some leaf) : i ∈ b.occupied := by
  show (b.leaves.get? i).isSome
  rw [hi]
  rfl

namespace Consistent

theorem linked (hb : Consistent build h b) :
    Linked b.keyAt b.nextAt b.occupied minKeyLeafMarkerIdx maxKeyLeafMarkerIdx :=
  (linked_iff_exists_walk b.leaves.finite_isSome).mpr hb.walk

theorem lookup_keyAt (hb : Consistent build h b) {i : Nat} (hi : i ∈ b.occupied) :
    b.keyLookup.get? (b.keyAt i) = some i :=
  (hb.lookup _ i).mpr ⟨_, get?_of_mem hi, rfl⟩

theorem keyAt_eq (hb : Consistent build h b) {k : Bytes32} {i : Nat} (hk : b.keyLookup.get? k = some i) :
    i ∈ b.occupied ∧ b.keyAt i = k := by
  obtain ⟨leaf, hleaf, rfl⟩ := (hb.lookup k i).mp hk
  exact ⟨mem_of_get? hleaf, by rw [keyAt, leafIn_of_get? hleaf]⟩

theorem lt_pow (hb : Consistent build h b) {i : Nat} (hi : i ∈ b.occupied) : i < 2 ^ n :=
  hb.hashed.inRange i _ (get?_of_mem hi)

theorem size (hb : Consistent build h b) (hr : build.randomized = false) :
    b.leaves.size = b.nextFreeSlot ∧ b.keyLookup.size = b.nextFreeSlot ∧ ∀ i, i ∈ b.occupied ↔ i < b.nextFreeSlot := by
  have hpos := hb.positions
  rw [hr] at hpos
  have hmem : ∀ i, i ∈ b.occupied ↔ i < b.nextFreeSlot := hpos
  refine ⟨?_, ?_, hmem⟩
  · rw [b.leaves.size_eq_card (s := Finset.range b.nextFreeSlot), Finset.card_range]
    exact fun i => (hmem i).trans Finset.mem_range.symm
  · rw [b.keyLookup.size_eq_card (s := (Finset.range b.nextFreeSlot).image b.keyAt), Finset.card_image_of_injOn,
      Finset.card_range]
    · intro i hi j hj hij
      rw [Finset.mem_coe, Finset.mem_range, ← hmem] at hi hj
      exact hb.linked.injOn hi hj hij
    · intro k
      rw [Option.isSome_iff_exists, Finset.mem_image]
      constructor
      · rintro ⟨i, hi⟩
        obtain ⟨hocc, hk⟩ := hb.keyAt_eq hi
        exact ⟨i, Finset.mem_range.mpr ((hmem i).mp hocc), hk⟩
      · rintro ⟨i, hi, rfl⟩
        exact ⟨i, hb.lookup_keyAt ((hmem i).mpr (Finset.mem_range.mp hi))⟩

end Consistent

theorem Hashed.size_level (hb : Hashed h b) {level : OrderedMap Nat D} (hlevel : b.hashes.get? n = some level) :
    level.size = b.leaves.size := by
  obtain ⟨level', hlevel', hok⟩ := hb.levels n le_rfl
  obtain rfl : level' = level := Option.some.inj (hlevel'.symm.trans hlevel)
  have hkeys : ∀ i, (level'.get? i).isSome ↔ i ∈ b.leaves.keys.toFinset := by
    intro i
    rw [List.mem_toFinset, OrderedMap.mem_keys, Option.isSome_iff_exists, Option.isSome_iff_exists]
    constructor
    · rintro ⟨x, hx⟩
      obtain ⟨j, leaf, hj, hij⟩ := ((hok i x).mp hx).1
      rw [Nat.sub_self, pow_zero, Nat.div_one] at hij
      exact ⟨leaf, hij ▸ hj⟩
    · rintro ⟨leaf, hi⟩
      exact ⟨_, (hok i _).mpr ⟨⟨i, leaf, hi, by simp⟩, rfl⟩⟩
  rw [level'.size_eq_card hkeys]
  exact (b.leaves.size_eq_card fun i => by rw [List.mem_toFinset, OrderedMap.mem_keys]).symm

/-! ## The position of a new leaf -/

/-- There is a position left: the next one, or the one that the random loop ends with. -/
def Room (build : Build) (draw : Nat) (b : FlatStorageBacking D n) : Prop :=
  if build.randomized then draw < maxPosition n ∧ b.leaves.get? draw = none else b.nextFreeSlot < 2 ^ n

/-- The position of a new leaf, and the counter after it. -/
structure Free (build : Build) (b : FlatStorageBacking D n) (position next : Nat) : Prop where
  unused : position ∉ b.occupied
  inRange : position < 2 ^ n
  counter : if build.randomized then position ≤ next ∧ ∀ i ∈ b.occupied, i ≤ next
    else position = b.nextFreeSlot ∧ next = position + 1

theorem newPosition_ok (hb : Consistent build h b) (htesting : build.testing) (hroom : Room build draw b) :
    ∃ position next, newPosition build draw b = some (position, { b with nextFreeSlot := next }) ∧
      Free build b position next := by
  have hpos := hb.positions
  cases hr : build.randomized with
  | true =>
    rw [Room, if_pos hr] at hroom
    rw [if_pos hr] at hpos
    obtain ⟨hdraw, hunused⟩ := hroom
    have hrange : draw < 2 ^ n := by
      rw [maxPosition] at hdraw
      split at hdraw <;> omega
    have hnot : draw ∉ b.occupied := by
      intro hmem
      rw [get?_of_mem hmem] at hunused
      cases hunused
    by_cases hlt : b.nextFreeSlot < draw
    · have hfree : b.leaves.get? (draw + 1) = none := by
        rw [Option.eq_none_iff_forall_ne_some]
        intro leaf hleaf
        have := hpos (draw + 1) (mem_of_get? hleaf)
        omega
      refine ⟨draw, draw + 1, ?_, hnot, hrange, ?_⟩
      · simp [newPosition, htesting, hr, hdraw, hunused, hlt, hfree]
      · rw [if_pos hr]
        exact ⟨Nat.le_succ _, fun i hi => (hpos i hi).trans (by omega)⟩
    · refine ⟨draw, b.nextFreeSlot, ?_, hnot, hrange, ?_⟩
      · simp [newPosition, htesting, hr, hdraw, hunused, hlt]
      · rw [if_pos hr]
        exact ⟨not_lt.mp hlt, hpos⟩
  | false =>
    rw [Room, hr] at hroom
    refine ⟨b.nextFreeSlot, b.nextFreeSlot + 1, ?_, ?_, hroom, ?_⟩
    · simp [newPosition, htesting, hr]
    · rw [(hb.size hr).2.2]
      exact lt_irrefl _
    · rw [hr]
      exact ⟨rfl, rfl⟩

/-! ## What is stored -/

structure Inserted (build : Build) (h : FlatStorageHasher D) (b : FlatStorageBacking D n) (key value : Bytes32)
    (b' : FlatStorageBacking D n) : Prop where
  hashed : Hashed h b'
  cases :
    (∃ i, b.keyLookup.get? key = some i ∧
      b'.leaves = b.leaves.insert i { leafIn b.leaves i with value } ∧
      b'.keyLookup = b.keyLookup ∧ b'.nextFreeSlot = b.nextFreeSlot) ∨
    (∃ prev position next, b.keyLookup.get? key = none ∧ prev ∈ b.occupied ∧ prev ≠ maxKeyLeafMarkerIdx ∧
      b.keyAt prev < key ∧ key < b.keyAt (b.nextAt prev) ∧ Free build b position next ∧
      b'.leaves = (b.leaves.insert prev { leafIn b.leaves prev with next := position }).insert position
        ⟨key, value, b.nextAt prev⟩ ∧
      b'.keyLookup = b.keyLookup.insert key position ∧ b'.nextFreeSlot = next)

variable [DecidableEq D]

theorem insert_existing_ok (hb : Consistent build h b) (hkey : b.keyLookup.get? key = some i) :
    ∃ b' proof, b.insert h build draw key value = some (b', proof) ∧ Inserted build h b key value b' := by
  obtain ⟨hocc, hki⟩ := hb.keyAt_eq hkey
  have hleaf := get?_of_mem hocc
  obtain ⟨proof, hproof, -, -, -, -⟩ := hb.hashed.getProofForPosition (hb.lt_pow hocc)
  have hfree : build.randomized ∨ i < b.nextFreeSlot := by
    cases hr : build.randomized with
    | true => exact .inl rfl
    | false => exact .inr (((hb.size hr).2.2 i).mp hocc)
  have hleaf' : ({ leafIn b.leaves i with key, value } : FlatStorageLeaf) = { leafIn b.leaves i with value } := by
    rw [← hki]
    rfl
  obtain ⟨b', hrun, hhashed, hs⟩ := hb.hashed.insertAtPosition_existing build
    { leafIn b.leaves i with key, value } hleaf hki hfree
  refine ⟨b', .existing proof, ?_, hhashed, .inl ⟨i, hkey, ?_, ?_, hs.nextFreeSlot⟩⟩
  · simp [insert, hkey, hproof, hleaf, hrun]
  · rw [hs.leaves, hleaf']
  · rw [hs.keyLookup, hleaf]
    rfl

omit [DecidableEq D] in
theorem neighbours (hb : Consistent build h b) (hkey : b.keyLookup.get? key = none) :
    ∃ k prev k', b.keyLookup.lastLE? key = some (k, prev) ∧ b.keyLookup.firstGE? key = some (k', b.nextAt prev) ∧
      prev ∈ b.occupied ∧ prev ≠ maxKeyLeafMarkerIdx ∧ b.keyAt prev < key ∧ key < b.keyAt (b.nextAt prev) := by
  have hl := hb.linked
  have hmin := hb.lookup_keyAt hl.first_mem
  have hmax := hb.lookup_keyAt hl.last_mem
  rw [show b.keyAt minKeyLeafMarkerIdx = 0 from hb.minKey] at hmin
  rw [show b.keyAt maxKeyLeafMarkerIdx = Tree.maxKey from hb.maxKey] at hmax
  have hne : ∀ {k i}, b.keyLookup.get? k = some i → k ≠ key := by
    rintro k i hk rfl
    rw [hkey] at hk
    cases hk
  obtain ⟨k, prev, hlast, hprev, hle, hgreatest⟩ := OrderedMap.lastLE?_spec hmin (zero_le_key key)
  obtain ⟨k', next, hfirst, hnext, hle', hleast⟩ := OrderedMap.firstGE?_spec hmax (key_le_max key)
  obtain ⟨hprevMem, rfl⟩ := hb.keyAt_eq hprev
  obtain ⟨hnextMem, rfl⟩ := hb.keyAt_eq hnext
  have hlt := lt_of_le_of_ne hle (hne hprev)
  have hlt' := lt_of_le_of_ne hle' (Ne.symm (hne hnext))
  have hsucc : b.nextAt prev = next := by
    refine hl.next_eq hprevMem hnextMem (hlt.trans hlt') fun j hj hjlt => ?_
    refine hleast _ j (hb.lookup_keyAt hj) (le_of_not_gt fun hjk => ?_)
    exact absurd (hgreatest _ j (hb.lookup_keyAt hj) hjk.le) hjlt.not_ge
  refine ⟨b.keyAt prev, prev, b.keyAt next, hlast, by rw [hsucc, hfirst], hprevMem, ?_, hlt, by rw [hsucc]; exact hlt'⟩
  exact hl.ne_last hlt (by rw [show b.keyAt maxKeyLeafMarkerIdx = Tree.maxKey from hb.maxKey]; exact key_le_max key)

theorem insert_new_ok (hb : Consistent build h b) (htesting : build.testing) (hroom : Room build draw b)
    (hkey : b.keyLookup.get? key = none) :
    ∃ b' proof, b.insert h build draw key value = some (b', proof) ∧ Inserted build h b key value b' := by
  obtain ⟨k, prev, k', hlast, hfirst, hprev, hne, hlt, hlt'⟩ := neighbours hb hkey
  obtain ⟨position, next, hposition, hfree⟩ := newPosition_ok hb htesting hroom
  have hl := hb.linked
  have hnextMem := hl.next_mem prev hprev hne
  have hprevne : position ≠ prev := fun heq => hfree.unused (heq ▸ hprev)
  have hcounter := hfree.counter
  -- the counter is moved before the leaves change
  have hb0 : Hashed h { b with nextFreeSlot := next } := ⟨hb.hashed.1, hb.hashed.2, hb.hashed.3, hb.hashed.4⟩
  obtain ⟨previous, hprevious, -, hpleaf, -, -⟩ := hb0.getProofForPosition (hb.lt_pow hprev)
  have hbelow : build.randomized ∨ prev < next := by
    cases hr : build.randomized with
    | true => exact .inl rfl
    | false =>
      rw [hr] at hcounter
      obtain ⟨rfl, rfl⟩ := hcounter
      exact .inr ((((hb.size hr).2.2 prev).mp hprev).trans (Nat.lt_succ_self _))
  obtain ⟨b1, hrun1, hb1, hs1⟩ := hb0.insertAtPosition_existing build
    { previous.leaf with next := position } (get?_of_mem hprev) (by rw [hpleaf]) hbelow
  obtain ⟨nextProof, hnextProof, -, -, -, -⟩ := hb1.getProofForPosition (hb.lt_pow hnextMem)
  obtain ⟨free, hfreeProof, -, hfreeLeaf, -, -⟩ := hb1.getProofForPosition hfree.inRange
  have hnone : b1.leaves.get? position = none := by
    rw [hs1.leaves, OrderedMap.get?_insert_of_ne _ _ hprevne]
    exact Option.not_isSome_iff_eq_none.mp hfree.unused
  have hempty : free.leaf = .empty := by rw [hfreeLeaf, leafIn, hnone, Option.getD_none]
  have hlookup1 : b1.keyLookup = b.keyLookup := by
    rw [hs1.keyLookup, if_pos]
    exact hprev
  obtain ⟨b2, hrun2, hb2, hs2⟩ := hb1.insertAtPosition_new build ⟨key, value, b.nextAt prev⟩
    hfree.inRange hnone <| by
      cases hr : build.randomized with
      | true => exact .inl rfl
      | false =>
        rw [hr] at hcounter
        obtain ⟨rfl, rfl⟩ := hcounter
        obtain ⟨hsize, hlsize, -⟩ := hb.size hr
        have hsize1 : b1.leaves.size = b.nextFreeSlot := by
          rw [hs1.leaves, OrderedMap.size_insert, if_pos]
          · exact hsize
          · exact hprev
        refine .inr ⟨hs1.nextFreeSlot.symm, hsize1, fun level hlevel => ?_, by rw [hlookup1, hlsize],
          by rw [hlookup1, hkey]⟩
        rw [hb1.size_level hlevel, hsize1]
  refine ⟨b2, .new previous nextProof free, ?_, hb2, .inr ⟨prev, position, next, hkey, hprev, hne, hlt, hlt', hfree, ?_, ?_, ?_⟩⟩
  · simp [insert, hkey, hlast, hfirst, hposition, hprevious, hrun1, hnextProof, hfreeProof, hempty, hrun2]
  · rw [hs2.leaves, hs1.leaves, hpleaf]
  · rw [hs2.keyLookup, hnone, hlookup1]
    rfl
  · rw [hs2.nextFreeSlot, hs1.nextFreeSlot]

/-! ## The invariant after an insertion -/

section Invariant

omit [DecidableEq D]

variable {i prev position : Nat} {value key : Bytes32}

theorem exists_leaf_iff {k : Bytes32} :
    (∃ leaf, b.leaves.get? i = some leaf ∧ leaf.key = k) ↔ i ∈ b.occupied ∧ b.keyAt i = k := by
  constructor
  · rintro ⟨leaf, hleaf, rfl⟩
    exact ⟨mem_of_get? hleaf, by rw [keyAt, leafIn_of_get? hleaf]⟩
  · rintro ⟨hi, hk⟩
    exact ⟨_, get?_of_mem hi, hk⟩

variable {b' : FlatStorageBacking D n}

/-- The slots, keys and links of `b` and `b'` are the same. -/
structure SameLinks (b b' : FlatStorageBacking D n) : Prop where
  occupied : b'.occupied = b.occupied
  keyAt : b'.keyAt = b.keyAt
  nextAt : b'.nextAt = b.nextAt

theorem occupied_insert {leaf : FlatStorageLeaf} (hleaves : b'.leaves = b.leaves.insert i leaf) :
    b'.occupied = Insert.insert i b.occupied := by
  ext j
  show (b'.leaves.get? j).isSome ↔ _
  rw [hleaves]
  exact OrderedMap.isSome_get?_insert

theorem sameLinks_of_value (hi : i ∈ b.occupied)
    (hleaves : b'.leaves = b.leaves.insert i { leafIn b.leaves i with value }) : SameLinks b b' := by
  refine ⟨(occupied_insert hleaves).trans (Set.insert_eq_of_mem hi), ?_, ?_⟩
  · show FlatStorageLeaf.key ∘ leafIn b'.leaves = _
    rw [hleaves, leafIn_insert, Function.comp_update]
    exact Function.update_eq_self i _
  · show FlatStorageLeaf.next ∘ leafIn b'.leaves = _
    rw [hleaves, leafIn_insert, Function.comp_update]
    exact Function.update_eq_self i _

/-- The slots, keys and links with a new leaf after `prev`. -/
structure NewLink (b : FlatStorageBacking D n) (prev position : Nat) (key : Bytes32)
    (b' : FlatStorageBacking D n) : Prop where
  occupied : b'.occupied = Insert.insert position b.occupied
  keyAt : b'.keyAt = Function.update b.keyAt position key
  nextAt : b'.nextAt = Function.update (Function.update b.nextAt prev position) position (b.nextAt prev)

theorem newLink_of_leaves (hprev : prev ∈ b.occupied)
    (hleaves : b'.leaves = (b.leaves.insert prev { leafIn b.leaves prev with next := position }).insert position
      ⟨key, value, b.nextAt prev⟩) : NewLink b prev position key b' := by
  refine ⟨Set.ext fun j => ?_, ?_, ?_⟩
  · show (b'.leaves.get? j).isSome ↔ j = position ∨ j ∈ b.occupied
    rw [hleaves, OrderedMap.isSome_get?_insert, OrderedMap.isSome_get?_insert]
    exact or_congr Iff.rfl (or_iff_right_of_imp fun heq => heq ▸ hprev)
  · show FlatStorageLeaf.key ∘ leafIn b'.leaves = _
    rw [hleaves, leafIn_insert, leafIn_insert, Function.comp_update, Function.comp_update]
    exact congrArg (fun f : Nat → Bytes32 => Function.update f position key) (Function.update_eq_self prev b.keyAt)
  · show FlatStorageLeaf.next ∘ leafIn b'.leaves = _
    rw [hleaves, leafIn_insert, leafIn_insert, Function.comp_update, Function.comp_update]
    rfl

theorem Consistent.of_sameLinks (hb : Consistent build h b) (hs : SameLinks b b') (hhashed : Hashed h b')
    (hlookup : b'.keyLookup = b.keyLookup) (hnext : b'.nextFreeSlot = b.nextFreeSlot) : Consistent build h b' := by
  refine ⟨hhashed, fun k i => ?_, ?_, ?_, ?_, ?_⟩
  · rw [hlookup, hb.lookup, exists_leaf_iff, exists_leaf_iff, hs.occupied, hs.keyAt]
  · exact (congrFun hs.keyAt _).trans hb.minKey
  · exact (congrFun hs.keyAt _).trans hb.maxKey
  · refine (linked_iff_exists_walk b'.leaves.finite_isSome).mp ?_
    show Linked b'.keyAt b'.nextAt b'.occupied _ _
    rw [hs.keyAt, hs.nextAt, hs.occupied]
    exact hb.linked
  · have hpos := hb.positions
    have hocc : ∀ i, (b'.leaves.get? i).isSome ↔ (b.leaves.get? i).isSome := Set.ext_iff.mp hs.occupied
    simp only [hocc, hnext]
    exact hpos

theorem Consistent.of_newLink (hb : Consistent build h b) {next : Nat} (hs : NewLink b prev position key b')
    (hhashed : Hashed h b') (hkey : b.keyLookup.get? key = none) (hprev : prev ∈ b.occupied) (hne : prev ≠ maxKeyLeafMarkerIdx) (hlt : b.keyAt prev < key)
    (hlt' : key < b.keyAt (b.nextAt prev)) (hfree : Free build b position next)
    (hlookup : b'.keyLookup = b.keyLookup.insert key position) (hnext : b'.nextFreeSlot = next) :
    Consistent build h b' := by
  have hl := hb.linked
  have hother : ∀ i ∈ b.occupied, b'.keyAt i = b.keyAt i := by
    intro i hi
    rw [hs.keyAt, Function.update_of_ne]
    rintro rfl
    exact hfree.unused hi
  refine ⟨hhashed, fun k i => ?_, ?_, ?_, ?_, ?_⟩
  · rw [hlookup, OrderedMap.get?_insert_of_none hkey, hb.lookup, exists_leaf_iff, exists_leaf_iff, hs.occupied]
    constructor
    · rintro (⟨rfl, rfl⟩ | ⟨hi, hik⟩)
      · exact ⟨.inl rfl, by rw [hs.keyAt, Function.update_self]⟩
      · exact ⟨.inr hi, by rw [hother i hi, hik]⟩
    · rintro ⟨rfl | hi, hik⟩
      · exact .inl ⟨by rw [← hik, hs.keyAt, Function.update_self], rfl⟩
      · exact .inr ⟨hi, by rw [← hother i hi, hik]⟩
  · exact (hother _ hl.first_mem).trans hb.minKey
  · exact (hother _ hl.last_mem).trans hb.maxKey
  · refine (linked_iff_exists_walk b'.leaves.finite_isSome).mp ?_
    show Linked b'.keyAt b'.nextAt b'.occupied _ _
    rw [hs.keyAt, hs.nextAt, hs.occupied]
    exact hl.insert hfree.unused hprev hne hlt hlt'
  · have hcounter := hfree.counter
    have hocc : ∀ i, (b'.leaves.get? i).isSome ↔ i = position ∨ i ∈ b.occupied := Set.ext_iff.mp hs.occupied
    simp only [hocc, hnext]
    cases hr : build.randomized with
    | true =>
      rw [if_pos rfl]
      rw [if_pos hr] at hcounter
      rintro i (rfl | hi)
      · exact hcounter.1
      · exact hcounter.2 i hi
    | false =>
      rw [hr] at hcounter
      obtain ⟨rfl, rfl⟩ := hcounter
      show ∀ i, _ ↔ _
      intro i
      rw [(hb.size hr).2.2 i]
      omega

theorem Inserted.consistent (hb : Consistent build h b) (hi : Inserted build h b key value b')
    : Consistent build h b' := by
  rcases hi.cases with ⟨i, hkey, hleaves, hlookup, hnext⟩ |
    ⟨prev, position, next, hkey, hprev, hne, hlt, hlt', hfree, hleaves, hlookup, hnext⟩
  · exact hb.of_sameLinks (sameLinks_of_value (hb.keyAt_eq hkey).1 hleaves) hi.hashed hlookup hnext
  · exact hb.of_newLink (newLink_of_leaves hprev hleaves) hi.hashed hkey hprev hne hlt hlt' hfree hlookup hnext

theorem Consistent.getValue (hb : Consistent build h b) (k : Bytes32) :
    b.getValue k = some ((b.keyLookup.get? k).map fun i => (leafIn b.leaves i).value) := by
  cases hk : b.keyLookup.get? k with
  | none => rw [FlatStorageBacking.getValue, hk, Option.map_none]
  | some i => rw [getValue_eq hk (get?_of_mem (hb.keyAt_eq hk).1), Option.map_some]

theorem Inserted.getValue (hb : Consistent build h b) (hi : Inserted build h b key value b') (k : Bytes32) :
    b'.getValue k = if k = key then some (some value) else b.getValue k := by
  rw [(hi.consistent hb).getValue, hb.getValue]
  rcases hi.cases with ⟨i, hkey, hleaves, hlookup, -⟩ |
    ⟨prev, position, next, hkey, hprev, -, -, -, hfree, hleaves, hlookup, -⟩
  · rw [hlookup, hleaves, leafIn_insert]
    by_cases hk : k = key
    · rw [if_pos hk, hk, hkey, Option.map_some, Function.update_self]
    · rw [if_neg hk]
      cases hki : b.keyLookup.get? k with
      | none => rfl
      | some j =>
        have hne : j ≠ i := by
          rintro rfl
          exact hk ((hb.keyAt_eq hki).2.symm.trans (hb.keyAt_eq hkey).2)
        rw [Option.map_some, Option.map_some, Function.update_of_ne hne]
  · rw [hlookup, hleaves, leafIn_insert, leafIn_insert, OrderedMap.get?_insert]
    by_cases hk : k = key
    · rw [if_pos hk, if_pos hk, Option.map_some, Function.update_self]
    · rw [if_neg hk, if_neg hk]
      cases hki : b.keyLookup.get? k with
      | none => rfl
      | some j =>
        have hne : j ≠ position := by
          rintro rfl
          exact hfree.unused (hb.keyAt_eq hki).1
        rw [Option.map_some, Option.map_some, Function.update_of_ne hne]
        by_cases hjp : j = prev
        · rw [hjp, Function.update_self]
        · rw [Function.update_of_ne hjp]

end Invariant

end ZkOs.Tree.FlatStorageBacking
