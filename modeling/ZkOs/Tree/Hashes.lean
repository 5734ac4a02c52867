import ZkOs.Tree.Backing

/-!
# The stored digests of the tree

* `digest h leaves height i` : the digest that the leaves give to a node;
* `LevelOk h leaves height level` : `level` stores the digest of exactly the nodes above a leaf;
* `Hashed h b` : all levels of the tree are so, and hold the digests of empty subtrees;
* `Hashed.getProofForPosition` : every path verifies, `Hashed.insertAtPosition` : a stored leaf keeps the levels,
  `fillLevels_ok` : the constructor fills them.
-/

namespace ZkOs.Tree

variable {D : Type} {n : Nat} {h : FlatStorageHasher D} {leaves : OrderedMap Nat FlatStorageLeaf}

/-- The leaf at a position; positions without one hold the empty leaf. -/
def leafIn (leaves : OrderedMap Nat FlatStorageLeaf) (i : Nat) : FlatStorageLeaf := (leaves.get? i).getD .empty

variable {i height position : Nat} {level : OrderedMap Nat D}

theorem leafIn_of_get? {leaf : FlatStorageLeaf} (hi : leaves.get? i = some leaf) :
    leafIn leaves i = leaf := by
  rw [leafIn, hi, Option.getD_some]

theorem leafIn_insert (i : Nat) (leaf : FlatStorageLeaf) :
    leafIn (leaves.insert i leaf) = Function.update (leafIn leaves) i leaf := by
  funext j
  rw [leafIn, OrderedMap.get?_insert]
  by_cases hj : j = i
  · rw [if_pos hj, hj, Function.update_self, Option.getD_some]
  · rw [if_neg hj, Function.update_of_ne hj, leafIn]

/-- The digest of the node of a height at an index. -/
def digest (h : FlatStorageHasher D) (leaves : OrderedMap Nat FlatStorageLeaf) (height i : Nat) : D :=
  Merkle.subtree h.hashNode (fun j => h.hashLeaf (leafIn leaves j)) height i

def Above (leaves : OrderedMap Nat FlatStorageLeaf) (height i : Nat) : Prop :=
  ∃ j leaf, leaves.get? j = some leaf ∧ j / 2 ^ height = i

/-- A level stores the digests of the nodes above a leaf, and no others. -/
def LevelOk (h : FlatStorageHasher D) (leaves : OrderedMap Nat FlatStorageLeaf) (height : Nat)
    (level : OrderedMap Nat D) : Prop :=
  ∀ i x, level.get? i = some x ↔ Above leaves height i ∧ x = digest h leaves height i

/-- The levels down to depth `n` are stored, each with its digests. -/
def LevelsOk (h : FlatStorageHasher D) (leaves : OrderedMap Nat FlatStorageLeaf) (n d : Nat)
    (hashes : HashesStore D) : Prop :=
  ∃ level, hashes.get? d = some level ∧ LevelOk h leaves (n - d) level

theorem LevelsOk.insert {d d' : Nat} {hashes : HashesStore D} (hnew : d' = d → LevelOk h leaves (n - d) level)
    (hold : d' ≠ d → LevelsOk h leaves n d' hashes) : LevelsOk h leaves n d' (hashes.insert d level) := by
  by_cases heq : d' = d
  · subst heq
    exact ⟨_, OrderedMap.get?_insert_self _ _ _, hnew rfl⟩
  · obtain ⟨level', hlevel', hok'⟩ := hold heq
    exact ⟨level', by rw [OrderedMap.get?_insert_of_ne _ _ heq, hlevel'], hok'⟩

/-! ## Digests -/

theorem subtree_empty (height i : Nat) :
    Merkle.subtree h.hashNode (fun _ => h.hashLeaf .empty) height i = emptyHash h height := by
  induction height generalizing i with
  | zero => rfl
  | succ height ih => rw [Merkle.subtree, ih, ih, emptyHash]

theorem digest_of_not_above (hi : ¬ Above leaves height i) :
    digest h leaves height i = emptyHash h height := by
  rw [← subtree_empty height i]
  refine Merkle.subtree_congr fun j hj => ?_
  have hnone : leaves.get? j = none := by
    rw [Option.eq_none_iff_forall_ne_some]
    exact fun leaf hleaf => hi ⟨j, leaf, hleaf, hj⟩
  rw [leafIn, hnone, Option.getD_none]

theorem LevelOk.getD (hl : LevelOk h leaves height level) (i : Nat) :
    (level.get? i).getD (emptyHash h height) = digest h leaves height i := by
  cases hi : level.get? i with
  | some x => exact ((hl i x).mp hi).2
  | none =>
    rw [Option.getD_none, digest_of_not_above]
    intro habove
    rw [(hl i _).mpr ⟨habove, rfl⟩] at hi
    cases hi

theorem join_digest (h : FlatStorageHasher D) (leaves : OrderedMap Nat FlatStorageLeaf) (height i : Nat) :
    Merkle.join h.hashNode i (digest h leaves height i) (digest h leaves height (i ^^^ 1)) =
      digest h leaves (height + 1) (i / 2) :=
  Merkle.join_subtree _ _ _

theorem Above.parent (hi : Above leaves height i) : Above leaves (height + 1) (i / 2) := by
  obtain ⟨j, leaf, hj, rfl⟩ := hi
  exact ⟨j, leaf, hj, Merkle.div_two_pow_succ j height⟩

theorem digest_insert_of_ne (leaf : FlatStorageLeaf) (hi : position / 2 ^ height ≠ i) :
    digest h (leaves.insert position leaf) height i = digest h leaves height i := by
  refine Merkle.subtree_congr fun j hj => ?_
  have hne : j ≠ position := by
    rintro rfl
    exact hi hj
  rw [leafIn_insert, Function.update_of_ne hne]

theorem above_insert (leaf : FlatStorageLeaf) :
    Above (leaves.insert position leaf) height i ↔ position / 2 ^ height = i ∨ Above leaves height i := by
  constructor
  · rintro ⟨j, leaf', hj, rfl⟩
    rw [OrderedMap.get?_insert] at hj
    split at hj
    · next heq => exact .inl (by rw [heq])
    · exact .inr ⟨j, leaf', hj, rfl⟩
  · rintro (hi | ⟨j, leaf', hj, hi⟩)
    · exact ⟨position, leaf, OrderedMap.get?_insert_self _ _ _, hi⟩
    · by_cases heq : j = position
      · exact ⟨position, leaf, OrderedMap.get?_insert_self _ _ _, by rw [← heq, hi]⟩
      · exact ⟨j, leaf', by rw [OrderedMap.get?_insert_of_ne _ _ heq, hj], hi⟩

theorem LevelOk.insert (hl : LevelOk h leaves height level) (position : Nat) (leaf : FlatStorageLeaf) :
    LevelOk h (leaves.insert position leaf) height
      (level.insert (position / 2 ^ height) (digest h (leaves.insert position leaf) height (position / 2 ^ height))) := by
  intro i x
  rw [OrderedMap.get?_insert, above_insert]
  by_cases hi : i = position / 2 ^ height
  · rw [if_pos hi, hi, Option.some.injEq, eq_comm]
    exact ⟨fun hx => ⟨.inl rfl, hx⟩, And.right⟩
  · rw [if_neg hi, hl i x, digest_insert_of_ne leaf (Ne.symm hi)]
    exact ⟨fun hx => ⟨.inr hx.1, hx.2⟩, fun hx => ⟨hx.1.resolve_left (Ne.symm hi), hx.2⟩⟩

/-! ## The digests above a stored leaf -/

namespace FlatStorageBacking

/-- The digests of empty subtrees by depth. -/
def EmptyHashesOk (h : FlatStorageHasher D) (n : Nat) (emptyHashes : List D) : Prop :=
  ∀ d ≤ n, emptyHashes[d]? = some (emptyHash h (n - d))

variable {emptyHashes : List D} {d position : Nat}

/-- From depth `d` up, the levels follow the leaf stored at `position`. -/
theorem rehash_ok (leaves : OrderedMap Nat FlatStorageLeaf) (hempty : EmptyHashesOk h n emptyHashes) (position : Nat)
    (leaf : FlatStorageLeaf) (hd : d ≤ n) (hashes : HashesStore D) (hup : ∀ d' < d, LevelsOk h leaves n d' hashes)
    (hdown : ∀ d' ≤ n, d ≤ d' → LevelsOk h (leaves.insert position leaf) n d' hashes) :
    ∃ hashes', rehash h emptyHashes d (position / 2 ^ (n - d))
        (digest h (leaves.insert position leaf) (n - d) (position / 2 ^ (n - d))) hashes =
          some (hashes', position / 2 ^ n) ∧
      ∀ d' ≤ n, LevelsOk h (leaves.insert position leaf) n d' hashes' := by
  induction d generalizing hashes with
  | zero => exact ⟨hashes, rfl, fun d' hd' => hdown d' hd' (Nat.zero_le _)⟩
  | succ d ih =>
    obtain ⟨level, hlevel, hok⟩ := hdown (d + 1) hd le_rfl
    obtain ⟨parents, hparents, hpok⟩ := hup d (Nat.lt_succ_self d)
    have hheight : n - (d + 1) + 1 = n - d := by omega
    have hindex : position / 2 ^ (n - (d + 1)) / 2 = position / 2 ^ (n - d) := by
      rw [← Merkle.div_two_pow_succ, hheight]
    have hnew := join_digest h (leaves.insert position leaf) (n - (d + 1))
      (position / 2 ^ (n - (d + 1)))
    rw [hindex, hheight, Merkle.join] at hnew
    have hnext := ih (by omega) (hashes.insert d (parents.insert (position / 2 ^ (n - d))
      (digest h (leaves.insert position leaf) (n - d) (position / 2 ^ (n - d))))) ?_ ?_
    · obtain ⟨hashes', hrun, hall⟩ := hnext
      refine ⟨hashes', ?_, hall⟩
      rw [rehash, hlevel, hempty (d + 1) hd, hparents]
      simp only [Option.bind_eq_bind, Option.bind_some]
      rw [hok.getD, hnew, hindex]
      exact hrun
    · exact fun d' hd' => .insert (by omega) fun _ => hup d' (by omega)
    · exact fun d' hd' hle => .insert (fun _ => hpok.insert position leaf) fun hne => hdown d' hd' (by omega)

/-! ## The invariant -/

/-- The stored digests are those of the leaves. -/
structure Hashed (h : FlatStorageHasher D) (b : FlatStorageBacking D n) : Prop where
  nonempty : ∃ i leaf, b.leaves.get? i = some leaf
  inRange : ∀ i leaf, b.leaves.get? i = some leaf → i < 2 ^ n
  emptyHashes : EmptyHashesOk h n b.emptyHashes
  levels : ∀ d ≤ n, LevelsOk h b.leaves n d b.hashes

variable {b : FlatStorageBacking D n}

theorem Hashed.root (hb : Hashed h b) : b.root = some (digest h b.leaves n 0) := by
  obtain ⟨level, hlevel, hok⟩ := hb.levels 0 (Nat.zero_le n)
  obtain ⟨i, leaf, hi⟩ := hb.nonempty
  have habove : Above b.leaves (n - 0) 0 := ⟨i, leaf, hi, Nat.div_eq_of_lt (hb.inRange i leaf hi)⟩
  rw [FlatStorageBacking.root, hlevel]
  exact (hok 0 _).mpr ⟨habove, rfl⟩

theorem Hashed.siblings (hb : Hashed h b) (hd : d ≤ n) (index : Nat) :
    ∃ path, b.siblings d index = some path ∧ path.length = d ∧
      ∀ j x, path[j]? = some x → x = digest h b.leaves (n - d + j) (index / 2 ^ j ^^^ 1) := by
  induction d generalizing index with
  | zero => exact ⟨[], rfl, rfl, fun j x hx => by simp at hx⟩
  | succ d ih =>
    obtain ⟨level, hlevel, hok⟩ := hb.levels (d + 1) hd
    obtain ⟨rest, hrest, hlen, hsib⟩ := ih (by omega) (index / 2)
    refine ⟨digest h b.leaves (n - (d + 1)) (index ^^^ 1) :: rest, ?_, by rw [List.length_cons, hlen], ?_⟩
    · rw [FlatStorageBacking.siblings, hlevel, hb.emptyHashes (d + 1) hd, hrest, ← hok.getD]
      rfl
    · intro j x hx
      cases j with
      | zero =>
        rw [pow_zero, Nat.div_one, Nat.add_zero]
        exact (Option.some.inj hx).symm
      | succ j =>
        have hx := hsib j x (by simpa using hx)
        rw [hx, Nat.div_div_eq_div_mul, ← pow_succ']
        congr 1
        omega

theorem Hashed.getProofForPosition [DecidableEq D] (hb : Hashed h b) (hpos : position < 2 ^ n) :
    ∃ proof, b.getProofForPosition h position = some proof ∧ proof.index = position ∧
      proof.leaf = leafIn b.leaves position ∧
      (∀ j : Fin n, proof.path j = digest h b.leaves j (position / 2 ^ j.val ^^^ 1)) ∧
      b.verifyProof h proof = some true := by
  obtain ⟨path, hpath, hlen, hsib⟩ := hb.siblings le_rfl position
  have hzero : position / 2 ^ n = 0 := Nat.div_eq_of_lt hpos
  have hofFn : List.ofFn (fun i : Fin n => path.get (i.cast hlen.symm)) = path := by
    subst hlen
    exact List.ofFn_get path
  have hclimb : Merkle.climb h.hashNode position (h.hashLeaf (leafIn b.leaves position)) path =
      digest h b.leaves n 0 := by
    have := Merkle.climb_subtree h.hashNode (fun j => h.hashLeaf (leafIn b.leaves j)) path
      (h := 0) (i := position) fun j x hx => by
        rw [hsib j x hx, Nat.sub_self]
        rfl
    rw [hlen, hzero, Nat.zero_add] at this
    exact this
  have hverify : b.verifyProof h ⟨position, leafIn b.leaves position, fun i => path.get (i.cast hlen.symm)⟩ =
      some true := by
    rw [verifyProof, hb.root]
    simp only [verifyProofForRoot, recomputeRootFromProof, Option.bind_eq_bind, Option.bind_some, hzero, guard_true,
      Option.pure_def, hofFn, hclimb, decide_true]
  refine ⟨_, ?_, rfl, rfl, ?_, hverify⟩
  · have hleaf : (b.leaves.get? position).getD .empty = leafIn b.leaves position := rfl
    simp only [FlatStorageBacking.getProofForPosition, hpath, Option.bind_eq_bind, Option.bind_some, hzero,
      guard_true, Option.pure_def, hlen, ↓reduceDIte, hleaf, hverify]
  · intro j
    have := hsib j.val _ (List.getElem?_eq_getElem (by rw [hlen]; exact j.isLt))
    rw [Nat.sub_self, Nat.zero_add] at this
    exact this

/-- What is stored before the digests above are computed anew. -/
structure Stores (b : FlatStorageBacking D n) (position : Nat) (leaf : FlatStorageLeaf)
    (b' : FlatStorageBacking D n) : Prop where
  leaves : b'.leaves = b.leaves.insert position leaf
  nextFreeSlot : b'.nextFreeSlot = b.nextFreeSlot
  emptyHashes : b'.emptyHashes = b.emptyHashes
  keyLookup : b'.keyLookup =
    if (b.leaves.get? position).isSome then b.keyLookup else b.keyLookup.insert leaf.key position

theorem Hashed.rehash (hb : Hashed h b) (hpos : position < 2 ^ n) (leaf : FlatStorageLeaf)
    {leafHashes : OrderedMap Nat D} (hleafHashes : b.hashes.get? n = some leafHashes) :
    ∃ hashes, FlatStorageBacking.rehash h b.emptyHashes n position (h.hashLeaf leaf)
        (b.hashes.insert n (leafHashes.insert position (h.hashLeaf leaf))) = some (hashes, 0) ∧
      ∀ d ≤ n, LevelsOk h (b.leaves.insert position leaf) n d hashes := by
  obtain ⟨level, hlevel, hok⟩ := hb.levels n le_rfl
  obtain rfl : level = leafHashes := Option.some.inj (hlevel.symm.trans hleafHashes)
  have hleaf : digest h (b.leaves.insert position leaf) (n - n) (position / 2 ^ (n - n)) = h.hashLeaf leaf := by
    rw [Nat.sub_self, pow_zero, Nat.div_one, digest, Merkle.subtree, leafIn_insert, Function.update_self]
  have hrun := rehash_ok b.leaves hb.emptyHashes position leaf le_rfl
    (b.hashes.insert n (level.insert position (h.hashLeaf leaf))) ?_ ?_
  · rw [hleaf, Nat.div_eq_of_lt hpos, Nat.sub_self, pow_zero, Nat.div_one] at hrun
    exact hrun
  · exact fun d hd => .insert (by omega) fun _ => hb.levels d hd.le
  · refine fun d hd hle => .insert (fun _ => ?_) fun hne => absurd (le_antisymm hd hle) hne
    have hnew := hok.insert position leaf
    rw [hleaf, Nat.sub_self, pow_zero, Nat.div_one] at hnew
    rw [Nat.sub_self]
    exact hnew

theorem Hashed.of_stores (hb : Hashed h b) (hpos : position < 2 ^ n) {leaf : FlatStorageLeaf}
    {b' : FlatStorageBacking D n} (hs : Stores b position leaf b')
    (hlevels : ∀ d ≤ n, LevelsOk h (b.leaves.insert position leaf) n d b'.hashes) : Hashed h b' := by
  refine ⟨⟨position, leaf, ?_⟩, ?_, ?_, ?_⟩
  · rw [hs.leaves, OrderedMap.get?_insert_self]
  · intro i leaf' hi
    rw [hs.leaves, OrderedMap.get?_insert] at hi
    split at hi
    · next heq => rw [heq]; exact hpos
    · exact hb.inRange i leaf' hi
  · rw [hs.emptyHashes]
    exact hb.emptyHashes
  · rw [hs.leaves]
    exact hlevels

theorem Hashed.insertAtPosition_existing (hb : Hashed h b) (build : Build) {existing : FlatStorageLeaf}
    (leaf : FlatStorageLeaf) (hexisting : b.leaves.get? position = some existing) (hkey : existing.key = leaf.key)
    (hfree : build.randomized ∨ position < b.nextFreeSlot) :
    ∃ b', b.insertAtPosition h build position leaf = some b' ∧ Hashed h b' ∧ Stores b position leaf b' := by
  have hpos := hb.inRange _ _ hexisting
  obtain ⟨leafHashes, hleafHashes, hok⟩ := hb.levels n le_rfl
  have hstored : leafHashes.get? position = some (digest h b.leaves 0 position) := by
    rw [Nat.sub_self] at hok
    exact (hok position _).mpr ⟨⟨position, existing, hexisting, by simp⟩, rfl⟩
  obtain ⟨hashes, hrun, hlevels⟩ := hb.rehash hpos leaf hleafHashes
  have hs : Stores b position leaf { b with leaves := b.leaves.insert position leaf, hashes } :=
    ⟨rfl, rfl, rfl, by rw [hexisting]; rfl⟩
  refine ⟨_, ?_, hb.of_stores hpos hs hlevels, hs⟩
  simp [insertAtPosition, storeLeaf, hleafHashes, hexisting, hkey, hfree, hstored, hrun]

theorem Hashed.insertAtPosition_new (hb : Hashed h b) (build : Build) (leaf : FlatStorageLeaf) (hpos : position < 2 ^ n)
    (hnone : b.leaves.get? position = none)
    (hfree : build.randomized ∨ position + 1 = b.nextFreeSlot ∧ b.leaves.size = position ∧
      (∀ level, b.hashes.get? n = some level → level.size = position) ∧ b.keyLookup.size = position ∧
      b.keyLookup.get? leaf.key = none) :
    ∃ b', b.insertAtPosition h build position leaf = some b' ∧ Hashed h b' ∧ Stores b position leaf b' := by
  obtain ⟨leafHashes, hleafHashes, hok⟩ := hb.levels n le_rfl
  have hfresh : leafHashes.get? position = none := by
    rw [Option.eq_none_iff_forall_ne_some]
    intro x hx
    obtain ⟨j, leaf', hj, hjp⟩ := ((hok position x).mp hx).1
    rw [Nat.sub_self, pow_zero, Nat.div_one] at hjp
    rw [← hjp, hj] at hnone
    cases hnone
  obtain ⟨hashes, hrun, hlevels⟩ := hb.rehash hpos leaf hleafHashes
  have hs : Stores b position leaf
      ⟨b.leaves.insert position leaf, b.emptyHashes, hashes, b.nextFreeSlot, b.keyLookup.insert leaf.key position⟩ :=
    ⟨rfl, rfl, rfl, by rw [hnone]; rfl⟩
  refine ⟨_, ?_, hb.of_stores hpos hs hlevels, hs⟩
  have hcounts : build.randomized ∨ position + 1 = b.nextFreeSlot ∧
      (b.leaves.insert position leaf).size = position + 1 ∧
      (leafHashes.insert position (h.hashLeaf leaf)).size = position + 1 ∧
      (b.keyLookup.insert leaf.key position).size = position + 1 := by
    refine hfree.imp_right fun hf => ?_
    obtain ⟨hnext, hsize, hlevel, hlookup, hkey⟩ := hf
    refine ⟨hnext, ?_, ?_, ?_⟩
    · rw [OrderedMap.size_insert, hnone, hsize]
      rfl
    · rw [OrderedMap.size_insert, hfresh, hlevel _ hleafHashes]
      rfl
    · rw [OrderedMap.size_insert, hkey, hlookup]
      rfl
  rcases hcounts with hr | ⟨hnext, hsize, hlevel, hlookup⟩
  · simp [insertAtPosition, storeLeaf, hleafHashes, hnone, hr, hrun]
  · simp [insertAtPosition, storeLeaf, hleafHashes, hnone, hnext, hsize, hlevel, hlookup, hrun]

/-! ## The levels of a new tree -/

theorem initialEmptyHashes_ok : EmptyHashesOk h n (initialEmptyHashes h n) := by
  induction n with
  | zero =>
    intro d hd
    obtain rfl : d = 0 := Nat.le_zero.mp hd
    rfl
  | succ n ih =>
    intro d hd
    cases d with
    | zero => rfl
    | succ d =>
      rw [initialEmptyHashes, List.getElem?_cons_succ, ih d (by omega)]
      congr 2
      omega

theorem leafHashes_ok : LevelOk h leaves 0 (leafHashes h leaves) := by
  intro i x
  have hdigest : ∀ e ∈ leaves.entries, h.hashLeaf e.2 = digest h leaves 0 e.1 := by
    intro e he
    rw [digest, Merkle.subtree, leafIn_of_get? (OrderedMap.mem_entries.mp he)]
  rw [leafHashes, OrderedMap.get?_foldl_insert]
  · constructor
    · rintro (⟨e, he, rfl, rfl⟩ | ⟨-, hx⟩)
      · exact ⟨⟨e.1, e.2, OrderedMap.mem_entries.mp he, by simp⟩, hdigest e he⟩
      · cases hx
    · rintro ⟨⟨j, leaf, hj, hij⟩, rfl⟩
      obtain rfl : j = i := by simpa using hij
      exact .inl ⟨(j, leaf), OrderedMap.mem_entries.mpr hj, rfl, hdigest _ (OrderedMap.mem_entries.mpr hj)⟩
  · intro e he e' he' heq
    rw [hdigest e he, hdigest e' he', heq]

theorem parentLevel_ok {height : Nat} {level : OrderedMap Nat D} (hl : LevelOk h leaves height level) :
    LevelOk h leaves (height + 1) (parentLevel h (emptyHash h height) level) := by
  intro i x
  have hdigest : ∀ e ∈ level.entries,
      (if e.1 % 2 = 0 then h.hashNode e.2 ((level.get? (e.1 + 1)).getD (emptyHash h height))
        else h.hashNode ((level.get? (e.1 - 1)).getD (emptyHash h height)) e.2) =
        digest h leaves (height + 1) (e.1 / 2) := by
    intro e he
    have hjoin := join_digest h leaves height e.1
    rw [Merkle.join, Merkle.xor_one, ← ((hl _ _).mp (OrderedMap.mem_entries.mp he)).2] at hjoin
    rw [hl.getD, hl.getD, ← hjoin]
    split <;> rfl
  rw [parentLevel, OrderedMap.get?_foldl_insert]
  · constructor
    · rintro (⟨e, he, rfl, rfl⟩ | ⟨-, hx⟩)
      · exact ⟨((hl _ _).mp (OrderedMap.mem_entries.mp he)).1.parent, hdigest e he⟩
      · cases hx
    · rintro ⟨⟨j, leaf, hj, rfl⟩, rfl⟩
      have hmem := OrderedMap.mem_entries.mpr ((hl (j / 2 ^ height) _).mpr ⟨⟨j, leaf, hj, rfl⟩, rfl⟩)
      refine .inl ⟨_, hmem, (Merkle.div_two_pow_succ j height).symm, ?_⟩
      rw [hdigest _ hmem, Merkle.div_two_pow_succ]
  · intro e he e' he' heq
    rw [hdigest e he, hdigest e' he', heq]

theorem fillLevels_ok (leaves : OrderedMap Nat FlatStorageLeaf) (hempty : EmptyHashesOk h n emptyHashes) (hd : d ≤ n)
    (hashes : HashesStore D) (hdown : ∀ d' ≤ n, d ≤ d' → LevelsOk h leaves n d' hashes) :
    ∃ hashes', fillLevels h emptyHashes d hashes = some hashes' ∧ ∀ d' ≤ n, LevelsOk h leaves n d' hashes' := by
  induction d generalizing hashes with
  | zero => exact ⟨hashes, rfl, fun d' hd' => hdown d' hd' (Nat.zero_le _)⟩
  | succ d ih =>
    obtain ⟨level, hlevel, hok⟩ := hdown (d + 1) hd le_rfl
    have hheight : n - (d + 1) + 1 = n - d := by omega
    have hparent := parentLevel_ok hok
    rw [hheight] at hparent
    obtain ⟨hashes', hrun, hall⟩ := ih (by omega)
      (hashes.insert d (parentLevel h (emptyHash h (n - (d + 1))) level)) fun d' hd' hle =>
        .insert (fun _ => hparent) fun hne => hdown d' hd' (by omega)
    refine ⟨hashes', ?_, hall⟩
    rw [fillLevels, hlevel, hempty (d + 1) hd]
    exact hrun

end FlatStorageBacking

end ZkOs.Tree
