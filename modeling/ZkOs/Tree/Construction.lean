import ZkOs.Lib.SortedLinks
import ZkOs.Tree.Hashes

/-!
# A tree built from a list of pairs

* `Consistent build h b` : the representation invariant, one sorted linked list between the guards with its
  lookup and its digests;
* `initialLeaves_get?`, `newInWithLeaves_ok` : what `new_in_with_leaves` builds;
* `newInWithLeaves_consistent_iff` : it keeps the invariant for at most one pair only.  With two pairs the leaf of
  the first points to itself.
-/

namespace ZkOs.Tree.FlatStorageBacking

variable {D : Type} {n : Nat} {h : FlatStorageHasher D}

structure Consistent (build : Build) (h : FlatStorageHasher D) (b : FlatStorageBacking D n) : Prop where
  hashed : Hashed h b
  /-- The lookup is the inverse of the leaf map. -/
  lookup : ∀ k i, b.keyLookup.get? k = some i ↔ ∃ leaf, b.leaves.get? i = some leaf ∧ leaf.key = k
  minKey : (leafIn b.leaves minKeyLeafMarkerIdx).key = 0
  maxKey : (leafIn b.leaves maxKeyLeafMarkerIdx).key = maxKey
  /-- The pointers lead from guard to guard over all leaves, in the order of the keys. -/
  walk : ∃ walk, Walk (fun i => (leafIn b.leaves i).key) (fun i => (leafIn b.leaves i).next)
    {i | (b.leaves.get? i).isSome} minKeyLeafMarkerIdx maxKeyLeafMarkerIdx walk
  /-- Where leaves are, and where the next one goes. -/
  positions : if build.randomized then ∀ i, (b.leaves.get? i).isSome → i ≤ b.nextFreeSlot
    else ∀ i, (b.leaves.get? i).isSome ↔ i < b.nextFreeSlot

/-! ## The leaves of a new tree -/

section Leaves

variable {positions : List Nat} {pairs : List (Bytes32 × Bytes32)}

/-- The windows over the positions, each with its pair. -/
def windowPairs (positions : List Nat) (pairs : List (Bytes32 × Bytes32)) :
    List ((Nat × Nat) × (Bytes32 × Bytes32)) :=
  (windows (positions ++ [0])).zip pairs

theorem map_fst_windows (xs : List Nat) (y : Nat) : (windows (xs ++ [y])).map Prod.fst = xs := by
  induction xs with
  | nil => rfl
  | cons x xs ih =>
    cases xs with
    | nil => rfl
    | cons x' xs => exact congrArg (x :: ·) ih

theorem map_position_windowPairs (hlen : positions.length = pairs.length) :
    (windowPairs positions pairs).map (fun e => e.1.1) = positions := by
  have hw := map_fst_windows positions 0
  have hwlen : (windows (positions ++ [0])).length = positions.length := by
    rw [← congrArg List.length hw, List.length_map]
  show (windowPairs positions pairs).map (Prod.fst ∘ Prod.fst) = positions
  rw [← List.map_map, windowPairs, List.map_fst_zip (by omega), hw]

theorem map_pair_windowPairs (hlen : positions.length = pairs.length) :
    (windowPairs positions pairs).map Prod.snd = pairs := by
  have hwlen : (windows (positions ++ [0])).length = positions.length := by
    rw [← congrArg List.length (map_fst_windows positions 0), List.length_map]
  rw [windowPairs, List.map_snd_zip (by omega)]

/-- What is known of the positions for the pairs. -/
structure Placed (positions : List Nat) (pairs : List (Bytes32 × Bytes32)) : Prop where
  length : positions.length = pairs.length
  nodup : positions.Nodup
  two_le : ∀ p ∈ positions, 2 ≤ p

variable {e : (Nat × Nat) × (Bytes32 × Bytes32)}

theorem mem_positions (hp : Placed positions pairs) (he : e ∈ windowPairs positions pairs) : e.1.1 ∈ positions := by
  rw [← map_position_windowPairs hp.length]
  exact List.mem_map_of_mem he

theorem initialLeaves_get? (hp : Placed positions pairs) (i : Nat) (leaf : FlatStorageLeaf) :
    (initialLeaves positions pairs).get? i = some leaf ↔
      (∃ e ∈ windowPairs positions pairs, e.1.1 = i ∧ windowLeaf e.1 e.2 = leaf) ∨
        i = 0 ∧ startGuard positions = leaf ∨ i = 1 ∧ endGuard = leaf := by
  have hnodup : ((windowPairs positions pairs).map fun e => e.1.1).Nodup := by
    rw [map_position_windowPairs hp.length]
    exact hp.nodup
  have hge : ∀ e ∈ windowPairs positions pairs, 2 ≤ e.1.1 := fun e he => hp.two_le _ (mem_positions hp he)
  rw [initialLeaves, OrderedMap.get?_foldl_insert]
  · refine or_congr Iff.rfl ?_
    rw [OrderedMap.get?_insert, OrderedMap.get?_insert]
    constructor
    · rintro ⟨-, hx⟩
      split at hx
      · next h1 => exact .inr ⟨h1, Option.some.inj hx⟩
      · split at hx
        · next h0 => exact .inl ⟨h0, Option.some.inj hx⟩
        · cases hx
    · rintro (⟨rfl, rfl⟩ | ⟨rfl, rfl⟩)
      · exact ⟨fun e he h0 => by have := hge e he; omega, rfl⟩
      · exact ⟨fun e he h0 => by have := hge e he; omega, rfl⟩
  · intro e he e' he' heq
    rw [List.inj_on_of_nodup_map hnodup he he' heq]

theorem initialLeaves_zero (hp : Placed positions pairs) :
    (initialLeaves positions pairs).get? 0 = some (startGuard positions) :=
  (initialLeaves_get? hp 0 _).mpr (.inr (.inl ⟨rfl, rfl⟩))

theorem initialLeaves_one (hp : Placed positions pairs) : (initialLeaves positions pairs).get? 1 = some endGuard :=
  (initialLeaves_get? hp 1 _).mpr (.inr (.inr ⟨rfl, rfl⟩))

theorem initialLeaves_isSome (hp : Placed positions pairs) (i : Nat) :
    ((initialLeaves positions pairs).get? i).isSome ↔ i ∈ positions ∨ i = 0 ∨ i = 1 := by
  rw [Option.isSome_iff_exists]
  simp only [initialLeaves_get? hp]
  constructor
  · rintro ⟨leaf, ⟨e, he, rfl, -⟩ | ⟨rfl, -⟩ | ⟨rfl, -⟩⟩
    · exact .inl (mem_positions hp he)
    · exact .inr (.inl rfl)
    · exact .inr (.inr rfl)
  · rintro (hi | rfl | rfl)
    · rw [← map_position_windowPairs hp.length] at hi
      obtain ⟨e, he, rfl⟩ := List.mem_map.mp hi
      exact ⟨_, .inl ⟨e, he, rfl, rfl⟩⟩
    · exact ⟨_, .inr (.inl ⟨rfl, rfl⟩)⟩
    · exact ⟨_, .inr (.inr ⟨rfl, rfl⟩)⟩

structure Distinct (pairs : List (Bytes32 × Bytes32)) : Prop where
  nodup : (pairs.map Prod.fst).Nodup
  ne_min : ∀ pair ∈ pairs, pair.1 ≠ 0
  ne_max : ∀ pair ∈ pairs, pair.1 ≠ Tree.maxKey

theorem mem_pairs (hp : Placed positions pairs) (he : e ∈ windowPairs positions pairs) : e.2 ∈ pairs := by
  rw [← map_pair_windowPairs hp.length]
  exact List.mem_map_of_mem he

theorem zero_ne_maxKey : (0 : Bytes32) ≠ Tree.maxKey := by decide

theorem initialLeaves_injective (hp : Placed positions pairs) (hd : Distinct pairs) {i j : Nat}
    {leaf leaf' : FlatStorageLeaf} (hi : (initialLeaves positions pairs).get? i = some leaf)
    (hj : (initialLeaves positions pairs).get? j = some leaf') (hkey : leaf.key = leaf'.key) : i = j := by
  have hnodup : ((windowPairs positions pairs).map fun e => e.2.1).Nodup := by
    have := hd.nodup
    rw [← map_pair_windowPairs hp.length, List.map_map] at this
    exact this
  have hmin : ∀ e ∈ windowPairs positions pairs, e.2.1 ≠ 0 := fun e he => hd.ne_min _ (mem_pairs hp he)
  have hmax : ∀ e ∈ windowPairs positions pairs, e.2.1 ≠ Tree.maxKey := fun e he => hd.ne_max _ (mem_pairs hp he)
  rw [initialLeaves_get? hp] at hi hj
  rcases hi with ⟨e, he, rfl, rfl⟩ | ⟨rfl, rfl⟩ | ⟨rfl, rfl⟩ <;>
    rcases hj with ⟨e', he', rfl, rfl⟩ | ⟨rfl, rfl⟩ | ⟨rfl, rfl⟩
  · rw [List.inj_on_of_nodup_map hnodup he he' hkey]
  · exact absurd hkey (hmin e he)
  · exact absurd hkey (hmax e he)
  · exact absurd hkey.symm (hmin e' he')
  · rfl
  · exact absurd hkey zero_ne_maxKey
  · exact absurd hkey.symm (hmax e' he')
  · exact absurd hkey zero_ne_maxKey.symm
  · rfl

end Leaves

/-! ## The whole tree -/

variable {build : Build} {draw : List Nat} {pairs : List (Bytes32 × Bytes32)}

def sortPairs (pairs : List (Bytes32 × Bytes32)) : List (Bytes32 × Bytes32) :=
  pairs.insertionSort fun a b => a.1 ≤ b.1

theorem Distinct.sortPairs (hd : Distinct pairs) : Distinct (sortPairs pairs) := by
  have hperm : (FlatStorageBacking.sortPairs pairs).Perm pairs := List.perm_insertionSort _ pairs
  refine ⟨(hperm.map Prod.fst).nodup_iff.mpr hd.nodup, fun pair hmem => ?_, fun pair hmem => ?_⟩
  · exact hd.ne_min pair (hperm.mem_iff.mp hmem)
  · exact hd.ne_max pair (hperm.mem_iff.mp hmem)

/-- The random positions are distinct, as many as pairs, and leave those of the guards alone. -/
def DrawOk (build : Build) (draw : List Nat) (pairs : List (Bytes32 × Bytes32)) : Prop :=
  build.testing ∧ build.randomized →
    draw.length = pairs.length ∧ draw.Nodup ∧ ∀ p ∈ draw, 2 ≤ p ∧ p < 2 ^ 64 - 1

theorem initialPositions_placed (hdraw : DrawOk build draw pairs) :
    Placed (initialPositions build draw pairs.length).1 (sortPairs pairs) := by
  have hlen : (sortPairs pairs).length = pairs.length := List.length_insertionSort _ pairs
  rw [initialPositions]
  split
  · next hr =>
    obtain ⟨hl, hnodup, hge⟩ := hdraw (by simpa using hr)
    exact ⟨hl.trans hlen.symm, hnodup, fun p hp => (hge p hp).1⟩
  · refine ⟨by simp [hlen], ?_, ?_⟩
    · exact List.Nodup.map (fun a b hab => by simpa using hab) List.nodup_range
    · intro p hp
      obtain ⟨i, -, rfl⟩ := List.mem_map.mp hp
      exact Nat.le_add_left 2 i

/-- The value that the pairs give to a key, with the guards at zero. -/
def contents (pairs : List (Bytes32 × Bytes32)) (k : Bytes32) : Option Bytes32 :=
  if k = 0 ∨ k = Tree.maxKey then some 0 else (pairs.find? fun pair => pair.1 = k).map Prod.snd

/-- What `new_in_with_leaves` builds, apart from the order of the links. -/
structure Built (build : Build) (h : FlatStorageHasher D) (draw : List Nat) (pairs : List (Bytes32 × Bytes32))
    (b : FlatStorageBacking D n) : Prop where
  leaves : b.leaves = initialLeaves (initialPositions build draw pairs.length).1 (sortPairs pairs)
  emptyHashes : EmptyHashesOk h n b.emptyHashes
  levels : ∀ d ≤ n, LevelsOk h b.leaves n d b.hashes
  nextFreeSlot : b.nextFreeSlot = (initialPositions build draw pairs.length).2
  lookup : ∀ k i, b.keyLookup.get? k = some i ↔ ∃ leaf, b.leaves.get? i = some leaf ∧ leaf.key = k
  value : ∀ k, b.getValue k = some (contents pairs k)

theorem foldl_keyLookup {leaves : OrderedMap Nat FlatStorageLeaf} {m : OrderedMap Bytes32 Nat}
    (hinj : ∀ i j leaf leaf', leaves.get? i = some leaf → leaves.get? j = some leaf' → leaf.key = leaf'.key → i = j)
    (hm : ∀ k i, m.get? k = some i → ∃ j leaf, leaves.get? j = some leaf ∧ leaf.key = k) (k : Bytes32) (i : Nat) :
    (leaves.entries.foldl (fun lookup e => lookup.insert e.2.key e.1) m).get? k = some i ↔
      ∃ leaf, leaves.get? i = some leaf ∧ leaf.key = k := by
  rw [OrderedMap.get?_foldl_insert]
  · constructor
    · rintro (⟨⟨j, leaf⟩, he, hk, rfl⟩ | ⟨hnot, hx⟩)
      · exact ⟨leaf, OrderedMap.mem_entries.mp he, hk⟩
      · obtain ⟨j, leaf, hj, hk⟩ := hm k i hx
        exact absurd hk (hnot _ (OrderedMap.mem_entries.mpr hj))
    · rintro ⟨leaf, hi, hk⟩
      exact .inl ⟨(i, leaf), OrderedMap.mem_entries.mpr hi, hk, rfl⟩
  · intro e he e' he' heq
    exact hinj _ _ _ _ (OrderedMap.mem_entries.mp he) (OrderedMap.mem_entries.mp he') heq

variable {b : FlatStorageBacking D n} {i : Nat}

theorem getValue_eq {k : Bytes32} {leaf : FlatStorageLeaf} (hk : b.keyLookup.get? k = some i)
    (hi : b.leaves.get? i = some leaf) : b.getValue k = some (some leaf.value) := by
  rw [getValue, hk]
  show (b.leaves.get? i).bind _ = _
  rw [hi]
  rfl

theorem find?_pair (hd : Distinct pairs) {pair : Bytes32 × Bytes32} (hmem : pair ∈ pairs) :
    contents pairs pair.1 = some pair.2 := by
  rw [contents, if_neg (not_or.mpr ⟨hd.ne_min pair hmem, hd.ne_max pair hmem⟩)]
  have hsome : (pairs.find? fun p => p.1 = pair.1).isSome := by
    rw [List.find?_isSome]
    exact ⟨pair, hmem, by simp⟩
  obtain ⟨found, hfound⟩ := Option.isSome_iff_exists.mp hsome
  have heq : found = pair :=
    List.inj_on_of_nodup_map hd.nodup (List.mem_of_find?_eq_some hfound) hmem (by simpa using List.find?_some hfound)
  rw [hfound, heq]
  rfl

theorem getValue_initial (hd : Distinct pairs) {positions : List Nat} (hp : Placed positions (sortPairs pairs))
    (hleaves : b.leaves = initialLeaves positions (sortPairs pairs))
    (hlookup : ∀ k i, b.keyLookup.get? k = some i ↔ ∃ leaf, b.leaves.get? i = some leaf ∧ leaf.key = k) (k : Bytes32)
    : b.getValue k = some (contents pairs k) := by
  have hperm : (sortPairs pairs).Perm pairs := List.perm_insertionSort _ pairs
  cases hk : b.keyLookup.get? k with
  | some i =>
    obtain ⟨leaf, hi, rfl⟩ := (hlookup k i).mp hk
    rw [getValue_eq hk hi]
    rw [hleaves, initialLeaves_get? hp] at hi
    rcases hi with ⟨e, he, rfl, rfl⟩ | ⟨rfl, rfl⟩ | ⟨rfl, rfl⟩
    · exact congrArg some (find?_pair hd (hperm.mem_iff.mp (mem_pairs hp he))).symm
    · rw [contents, if_pos (.inl rfl)]
      rfl
    · rw [contents, if_pos (.inr rfl)]
      rfl
  | none =>
    have hnot : ∀ i leaf, b.leaves.get? i = some leaf → leaf.key ≠ k := by
      intro i leaf hi hkey
      rw [(hlookup k i).mpr ⟨leaf, hi, hkey⟩] at hk
      cases hk
    rw [hleaves] at hnot
    have hmin : ¬ (k = 0 ∨ k = Tree.maxKey) := by
      rintro (rfl | rfl)
      · exact hnot 0 _ (initialLeaves_zero hp) rfl
      · exact hnot 1 _ (initialLeaves_one hp) rfl
    have hfind : (pairs.find? fun pair => pair.1 = k) = none := by
      rw [List.find?_eq_none]
      intro pair hmem hkey
      have hmem := hperm.mem_iff.mpr hmem
      rw [← map_pair_windowPairs hp.length] at hmem
      obtain ⟨e, he, rfl⟩ := List.mem_map.mp hmem
      exact hnot e.1.1 _ ((initialLeaves_get? hp _ _).mpr (.inl ⟨e, he, rfl, rfl⟩)) (of_decide_eq_true hkey)
    rw [getValue, hk, contents, if_neg hmin, hfind]
    rfl

theorem newInWithLeaves_ok (hd : Distinct pairs) (hdraw : DrawOk build draw pairs) :
    ∃ b, newInWithLeaves h n build draw pairs = some b ∧ Built build h draw pairs b := by
  have hp := initialPositions_placed hdraw
  let leaves := initialLeaves (initialPositions build draw pairs.length).1 (sortPairs pairs)
  obtain ⟨hashes, hrun, hlevels⟩ := fillLevels_ok leaves (initialEmptyHashes_ok (h := h) (n := n)) le_rfl
    (OrderedMap.empty.insert n (leafHashes h leaves)) fun d hdn hle => by
      obtain rfl : d = n := le_antisymm hdn hle
      refine ⟨_, OrderedMap.get?_insert_self _ _ _, ?_⟩
      rw [Nat.sub_self]
      exact leafHashes_ok
  have hlookup : ∀ k i, (leaves.entries.foldl (fun lookup e => lookup.insert e.2.key e.1)
      ((OrderedMap.empty.insert (startGuard (initialPositions build draw pairs.length).1).key 0).insert endGuard.key 1)).get? k =
        some i ↔ ∃ leaf, leaves.get? i = some leaf ∧ leaf.key = k := by
    refine foldl_keyLookup (fun i j leaf leaf' => initialLeaves_injective hp hd.sortPairs) fun k i hk => ?_
    rw [OrderedMap.get?_insert, OrderedMap.get?_insert] at hk
    split at hk
    · next heq => exact ⟨1, endGuard, initialLeaves_one hp, heq.symm⟩
    · split at hk
      · next heq => exact ⟨0, _, initialLeaves_zero hp, heq.symm⟩
      · cases hk
  refine ⟨⟨leaves, initialEmptyHashes h n, hashes, (initialPositions build draw pairs.length).2, _⟩, ?_, rfl,
    initialEmptyHashes_ok, hlevels, rfl, hlookup, getValue_initial hd hp rfl hlookup⟩
  rw [newInWithLeaves]
  show (fillLevels h (initialEmptyHashes h n) n (OrderedMap.empty.insert n (leafHashes h leaves))).bind _ = _
  rw [hrun]
  rfl

/-! ## The links -/

theorem Built.hashed (hb : Built build h draw pairs b)
    (hp : Placed (initialPositions build draw pairs.length).1 (sortPairs pairs)) (hn : 1 ≤ n)
    (hpos : ∀ p ∈ (initialPositions build draw pairs.length).1, p < 2 ^ n) : Hashed h b := by
  have htwo : 2 ≤ 2 ^ n := Nat.le_self_pow (by omega) 2
  refine ⟨⟨0, _, by rw [hb.leaves]; exact initialLeaves_zero hp⟩, ?_,
    hb.emptyHashes, hb.levels⟩
  intro i leaf hi
  have hsome : (b.leaves.get? i).isSome := by rw [hi]; rfl
  rw [hb.leaves, initialLeaves_isSome hp] at hsome
  rcases hsome with hmem | rfl | rfl
  · exact hpos i hmem
  · omega
  · omega

theorem Built.positions (hb : Built build h draw pairs b)
    (hp : Placed (initialPositions build draw pairs.length).1 (sortPairs pairs)) :
    if build.randomized then ∀ i, (b.leaves.get? i).isSome → i ≤ b.nextFreeSlot
    else ∀ i, (b.leaves.get? i).isSome ↔ i < b.nextFreeSlot := by
  have hfold : ∀ (xs : List Nat) (a : Nat), a ≤ xs.foldl max a ∧ ∀ x ∈ xs, x ≤ xs.foldl max a := by
    intro xs
    induction xs with
    | nil => exact fun a => ⟨le_rfl, fun x hx => absurd hx (List.not_mem_nil)⟩
    | cons y xs ih =>
      intro a
      obtain ⟨hle, hall⟩ := ih (max a y)
      refine ⟨(le_max_left a y).trans hle, fun x hx => ?_⟩
      rcases List.mem_cons.mp hx with rfl | hx
      · exact (le_max_right a x).trans hle
      · exact hall x hx
  simp only [hb.leaves, initialLeaves_isSome hp, hb.nextFreeSlot]
  by_cases hr : (build.testing && build.randomized) = true
  · rw [initialPositions, if_pos hr, if_pos (Bool.and_eq_true_iff.mp hr).2]
    obtain ⟨hone, hall⟩ := hfold draw 1
    rintro i (hi | rfl | rfl)
    · exact (hall i hi).trans (Nat.le_succ _)
    · exact Nat.zero_le _
    · exact hone.trans (Nat.le_succ _)
  · rw [initialPositions, if_neg hr]
    have hiff : ∀ i, (i ∈ (List.range pairs.length).map (· + 2) ∨ i = 0 ∨ i = 1) ↔ i < pairs.length + 2 := by
      intro i
      rw [List.mem_map]
      constructor
      · rintro (⟨j, hj, rfl⟩ | rfl | rfl)
        · have := List.mem_range.mp hj
          omega
        · omega
        · omega
      · intro hi
        by_cases hlt : i < 2
        · omega
        · exact .inl ⟨i - 2, List.mem_range.mpr (by omega), by omega⟩
    split
    · exact fun i hi => ((hiff i).mp hi).le
    · exact hiff

/-- A leaf that points to itself is no link of a sorted list. -/
theorem Consistent.next_ne (hb : Consistent build h b) (hi : (b.leaves.get? i).isSome) (hne : i ≠ maxKeyLeafMarkerIdx)
    : (leafIn b.leaves i).next ≠ i := by
  obtain ⟨walk, hwalk⟩ := hb.walk
  intro hself
  have hlt : (leafIn b.leaves i).key < (leafIn b.leaves (leafIn b.leaves i).next).key :=
    hwalk.linked.lt_next i hi hne
  rw [hself] at hlt
  exact lt_irrefl _ hlt

/-- With two pairs the first leaf points to itself. -/
theorem initialLeaves_self {positions : List Nat} (hp : Placed positions pairs) (htwo : 2 ≤ pairs.length) :
    ∃ p, p ≠ maxKeyLeafMarkerIdx ∧ ((initialLeaves positions pairs).get? p).isSome ∧
      (leafIn (initialLeaves positions pairs) p).next = p := by
  obtain ⟨pair, pairs, rfl⟩ := List.exists_cons_of_length_pos (l := pairs) (by omega)
  obtain ⟨p, positions, rfl⟩ := List.exists_cons_of_length_pos (l := positions) (by rw [hp.length]; omega)
  have hlen : positions.length = pairs.length := Nat.succ.inj hp.length
  rw [List.length_cons] at htwo
  obtain ⟨q, positions, rfl⟩ := List.exists_cons_of_length_pos (l := positions) (by omega)
  have hp2 : 2 ≤ p := hp.two_le p List.mem_cons_self
  have hq2 : 2 ≤ q := hp.two_le q (List.mem_cons_of_mem _ List.mem_cons_self)
  have hget : (initialLeaves (p :: q :: positions) (pair :: pairs)).get? p = some (windowLeaf (p, q) pair) :=
    (initialLeaves_get? hp _ _).mpr (.inl ⟨((p, q), pair), List.mem_cons_self, rfl, rfl⟩)
  refine ⟨p, by rw [maxKeyLeafMarkerIdx]; omega, by rw [hget]; rfl, ?_⟩
  rw [leafIn_of_get? hget, windowLeaf]
  exact if_neg (Nat.ne_of_gt (by omega))

/-- With at most one pair the links lead from guard to guard. -/
theorem initialLeaves_walk {positions : List Nat} (hp : Placed positions pairs) (hd : Distinct pairs)
    (hone : pairs.length ≤ 1) :
    ∃ walk, Walk (fun i => (leafIn (initialLeaves positions pairs) i).key)
      (fun i => (leafIn (initialLeaves positions pairs) i).next)
      {i | ((initialLeaves positions pairs).get? i).isSome} minKeyLeafMarkerIdx maxKeyLeafMarkerIdx walk := by
  have hmin : leafIn (initialLeaves positions pairs) 0 = startGuard positions :=
    leafIn_of_get? (initialLeaves_zero hp)
  have hmax : leafIn (initialLeaves positions pairs) 1 = endGuard :=
    leafIn_of_get? (initialLeaves_one hp)
  have hlen := hp.length
  cases pairs with
  | nil =>
    obtain rfl : positions = [] := List.length_eq_zero_iff.mp hlen
    refine ⟨[0, 1], rfl, rfl, List.isChain_pair.mpr ?_, fun i => ?_⟩
    · rw [hmin, hmax]
      exact ⟨rfl, by decide⟩
    · show i ∈ [0, 1] ↔ ((initialLeaves [] []).get? i).isSome
      rw [initialLeaves_isSome hp]
      simp
  | cons pair pairs =>
    obtain rfl : pairs = [] := List.length_eq_zero_iff.mp (by rw [List.length_cons] at hone; omega)
    obtain ⟨p, rfl⟩ := List.length_eq_one_iff.mp hlen
    have hleaf : leafIn (initialLeaves [p] [pair]) p = windowLeaf (p, 0) pair :=
      leafIn_of_get? ((initialLeaves_get? hp p _).mpr (.inl ⟨((p, 0), pair), List.mem_cons_self, rfl, rfl⟩))
    have hpos : (0 : Bytes32) < pair.1 :=
      lt_of_le_of_ne (zero_le_key _) (Ne.symm (hd.ne_min pair List.mem_cons_self))
    have hlt : pair.1 < Tree.maxKey := lt_of_le_of_ne (key_le_max _) (hd.ne_max pair List.mem_cons_self)
    refine ⟨[0, p, 1], rfl, rfl, ?_, fun i => ?_⟩
    · rw [List.isChain_cons_cons, List.isChain_pair, hmin, hmax, hleaf]
      exact ⟨⟨rfl, hpos⟩, rfl, hlt⟩
    · show i ∈ [0, p, 1] ↔ ((initialLeaves [p] [pair]).get? i).isSome
      rw [initialLeaves_isSome hp]
      simp only [List.mem_cons, List.not_mem_nil, or_false]
      tauto

theorem newInWithLeaves_consistent (hd : Distinct pairs) (hdraw : DrawOk build draw pairs)
    (hone : pairs.length ≤ 1) (hn : 1 ≤ n) (hpos : ∀ p ∈ (initialPositions build draw pairs.length).1, p < 2 ^ n) :
    ∃ b : FlatStorageBacking D n, newInWithLeaves h n build draw pairs = some b ∧ Consistent build h b ∧
      ∀ k, b.getValue k = some (contents pairs k) := by
  have hp := initialPositions_placed hdraw
  have hlen : (sortPairs pairs).length = pairs.length := List.length_insertionSort _ pairs
  obtain ⟨b, hrun, hb⟩ := newInWithLeaves_ok (h := h) (n := n) hd hdraw
  refine ⟨b, hrun, ⟨hb.hashed hp hn hpos, hb.lookup, ?_, ?_, ?_, hb.positions hp⟩, hb.value⟩
  · rw [hb.leaves, minKeyLeafMarkerIdx, leafIn_of_get? (initialLeaves_zero hp)]
    rfl
  · rw [hb.leaves, maxKeyLeafMarkerIdx, leafIn_of_get? (initialLeaves_one hp)]
    rfl
  · rw [hb.leaves]
    exact initialLeaves_walk hp hd.sortPairs (by omega)

/-- `new_in_with_leaves` builds a consistent tree for at most one pair only, at positions the tree has. -/
theorem newInWithLeaves_consistent_iff (hd : Distinct pairs) (hdraw : DrawOk build draw pairs) :
    (∃ b : FlatStorageBacking D n, newInWithLeaves h n build draw pairs = some b ∧ Consistent build h b ∧
      ∀ k, b.getValue k = some (contents pairs k)) ↔
    pairs.length ≤ 1 ∧ 1 ≤ n ∧ ∀ p ∈ (initialPositions build draw pairs.length).1, p < 2 ^ n := by
  have hp := initialPositions_placed hdraw
  have hlen : (sortPairs pairs).length = pairs.length := List.length_insertionSort _ pairs
  constructor
  · rintro ⟨b, hrun, hcons, -⟩
    obtain ⟨b', hrun', hb⟩ := newInWithLeaves_ok (h := h) (n := n) hd hdraw
    obtain rfl : b = b' := Option.some.inj (hrun.symm.trans hrun')
    have hrange : ∀ i, (b.leaves.get? i).isSome → i < 2 ^ n := by
      intro i hi
      obtain ⟨leaf, hleaf⟩ := Option.isSome_iff_exists.mp hi
      exact hcons.hashed.inRange i leaf hleaf
    rw [hb.leaves] at hrange
    refine ⟨?_, ?_, fun p hmem => hrange p ((initialLeaves_isSome hp p).mpr (.inl hmem))⟩
    · by_contra hnot
      obtain ⟨p, hne, hsome, hself⟩ := initialLeaves_self hp (by omega)
      rw [← hb.leaves] at hsome hself
      exact hcons.next_ne hsome hne hself
    · have := hrange 1 ((initialLeaves_isSome hp 1).mpr (.inr (.inr rfl)))
      by_contra hn
      obtain rfl : n = 0 := by omega
      omega
  · rintro ⟨hone, hn, hpos⟩
    exact newInWithLeaves_consistent hd hdraw hone hn hpos

/-- Two pairs: the leaf of the smaller key, at position 2, points to itself and not to the other at 3. -/
theorem newInWithLeaves_two_pairs : ∃ b : FlatStorageBacking TermDigest 2,
    newInWithLeaves termHasher 2 ⟨true, false⟩ [] [(5, 50), (4, 40)] = some b ∧
      b.leaves.get? 2 = some ⟨4, 40, 2⟩ ∧ b.leaves.get? 3 = some ⟨5, 50, 1⟩ ∧
      ¬ Consistent ⟨true, false⟩ termHasher b := by
  have hrun : ((newInWithLeaves termHasher 2 ⟨true, false⟩ [] [(5, 50), (4, 40)]).map fun b =>
      (b.leaves.get? 2, b.leaves.get? 3)) = some (some ⟨4, 40, 2⟩, some ⟨5, 50, 1⟩) := by decide +kernel
  obtain ⟨b, hb, hleaves⟩ := Option.map_eq_some_iff.mp hrun
  obtain ⟨h2, h3⟩ := Prod.mk.inj hleaves
  refine ⟨b, hb, h2, h3, fun hcons => ?_⟩
  refine hcons.next_ne (i := 2) (by rw [h2]; rfl) (by decide) ?_
  rw [leafIn_of_get? h2]

theorem newInWithLeaves_one_pair :
    (Distinct [((5 : Bytes32), (50 : Bytes32))] ∧ DrawOk ⟨true, false⟩ [] [((5 : Bytes32), (50 : Bytes32))]) ∧
    ∃ b : FlatStorageBacking TermDigest 2, newInWithLeaves termHasher 2 ⟨true, false⟩ [] [(5, 50)] = some b ∧
      Consistent ⟨true, false⟩ termHasher b ∧ ∀ k, b.getValue k = some (contents [(5, 50)] k) := by
  have hd : Distinct [((5 : Bytes32), (50 : Bytes32))] := by
    refine ⟨List.nodup_singleton _, fun p hp => ?_, fun p hp => ?_⟩ <;> rw [List.mem_singleton.mp hp] <;> decide
  have hdraw : DrawOk ⟨true, false⟩ [] [((5 : Bytes32), (50 : Bytes32))] := fun h => absurd h.2 (by decide)
  exact ⟨⟨hd, hdraw⟩, (newInWithLeaves_consistent_iff hd hdraw).mpr (by decide)⟩

end ZkOs.Tree.FlatStorageBacking
