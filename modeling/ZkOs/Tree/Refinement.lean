import ZkOs.Tree.Completeness
import ZkOs.Tree.Insertion

/-!
# A batch and the insertions one after another

* `Answers` : the oracle answers as the backing does, `Answers.honest` : it is honest then;
* `insertAll`, `insertAll_ok` : the writes of the batch, inserted one after another;
* `leaves_unique` : positions, keys, values and the order of the keys determine the leaves;
* `verifyAndApplyBatch_eq_insertAll` : the commitment after the batch is that of the backing after the insertions.
-/

namespace ZkOs.Tree

variable {D : Type} {n : Nat} {h : FlatStorageHasher D} {f g : Nat → FlatStorageLeaf} {size : Nat}

/-! ## The leaves of a tree -/

/-- Two well-formed trees with the same keys at the same positions and the same contents are the same, as each leaf
but the last points to its successor. -/
theorem leaves_unique (hf : WellFormed f size) (hg : WellFormed g size) (hkeys : ∀ i < size, (f i).key = (g i).key)
    (hcontents : contents f size = contents g size)
    (hlast : ∀ i < size, (f i).key = maxKey → (f i).next = (g i).next) : f = g := by
  obtain ⟨first, last, hl, -, hmax⟩ := hf.linked
  obtain ⟨first', last', hl', -, hmax'⟩ := hg.linked
  have hsameLast : last' = last := by
    refine hl.injOn hl'.last_mem hl.last_mem ?_
    show (f last').key = (f last).key
    rw [hkeys last' hl'.last_mem, hmax', hmax]
  funext i
  by_cases hi : i < size
  · have hvalue : (f i).value = (g i).value := by
      have hci := hf.contents_eq_some hi
      rw [hcontents, hkeys i hi, hg.contents_eq_some hi] at hci
      exact (Option.some.inj hci).symm
    have hnext : (f i).next = (g i).next := by
      by_cases hne : i = last
      · exact hlast i hi (by rw [hne, hmax])
      · have hne' : i ≠ last' := by rwa [hsameLast]
        have hmem : (g i).next < size := hl'.next_mem i hi hne'
        refine hl.next_eq hi hmem ?_ fun j hj hlt => ?_
        · show (f i).key < (f (g i).next).key
          rw [hkeys i hi, hkeys _ hmem]
          exact hl'.lt_next i hi hne'
        · show (f (g i).next).key ≤ (f j).key
          have hlt : (f i).key < (f j).key := hlt
          rw [hkeys i hi, hkeys j hj] at hlt
          rw [hkeys _ hmem, hkeys j hj]
          exact hl'.next_le i hi hne' j hj hlt
    rw [FlatStorageLeaf.mk.injEq]
    exact ⟨hkeys i hi, hvalue, hnext⟩
  · rw [hf.empty i (not_lt.mp hi), hg.empty i (not_lt.mp hi)]

namespace FlatStorageBacking

variable {build : Build} {b : FlatStorageBacking D n} {oracle : BatchOracle D n}

theorem Consistent.wellFormed (hb : Consistent build h b) (hr : build.randomized = false) :
    WellFormed (leafIn b.leaves) b.nextFreeSlot := by
  have hocc := (hb.size hr).2.2
  have hset : b.occupied = {i | i < b.nextFreeSlot} := Set.ext hocc
  refine wellFormed_of_linked (hset ▸ hb.linked) hb.minKey hb.maxKey fun i hi => ?_
  rw [leafIn, Option.not_isSome_iff_eq_none.mp fun hsome => absurd ((hocc i).mp hsome) hi.not_gt, Option.getD_none]

theorem Consistent.guards (hb : Consistent build h b) (hr : build.randomized = false) :
    Guards (leafIn b.leaves) b.nextFreeSlot :=
  ⟨hb.minKey, hb.maxKey, ((hb.size hr).2.2 _).mp hb.linked.last_mem⟩

theorem Consistent.getValue_eq_contents (hb : Consistent build h b) (hr : build.randomized = false) (k : Bytes32) :
    b.getValue k = some (Tree.contents (leafIn b.leaves) b.nextFreeSlot k) := by
  have hocc := (hb.size hr).2.2
  rw [hb.getValue]
  cases hk : b.keyLookup.get? k with
  | some i =>
    obtain ⟨hi, rfl⟩ := hb.keyAt_eq hk
    rw [show b.keyAt i = (leafIn b.leaves i).key from rfl, (hb.wellFormed hr).contents_eq_some ((hocc i).mp hi)]
    rfl
  | none =>
    rw [Option.map_none, contents_eq_none_iff.mpr]
    rintro i hi rfl
    have hsome : b.keyLookup.get? (leafIn b.leaves i).key = some i := hb.lookup_keyAt ((hocc i).mpr hi)
    rw [hk] at hsome
    cases hsome

/-! ## The oracle -/

/-- The oracle answers as the backing does; where the backing panics it may answer anything. -/
structure Answers [DecidableEq D] (h : FlatStorageHasher D) (b : FlatStorageBacking D n) (oracle : BatchOracle D n) :
    Prop where
  prevIndex : ∀ asked key i, b.getPrevIndex key = some i → oracle.prevIndex asked key = i
  index : ∀ asked key i, b.getIndexForExisting key = some i → oracle.index asked key = i
  proof : ∀ asked i p, b.getProofForPosition h i = some p → oracle.proof asked i = p

theorem Answers.honest [DecidableEq D] (ha : Answers h b oracle) (hb : Consistent build h b)
    (hr : build.randomized = false) : HonestOracle h (leafIn b.leaves) b.nextFreeSlot oracle := by
  have hocc := (hb.size hr).2.2
  have hproof : ∀ asked i, i < b.nextFreeSlot → (oracle.proof asked i).index = i ∧
      (oracle.proof asked i).leaf = leafIn b.leaves i ∧ PathTrue h (leafIn b.leaves) i (oracle.proof asked i) := by
    intro asked i hi
    obtain ⟨p, hp, hindex, hleaf, hpath, -⟩ := hb.hashed.getProofForPosition (hb.lt_pow ((hocc i).mpr hi))
    rw [ha.proof asked i p hp]
    refine ⟨hindex, hleaf, fun k hk => ?_⟩
    rw [LeafProof.sibling, dif_pos hk, hpath ⟨k, hk⟩]
    rfl
  refine ⟨fun asked k habsent => ?_, fun asked i hi => ?_, fun asked i hi => (hproof asked i hi).1,
    fun asked i hi => (hproof asked i hi).2.1, fun asked i hi => (hproof asked i hi).2.2⟩
  · have hkey : b.keyLookup.get? k = none := by
      rw [Option.eq_none_iff_forall_ne_some]
      intro i hi
      obtain ⟨hmem, hk⟩ := hb.keyAt_eq hi
      exact habsent i ((hocc i).mp hmem) hk
    obtain ⟨k', prev, k'', hlast, -, hprev, hne, hlt, hlt'⟩ := neighbours hb hkey
    rw [ha.prevIndex asked k prev (by rw [getPrevIndex, hlast]; rfl)]
    exact ⟨(hocc prev).mp hprev, (hocc _).mp (hb.linked.next_mem prev hprev hne), hlt, hlt'⟩
  · exact ha.index asked _ i (hb.lookup_keyAt ((hocc i).mpr hi))

variable [DecidableEq D]

/-- The backing as an oracle; its answers are `u64`. -/
def oracleOf (h : FlatStorageHasher D) (b : FlatStorageBacking D n) : BatchOracle D n where
  prevIndex _ key := (b.getPrevIndex key).getD 0 % 2 ^ 64
  index _ key := (b.getIndexForExisting key).getD 0 % 2 ^ 64
  proof _ i :=
    match b.getProofForPosition h i with
    | some p => { p with leaf := { p.leaf with next := p.leaf.next % 2 ^ 64 } }
    | none => ⟨i, .empty, fun k => emptyHash h k⟩
  prevIndex_lt _ _ := Nat.mod_lt _ (Nat.two_pow_pos 64)
  index_lt _ _ := Nat.mod_lt _ (Nat.two_pow_pos 64)
  next_lt _ i := by
    cases b.getProofForPosition h i with
    | some p => exact Nat.mod_lt _ (Nat.two_pow_pos 64)
    | none => exact Nat.two_pow_pos 64

theorem lt_of_getProofForPosition {i : Nat} {p : LeafProof D n} (hp : b.getProofForPosition h i = some p) : i < 2 ^ n := by
  simp only [getProofForPosition, Option.bind_eq_bind, Option.bind_eq_some_iff] at hp
  obtain ⟨_, -, _, hguard, -⟩ := hp
  have hzero : i / 2 ^ n = 0 := by simpa using hguard
  exact (Nat.div_eq_zero_iff_lt (Nat.two_pow_pos n)).mp hzero

theorem answers_oracleOf (hb : Consistent build h b) (hr : build.randomized = false) (hcounter : b.nextFreeSlot ≤ 2 ^ 64)
    (hmax : (leafIn b.leaves maxKeyLeafMarkerIdx).next < 2 ^ 64) : Answers h b (b.oracleOf h) := by
  have hocc := (hb.size hr).2.2
  have hlt : ∀ {key i}, b.keyLookup.get? key = some i → i < 2 ^ 64 :=
    fun hi => ((hocc _).mp (hb.keyAt_eq hi).1).trans_le hcounter
  refine ⟨fun asked key i hi => ?_, fun asked key i hi => ?_, fun asked i p hp => ?_⟩
  · obtain ⟨⟨k, j⟩, hlast, rfl⟩ := Option.map_eq_some_iff.mp hi
    obtain ⟨k', j', hlast', hget, -⟩ := OrderedMap.lastLE?_spec (hb.lookup_keyAt hb.linked.first_mem)
      (show b.keyAt minKeyLeafMarkerIdx ≤ key by rw [show b.keyAt _ = 0 from hb.minKey]; exact zero_le_key key)
    rw [hlast] at hlast'
    cases hlast'
    show (b.getPrevIndex key).getD 0 % 2 ^ 64 = j
    rw [hi]
    exact Nat.mod_eq_of_lt (hlt hget)
  · show (b.getIndexForExisting key).getD 0 % 2 ^ 64 = i
    rw [hi]
    exact Nat.mod_eq_of_lt (hlt hi)
  · obtain ⟨p', hp', -, hleaf, -⟩ := hb.hashed.getProofForPosition (lt_of_getProofForPosition hp)
    rw [hp] at hp'
    cases hp'
    have hnext : p.leaf.next < 2 ^ 64 := by
      rw [hleaf]
      by_cases hmem : i ∈ b.occupied
      · by_cases hlast : i = maxKeyLeafMarkerIdx
        · rw [hlast]
          exact hmax
        · exact ((hocc _).mp (hb.linked.next_mem i hmem hlast)).trans_le hcounter
      · rw [leafIn, Option.not_isSome_iff_eq_none.mp hmem]
        exact Nat.two_pow_pos 64
    show (match b.getProofForPosition h i with | some p => _ | none => _) = p
    rw [hp]
    dsimp only
    rw [Nat.mod_eq_of_lt hnext]

/-! ## The insertions -/

def insertAll (h : FlatStorageHasher D) (build : Build) (b : FlatStorageBacking D n) (pairs : List (Bytes32 × Bytes32)) :
    Option (FlatStorageBacking D n) :=
  pairs.foldlM (fun b p => (b.insert h build 0 p.1 p.2).map Prod.fst) b

/-- The keys of `pairs` that are not in the tree. -/
def absentKeys (b : FlatStorageBacking D n) (pairs : List (Bytes32 × Bytes32)) : List Bytes32 :=
  (pairs.filter fun p => b.keyLookup.get? p.1 = none).map Prod.fst

omit [DecidableEq D] in
theorem Inserted.keys (hr : build.randomized = false) {b' : FlatStorageBacking D n} {key value : Bytes32}
    (hi : Inserted build h b key value b') (hb : Consistent build h b) :
    keysOf (leafIn b'.leaves) b'.nextFreeSlot =
        keysOf (leafIn b.leaves) b.nextFreeSlot ++ (if b.keyLookup.get? key = none then [key] else []) ∧
      (leafIn b'.leaves maxKeyLeafMarkerIdx).next = (leafIn b.leaves maxKeyLeafMarkerIdx).next ∧
      ∀ k, k ≠ key → b'.keyLookup.get? k = b.keyLookup.get? k := by
  rcases hi.cases with ⟨i, hkey, hleaves, hlookup, hnext⟩ |
    ⟨prev, position, next, hkey, hprev, hne, hlt, hlt', hfree, hleaves, hlookup, hnext⟩
  · have hs := sameLinks_of_value (hb.keyAt_eq hkey).1 hleaves
    refine ⟨?_, congrFun hs.nextAt _, fun k _ => by rw [hlookup]⟩
    rw [if_neg (by rw [hkey]; exact Option.some_ne_none i), List.append_nil, hnext]
    exact List.map_congr_left fun j _ => congrFun hs.keyAt j
  · have hs := newLink_of_leaves hprev hleaves
    have hcounter := hfree.counter
    rw [hr] at hcounter
    obtain ⟨rfl, rfl⟩ := hcounter
    have hlast := (hb.guards hr).lt
    refine ⟨?_, ?_, fun k hk => by rw [hlookup, OrderedMap.get?_insert_of_ne _ _ hk]⟩
    · rw [if_pos hkey, hnext, keysOf, List.range_succ, List.map_append]
      congr 1
      · refine List.map_congr_left fun j hj => ?_
        refine (congrFun hs.keyAt j).trans (Function.update_of_ne ?_ _ _)
        exact (List.mem_range.mp hj).ne
      · exact congrArg (fun k => [k]) ((congrFun hs.keyAt b.nextFreeSlot).trans (Function.update_self ..))
    · refine (congrFun hs.nextAt _).trans ?_
      rw [Function.update_of_ne hlast.ne, Function.update_of_ne hne.symm]
      rfl

theorem insertAll_ok (hr : build.randomized = false) (pairs : List (Bytes32 × Bytes32))
    (hb : Consistent build h b) (hdistinct : (pairs.map Prod.fst).Nodup)
    (htesting : absentKeys b pairs ≠ [] → build.testing) (hroom : b.nextFreeSlot + (absentKeys b pairs).length ≤ 2 ^ n) :
    ∃ b', insertAll h build b pairs = some b' ∧ Consistent build h b' ∧
      (∀ k, b'.getValue k =
        match pairs.find? fun p => p.1 = k with
        | some p => some (some p.2)
        | none => b.getValue k) ∧
      keysOf (leafIn b'.leaves) b'.nextFreeSlot =
        keysOf (leafIn b.leaves) b.nextFreeSlot ++ absentKeys b pairs ∧
      (leafIn b'.leaves maxKeyLeafMarkerIdx).next = (leafIn b.leaves maxKeyLeafMarkerIdx).next := by
  induction pairs generalizing b with
  | nil => exact ⟨b, rfl, hb, fun k => rfl, (List.append_nil _).symm, rfl⟩
  | cons p pairs ih =>
    obtain ⟨hnot, hdistinct⟩ := List.nodup_cons.mp hdistinct
    have hsplit : absentKeys b (p :: pairs) =
        (if b.keyLookup.get? p.1 = none then [p.1] else []) ++ absentKeys b pairs := by
      rw [absentKeys, List.filter_cons]
      by_cases hnone : b.keyLookup.get? p.1 = none
      · simp [hnone, absentKeys]
      · simp [hnone, absentKeys]
    rw [hsplit] at htesting hroom
    obtain ⟨b1, proof, hrun, hi⟩ : ∃ b1 proof, b.insert h build 0 p.1 p.2 = some (b1, proof) ∧
        Inserted build h b p.1 p.2 b1 := by
      cases hkey : b.keyLookup.get? p.1 with
      | some i => exact insert_existing_ok hb hkey
      | none =>
        rw [if_pos hkey] at htesting hroom
        refine insert_new_ok hb (htesting (List.cons_ne_nil _ _)) ?_ hkey
        rw [Room, hr]
        show b.nextFreeSlot < 2 ^ n
        rw [List.length_append, List.length_singleton] at hroom
        omega
    have hb1 := hi.consistent hb
    obtain ⟨hkeys, hnext, hlookup⟩ := hi.keys hr hb
    have habsent : absentKeys b1 pairs = absentKeys b pairs := by
      rw [absentKeys, absentKeys]
      congr 1
      refine List.filter_congr fun q hq => ?_
      rw [hlookup q.1 fun heq => hnot (heq ▸ List.mem_map_of_mem hq)]
    have hcount : b1.nextFreeSlot = b.nextFreeSlot + (if b.keyLookup.get? p.1 = none then [p.1] else []).length := by
      have := congrArg List.length hkeys
      simpa [keysOf] using this
    rw [List.length_append, ← Nat.add_assoc, ← hcount, ← habsent] at hroom
    obtain ⟨b2, hrun2, hb2, hvalue, hkeys2, hnext2⟩ := ih hb1 hdistinct
      (fun hne => htesting (by rw [← habsent]; exact List.append_ne_nil_of_right_ne_nil _ hne)) hroom
    refine ⟨b2, ?_, hb2, fun k => ?_, ?_, hnext2.trans hnext⟩
    · rw [insertAll, List.foldlM_cons, hrun]
      exact hrun2
    · rw [hvalue, hi.getValue hb]
      by_cases hk : p.1 = k
      · have hnone : pairs.find? (fun q => decide (q.1 = k)) = none := by
          rw [List.find?_eq_none]
          intro q hq hqk
          exact hnot (List.mem_map.mpr ⟨q, hq, by rw [hk]; simpa using hqk⟩)
        rw [hnone, List.find?_cons_of_pos (by simpa using hk), if_pos hk.symm]
      · rw [List.find?_cons_of_neg (by simpa using hk), if_neg (Ne.symm hk)]
    · rw [hkeys2, hkeys, habsent, hsplit, List.append_assoc]

/-! ## The batch -/

variable {Key : Type} {flatKey : Key → Bytes32} {source : List (Key × WarmStorageValue)}

def batchWrites (flatKey : Key → Bytes32) (source : List (Key × WarmStorageValue)) : List (Bytes32 × Bytes32) :=
  (source.filter fun e => !isRead e).map fun e => (flatKey e.1, e.2.currentValue)

/-- The entry starts from what the backing holds: `0` where it holds nothing. -/
def StartsFrom (b : FlatStorageBacking D n) (key : Bytes32) (v : WarmStorageValue) : Prop :=
  ∃ value, b.getValue key = some value ∧ v.isNewStorageSlot = value.isNone ∧ v.initialValue = value.getD 0

omit [DecidableEq D] in
theorem StartsFrom.entryOk (hb : Consistent build h b) (hr : build.randomized = false) {key : Bytes32}
    {v : WarmStorageValue} (hv : b.StartsFrom key v) : EntryOk (leafIn b.leaves) b.nextFreeSlot key v := by
  obtain ⟨value, hvalue, hnew, hinitial⟩ := hv
  rw [hb.getValue_eq_contents hr, Option.some.injEq] at hvalue
  refine ⟨fun hslot => ?_, fun hslot => ?_⟩
  · rw [hnew, Option.isNone_iff_eq_none] at hslot
    rw [hslot] at hvalue hinitial
    exact ⟨contents_eq_none_iff.mp hvalue, fun _ => hinitial⟩
  · rw [hnew, Option.isNone_eq_false_iff, Option.isSome_iff_exists] at hslot
    obtain ⟨x, rfl⟩ := hslot
    obtain ⟨i, hi, hk, hx⟩ := exists_of_contents hvalue
    exact ⟨i, hi, hk, hx.trans hinitial.symm⟩

omit [DecidableEq D] in
theorem StartsFrom.isNew (hb : Consistent build h b) {key : Bytes32} {v : WarmStorageValue} (hv : b.StartsFrom key v) :
    decide (b.keyLookup.get? key = none) = v.isNewStorageSlot := by
  obtain ⟨value, hvalue, hnew, -⟩ := hv
  rw [hb.getValue, Option.some.injEq] at hvalue
  rw [hnew, ← hvalue]
  cases b.keyLookup.get? key <;> rfl

omit [DecidableEq D] in
theorem absentKeys_batchWrites (hb : Consistent build h b) (hstart : ∀ e ∈ source, b.StartsFrom (flatKey e.1) e.2) :
    absentKeys b (batchWrites flatKey source) = newKeys flatKey source := by
  rw [absentKeys, batchWrites, newKeys, List.filter_map, List.map_map, ← newEntries_eq]
  congr 1
  refine List.filter_congr fun e he => ?_
  exact (hstart e (List.mem_filter.mp he).1).isNew hb

theorem applied_eq (k : Bytes32) (old : Bytes32 → Option Bytes32) :
    applied flatKey source old k =
      match (batchWrites flatKey source).find? fun p => p.1 = k with
      | some p => some p.2
      | none => old k := by
  have hfind : (batchWrites flatKey source).find? (fun p => decide (p.1 = k)) =
      (source.find? fun e => !isRead e && decide (flatKey e.1 = k)).map fun e => (flatKey e.1, e.2.currentValue) := by
    rw [batchWrites, List.find?_map, List.find?_filter]
    congr 2
    funext e
    rw [Bool.decide_and, Bool.decide_eq_true, Bool.decide_eq_true, Function.comp_apply]
  rw [applied, hfind]
  cases source.find? fun e => !isRead e && decide (flatKey e.1 = k) <;> rfl

/-- A correct batch is accepted against the answers of the backing, and the commitment after it is that of the backing
after the writes are inserted one after another. -/
theorem verifyAndApplyBatch_eq_insertAll (hleaf : Function.Injective h.hashLeaf) (hnode : Function.Injective2 h.hashNode)
    (hb : Consistent build h b) (hr : build.randomized = false) (ha : Answers h b oracle)
    (hdistinct : (source.map fun e => flatKey e.1).Nodup)
    (hkeys : ∀ e ∈ source, flatKey e.1 ≠ 0 ∧ flatKey e.1 ≠ maxKey)
    (hstart : ∀ e ∈ source, b.StartsFrom (flatKey e.1) e.2)
    (hused : ∀ e ∈ source, isRead e = true → e.2.initialValueUsed = true)
    (htesting : 0 < numNewWrites source → build.testing) (hroom : b.nextFreeSlot + numNewWrites source ≤ 2 ^ n)
    (hcounter : b.nextFreeSlot + numNewWrites source < 2 ^ 64) :
    ∃ root b' root', b.root = some root ∧ b.insertAll h build (batchWrites flatKey source) = some b' ∧
      b'.root = some root' ∧
      verifyAndApplyBatch h flatKey oracle ⟨root, b.nextFreeSlot⟩ source = some ⟨root', b'.nextFreeSlot⟩ := by
  have hf := hb.wellFormed hr
  have hg := hb.guards hr
  have hcorrect : Correct n (leafIn b.leaves) b.nextFreeSlot flatKey source :=
    ⟨hdistinct, hkeys, fun e he => (hstart e he).entryOk hb hr, hused, hroom, hcounter⟩
  obtain ⟨g, hrun, hres⟩ := verifyAndApplyBatch_ok hleaf hnode (ha.honest hb hr) hf hg hcorrect
  have habsent := absentKeys_batchWrites hb hstart
  have hcount : (newKeys flatKey source).length = numNewWrites source := by
    rw [newKeys, List.length_map, numNewWrites, List.countP_eq_length_filter]
  obtain ⟨b', hinsert, hb', hvalue, hkeys', hnext⟩ := insertAll_ok hr (batchWrites flatKey source) hb
    (by
      rw [batchWrites, List.map_map]
      exact hdistinct.sublist (List.filter_sublist.map _))
    (fun hne => htesting (by rw [← hcount, ← habsent]; exact List.length_pos_of_ne_nil hne))
    (by rw [habsent, hcount]; exact hroom)
  have hsize : b'.nextFreeSlot = b.nextFreeSlot + numNewWrites source := by
    have := congrArg List.length hkeys'
    rw [habsent, List.length_append, hcount] at this
    simpa [keysOf] using this
  have hf' := hb'.wellFormed hr
  rw [hsize] at hf' hkeys'
  -- both trees have the same keys, contents and order
  have hsame : leafIn b'.leaves = g := by
    refine leaves_unique hf' hres.wellFormed (fun i hi => ?_) (funext fun k => ?_) fun i hi hmax => ?_
    · have hlists := hkeys'.trans ((congrArg _ habsent).trans hres.keys.symm)
      have hget := congrArg (fun ks => ks[i]?) hlists
      simp only [keysOf, List.getElem?_map, List.getElem?_range hi, Option.map_some, Option.some.injEq] at hget
      exact hget
    · rw [hres.contents, applied_eq]
      have hread := hb'.getValue_eq_contents hr k
      rw [hsize, hvalue k, hb.getValue_eq_contents hr k] at hread
      cases hfind : (batchWrites flatKey source).find? fun p => decide (p.1 = k) with
      | none =>
        rw [hfind] at hread
        exact (Option.some.inj hread).symm
      | some p =>
        rw [hfind] at hread
        exact (Option.some.inj hread).symm
    · have hlast : i = maxKeyLeafMarkerIdx := by
        refine hb'.linked.injOn (((hb'.size hr).2.2 i).mpr (by rw [hsize]; exact hi)) hb'.linked.last_mem ?_
        exact hmax.trans hb'.maxKey.symm
      rw [hlast, hnext, hres.maxNext]
  refine ⟨_, b', _, hb.hashed.root, hinsert, hb'.hashed.root, ?_⟩
  rw [show digest h b.leaves n 0 = _ from rfl, hsize]
  refine hrun.trans ?_
  rw [← hsame]
  rfl

theorem exists_new_tree : ∃ b : FlatStorageBacking TermDigest 2, newInWithLeaves termHasher 2 ⟨true, false⟩ [] [] = some b ∧
    Consistent ⟨true, false⟩ termHasher b ∧ Answers termHasher b (b.oracleOf termHasher) ∧ b.nextFreeSlot = 2 := by
  have hd : Distinct [] := ⟨List.nodup_nil, fun p hp => absurd hp List.not_mem_nil, fun p hp => absurd hp List.not_mem_nil⟩
  have hdraw : DrawOk ⟨true, false⟩ [] [] := fun hr => absurd hr.2 (by decide)
  obtain ⟨b, hb, hcons, -⟩ := newInWithLeaves_consistent (h := termHasher) (n := 2) hd hdraw (by decide) (by decide)
    (by decide)
  have hfree : (newInWithLeaves termHasher 2 ⟨true, false⟩ [] []).map
      (fun b => (b.nextFreeSlot, (leafIn b.leaves maxKeyLeafMarkerIdx).next)) = some (2, 1) := by decide +kernel
  rw [hb, Option.map_some, Option.some.injEq, Prod.mk.injEq] at hfree
  refine ⟨b, hb, hcons, answers_oracleOf hcons rfl ?_ ?_, hfree.1⟩
  · rw [hfree.1]
    decide
  · rw [hfree.2]
    decide

/-- Two new neighbours, the greater key first, and an absent key. -/
def twoNeighbours : List (Bytes32 × WarmStorageValue) :=
  [(6, ⟨0, 60, true, true⟩), (7, ⟨0, 0, true, true⟩), (5, ⟨0, 50, true, true⟩)]

theorem verifyAndApplyBatch_twoNeighbours : ∃ b : FlatStorageBacking TermDigest 2, ∃ root b' root', b.root = some root ∧
    b.insertAll termHasher ⟨true, false⟩ (batchWrites id twoNeighbours) = some b' ∧ b'.root = some root' ∧
    verifyAndApplyBatch termHasher id (b.oracleOf termHasher) ⟨root, b.nextFreeSlot⟩ twoNeighbours =
      some ⟨root', b'.nextFreeSlot⟩ := by
  obtain ⟨b, hb, hcons, ha, hfree⟩ := exists_new_tree
  have hvalues : (newInWithLeaves termHasher 2 ⟨true, false⟩ [] []).map
      (fun b => twoNeighbours.map fun e => b.getValue e.1) = some [some none, some none, some none] := by
    decide +kernel
  rw [hb, Option.map_some, Option.some.injEq] at hvalues
  have hnew : ∀ e ∈ twoNeighbours, e.2.isNewStorageSlot = true ∧ e.2.initialValue = 0 := by decide
  have hstart : ∀ e ∈ twoNeighbours, b.StartsFrom (id e.1) e.2 := by
    intro e he
    have hnone : b.getValue e.1 = some none := by
      have hmem := List.mem_map_of_mem (f := fun e => b.getValue e.1) he
      rw [hvalues] at hmem
      simpa using hmem
    exact ⟨none, hnone, hnew e he⟩
  exact ⟨b, verifyAndApplyBatch_eq_insertAll termHasher_hashLeaf_injective termHasher_hashNode_injective hcons rfl ha
    (by decide) (by decide) hstart (by decide) (fun _ => rfl) (by rw [hfree]; decide) (by rw [hfree]; decide)⟩

/-- The call fails on a read whose initial value is not marked as used, on a write to the guard next to an absent read,
and when there is no room. -/
theorem verifyAndApplyBatch_panics : ∃ b : FlatStorageBacking TermDigest 2, ∃ root,
    Consistent ⟨true, false⟩ termHasher b ∧ Answers termHasher b (b.oracleOf termHasher) ∧ b.root = some root ∧
    (b.StartsFrom 5 ⟨0, 0, false, true⟩ ∧
      verifyAndApplyBatch termHasher id (b.oracleOf termHasher) ⟨root, 2⟩ [(5, ⟨0, 0, false, true⟩)] = none) ∧
    (b.StartsFrom 0 ⟨0, 9, true, false⟩ ∧ b.StartsFrom 5 ⟨0, 0, true, true⟩ ∧
      verifyAndApplyBatch termHasher id (b.oracleOf termHasher) ⟨root, 2⟩
        [(0, ⟨0, 9, true, false⟩), (5, ⟨0, 0, true, true⟩)] = none) ∧
    ((∀ k ∈ [5, 6, 7], b.StartsFrom k ⟨0, 9, true, true⟩) ∧
      verifyAndApplyBatch termHasher id (b.oracleOf termHasher) ⟨root, 2⟩
        [(5, ⟨0, 9, true, true⟩), (6, ⟨0, 9, true, true⟩), (7, ⟨0, 9, true, true⟩)] = none) := by
  obtain ⟨b, hb, hcons, ha, -⟩ := exists_new_tree
  have hroot := hcons.hashed.root
  have hrun : (newInWithLeaves termHasher 2 ⟨true, false⟩ [] []).map (fun b => b.root.map fun root =>
      ([[(5, ⟨0, 0, false, true⟩)], [(0, ⟨0, 9, true, false⟩), (5, ⟨0, 0, true, true⟩)],
        [(5, ⟨0, 9, true, true⟩), (6, ⟨0, 9, true, true⟩), (7, ⟨0, 9, true, true⟩)]] :
        List (List (Bytes32 × WarmStorageValue))).map fun source =>
          verifyAndApplyBatch termHasher id (b.oracleOf termHasher) ⟨root, 2⟩ source) = some (some [none, none, none]) := by
    decide +kernel
  have hvalues : (newInWithLeaves termHasher 2 ⟨true, false⟩ [] []).map
      (fun b => ([0, 5, 6, 7] : List Bytes32).map b.getValue) =
        some [some (some 0), some none, some none, some none] := by
    decide +kernel
  rw [hb, Option.map_some, hroot] at hrun
  rw [hb] at hvalues
  simp only [Option.map_some, Option.some.injEq, List.map_cons, List.map_nil, List.cons.injEq, and_true] at hrun hvalues
  obtain ⟨hv0, hv5, hv6, hv7⟩ := hvalues
  have habsent : ∀ {k v} (used : Bool), b.getValue k = some none → b.StartsFrom k ⟨0, v, used, true⟩ :=
    fun _ hk => ⟨none, hk, rfl, rfl⟩
  refine ⟨b, _, hcons, ha, hroot, ⟨habsent _ hv5, hrun.1⟩, ⟨⟨some 0, hv0, rfl, rfl⟩, habsent _ hv5, hrun.2.1⟩, ?_,
    hrun.2.2⟩
  intro k hk
  simp only [List.mem_cons, List.not_mem_nil, or_false] at hk
  rcases hk with rfl | rfl | rfl
  · exact habsent _ hv5
  · exact habsent _ hv6
  · exact habsent _ hv7

end FlatStorageBacking

end ZkOs.Tree
