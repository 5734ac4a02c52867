import ZkOs.Tree.Batch

/-!
# What the caches hold after the entries of a batch

* `Opened c i leaf` : a leaf was opened at a position, `Caches.modified` : what is recorded for it;
* `CacheOk` : the keys of the opened and of the new leaves, by position;
* `Around` : a key between two leaves of which the first points to the second;
* `ReadDone`, `WriteDone` : what is known of an entry that was processed;
* `verifyReads_spec`, `applyWrites_spec` : the two loops.
-/

namespace ZkOs.Tree

variable {D : Type} {n : Nat} {oracle : BatchOracle D n} {saved : Nat} {c c' : Caches D n}
  {news : List (Nat × FlatStorageLeaf)}

def Opened (c : Caches D n) (i : Nat) (leaf : FlatStorageLeaf) : Prop :=
  ∃ p m, c.indexToLeaf.get? i = some (p, m) ∧ p.leaf = leaf

/-- The change that is recorded for the leaf at `i`. -/
def Caches.modified (c : Caches D n) (i : Nat) : Option LeafUpdateRecord := (c.indexToLeaf.get? i).bind Prod.snd

theorem Opened.unique {i : Nat} {leaf leaf' : FlatStorageLeaf} (ho : Opened c i leaf) (ho' : Opened c i leaf') :
    leaf = leaf' := by
  obtain ⟨p, m, hp, rfl⟩ := ho
  obtain ⟨p', m', hp', rfl⟩ := ho'
  rw [hp] at hp'
  cases hp'
  rfl

theorem Opened.isSome {i : Nat} {leaf : FlatStorageLeaf} (ho : Opened c i leaf) : (c.indexToLeaf.get? i).isSome := by
  obtain ⟨p, m, hp, -⟩ := ho
  rw [hp]
  rfl

/-- The key cache follows the opened leaves and the new ones. -/
structure CacheOk (saved : Nat) (news : List (Nat × FlatStorageLeaf)) (c : Caches D n) : Prop where
  keys : ∀ k i, c.keyToIndex.get? k = some i ↔
    (∃ leaf, Opened c i leaf ∧ leaf.key = k) ∨ ∃ leaf, (i, leaf) ∈ news ∧ leaf.key = k
  bound : ∀ i leaf, Opened c i leaf → i < 2 ^ 64
  next_bound : ∀ i leaf, Opened c i leaf → leaf.next < 2 ^ 64
  nonempty : ∀ i leaf, Opened c i leaf → saved ≤ i → leaf.key ≠ 0

/-- More leaves are opened, and those that were stay, with what is recorded for them. -/
structure Grows (c c' : Caches D n) : Prop where
  opened : ∀ i leaf, Opened c i leaf → Opened c' i leaf
  modified : ∀ i, c'.modified i = c.modified i

theorem Grows.refl (c : Caches D n) : Grows c c := ⟨fun _ _ ho => ho, fun _ => rfl⟩

theorem Grows.trans {c'' : Caches D n} (hg : Grows c c') (hg' : Grows c' c'') : Grows c c'' :=
  ⟨fun i leaf ho => hg'.opened i leaf (hg.opened i leaf ho), fun i => (hg'.modified i).trans (hg.modified i)⟩

/-! ## Opening a leaf -/

section Insert

variable {i j : Nat} {p : LeafProof D n} {m : Option LeafUpdateRecord} {leaf : FlatStorageLeaf}
  (hins : c'.indexToLeaf = c.indexToLeaf.insert i (p, m))
include hins

theorem opened_insert : Opened c' j leaf ↔ if j = i then p.leaf = leaf else Opened c j leaf := by
  simp only [Opened, hins, OrderedMap.get?_insert]
  split
  · constructor
    · rintro ⟨p', m', hp, rfl⟩
      cases hp
      rfl
    · intro hp
      exact ⟨p, m, rfl, hp⟩
  · exact Iff.rfl

theorem modified_insert : c'.modified j = if j = i then m else c.modified j := by
  rw [Caches.modified, hins, OrderedMap.get?_insert]
  split <;> rfl

theorem opened_insert_of_none (hnone : c.indexToLeaf.get? i = none) :
    Opened c' j leaf ↔ j = i ∧ p.leaf = leaf ∨ Opened c j leaf := by
  have hnot : ¬ Opened c i leaf := by
    rintro ⟨p, m, hp, -⟩
    rw [hnone] at hp
    cases hp
  rw [opened_insert hins]
  split
  · next heq => simp [heq, hnot]
  · next hne => simp [hne]

theorem CacheOk.open_new (hc : CacheOk saved news c) (hkeys : c'.keyToIndex = c.keyToIndex.insert p.leaf.key i)
    (hnone : c.indexToLeaf.get? i = none) (hkey : c.keyToIndex.get? p.leaf.key = none) (hbound : i < 2 ^ 64)
    (hnext : p.leaf.next < 2 ^ 64) (hnonempty : saved ≤ i → p.leaf.key ≠ 0) : CacheOk saved news c' := by
  have hopened : ∀ j leaf, Opened c' j leaf ↔ j = i ∧ p.leaf = leaf ∨ Opened c j leaf :=
    fun _ _ => opened_insert_of_none hins hnone
  refine ⟨fun k j => ?_, fun j leaf ho => ?_, fun j leaf ho => ?_, fun j leaf ho hle => ?_⟩
  · rw [hkeys, OrderedMap.get?_insert_of_none hkey, hc.keys, ← or_assoc]
    refine or_congr ⟨?_, ?_⟩ Iff.rfl
    · rintro (⟨rfl, rfl⟩ | ⟨leaf, ho, hleaf⟩)
      · exact ⟨p.leaf, (hopened _ _).mpr (.inl ⟨rfl, rfl⟩), rfl⟩
      · exact ⟨leaf, (hopened _ _).mpr (.inr ho), hleaf⟩
    · rintro ⟨leaf, ho, hleaf⟩
      rcases (hopened j leaf).mp ho with ⟨rfl, rfl⟩ | ho
      · exact .inl ⟨hleaf.symm, rfl⟩
      · exact .inr ⟨leaf, ho, hleaf⟩
  · rcases (hopened j leaf).mp ho with ⟨rfl, -⟩ | ho
    · exact hbound
    · exact hc.bound j leaf ho
  · rcases (hopened j leaf).mp ho with ⟨rfl, rfl⟩ | ho
    · exact hnext
    · exact hc.next_bound j leaf ho
  · rcases (hopened j leaf).mp ho with ⟨rfl, rfl⟩ | ho
    · exact hnonempty hle
    · exact hc.nonempty j leaf ho hle

end Insert

theorem grows_open_new {i : Nat} {p : LeafProof D n} (hins : c'.indexToLeaf = c.indexToLeaf.insert i (p, none))
    (hnone : c.indexToLeaf.get? i = none) : Grows c c' := by
  refine ⟨fun j leaf ho => (opened_insert_of_none hins hnone).mpr (.inr ho), fun j => ?_⟩
  rw [modified_insert hins]
  split
  · next heq => rw [heq, Caches.modified, hnone, Option.bind_none]
  · rfl

theorem CacheOk.asked (hc : CacheOk saved news c) (asked : Nat) : CacheOk saved news { c with asked } :=
  ⟨hc.keys, hc.bound, hc.next_bound, hc.nonempty⟩

theorem openLeaf_spec (hc : CacheOk saved news c) {i : Nat} (hbound : i < 2 ^ 64) {check fresh : FlatStorageLeaf → Bool}
    (hnonempty : saved ≤ i → ∀ leaf, check leaf → leaf.key ≠ 0) {p : LeafProof D n}
    (hrun : c.openLeaf oracle i check fresh = some (p, c')) :
    CacheOk saved news c' ∧ Grows c c' ∧ Opened c' i p.leaf ∧ check p.leaf := by
  rw [Caches.openLeaf] at hrun
  split at hrun
  · next p' m hp =>
    simp only [Option.bind_eq_bind, Option.bind_eq_some_iff, Option.guard_eq_some', exists_const] at hrun
    obtain ⟨hcheck, hrun⟩ := hrun
    cases hrun
    exact ⟨hc, .refl _, ⟨p, m, hp, rfl⟩, hcheck⟩
  · next hnone =>
    simp only [Caches.getProofForIndex, Caches.insertKey, Option.bind_eq_bind, Option.bind_eq_some_iff,
      Option.guard_eq_some', exists_const, Option.pure_def, Option.some.injEq] at hrun
    obtain ⟨_, ⟨-, rfl⟩, hcheck, -, _, ⟨hkey, rfl⟩, hrun⟩ := hrun
    cases hrun
    refine ⟨.open_new (c := c) rfl hc rfl hnone hkey hbound (oracle.next_lt _ _) fun hle => hnonempty hle _ hcheck,
      grows_open_new rfl hnone, ?_, hcheck⟩
    rw [opened_insert rfl, if_pos rfl]

/-- A key between an opened leaf of the tree and the one that it points to. -/
def Around (saved : Nat) (c : Caches D n) (k : Bytes32) : Prop :=
  ∃ i leaf leaf', i < saved ∧ Opened c i leaf ∧ Opened c leaf.next leaf' ∧ leaf.key < k ∧ k < leaf'.key

theorem Around.mono (hg : ∀ i leaf, Opened c i leaf → Opened c' i leaf) {k : Bytes32} (ha : Around saved c k) :
    Around saved c' k := by
  obtain ⟨i, leaf, leaf', hi, ho, ho', hk⟩ := ha
  exact ⟨i, leaf, leaf', hi, hg _ _ ho, hg _ _ ho', hk⟩

theorem openNeighbours_spec (hc : CacheOk saved news c) {k : Bytes32}
    (hrun : c.openNeighbours oracle saved k = some c') : CacheOk saved news c' ∧ Grows c c' ∧ Around saved c' k := by
  simp only [Caches.openNeighbours, Option.bind_eq_bind, Option.bind_eq_some_iff, Option.guard_eq_some', exists_const,
    Option.pure_def, Option.some.injEq] at hrun
  obtain ⟨hprev, ⟨p, c1⟩, hopen1, ⟨p', c2⟩, hopen2, rfl⟩ := hrun
  obtain ⟨hc1, hg1, ho1, hk1⟩ := openLeaf_spec (hc.asked (c.asked + 1)) (oracle.prevIndex_lt _ _)
    (fun hle => absurd hprev hle.not_gt) hopen1
  have hk1 : p.leaf.key < k := by simpa using hk1
  obtain ⟨hc2, hg2, ho2, hk2⟩ := openLeaf_spec hc1 (hc1.next_bound _ _ ho1)
    (fun _ leaf hleaf hzero => by
      have : k < leaf.key := by simpa using hleaf
      rw [hzero] at this
      exact absurd (zero_le_key k) this.not_ge) hopen2
  have hk2 : k < p'.leaf.key := by simpa using hk2
  refine ⟨hc2, ⟨fun i leaf ho => ?_, fun i => ?_⟩, _, p.leaf, p'.leaf, hprev, hg2.opened _ _ ho1, ho2, hk1, hk2⟩
  · exact hg2.opened _ _ (hg1.opened _ _ ho)
  · exact (hg2.modified i).trans (hg1.modified i)

/-! ## The reads -/

structure ReadDone (saved : Nat) (c : Caches D n) (k : Bytes32) (v : WarmStorageValue) : Prop where
  new : v.isNewStorageSlot = true → v.initialValue = 0 ∧ Around saved c k
  existing : v.isNewStorageSlot = false → ∃ i leaf, Opened c i leaf ∧ leaf.key = k ∧ leaf.value = v.currentValue

theorem ReadDone.mono (hg : ∀ i leaf, Opened c i leaf → Opened c' i leaf) {k : Bytes32} {v : WarmStorageValue}
    (hr : ReadDone saved c k v) : ReadDone saved c' k v := by
  refine ⟨fun hnew => ?_, fun hold => ?_⟩
  · exact ⟨(hr.new hnew).1, (hr.new hnew).2.mono hg⟩
  · obtain ⟨i, leaf, ho, hk⟩ := hr.existing hold
    exact ⟨i, leaf, hg _ _ ho, hk⟩

theorem verifyRead_spec (hc : CacheOk saved news c) {k : Bytes32} (hk : k ≠ 0) {v : WarmStorageValue}
    (hrun : verifyRead oracle saved c k v = some c') : CacheOk saved news c' ∧ Grows c c' ∧ ReadDone saved c' k v := by
  rw [verifyRead] at hrun
  obtain ⟨_, -, hrun⟩ := Option.bind_eq_some_iff.mp hrun
  split at hrun
  · next hnew =>
    obtain ⟨_, hzero, hrun⟩ := Option.bind_eq_some_iff.mp hrun
    have hzero : v.initialValue = 0 := by simpa using hzero
    obtain ⟨hc', hg, ha⟩ := openNeighbours_spec hc hrun
    exact ⟨hc', hg, fun _ => ⟨hzero, ha⟩, fun hold => absurd hnew (by rw [hold]; exact Bool.false_ne_true)⟩
  · next hold =>
    simp only [Option.bind_eq_bind, Option.bind_eq_some_iff, Option.pure_def, Option.some.injEq] at hrun
    obtain ⟨⟨p, c1⟩, hopen, rfl⟩ := hrun
    obtain ⟨hc1, hg1, ho1, hcheck⟩ := openLeaf_spec (hc.asked (c.asked + 1)) (oracle.index_lt _ _)
      (fun _ leaf hleaf => by
        have : leaf.key = k ∧ leaf.value = v.currentValue := by simpa using hleaf
        rw [this.1]
        exact hk) hopen
    have hcheck : p.leaf.key = k ∧ p.leaf.value = v.currentValue := by simpa using hcheck
    exact ⟨hc1, ⟨hg1.opened, hg1.modified⟩, fun hnew => absurd hnew hold, fun _ => ⟨_, _, ho1, hcheck⟩⟩

variable {Key : Type} {flatKey : Key → Bytes32} {source : List (Key × WarmStorageValue)}

theorem verifyReads_run (entries : List (Key × WarmStorageValue)) (hk : ∀ e ∈ entries, flatKey e.1 ≠ 0)
    (hc : CacheOk saved news c)
    (hrun : entries.foldlM (fun c e => verifyRead oracle saved c (flatKey e.1) e.2) c = some c') :
    CacheOk saved news c' ∧ Grows c c' ∧ ∀ e ∈ entries, ReadDone saved c' (flatKey e.1) e.2 := by
  induction entries generalizing c with
  | nil =>
    cases hrun
    exact ⟨hc, .refl _, fun e he => absurd he List.not_mem_nil⟩
  | cons e entries ih =>
    obtain ⟨hke, hk⟩ := List.forall_mem_cons.mp hk
    rw [List.foldlM_cons] at hrun
    obtain ⟨c1, hread, hrun⟩ := Option.bind_eq_some_iff.mp hrun
    obtain ⟨hc1, hg1, hr1⟩ := verifyRead_spec hc hke hread
    obtain ⟨hc2, hg2, hr2⟩ := ih hk hc1 hrun
    exact ⟨hc2, hg1.trans hg2, List.forall_mem_cons.mpr ⟨hr1.mono hg2.opened, hr2⟩⟩

theorem cacheOk_empty : CacheOk saved [] (Caches.empty : Caches D n) := by
  have hnot : ∀ i leaf, ¬ Opened (Caches.empty : Caches D n) i leaf := by
    rintro i leaf ⟨p, m, hp, -⟩
    cases hp
  refine ⟨fun k i => ?_, fun i leaf ho => absurd ho (hnot i leaf), fun i leaf ho => absurd ho (hnot i leaf),
    fun i leaf ho => absurd ho (hnot i leaf)⟩
  constructor
  · intro hk
    cases hk
  · rintro (⟨leaf, ho, -⟩ | ⟨leaf, hmem, -⟩)
    · exact absurd ho (hnot i leaf)
    · exact absurd hmem List.not_mem_nil

/-! ## The writes -/

/-- The leaf that a write to a new slot appends. -/
def appended (k : Bytes32) (v : WarmStorageValue) : FlatStorageLeaf := ⟨k, v.currentValue, 0⟩

structure WriteDone (saved : Nat) (w : Writes D n) (k : Bytes32) (v : WarmStorageValue) : Prop where
  new : v.isNewStorageSlot = true → Around saved w.caches k
  existing : v.isNewStorageSlot = false → ∃ i leaf, Opened w.caches i leaf ∧ leaf.key = k ∧
    leaf.value = v.initialValue ∧ w.caches.modified i = some ⟨some v.currentValue, none⟩

/-- The caches and the new leaves while the writes are processed. -/
structure WritesOk (saved : Nat) (w : Writes D n) : Prop where
  cache : CacheOk saved w.newWrites w.caches
  positions : w.newWrites.map Prod.fst = List.range' saved w.newWrites.length
  counter : w.nextFreeSlot = saved + w.newWrites.length

/-- What a write does: more leaves are opened, records are added, and a write to a new slot appends its leaf. -/
structure WriteStep (w w' : Writes D n) (k : Bytes32) (v : WarmStorageValue) : Prop where
  opened : ∀ i leaf, Opened w.caches i leaf → Opened w'.caches i leaf
  modified : ∀ i r, w.caches.modified i = some r → w'.caches.modified i = some r
  modified_only : ∀ i r, w'.caches.modified i = some r → w.caches.modified i = some r ∨
    v.isNewStorageSlot = false ∧ r = ⟨some v.currentValue, none⟩ ∧ ∃ leaf, Opened w'.caches i leaf ∧ leaf.key = k
  newWrites : w'.newWrites.map Prod.snd =
    w.newWrites.map Prod.snd ++ if v.isNewStorageSlot then [appended k v] else []

theorem CacheOk.append_new (hc : CacheOk saved news c) {i : Nat} (leaf : FlatStorageLeaf)
    (hkey : c.keyToIndex.get? leaf.key = none) :
    CacheOk saved (news ++ [(i, leaf)]) { c with keyToIndex := c.keyToIndex.insert leaf.key i } := by
  refine ⟨fun k j => ?_, hc.bound, hc.next_bound, hc.nonempty⟩
  show (c.keyToIndex.insert leaf.key i).get? k = some j ↔ (∃ leaf, Opened c j leaf ∧ leaf.key = k) ∨ _
  rw [OrderedMap.get?_insert_of_none hkey, hc.keys, or_left_comm]
  refine or_congr Iff.rfl ⟨?_, ?_⟩
  · rintro (⟨rfl, rfl⟩ | ⟨leaf', hmem, hleaf⟩)
    · exact ⟨leaf, by simp, rfl⟩
    · exact ⟨leaf', List.mem_append_left _ hmem, hleaf⟩
  · rintro ⟨leaf', hmem, hleaf⟩
    rcases List.mem_append.mp hmem with hmem | hmem
    · exact .inr ⟨leaf', hmem, hleaf⟩
    · cases List.mem_singleton.mp hmem
      exact .inl ⟨hleaf.symm, rfl⟩

theorem CacheOk.set_record (hc : CacheOk saved news c) {i : Nat} {p : LeafProof D n} {m : Option LeafUpdateRecord}
    (hp : c.indexToLeaf.get? i = some (p, m)) (m' : Option LeafUpdateRecord) :
    CacheOk saved news (c.setLeaf i p m') ∧ ∀ j leaf, Opened (c.setLeaf i p m') j leaf ↔ Opened c j leaf := by
  have hopened : ∀ j leaf, Opened (c.setLeaf i p m') j leaf ↔ Opened c j leaf := by
    intro j leaf
    rw [opened_insert rfl]
    split
    · next heq =>
      subst heq
      exact ⟨fun hleaf => ⟨p, m, hp, hleaf⟩, fun ho => (Opened.unique ⟨p, m, hp, rfl⟩ ho)⟩
    · exact Iff.rfl
  refine ⟨⟨fun k j => ?_, fun j leaf ho => ?_, fun j leaf ho => ?_, fun j leaf ho => ?_⟩, hopened⟩
  · simp only [hopened]
    exact hc.keys k j
  · exact hc.bound j leaf ((hopened j leaf).mp ho)
  · exact hc.next_bound j leaf ((hopened j leaf).mp ho)
  · exact hc.nonempty j leaf ((hopened j leaf).mp ho)

variable {w w' : Writes D n}

theorem applyWrite_new_spec (hw : WritesOk saved w) {k : Bytes32} {v : WarmStorageValue}
    (hnew : v.isNewStorageSlot = true) (hroom : saved + w.newWrites.length + 1 < 2 ^ 64)
    (hrun : applyWrite oracle saved w k v = some w') : WritesOk saved w' ∧ WriteStep w w' k v ∧ WriteDone saved w' k v := by
  rw [applyWrite, if_pos hnew] at hrun
  simp only [Caches.insertKey, Option.bind_eq_bind, Option.bind_eq_some_iff, Option.guard_eq_some', exists_const,
    Option.pure_def, Option.some.injEq] at hrun
  obtain ⟨c1, hopen, _, ⟨hkey, rfl⟩, rfl⟩ := hrun
  obtain ⟨hc1, hg1, ha⟩ := openNeighbours_spec hw.cache hopen
  have hcounter := hw.counter
  refine ⟨⟨hc1.append_new (appended k v) hkey, ?_, ?_⟩, ⟨hg1.opened, ?_, ?_, ?_⟩, fun _ => ha, ?_⟩
  · show (w.newWrites ++ [_]).map Prod.fst = List.range' saved (w.newWrites ++ [_]).length
    rw [List.map_append, hw.positions, List.length_append, List.length_singleton, List.range'_concat, hcounter, Nat.one_mul]
    rfl
  · show (w.nextFreeSlot + 1) % 2 ^ 64 = saved + (w.newWrites ++ [_]).length
    rw [hcounter, Nat.mod_eq_of_lt hroom, List.length_append, List.length_singleton, Nat.add_assoc]
  · exact fun i r hr => (hg1.modified i).trans hr
  · exact fun i r hr => .inl ((hg1.modified i).symm.trans hr)
  · rw [if_pos hnew, List.map_append]
    rfl
  · exact fun hold => absurd hnew (by rw [hold]; exact Bool.false_ne_true)

theorem WriteStep.of_record {i : Nat} {p : LeafProof D n} {k : Bytes32} {v : WarmStorageValue}
    (hins : c.indexToLeaf = w.caches.indexToLeaf.insert i (p, some ⟨some v.currentValue, none⟩))
    (hnone : w.caches.modified i = none) (hopened : ∀ j leaf, Opened w.caches j leaf → Opened c j leaf)
    (hold : v.isNewStorageSlot = false) (hpk : p.leaf.key = k) (hpv : p.leaf.value = v.initialValue) :
    WriteStep w { w with caches := c } k v ∧ WriteDone saved { w with caches := c } k v := by
  have hnot : ¬ v.isNewStorageSlot = true := by rw [hold]; exact Bool.false_ne_true
  have hoi : Opened c i p.leaf := by rw [opened_insert hins, if_pos rfl]
  refine ⟨⟨hopened, fun j r hr => ?_, fun j r hr => ?_, by rw [if_neg hnot, List.append_nil]⟩,
    fun hnew => absurd hnew hnot, fun _ => ⟨i, p.leaf, hoi, hpk, hpv, by rw [modified_insert hins, if_pos rfl]⟩⟩
  · rw [modified_insert hins]
    split
    · next heq =>
      rw [heq, hnone] at hr
      cases hr
    · exact hr
  · rw [modified_insert hins] at hr
    split at hr
    · next heq =>
      subst heq
      exact .inr ⟨hold, (Option.some.inj hr).symm, p.leaf, hoi, hpk⟩
    · exact .inl hr

theorem applyWrite_existing_spec (hw : WritesOk saved w) {k : Bytes32} (hk : k ≠ 0) {v : WarmStorageValue}
    (hold : v.isNewStorageSlot = false)
    (hrun : applyWrite oracle saved w k v = some w') : WritesOk saved w' ∧ WriteStep w w' k v ∧ WriteDone saved w' k v := by
  rw [applyWrite, if_neg (by rw [hold]; exact Bool.false_ne_true)] at hrun
  split at hrun
  · next i hi =>
    simp only [Option.bind_eq_bind, Option.bind_eq_some_iff, Option.guard_eq_some', exists_const, Option.pure_def,
      Option.some.injEq] at hrun
    obtain ⟨⟨p, _⟩, hp, hpk, hpv, rfl, rfl⟩ := hrun
    obtain ⟨hc', hopened⟩ := hw.cache.set_record hp (some ⟨some v.currentValue, none⟩)
    refine ⟨⟨hc', hw.positions, hw.counter⟩,
      WriteStep.of_record rfl ?_ (fun j leaf => (hopened j leaf).mpr) hold hpk hpv⟩
    rw [Caches.modified, hp, Option.bind_some]
  · simp only [Caches.getProofForIndex, Caches.insertKey, Option.bind_eq_bind, Option.bind_eq_some_iff,
      Option.guard_eq_some', exists_const, Option.pure_def, Option.some.injEq] at hrun
    obtain ⟨_, ⟨-, rfl⟩, hpk, hpv, _, ⟨hkey, rfl⟩, hnone, rfl⟩ := hrun
    refine ⟨⟨.open_new (c := w.caches) rfl hw.cache rfl hnone hkey (oracle.index_lt _ _) (oracle.next_lt _ _) fun _ => ?_,
      hw.positions, hw.counter⟩,
      WriteStep.of_record rfl ?_ (fun j leaf ho => (opened_insert_of_none rfl hnone).mpr (.inr ho)) hold hpk hpv⟩
    · exact (congrArg (· ≠ 0) hpk).mpr hk
    · rw [Caches.modified, hnone, Option.bind_none]

theorem applyWrite_spec (hw : WritesOk saved w) {k : Bytes32} (hk : k ≠ 0) {v : WarmStorageValue}
    (hroom : v.isNewStorageSlot = true → saved + w.newWrites.length + 1 < 2 ^ 64)
    (hrun : applyWrite oracle saved w k v = some w') : WritesOk saved w' ∧ WriteStep w w' k v ∧ WriteDone saved w' k v := by
  cases hnew : v.isNewStorageSlot with
  | true => exact applyWrite_new_spec hw hnew (hroom hnew) hrun
  | false => exact applyWrite_existing_spec hw hk hnew hrun

theorem WriteStep.length {e : Key × WarmStorageValue} (hs : WriteStep w w' (flatKey e.1) e.2)
    (entries : List (Key × WarmStorageValue)) :
    w'.newWrites.length + (entries.filter fun e => e.2.isNewStorageSlot).length =
      w.newWrites.length + ((e :: entries).filter fun e => e.2.isNewStorageSlot).length := by
  have hlen := congrArg List.length hs.newWrites
  rw [List.length_map, List.length_append, List.length_map] at hlen
  rw [hlen, List.filter_cons]
  split
  · rw [List.length_singleton, List.length_cons]
    omega
  · rw [List.length_nil]
    omega

theorem WriteStep.new_leaf {k : Bytes32} {v : WarmStorageValue} (hs : WriteStep w w' k v) {x : Nat × FlatStorageLeaf}
    (hx : x ∈ w'.newWrites) :
    (∃ y ∈ w.newWrites, y.2 = x.2) ∨ v.isNewStorageSlot = true ∧ x.2 = appended k v := by
  have hx := List.mem_map_of_mem (f := Prod.snd) hx
  rw [hs.newWrites] at hx
  rcases List.mem_append.mp hx with hx | hx
  · exact .inl (List.mem_map.mp hx)
  · split at hx
    · next hnew => exact .inr ⟨hnew, List.mem_singleton.mp hx⟩
    · cases hx

theorem one_le_filter_length {e : Key × WarmStorageValue} (hnew : e.2.isNewStorageSlot = true)
    (entries : List (Key × WarmStorageValue)) : 1 ≤ ((e :: entries).filter fun e => e.2.isNewStorageSlot).length := by
  rw [List.filter_cons_of_pos (by simpa using hnew), List.length_cons]
  omega

theorem WriteDone.mono (hopened : ∀ i leaf, Opened w.caches i leaf → Opened w'.caches i leaf)
    (hmodified : ∀ i r, w.caches.modified i = some r → w'.caches.modified i = some r) {k : Bytes32}
    {v : WarmStorageValue} (hd : WriteDone saved w k v) : WriteDone saved w' k v := by
  refine ⟨fun hnew => (hd.new hnew).mono hopened, fun hold => ?_⟩
  obtain ⟨i, leaf, ho, hk, hv, hm⟩ := hd.existing hold
  exact ⟨i, leaf, hopened _ _ ho, hk, hv, hmodified _ _ hm⟩

structure WritesRun (saved : Nat) (flatKey : Key → Bytes32) (entries : List (Key × WarmStorageValue))
    (w w' : Writes D n) : Prop where
  ok : WritesOk saved w'
  opened : ∀ i leaf, Opened w.caches i leaf → Opened w'.caches i leaf
  modified : ∀ i r, w.caches.modified i = some r → w'.caches.modified i = some r
  modified_only : ∀ i r, w'.caches.modified i = some r → w.caches.modified i = some r ∨
    ∃ e ∈ entries, e.2.isNewStorageSlot = false ∧ r = ⟨some e.2.currentValue, none⟩ ∧
      ∃ leaf, Opened w'.caches i leaf ∧ leaf.key = flatKey e.1
  newWrites : w'.newWrites.map Prod.snd =
    w.newWrites.map Prod.snd ++ (entries.filter fun e => e.2.isNewStorageSlot).map fun e => appended (flatKey e.1) e.2
  done : ∀ e ∈ entries, WriteDone saved w' (flatKey e.1) e.2

theorem applyWrites_run (entries : List (Key × WarmStorageValue)) (hk : ∀ e ∈ entries, flatKey e.1 ≠ 0)
    (hroom : saved + w.newWrites.length + (entries.filter fun e => e.2.isNewStorageSlot).length < 2 ^ 64)
    (hw : WritesOk saved w)
    (hrun : entries.foldlM (fun w e => applyWrite oracle saved w (flatKey e.1) e.2) w = some w') :
    WritesRun saved flatKey entries w w' := by
  induction entries generalizing w with
  | nil =>
    cases hrun
    exact ⟨hw, fun _ _ ho => ho, fun _ _ hr => hr, fun _ _ hr => .inl hr, (List.append_nil _).symm,
      fun e he => absurd he List.not_mem_nil⟩
  | cons e entries ih =>
    obtain ⟨hke, hk⟩ := List.forall_mem_cons.mp hk
    rw [List.foldlM_cons] at hrun
    obtain ⟨w1, hwrite, hrun⟩ := Option.bind_eq_some_iff.mp hrun
    obtain ⟨hw1, hs, hd⟩ := applyWrite_spec hw hke (fun hnew => by have := one_le_filter_length hnew entries; omega) hwrite
    have hlen := hs.length entries
    have hr := ih hk (by omega) hw1 hrun
    refine ⟨hr.ok, fun i leaf ho => hr.opened _ _ (hs.opened _ _ ho), fun i r hm => hr.modified _ _ (hs.modified _ _ hm),
      fun i r hm => ?_, ?_, List.forall_mem_cons.mpr ⟨hd.mono hr.opened hr.modified, hr.done⟩⟩
    · rcases hr.modified_only i r hm with hm | ⟨e', he', hmore⟩
      · rcases hs.modified_only i r hm with hm | ⟨hold, hrec, leaf, ho, hleaf⟩
        · exact .inl hm
        · exact .inr ⟨e, List.mem_cons_self, hold, hrec, leaf, hr.opened _ _ ho, hleaf⟩
      · exact .inr ⟨e', List.mem_cons_of_mem _ he', hmore⟩
    · rw [hr.newWrites, hs.newWrites, List.append_assoc, List.filter_cons]
      split <;> rfl

end ZkOs.Tree
