import ZkOs.Tree.Contents

/-!
# A batch against an honest oracle

* `HonestOracle` : the oracle answers with the leaves, positions and paths of a tree;
* `EntryOk` : an entry starts from the value of the tree;
* `HonestState`, `openLeaf_ok`, `openNeighbours_ok` : the caches hold what the tree holds, and no check fails;
* `verifyReads_ok`, `applyWrites_ok` : the two loops return.
-/

namespace ZkOs.Tree

open Merkle (subtree)

variable {D : Type} {n : Nat} {h : FlatStorageHasher D} {f : Nat → FlatStorageLeaf} {saved : Nat}
  {oracle : BatchOracle D n} {c : Caches D n} {news : List (Nat × FlatStorageLeaf)}

def Absent (f : Nat → FlatStorageLeaf) (saved : Nat) (k : Bytes32) : Prop := ∀ i < saved, (f i).key ≠ k

/-- The oracle answers with what the tree holds. -/
structure HonestOracle (h : FlatStorageHasher D) (f : Nat → FlatStorageLeaf) (saved : Nat) (oracle : BatchOracle D n) :
    Prop where
  prevIndex : ∀ asked k, Absent f saved k → oracle.prevIndex asked k < saved ∧
    (f (oracle.prevIndex asked k)).next < saved ∧ (f (oracle.prevIndex asked k)).key < k ∧
    k < (f (f (oracle.prevIndex asked k)).next).key
  index : ∀ asked i, i < saved → oracle.index asked (f i).key = i
  position : ∀ asked i, i < saved → (oracle.proof asked i).index = i
  leaf : ∀ asked i, i < saved → (oracle.proof asked i).leaf = f i
  path : ∀ asked i, i < saved → PathTrue h f i (oracle.proof asked i)

/-- The entry starts from the value of the tree.  What a write to a new slot starts from does not matter. -/
structure EntryOk (f : Nat → FlatStorageLeaf) (saved : Nat) (k : Bytes32) (v : WarmStorageValue) : Prop where
  new : v.isNewStorageSlot = true → Absent f saved k ∧ (v.currentValue = v.initialValue → v.initialValue = 0)
  existing : v.isNewStorageSlot = false → ∃ i < saved, (f i).key = k ∧ (f i).value = v.initialValue

/-- The opened leaves and their paths are those of the tree. -/
def HonestLeaves (h : FlatStorageHasher D) (f : Nat → FlatStorageLeaf) (saved : Nat)
    (m : OrderedMap Nat (LeafProof D n × Option LeafUpdateRecord)) : Prop :=
  ∀ i p r, m.get? i = some (p, r) → i < saved ∧ p.leaf = f i ∧ PathTrue h f i p

structure HonestState (h : FlatStorageHasher D) (f : Nat → FlatStorageLeaf) (saved : Nat)
    (news : List (Nat × FlatStorageLeaf)) (c : Caches D n) : Prop where
  cache : CacheOk saved news c
  leaves : HonestLeaves h f saved c.indexToLeaf
  absent : ∀ e ∈ news, Absent f saved e.2.key

theorem HonestLeaves.insert {m : OrderedMap Nat (LeafProof D n × Option LeafUpdateRecord)}
    (hm : HonestLeaves h f saved m) {i : Nat} (hi : i < saved) {p : LeafProof D n} (hleaf : p.leaf = f i)
    (hpath : PathTrue h f i p) (r : Option LeafUpdateRecord) : HonestLeaves h f saved (m.insert i (p, r)) := by
  intro j q s hj
  rw [OrderedMap.get?_insert] at hj
  split at hj
  · next heq =>
    cases hj
    subst heq
    exact ⟨hi, hleaf, hpath⟩
  · exact hm j q s hj

theorem HonestState.asked (hs : HonestState h f saved news c) (asked : Nat) :
    HonestState h f saved news { c with asked } :=
  ⟨hs.cache.asked asked, hs.leaves, hs.absent⟩

/-- The tree holds every key once. -/
abbrev DistinctKeys (f : Nat → FlatStorageLeaf) (saved : Nat) : Prop := Set.InjOn (fun i => (f i).key) {i | i < saved}

theorem HonestState.key_none (hs : HonestState h f saved news c) (hinj : DistinctKeys f saved) {i : Nat} (hi : i < saved)
    (hnone : c.indexToLeaf.get? i = none) : c.keyToIndex.get? (f i).key = none := by
  rw [Option.eq_none_iff_forall_ne_some]
  intro j hj
  rcases (hs.cache.keys _ j).mp hj with ⟨leaf, ⟨p, m, hp, rfl⟩, hk⟩ | ⟨leaf, hmem, hk⟩
  · obtain ⟨hjs, hleaf, -⟩ := hs.leaves j p m hp
    rw [hleaf] at hk
    obtain rfl : j = i := hinj hjs hi hk
    rw [hnone] at hp
    cases hp
  · exact hs.absent _ hmem i hi hk.symm

section Steps

variable (ho : HonestOracle h f saved oracle) (hinj : DistinctKeys f saved)

include ho hinj

theorem openLeaf_ok (hs : HonestState h f saved news c) {i : Nat} (hi : i < saved)
    (check fresh : FlatStorageLeaf → Bool) (hcheck : check (f i)) (hfresh : fresh (f i)) :
    ∃ p c', c.openLeaf oracle i check fresh = some (p, c') ∧ p.leaf = f i ∧ HonestState h f saved news c' := by
  have hrun : ∃ p c', c.openLeaf oracle i check fresh = some (p, c') ∧ p.leaf = f i ∧
      HonestLeaves h f saved c'.indexToLeaf := by
    rw [Caches.openLeaf]
    cases hget : c.indexToLeaf.get? i with
    | some e =>
      obtain ⟨p, m⟩ := e
      obtain ⟨-, hleaf, -⟩ := hs.leaves i p m hget
      refine ⟨p, c, ?_, hleaf, hs.leaves⟩
      simp [hleaf, hcheck]
    | none =>
      have hleaf := ho.leaf c.asked i hi
      let c' : Caches D n := { c with keyToIndex := c.keyToIndex.insert (f i).key i, asked := c.asked + 1 }
      refine ⟨oracle.proof c.asked i, c'.setLeaf i (oracle.proof c.asked i) none, ?_, hleaf,
        hs.leaves.insert hi hleaf (ho.path c.asked i hi) none⟩
      simp [c', Caches.getProofForIndex, Caches.insertKey, ho.position c.asked i hi, hleaf, hcheck, hfresh,
        hs.key_none hinj hi hget]
  obtain ⟨p, c', hrun, hleaf, hleaves⟩ := hrun
  have hbound : i < 2 ^ 64 := by
    rw [← ho.index 0 i hi]
    exact oracle.index_lt _ _
  exact ⟨p, c', hrun, hleaf,
    (openLeaf_spec hs.cache hbound (fun hle => absurd hi hle.not_gt) hrun).1, hleaves, hs.absent⟩

theorem openNeighbours_ok (hs : HonestState h f saved news c) {k : Bytes32} (hk : Absent f saved k) :
    ∃ c', c.openNeighbours oracle saved k = some c' ∧ HonestState h f saved news c' := by
  obtain ⟨hprev, hnext, hlt, hlt'⟩ := ho.prevIndex c.asked k hk
  obtain ⟨p, c1, hrun1, hleaf1, hs1⟩ := openLeaf_ok ho hinj (hs.asked (c.asked + 1)) hprev
    (fun leaf => leaf.key < k) (fun leaf => leaf.next < saved) (by simpa using hlt) (by simpa using hnext)
  obtain ⟨p', c2, hrun2, -, hs2⟩ := openLeaf_ok ho hinj hs1 (i := p.leaf.next) (by rw [hleaf1]; exact hnext)
    (fun leaf => k < leaf.key) (fun _ => true) (by rw [hleaf1]; simpa using hlt') rfl
  refine ⟨c2, ?_, hs2⟩
  simp [Caches.openNeighbours, hprev, hrun1, hrun2]

theorem verifyRead_ok (hs : HonestState h f saved news c) {k : Bytes32} {v : WarmStorageValue}
    (hv : EntryOk f saved k v) (hread : v.currentValue = v.initialValue) (hused : v.initialValueUsed = true) :
    ∃ c', verifyRead oracle saved c k v = some c' ∧ HonestState h f saved news c' := by
  rw [verifyRead]
  cases hnew : v.isNewStorageSlot with
  | true =>
    obtain ⟨habsent, hzero⟩ := hv.new hnew
    obtain ⟨c', hrun, hs'⟩ := openNeighbours_ok ho hinj hs habsent
    exact ⟨c', by simp [hused, hzero hread, hrun], hs'⟩
  | false =>
    obtain ⟨i, hi, rfl, hvalue⟩ := hv.existing hnew
    obtain ⟨p, c', hrun, -, hs'⟩ := openLeaf_ok ho hinj (hs.asked (c.asked + 1)) hi
      (fun leaf => leaf.key = (f i).key ∧ leaf.value = v.currentValue) (fun _ => true)
      (by simp [hread, hvalue]) rfl
    refine ⟨c', ?_, hs'⟩
    simp [-Bool.decide_and, hused, ho.index c.asked i hi, hrun]

variable {Key : Type} {flatKey : Key → Bytes32}

theorem verifyReads_ok (flatKey : Key → Bytes32) (entries : List (Key × WarmStorageValue))
    (hentries : ∀ e ∈ entries, EntryOk f saved (flatKey e.1) e.2 ∧ isRead e = true ∧ e.2.initialValueUsed = true)
    (hs : HonestState h f saved news c) :
    ∃ c', entries.foldlM (fun c e => verifyRead oracle saved c (flatKey e.1) e.2) c = some c' ∧
      HonestState h f saved news c' := by
  induction entries generalizing c with
  | nil => exact ⟨c, rfl, hs⟩
  | cons e entries ih =>
    obtain ⟨⟨hv, hread, hused⟩, hentries⟩ := List.forall_mem_cons.mp hentries
    obtain ⟨c1, hrun1, hs1⟩ := verifyRead_ok ho hinj hs hv (by simpa [isRead] using hread) hused
    obtain ⟨c2, hrun2, hs2⟩ := ih hentries hs1
    refine ⟨c2, ?_, hs2⟩
    rw [List.foldlM_cons, hrun1]
    exact hrun2

variable {w : Writes D n}

theorem applyWrite_ok (hs : HonestState h f saved w.newWrites w.caches) {k : Bytes32} {v : WarmStorageValue}
    (hv : EntryOk f saved k v) (hnews : ∀ x ∈ w.newWrites, x.2.key ≠ k)
    (hmod : ∀ i < saved, (f i).key = k → w.caches.modified i = none) :
    ∃ w', applyWrite oracle saved w k v = some w' ∧ HonestLeaves h f saved w'.caches.indexToLeaf := by
  rw [applyWrite]
  cases hnew : v.isNewStorageSlot with
  | true =>
    obtain ⟨habsent, -⟩ := hv.new hnew
    obtain ⟨c', hrun, hs'⟩ := openNeighbours_ok ho hinj hs habsent
    have hnone : c'.keyToIndex.get? k = none := by
      rw [Option.eq_none_iff_forall_ne_some]
      intro j hj
      rcases (hs'.cache.keys _ j).mp hj with ⟨leaf, ⟨p, m, hp, rfl⟩, hk⟩ | ⟨leaf, hmem, hk⟩
      · obtain ⟨hjs, hleaf, -⟩ := hs'.leaves j p m hp
        rw [hleaf] at hk
        exact habsent j hjs hk
      · exact hnews _ hmem hk
    refine ⟨⟨{ c' with keyToIndex := c'.keyToIndex.insert k w.nextFreeSlot },
      w.newWrites ++ [(w.nextFreeSlot, appended k v)], (w.nextFreeSlot + 1) % 2 ^ 64⟩, ?_, hs'.leaves⟩
    simp [hrun, Caches.insertKey, hnone, appended]
  | false =>
    obtain ⟨i, hi, rfl, hvalue⟩ := hv.existing hnew
    have hmod := hmod i hi rfl
    cases hget : w.caches.indexToLeaf.get? i with
    | some e =>
      obtain ⟨p, m⟩ := e
      obtain ⟨-, hleaf, hpath⟩ := hs.leaves i p m hget
      have hkey : w.caches.keyToIndex.get? (f i).key = some i :=
        (hs.cache.keys _ i).mpr (.inl ⟨p.leaf, ⟨p, m, hget, rfl⟩, by rw [hleaf]⟩)
      obtain rfl : m = none := by
        rw [Caches.modified, hget] at hmod
        exact hmod
      refine ⟨{ w with caches := w.caches.setLeaf i p (some ⟨some v.currentValue, none⟩) }, ?_,
        hs.leaves.insert hi hleaf hpath _⟩
      simp [hkey, hget, hleaf, hvalue]
    | none =>
      have hleaf := ho.leaf (w.caches.asked + 1) i hi
      have hkey := hs.key_none hinj hi hget
      let c' : Caches D n :=
        { w.caches with keyToIndex := w.caches.keyToIndex.insert (f i).key i, asked := w.caches.asked + 2 }
      let leaf := oracle.proof (w.caches.asked + 1) i
      refine ⟨{ w with caches := c'.setLeaf i leaf (some ⟨some v.currentValue, none⟩) }, ?_,
        hs.leaves.insert hi hleaf (ho.path (w.caches.asked + 1) i hi) _⟩
      simp [c', leaf, hkey, Caches.getProofForIndex, Caches.insertKey, ho.index w.caches.asked i hi,
        ho.position (w.caches.asked + 1) i hi, hleaf, hvalue, hget]

theorem applyWrites_ok (flatKey : Key → Bytes32) (entries : List (Key × WarmStorageValue)) (hk : ∀ e ∈ entries, flatKey e.1 ≠ 0)
    (hroom : saved + w.newWrites.length + (entries.filter fun e => e.2.isNewStorageSlot).length < 2 ^ 64)
    (hdistinct : (entries.map fun e => flatKey e.1).Nodup)
    (hentries : ∀ e ∈ entries, EntryOk f saved (flatKey e.1) e.2) (hw : WritesOk saved w)
    (hs : HonestState h f saved w.newWrites w.caches)
    (hnews : ∀ e ∈ entries, ∀ x ∈ w.newWrites, x.2.key ≠ flatKey e.1)
    (hmod : ∀ e ∈ entries, ∀ i < saved, (f i).key = flatKey e.1 → w.caches.modified i = none) :
    ∃ w', entries.foldlM (fun w e => applyWrite oracle saved w (flatKey e.1) e.2) w = some w' ∧
      HonestState h f saved w'.newWrites w'.caches := by
  induction entries generalizing w with
  | nil => exact ⟨w, rfl, hs⟩
  | cons e entries ih =>
    obtain ⟨hke, hk⟩ := List.forall_mem_cons.mp hk
    obtain ⟨hv, hentries⟩ := List.forall_mem_cons.mp hentries
    obtain ⟨hnot, hdistinct⟩ := List.nodup_cons.mp hdistinct
    have hne : ∀ e' ∈ entries, flatKey e.1 ≠ flatKey e'.1 :=
      fun e' he' heq => hnot (List.mem_map.mpr ⟨e', he', heq.symm⟩)
    obtain ⟨w1, hrun1, hleaves1⟩ := applyWrite_ok ho hinj hs hv (hnews e List.mem_cons_self) (hmod e List.mem_cons_self)
    obtain ⟨hw1, hs1, -⟩ := applyWrite_spec hw hke
      (fun hnew => by have := one_le_filter_length hnew entries; omega) hrun1
    have hlen := hs1.length entries
    have habsent : ∀ x ∈ w1.newWrites, Absent f saved x.2.key := by
      intro x hx
      rcases hs1.new_leaf hx with ⟨y, hy, heq⟩ | ⟨hnew, heq⟩
      · rw [← heq]
        exact hs.absent y hy
      · rw [heq]
        exact (hv.new hnew).1
    have hnews1 : ∀ e' ∈ entries, ∀ x ∈ w1.newWrites, x.2.key ≠ flatKey e'.1 := by
      intro e' he' x hx
      rcases hs1.new_leaf hx with ⟨y, hy, heq⟩ | ⟨-, heq⟩
      · rw [← heq]
        exact hnews e' (List.mem_cons_of_mem _ he') y hy
      · rw [heq]
        exact hne e' he'
    have hmod1 : ∀ e' ∈ entries, ∀ i < saved, (f i).key = flatKey e'.1 → w1.caches.modified i = none := by
      intro e' he' i hi hik
      rw [Option.eq_none_iff_forall_ne_some]
      intro r hr
      rcases hs1.modified_only i r hr with hr | ⟨-, -, leaf, ⟨p, m, hp, rfl⟩, hleaf⟩
      · rw [hmod e' (List.mem_cons_of_mem _ he') i hi hik] at hr
        cases hr
      · rw [(hleaves1 i p m hp).2.1, hik] at hleaf
        exact hne e' he' hleaf.symm
    obtain ⟨w2, hrun2, hs2⟩ := ih hk (by omega) hdistinct hentries hw1 ⟨hw1.cache, hleaves1, habsent⟩ hnews1 hmod1
    refine ⟨w2, ?_, hs2⟩
    rw [List.foldlM_cons, hrun1]
    exact hrun2

end Steps

/-! ## The links -/

section Links

variable {l l' : Leaves D n}

theorem linkFirst_ok (saved : Nat) {first : Nat} (hu : Unlinked l first) (hfirst : (l.indexToLeaf.get? first).isSome) (second : Nat) :
    ∃ l', linkFirst saved l first second = some l' := by
  obtain ⟨⟨p, m⟩, hget⟩ := Option.isSome_iff_exists.mp hfirst
  rw [linkFirst, hget, Option.bind_eq_bind, Option.bind_some]
  dsimp only
  split
  · cases m with
    | none => exact ⟨_, rfl⟩
    | some m =>
      have hnone := hu p m hget
      refine ⟨{ l with indexToLeaf := l.indexToLeaf.insert first (p, some { m with next := some second }) }, ?_⟩
      simp [linkFirstRecord, LeafUpdateRecord.setNext, hnone]
  · exact ⟨l, rfl⟩

theorem linkNext_ok (hp : Placed saved l) {current : Nat} (hu : Unlinked l current)
    (hcurrent : (l.leafOf saved current).isSome) (next : Nat) : ∃ l', linkNext saved l current next = some l' := by
  rw [linkNext]
  cases hget : l.indexToLeaf.get? current with
  | some e =>
    obtain ⟨p, m⟩ := e
    have hnone : (m.getD ⟨none, none⟩).next = none := by
      cases m with
      | none => rfl
      | some m => exact hu p m hget
    dsimp only
    split
    · obtain ⟨m', hm'⟩ : ∃ m', linkNextRecord p.leaf m next = some m' := by
        rw [linkNextRecord]
        split
        · refine ⟨{ m.getD ⟨none, none⟩ with next := some next }, ?_⟩
          simp [LeafUpdateRecord.setNext, hnone]
        · exact ⟨_, rfl⟩
      rw [hm']
      exact ⟨_, rfl⟩
    · exact ⟨l, rfl⟩
  | none =>
    rw [Leaves.leafOf, hget] at hcurrent
    dsimp only at hcurrent
    split at hcurrent
    · obtain ⟨⟨expected, leaf⟩, he⟩ := Option.isSome_iff_exists.mp (Option.isSome_map ▸ hcurrent)
      have hexpected : expected = current := by
        have := (NewPlaced.getElem? hp.new he).1
        dsimp only at this
        omega
      subst hexpected
      refine ⟨{ l with newWrites := l.newWrites.set (expected - saved) (expected, { leaf with next }) }, ?_⟩
      simp [he]
    · cases hcurrent

theorem linkRest_ok {current : Nat} {rest : List Nat} (hp : Placed saved l) (hnodup : (current :: rest).Nodup)
    (hu : ∀ i ∈ current :: rest, Unlinked l i) (hmem : ∀ i ∈ current :: rest, (l.leafOf saved i).isSome) :
    ∃ l' lastIndex, linkRest saved l current rest = some (l', lastIndex) ∧
      (current :: rest).getLast? = some lastIndex ∧
      l'.indexToLeaf.get? lastIndex = l.indexToLeaf.get? lastIndex := by
  induction rest generalizing l current with
  | nil => exact ⟨l, current, rfl, rfl, rfl⟩
  | cons next rest ih =>
    obtain ⟨hnot, hnodup⟩ := List.nodup_cons.mp hnodup
    obtain ⟨l1, hlink⟩ := linkNext_ok hp (hu current List.mem_cons_self) (hmem current List.mem_cons_self) next
    have hs := linkNext_spec hp (hu current List.mem_cons_self) hlink
    obtain ⟨l2, lastIndex, hrest, hlast, hget⟩ := ih ((linkNext_same hlink).placed hp) hnodup (hs.unlinked hnot hu)
      (hs.isSome hnot hmem)
    refine ⟨l2, lastIndex, ?_, ?_, ?_⟩
    · rw [linkRest, hlink]
      exact hrest
    · rw [List.getLast?_cons_cons]
      exact hlast
    · rw [hget, hs.others lastIndex fun heq => hnot (heq ▸ List.mem_of_getLast? hlast)]

theorem checkGuard_ok {index marker : Nat} {key : Bytes32} {p : LeafProof D n} {m : Option LeafUpdateRecord}
    (hget : l.indexToLeaf.get? index = some (p, m)) (hmarker : index = marker → m = none ∧ p.leaf.key = key) :
    checkGuard l index marker key = some () := by
  rw [checkGuard, hget, Option.bind_eq_bind, Option.bind_some]
  dsimp only
  split
  · next heq =>
    obtain ⟨rfl, hkey⟩ := hmarker heq
    simp [hkey]
  · rfl

end Links

/-! ## The stages -/

section Stages

variable {Key : Type} {flatKey : Key → Bytes32} {source : List (Key × WarmStorageValue)} {w : Writes D n}
  (hw : Collected saved flatKey source w) (hs : HonestState h f saved w.newWrites w.caches)

include hs in
theorem HonestState.openedTrue : OpenedTrue f w.leaves := fun i p m hi => (hs.leaves i p m hi).2.1

include hw hs

theorem placed_of_honest : Placed saved w.leaves := by
  refine ⟨fun i hi => ?_, hw.ok.positions⟩
  obtain ⟨⟨p, m⟩, hget⟩ := Option.isSome_iff_exists.mp hi
  exact (hs.leaves i p m hget).1

theorem guard_unmodified {marker : Nat} {key : Bytes32} (hmarker : (f marker).key = key)
    (hno : ∀ e ∈ source, flatKey e.1 ≠ key) {i : Nat} {p : LeafProof D n} {m : Option LeafUpdateRecord}
    (hget : w.caches.indexToLeaf.get? i = some (p, m)) (hi : i = marker) : m = none ∧ p.leaf.key = key := by
  subst hi
  refine ⟨?_, by rw [(hs.leaves i p m hget).2.1, hmarker]⟩
  cases m with
  | none => rfl
  | some r =>
    have hm : w.caches.modified i = some r := by rw [Caches.modified, hget]; rfl
    obtain ⟨e, he, -, -, -, leaf, ho, hleaf⟩ := hw.modified i r hm
    rw [opened_eq hs.openedTrue ho, hmarker] at hleaf
    exact absurd hleaf.symm (hno e he)

theorem opened_of_extreme {x : Bytes32 × Nat} (hx : x ∈ w.caches.keyToIndex.entries)
    (hextreme : (∀ e ∈ w.caches.keyToIndex.entries, x.1 ≤ e.1) ∨ ∀ e ∈ w.caches.keyToIndex.entries, e.1 ≤ x.1) :
    ∃ p m, w.caches.indexToLeaf.get? x.2 = some (p, m) := by
  have he := extends_after hw (placed_of_honest hw hs) hs.openedTrue
  obtain ⟨hkey, hor⟩ := (he.keys x.1 x.2).mp (OrderedMap.mem_entries.mp hx)
  have hopened : x.2 ∈ {i | (w.caches.indexToLeaf.get? i).isSome} := by
    refine hor.resolve_right fun hnew => ?_
    obtain ⟨p, hp, hnp, hlt, hlt'⟩ := he.around x.2 hnew.1 hnew.2
    rw [hkey] at hlt hlt'
    have hentry : ∀ {i}, i ∈ {i | (w.caches.indexToLeaf.get? i).isSome} →
        ((f i).key, i) ∈ w.caches.keyToIndex.entries := by
      intro i hi
      have := he.get_key (.inl hi)
      rw [he.key_eq i (he.opened_lt i hi)] at this
      exact OrderedMap.mem_entries.mpr this
    rcases hextreme with hleast | hgreatest
    · exact absurd hlt (hleast _ (hentry hp)).not_gt
    · exact absurd hlt' (hgreatest _ (hentry hnp)).not_gt
  obtain ⟨⟨p, m⟩, hget⟩ := Option.isSome_iff_exists.mp hopened
  exact ⟨p, m, hget⟩

variable (hmin : (f minKeyLeafMarkerIdx).key = 0) (hmax : (f maxKeyLeafMarkerIdx).key = maxKey)
  (hkeys : ∀ e ∈ source, flatKey e.1 ≠ 0 ∧ flatKey e.1 ≠ maxKey)

include hmin hmax hkeys

theorem relink_ok {k : Bytes32} (haround : Around saved w.caches k) :
    ∃ l, relink saved w.leaves (w.caches.keyToIndex.entries.map Prod.snd) = some l := by
  have hp := placed_of_honest hw hs
  have he := extends_after hw hp hs.openedTrue
  have hnodup := he.values_nodup
  have hsorted := w.caches.keyToIndex.sorted
  have hmemOf : ∀ i ∈ w.caches.keyToIndex.entries.map Prod.snd, (w.leaves.leafOf saved i).isSome :=
    fun i => hw.isSome_leafOf
  have hopened := fun x hx => opened_of_extreme hw hs (x := x) hx
  -- there are two leaves, those around the key
  have htwo : ∃ x y rest, w.caches.keyToIndex.entries = x :: y :: rest := by
    obtain ⟨i, leaf, leaf', -, ho, ho', hlt, hlt'⟩ := haround
    have hx := OrderedMap.mem_entries.mpr ((hw.ok.cache.keys leaf.key i).mpr (.inl ⟨leaf, ho, rfl⟩))
    have hy := OrderedMap.mem_entries.mpr ((hw.ok.cache.keys leaf'.key leaf.next).mpr (.inl ⟨leaf', ho', rfl⟩))
    match hentries : w.caches.keyToIndex.entries with
    | [] =>
      rw [hentries] at hx
      cases hx
    | [z] =>
      rw [hentries] at hx hy
      have heq := (List.mem_singleton.mp hx).trans (List.mem_singleton.mp hy).symm
      exact absurd (congrArg Prod.fst heq) (hlt.trans hlt').ne
    | x :: y :: rest => exact ⟨x, y, rest, rfl⟩
  obtain ⟨x, y, rest, hentries⟩ := htwo
  rw [hentries] at hnodup hmemOf hsorted hopened ⊢
  obtain ⟨hnot, hnodup'⟩ := List.nodup_cons.mp hnodup
  obtain ⟨p, m, hget⟩ := hopened x List.mem_cons_self (.inl fun e hmem => by
    rcases List.mem_cons.mp hmem with rfl | hmem
    · exact le_rfl
    · exact ((List.pairwise_cons.mp hsorted).1 e hmem).le)
  have hguard : checkGuard w.leaves x.2 minKeyLeafMarkerIdx 0 = some () :=
    checkGuard_ok hget (guard_unmodified hw hs hmin (fun e he => (hkeys e he).1) hget)
  obtain ⟨l1, hfirst⟩ := linkFirst_ok saved (hw.unlinked x.2)
    (by rw [show w.leaves.indexToLeaf.get? x.2 = some (p, m) from hget]; rfl) y.2
  have hstep := linkFirst_spec hp hfirst
  obtain ⟨l2, lastIndex, hrest, hlast, hsame⟩ := linkRest_ok ((linkFirst_same hfirst).placed hp) hnodup'
    (hstep.unlinked hnot fun i _ => hw.unlinked i) (hstep.isSome hnot hmemOf)
  -- the last leaf is not linked, and it is an old one
  obtain ⟨z, hz, rfl⟩ : ∃ z, (y :: rest).getLast? = some z ∧ z.2 = lastIndex := by
    have hlast : ((y :: rest).map Prod.snd).getLast? = some lastIndex := hlast
    rw [List.getLast?_map] at hlast
    exact Option.map_eq_some_iff.mp hlast
  have hzmem : z ∈ y :: rest := List.mem_of_getLast? hz
  obtain ⟨q, r, hqget⟩ := hopened z (List.mem_cons_of_mem _ hzmem) (.inr fun e hmem => by
    rcases List.mem_cons.mp hmem with rfl | hmem
    · exact ((List.pairwise_cons.mp hsorted).1 z hzmem).le
    · obtain ⟨init, heq⟩ := List.getLast?_eq_some_iff.mp hz
      have hpair := (List.pairwise_cons.mp hsorted).2
      rw [heq] at hmem hpair
      rcases List.mem_append.mp hmem with hmem | hmem
      · exact ((List.pairwise_append.mp hpair).2.2 e hmem z List.mem_cons_self).le
      · rw [List.mem_singleton.mp hmem])
  have hlastGet : l2.indexToLeaf.get? z.2 = some (q, r) := by
    rw [hsame, hstep.others z.2 fun heq => hnot (heq ▸ List.mem_map_of_mem hzmem)]
    exact hqget
  have hguard' : checkGuard l2 z.2 maxKeyLeafMarkerIdx maxKey = some () :=
    checkGuard_ok hlastGet (guard_unmodified hw hs hmax (fun e he => (hkeys e he).2) hqget)
  refine ⟨l2, ?_⟩
  simp only [List.map_cons, relink, hguard, hfirst, Option.bind_eq_bind, Option.bind_some]
  rw [hrest]
  simp [hguard']

end Stages

end ZkOs.Tree
