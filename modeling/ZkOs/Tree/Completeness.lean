import ZkOs.Tree.Honest

/-!
# A correct batch is accepted

* `Correct` : the entries of a batch start from the values of the tree, and there is room for the new ones;
* `BatchResult` : the tree after the batch;
* `adjustIndexes_ok`, `batchResult` : the links are made, and lead to that tree;
* `root_ne` : a write changes the root;
* `verifyAndApplyBatch_ok` : against an honest oracle a correct batch is accepted.
-/

namespace ZkOs.Tree

open Merkle (subtree)

variable {D : Type} {n : Nat} {h : FlatStorageHasher D} {f : Nat → FlatStorageLeaf} {saved : Nat}
  {oracle : BatchOracle D n} {Key : Type} {flatKey : Key → Bytes32} {source : List (Key × WarmStorageValue)}

/-! ## Against an honest oracle -/

/-- A batch that agrees with the tree: distinct keys that are not those of the guards, right initial values that were
used, and room for the new leaves. -/
structure Correct (n : Nat) (f : Nat → FlatStorageLeaf) (saved : Nat) (flatKey : Key → Bytes32)
    (source : List (Key × WarmStorageValue)) : Prop where
  distinct : (source.map fun e => flatKey e.1).Nodup
  keys : ∀ e ∈ source, flatKey e.1 ≠ 0 ∧ flatKey e.1 ≠ maxKey
  entries : ∀ e ∈ source, EntryOk f saved (flatKey e.1) e.2
  used : ∀ e ∈ source, isRead e = true → e.2.initialValueUsed = true
  room : saved + numNewWrites source ≤ 2 ^ n
  counter : saved + numNewWrites source < 2 ^ 64

structure Guards (f : Nat → FlatStorageLeaf) (saved : Nat) : Prop where
  minKey : (f minKeyLeafMarkerIdx).key = 0
  maxKey : (f maxKeyLeafMarkerIdx).key = maxKey
  lt : maxKeyLeafMarkerIdx < saved

/-- The keys of the writes to new slots, in the order of the batch. -/
def newKeys (flatKey : Key → Bytes32) (source : List (Key × WarmStorageValue)) : List Bytes32 :=
  (source.filter fun e => !isRead e && e.2.isNewStorageSlot).map fun e => flatKey e.1

def keysOf (f : Nat → FlatStorageLeaf) (size : Nat) : List Bytes32 := (List.range size).map fun i => (f i).key

/-- The tree after a batch: the new leaves come in the order of the batch. -/
structure BatchResult (f : Nat → FlatStorageLeaf) (saved : Nat) (flatKey : Key → Bytes32)
    (source : List (Key × WarmStorageValue)) (g : Nat → FlatStorageLeaf) : Prop where
  wellFormed : WellFormed g (saved + numNewWrites source)
  contents : contents g (saved + numNewWrites source) = applied flatKey source (contents f saved)
  keys : keysOf g (saved + numNewWrites source) = keysOf f saved ++ newKeys flatKey source
  maxNext : (g maxKeyLeafMarkerIdx).next = (f maxKeyLeafMarkerIdx).next

section Stages

variable {w : Writes D n} {l : Leaves D n} (hw : Collected saved flatKey source w)
  (hs : HonestState h f saved w.newWrites w.caches)

include hw

theorem around_of_new (hnew : numNonexistingReads source + numNewWrites source ≠ 0) :
    ∃ k, Around saved w.caches k := by
  rcases Nat.eq_zero_or_pos (numNonexistingReads source) with hzero | hpos
  · obtain ⟨e, he, hcond⟩ := List.countP_pos_iff.mp (show 0 < numNewWrites source by omega)
    obtain ⟨hwrite, hslot⟩ : isRead e = false ∧ e.2.isNewStorageSlot = true := by simpa using hcond
    exact ⟨_, (hw.writes e he hwrite).new hslot⟩
  · obtain ⟨e, he, hcond⟩ := List.countP_pos_iff.mp hpos
    obtain ⟨hread, hslot⟩ : isRead e = true ∧ e.2.isNewStorageSlot = true := by simpa using hcond
    exact ⟨_, ((hw.reads e he hread).new hslot).2⟩

theorem exists_opened (hne : source ≠ []) : ∃ i leaf, Opened w.caches i leaf := by
  obtain ⟨e, he⟩ := List.exists_mem_of_ne_nil source hne
  have haround : ∀ {k}, Around saved w.caches k → ∃ i leaf, Opened w.caches i leaf := by
    rintro k ⟨i, leaf, -, -, ho, -⟩
    exact ⟨i, leaf, ho⟩
  cases hread : isRead e <;> cases hslot : e.2.isNewStorageSlot
  · obtain ⟨i, leaf, ho, -⟩ := (hw.writes e he hread).existing hslot
    exact ⟨i, leaf, ho⟩
  · exact haround ((hw.writes e he hread).new hslot)
  · obtain ⟨i, leaf, ho, -⟩ := (hw.reads e he hread).existing hslot
    exact ⟨i, leaf, ho⟩
  · exact haround ((hw.reads e he hread).new hslot).2

include hs

theorem adjustIndexes_ok (ho : HonestOracle h f saved oracle) (hg : Guards f saved)
    (hkeys : ∀ e ∈ source, flatKey e.1 ≠ 0 ∧ flatKey e.1 ≠ maxKey) :
    ∃ l, adjustIndexes oracle saved w source = some l := by
  rw [adjustIndexes]
  split
  · exact ⟨_, rfl⟩
  · next hnew =>
    obtain ⟨k, haround⟩ := around_of_new hw hnew
    obtain ⟨l, hlink⟩ := relink_ok hw hs hg.minKey hg.maxKey hkeys haround
    rw [show relink saved ⟨w.caches.indexToLeaf, w.newWrites⟩ _ = some l from hlink, Option.bind_eq_bind, Option.bind_some]
    split
    · rw [openRightmost]
      split
      · exact ⟨_, rfl⟩
      · have hpos := hg.lt
        rw [maxKeyLeafMarkerIdx] at hpos
        have hindex := ho.position w.caches.asked (saved - 1) (by omega)
        refine ⟨{ l with indexToLeaf := l.indexToLeaf.insert (saved - 1) (oracle.proof w.caches.asked (saved - 1), none) },
          ?_⟩
        simp [hindex]
    · exact ⟨l, rfl⟩

theorem adjustIndexes_honest (ho : HonestOracle h f saved oracle) (hpos : 0 < saved)
    (hrun : adjustIndexes oracle saved w source = some l) : HonestLeaves h f saved l.indexToLeaf := by
  obtain ⟨l1, -, hright, hsame, -⟩ := adjustIndexes_eq_some hw hrun
  intro i p m hget
  rcases hright.only hget with hget | ⟨rfl, -, asked, rfl⟩
  · have hfst := hsame.proofs i
    rw [hget] at hfst
    obtain ⟨⟨p', m'⟩, hget', rfl⟩ := Option.map_eq_some_iff.mp hfst.symm
    exact hs.leaves i p' m' hget'
  · have hlt : saved - 1 < saved := by omega
    exact ⟨hlt, ho.leaf asked _ hlt, ho.path asked _ hlt⟩

theorem batchResult (hf : WellFormed f saved) (hg : Guards f saved)
    (hrun : adjustIndexes oracle saved w source = some l) (htrue : OpenedTrue f l) :
    BatchResult f saved flatKey source (l.after saved f) := by
  have hp := placed_of_honest hw hs
  have htrue0 := hs.openedTrue (w := w)
  have hlen := hw.length
  have hafter := adjustIndexes_after hw hp htrue0 hrun htrue
  have he := extends_after hw hp htrue0
  refine ⟨?_, ?_, ?_, ?_⟩
  · rw [← hlen]
    exact after_wellFormed hw hp htrue0 hf hrun htrue
  · rw [← hlen]
    exact funext (after_contents hw hp htrue0 hf hrun htrue)
  · have hnew : w.newWrites.map (fun e => e.2.key) = newKeys flatKey source := by
      have := congrArg (List.map FlatStorageLeaf.key) hw.newWrites
      rw [List.map_map, List.map_map] at this
      exact this
    rw [keysOf, List.range_add, List.map_append, ← hnew, ← hlen]
    congr 1
    · refine List.map_congr_left fun i hi => ?_
      rw [hafter i, after_old hw htrue0 (List.mem_range.mp hi)]
    · refine List.ext_getElem? fun j => ?_
      rw [List.map_map, List.getElem?_map, List.getElem?_map]
      by_cases hj : j < w.newWrites.length
      · obtain ⟨leaf, hmem, hget⟩ := NewPlaced.exists (i := saved + j) (l := w.leaves) hp.new (Nat.le_add_right _ _)
          (Nat.add_lt_add_left hj saved)
        rw [Nat.add_sub_cancel_left] at hget
        rw [List.getElem?_range hj, show w.newWrites[j]? = some (saved + j, leaf) from hget, Option.map_some,
          Option.map_some, Function.comp_apply, hafter (saved + j)]
        rw [show w.leaves.after saved f (saved + j) = leaf from after_of_new hp hmem]
      · rw [List.getElem?_eq_none (by rw [List.length_range]; omega), List.getElem?_eq_none (by omega)]
        rfl
  · have hlt := hg.lt
    rw [hafter, after_old hw htrue0 hlt]
    show linkTarget saved _ _ (f maxKeyLeafMarkerIdx).next = _
    refine linkTarget_of_none ?_ _
    cases hnext : nextIn (w.caches.keyToIndex.entries.map Prod.snd) maxKeyLeafMarkerIdx with
    | none => rfl
    | some j =>
      obtain ⟨⟨k, i⟩, hentry, hi⟩ := List.mem_map.mp (mem_of_nextIn hnext).1
      have hor := ((he.keys k i).mp (OrderedMap.mem_entries.mp hentry)).2
      rw [show i = maxKeyLeafMarkerIdx from hi] at hor
      have hgreater := (he.next_some hor hnext).2.1
      rw [he.key_eq _ hlt, hg.maxKey] at hgreater
      exact absurd (key_le_max _) hgreater.not_ge

end Stages

theorem root_ne (hleaf : Function.Injective h.hashLeaf) (hnode : Function.Injective2 h.hashNode)
    (hf : WellFormed f saved) (hb : Correct n f saved flatKey source) {g : Nat → FlatStorageLeaf}
    (hg : BatchResult f saved flatKey source g) (hpos : 0 < numTotalWrites source) :
    subtree h.hashNode (leafDigests h g) n 0 ≠ subtree h.hashNode (leafDigests h f) n 0 := by
  intro heq
  have hroom := hb.room
  have hsame : ∀ i < 2 ^ n, g i = f i :=
    fun i hi => hleaf (Merkle.subtree_injective hnode heq (Nat.div_eq_of_lt hi))
  obtain ⟨e, he, hwrite⟩ := List.countP_pos_iff.mp hpos
  -- the first write to the key
  obtain ⟨e', hfind⟩ : ∃ e', source.find? (fun x => !isRead x && decide (flatKey x.1 = flatKey e.1)) = some e' :=
    Option.isSome_iff_exists.mp (List.find?_isSome.mpr ⟨e, he, by simp at hwrite; simp [hwrite]⟩)
  have he' := List.mem_of_find?_eq_some hfind
  obtain ⟨hwrite', hkey⟩ : isRead e' = false ∧ flatKey e'.1 = flatKey e.1 := by simpa using List.find?_some hfind
  have hne : e'.2.currentValue ≠ e'.2.initialValue := by simpa [isRead] using hwrite'
  have hcontents := congrFun hg.contents (flatKey e.1)
  rw [applied, hfind, ← hkey] at hcontents
  obtain ⟨i, hi, hik, hiv⟩ := exists_of_contents hcontents
  rw [hsame i (by omega)] at hik hiv
  by_cases hold : i < saved
  · cases hslot : e'.2.isNewStorageSlot with
    | true => exact ((hb.entries e' he').new hslot).1 i hold hik
    | false =>
      obtain ⟨j, hj, hjk, hjv⟩ := (hb.entries e' he').existing hslot
      have hci := hf.contents_eq_some hold
      have hcj := hf.contents_eq_some hj
      rw [hik, hiv] at hci
      rw [hjk, hjv, hci] at hcj
      exact hne (Option.some.inj hcj)
  · rw [hf.empty i (not_lt.mp hold)] at hik
    exact (hb.keys e' he').1 hik.symm

theorem batchResult_nil (hf : WellFormed f saved) : BatchResult f saved flatKey ([] : List (Key × WarmStorageValue)) f :=
  ⟨hf, rfl, (List.append_nil _).symm, rfl⟩

variable [DecidableEq D]

/-- Against an honest oracle a correct batch is accepted. -/
theorem verifyAndApplyBatch_ok (hleaf : Function.Injective h.hashLeaf) (hnode : Function.Injective2 h.hashNode)
    (ho : HonestOracle h f saved oracle) (hf : WellFormed f saved) (hg : Guards f saved)
    (hb : Correct n f saved flatKey source) :
    ∃ g, verifyAndApplyBatch h flatKey oracle ⟨subtree h.hashNode (leafDigests h f) n 0, saved⟩ source =
        some ⟨subtree h.hashNode (leafDigests h g) n 0, saved + numNewWrites source⟩ ∧
      BatchResult f saved flatKey source g := by
  by_cases hne : source = []
  · subst hne
    exact ⟨f, rfl, batchResult_nil hf⟩
  obtain ⟨first, last, hl, -⟩ := hf.linked
  have hinj : DistinctKeys f saved := hl.injOn
  have hkeys0 : ∀ e ∈ source, flatKey e.1 ≠ 0 := fun e he => (hb.keys e he).1
  have hpos : 0 < saved := (Nat.zero_le _).trans_lt hg.lt
  -- the loops
  have hstart : HonestState h f saved [] (Caches.empty : Caches D n) :=
    ⟨cacheOk_empty, fun i p r hi => (by cases hi), fun e he => absurd he List.not_mem_nil⟩
  obtain ⟨c, hreads, hsc⟩ := verifyReads_ok ho hinj flatKey (source.filter isRead)
    (fun e he => by
      obtain ⟨he, hread⟩ := List.mem_filter.mp he
      exact ⟨hb.entries e he, hread, hb.used e he hread⟩) hstart
  obtain ⟨hc, hgrow, -⟩ := verifyReads_run _ (fun e he => hkeys0 e (List.mem_filter.mp he).1) cacheOk_empty hreads
  obtain ⟨w, hwrites, hsw⟩ := applyWrites_ok ho hinj flatKey (source.filter fun e => !isRead e)
    (w := ⟨c, [], saved⟩) (fun e he => hkeys0 e (List.mem_filter.mp he).1)
    (by rw [newEntries_eq, ← List.countP_eq_length_filter]; exact hb.counter)
    (hb.distinct.sublist (List.filter_sublist.map _)) (fun e he => hb.entries e (List.mem_filter.mp he).1) ⟨hc, rfl, rfl⟩
    hsc (fun e _ x hx => absurd hx List.not_mem_nil) fun e _ i _ _ => hgrow.modified i
  have hw := collected hkeys0 hb.counter hreads hwrites
  -- the links
  obtain ⟨l, hadjust⟩ := adjustIndexes_ok hw hsw ho hg hb.keys
  have hleaves := adjustIndexes_honest hw hsw ho hpos hadjust
  have htrue : OpenedTrue f l := fun i p m hi => (hleaves i p m hi).2.1
  have hres := batchResult hw hsw hf hg hadjust htrue
  obtain ⟨l1, -, hright, hsame, hrightmost⟩ := adjustIndexes_eq_some hw hadjust
  have hlen : l.newWrites.length = w.newWrites.length := by
    rw [hright.newWrites]
    exact hsame.length
  have hp : Placed saved l := by
    refine ⟨fun i hi => ?_, ?_⟩
    · obtain ⟨⟨p, m⟩, hget⟩ := Option.isSome_iff_exists.mp hi
      exact (hleaves i p m hget).1
    · rw [hlen, hright.newWrites, hsame.new]
      exact hw.ok.positions
  have hopened : ∃ i, (l.indexToLeaf.get? i).isSome := by
    obtain ⟨i, leaf, p, m, hget, -⟩ := exists_opened hw hne
    have hfst := hsame.proofs i
    rw [show w.leaves.indexToLeaf.get? i = some (p, m) from hget] at hfst
    obtain ⟨e, hget', -⟩ := Option.map_eq_some_iff.mp hfst
    exact ⟨i, by rw [hright.kept hget']; rfl⟩
  -- the digests
  obtain ⟨a, hmerge, hread, hwrite⟩ := pass_complete (h := h) hf.empty hp htrue
    (fun i p m hi => (hleaves i p m hi).2.2) (by rw [hlen, hw.length]; exact hb.room)
    (fun hnew => ⟨hpos, hrightmost hnew⟩) hopened
  refine ⟨l.after saved f, ?_, hres⟩
  have hchange := root_ne hleaf hnode hf hb hres
  have hcounter : w.nextFreeSlot = saved + numNewWrites source := by rw [hw.ok.counter, hw.length]
  have hreads : verifyReads flatKey oracle saved source = some c := hreads
  have hwrites : applyWrites flatKey oracle saved c source = some w := hwrites
  rw [verifyAndApplyBatch, if_neg (by simpa using hne)]
  simp only [hreads, hwrites, hadjust, hmerge, hread, Option.bind_eq_bind, Option.bind_some, guard_true, Option.pure_def,
    hcounter]
  cases ha : a.write with
  | some newRoot =>
    rw [ha, Option.getD_some] at hwrite
    rw [hwrite]
    dsimp only
    split
    · next htotal => simp [hchange htotal]
    · rfl
  | none =>
    rw [ha, Option.getD_none] at hwrite
    have hzero : numNewWrites source = 0 := by
      by_contra hnew
      refine hchange ?_ hwrite.symm
      exact (Nat.pos_of_ne_zero hnew).trans_le (List.countP_mono_left fun e _ he => by simp at he; simp [he])
    simp [hzero, hwrite]

end ZkOs.Tree
