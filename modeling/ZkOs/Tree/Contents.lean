import ZkOs.Tree.Pass

/-!
# The tree after a batch

* `WellFormed f size` : the leaves below `size` form one sorted list between the guards, the others are empty;
* `contents` : the values by key, `applied` : the contents with the writes of a batch;
* `Collected`, `collected` : what the two loops over the entries leave in the caches;
* `adjustIndexes_after` : the leaves after the links;
* `after_wellFormed`, `after_contents` : if the opened leaves are those of the tree, the leaves after the batch are
  well formed and hold the contents with the writes.
-/

namespace ZkOs.Tree

variable {D : Type} {n : Nat} {f : Nat → FlatStorageLeaf} {size saved : Nat}

/-! ## Well-formed trees -/

/-- The leaves below `size` form one linked list with growing keys, from the key `0` to the greatest one, and the other
leaves are empty. -/
structure WellFormed (f : Nat → FlatStorageLeaf) (size : Nat) : Prop where
  links : ∃ first last walk, Walk (fun i => (f i).key) (fun i => (f i).next) {i | i < size} first last walk ∧
    (f first).key = 0 ∧ (f last).key = maxKey
  empty : ∀ i, size ≤ i → f i = .empty

theorem WellFormed.linked (hf : WellFormed f size) :
    ∃ first last, Linked (fun i => (f i).key) (fun i => (f i).next) {i | i < size} first last ∧
      (f first).key = 0 ∧ (f last).key = maxKey := by
  obtain ⟨first, last, walk, hwalk, hkeys⟩ := hf.links
  exact ⟨first, last, hwalk.linked, hkeys⟩

theorem wellFormed_of_linked {first last : Nat}
    (hl : Linked (fun i => (f i).key) (fun i => (f i).next) {i | i < size} first last)
    (hfirst : (f first).key = 0) (hlast : (f last).key = maxKey) (hempty : ∀ i, size ≤ i → f i = .empty) :
    WellFormed f size := by
  obtain ⟨walk, hwalk⟩ := (linked_iff_exists_walk (Set.finite_lt_nat size)).mp hl
  exact ⟨⟨first, last, walk, hwalk, hfirst, hlast⟩, hempty⟩

def contents (f : Nat → FlatStorageLeaf) (size : Nat) (k : Bytes32) : Option Bytes32 :=
  ((List.range size).find? fun i => (f i).key = k).map fun i => (f i).value

variable {k : Bytes32} {i : Nat} {w : Writes D n} {e : LeafProof D n × Option LeafUpdateRecord} {indices : List Nat}

theorem contents_eq_none_iff : contents f size k = none ↔ ∀ i < size, (f i).key ≠ k := by
  simp [contents]

theorem WellFormed.contents_eq_some (hf : WellFormed f size) (hi : i < size) :
    contents f size (f i).key = some (f i).value := by
  obtain ⟨first, last, hl, -⟩ := hf.linked
  cases hfind : (List.range size).find? fun j => decide ((f j).key = (f i).key) with
  | none =>
    have := List.find?_eq_none.mp hfind i (List.mem_range.mpr hi)
    simp at this
  | some j =>
    have hj : j < size := List.mem_range.mp (List.mem_of_find?_eq_some hfind)
    have hkey : (f j).key = (f i).key := by simpa using List.find?_some hfind
    obtain rfl : j = i := hl.injOn hj hi hkey
    rw [contents, hfind]
    rfl

theorem exists_of_contents {v : Bytes32} (hk : contents f size k = some v) :
    ∃ i < size, (f i).key = k ∧ (f i).value = v := by
  obtain ⟨i, hfind, hv⟩ := Option.map_eq_some_iff.mp hk
  exact ⟨i, List.mem_range.mp (List.mem_of_find?_eq_some hfind), by simpa using List.find?_some hfind, hv⟩

variable {Key : Type} {flatKey : Key → Bytes32} {source : List (Key × WarmStorageValue)}

def applied (flatKey : Key → Bytes32) (source : List (Key × WarmStorageValue)) (old : Bytes32 → Option Bytes32)
    (k : Bytes32) : Option Bytes32 :=
  match source.find? fun e => !isRead e && flatKey e.1 = k with
  | some e => some e.2.currentValue
  | none => old k

/-! ## The caches after the two loops -/

/-- The leaves of the caches and the new ones. -/
def Writes.leaves (w : Writes D n) : Leaves D n := ⟨w.caches.indexToLeaf, w.newWrites⟩

/-- What the two loops over the entries leave. -/
structure Collected (saved : Nat) (flatKey : Key → Bytes32) (source : List (Key × WarmStorageValue)) (w : Writes D n) :
    Prop where
  ok : WritesOk saved w
  reads : ∀ e ∈ source, isRead e = true → ReadDone saved w.caches (flatKey e.1) e.2
  writes : ∀ e ∈ source, isRead e = false → WriteDone saved w (flatKey e.1) e.2
  modified : ∀ i r, w.caches.modified i = some r → ∃ e ∈ source, isRead e = false ∧ e.2.isNewStorageSlot = false ∧
    r = ⟨some e.2.currentValue, none⟩ ∧ ∃ leaf, Opened w.caches i leaf ∧ leaf.key = flatKey e.1
  newWrites : w.newWrites.map Prod.snd =
    (source.filter fun e => !isRead e && e.2.isNewStorageSlot).map fun e => appended (flatKey e.1) e.2

theorem newEntries_eq : (source.filter fun e => !isRead e).filter (fun e => e.2.isNewStorageSlot) =
    source.filter fun e => !isRead e && e.2.isNewStorageSlot := by
  rw [List.filter_filter]
  congr 1
  funext e
  exact Bool.and_comm _ _

theorem collected {oracle : BatchOracle D n} (hk : ∀ e ∈ source, flatKey e.1 ≠ 0)
    (hroom : saved + numNewWrites source < 2 ^ 64) {c : Caches D n}
    (hreads : verifyReads flatKey oracle saved source = some c)
    (hwrites : applyWrites flatKey oracle saved c source = some w) : Collected saved flatKey source w := by
  obtain ⟨hc, hg, hdone⟩ := verifyReads_run _ (fun e he => hk e (List.mem_filter.mp he).1) cacheOk_empty hreads
  have hnone : ∀ i, c.modified i = none := fun i => hg.modified i
  have hw : WritesOk saved (⟨c, [], saved⟩ : Writes D n) := ⟨hc, rfl, rfl⟩
  have hr := applyWrites_run _ (fun e he => hk e (List.mem_filter.mp he).1)
    (by rw [newEntries_eq, ← List.countP_eq_length_filter]; exact hroom) hw hwrites
  refine ⟨hr.ok, fun e he hread => ?_, fun e he hwrite => ?_, fun i r hr' => ?_, ?_⟩
  · exact (hdone e (List.mem_filter.mpr ⟨he, hread⟩)).mono hr.opened
  · exact hr.done e (List.mem_filter.mpr ⟨he, by rw [hwrite]; rfl⟩)
  · rcases hr.modified_only i r hr' with hold | ⟨e, he, hmore⟩
    · rw [show (⟨c, [], saved⟩ : Writes D n).caches.modified i = none from hnone i] at hold
      cases hold
    · obtain ⟨he, hwrite⟩ := List.mem_filter.mp he
      exact ⟨e, he, by simpa using hwrite, hmore⟩
  · rw [hr.newWrites, newEntries_eq]
    rfl

namespace Collected

variable {w : Writes D n} (hw : Collected saved flatKey source w)

include hw

theorem length : w.newWrites.length = numNewWrites source := by
  rw [← List.length_map (f := Prod.snd), hw.newWrites, List.length_map, numNewWrites, List.countP_eq_length_filter]

theorem new_leaf {e : Nat × FlatStorageLeaf} (he : e ∈ w.newWrites) :
    ∃ e' ∈ source, isRead e' = false ∧ e'.2.isNewStorageSlot = true ∧ e.2 = appended (flatKey e'.1) e'.2 := by
  have hmem := List.mem_map_of_mem (f := Prod.snd) he
  rw [hw.newWrites] at hmem
  obtain ⟨e', he', heq⟩ := List.mem_map.mp hmem
  obtain ⟨he', hcond⟩ := List.mem_filter.mp he'
  obtain ⟨hwrite, hnew⟩ : isRead e' = false ∧ e'.2.isNewStorageSlot = true := by simpa using hcond
  exact ⟨e', he', hwrite, hnew, heq.symm⟩

theorem isSome_leafOf {i : Nat} (hi : i ∈ w.caches.keyToIndex.entries.map Prod.snd) :
    (w.leaves.leafOf saved i).isSome := by
  obtain ⟨⟨k, j⟩, he, rfl⟩ := List.mem_map.mp hi
  rcases (hw.ok.cache.keys k j).mp (OrderedMap.mem_entries.mp he) with ⟨leaf, ⟨p, m, hp, -⟩, -⟩ | ⟨leaf, hmem, -⟩
  · rw [Leaves.leafOf, show w.leaves.indexToLeaf.get? j = some (p, m) from hp]
    rfl
  · obtain ⟨hle, -, hget⟩ := NewPlaced.mem (l := w.leaves) hw.ok.positions hmem
    rw [Leaves.leafOf]
    cases w.leaves.indexToLeaf.get? j with
    | some e => rfl
    | none =>
      dsimp only at hget ⊢
      rw [if_pos hle, hget]
      rfl

theorem unlinked (i : Nat) : Unlinked w.leaves i := by
  intro p m hi
  have hm : w.caches.modified i = some m := by
    rw [Caches.modified, show w.caches.indexToLeaf.get? i = some (p, some m) from hi]
    rfl
  obtain ⟨e, -, -, -, rfl, -⟩ := hw.modified i m hm
  rfl

end Collected

/-! ## The leaves after the links -/

variable {l l' : Leaves D n} {oracle : BatchOracle D n}

/-- The rightmost leaf is opened if it was not. -/
inductive Rightmost (oracle : BatchOracle D n) (saved : Nat) (l : Leaves D n) : Leaves D n → Prop
  | same : Rightmost oracle saved l l
  | opened (asked : Nat) (hnone : l.indexToLeaf.get? (saved - 1) = none) (hnew : l.newWrites ≠ []) :
      Rightmost oracle saved l
        { l with indexToLeaf := l.indexToLeaf.insert (saved - 1) (oracle.proof asked (saved - 1), none) }

theorem Rightmost.kept (hr : Rightmost oracle saved l l') (hi : l.indexToLeaf.get? i = some e)
    : l'.indexToLeaf.get? i = some e := by
  cases hr with
  | same => exact hi
  | opened asked hnone =>
    rw [OrderedMap.get?_insert_of_ne]
    · exact hi
    · rintro rfl
      rw [hnone] at hi
      cases hi

theorem Rightmost.only (hr : Rightmost oracle saved l l') (hi : l'.indexToLeaf.get? i = some e)
    : l.indexToLeaf.get? i = some e ∨
      i = saved - 1 ∧ l.newWrites ≠ [] ∧ ∃ asked, e.1 = oracle.proof asked i := by
  cases hr with
  | same => exact .inl hi
  | opened asked hnone hnew =>
    by_cases heq : i = saved - 1
    · subst heq
      rw [OrderedMap.get?_insert_self] at hi
      cases hi
      exact .inr ⟨rfl, hnew, asked, rfl⟩
    · rw [OrderedMap.get?_insert_of_ne _ _ heq] at hi
      exact .inl hi

theorem Rightmost.newWrites (hr : Rightmost oracle saved l l') : l'.newWrites = l.newWrites := by
  cases hr <;> rfl

theorem Rightmost.after (hr : Rightmost oracle saved l l') (hpos : l.newWrites ≠ [] → 0 < saved) (htrue : OpenedTrue f l') :
    l'.after saved f = l.after saved f := by
  cases hr with
  | same => rfl
  | opened asked hnone hnew =>
    have hpos := hpos hnew
    funext i
    by_cases hi : i = saved - 1
    · subst hi
      have hself := OrderedMap.get?_insert_self l.indexToLeaf (saved - 1)
        (oracle.proof asked (saved - 1), (none : Option LeafUpdateRecord))
      have hnot : ¬ saved ≤ saved - 1 := by omega
      rw [after_of_opened hself]
      simp only [Leaves.after, Leaves.leafOf, hnone, hnot, ↓reduceIte, Option.getD_none]
      exact htrue _ _ none hself
    · rw [Leaves.after, Leaves.after, Leaves.leafOf, Leaves.leafOf, OrderedMap.get?_insert_of_ne _ _ hi]

theorem adjustIndexes_eq_some (hw : Collected saved flatKey source w)
    (hrun : adjustIndexes oracle saved w source = some l) :
    ∃ l1, (numNonexistingReads source + numNewWrites source = 0 ∧ l1 = w.leaves ∨
        relink saved w.leaves (w.caches.keyToIndex.entries.map Prod.snd) = some l1) ∧
      Rightmost oracle saved l1 l ∧ SameProofs w.leaves l1 ∧ (l.newWrites ≠ [] → (l.indexToLeaf.get? (saved - 1)).isSome) := by
  rw [adjustIndexes] at hrun
  split at hrun
  · next hzero =>
    cases hrun
    refine ⟨w.leaves, .inl ⟨hzero, rfl⟩, .same, .refl _, fun hne => ?_⟩
    have hlen : w.newWrites.length = 0 := by rw [hw.length]; omega
    exact absurd (List.eq_nil_of_length_eq_zero hlen) hne
  · obtain ⟨l1, hlink, hrun⟩ := Option.bind_eq_some_iff.mp hrun
    have hsame := relink_same hlink
    have hlen : l1.newWrites.length = numNewWrites source := hsame.length.trans hw.length
    split at hrun
    · next hpos =>
      have hnew : l1.newWrites ≠ [] := by
        rintro heq
        rw [heq, List.length_nil] at hlen
        omega
      rw [openRightmost] at hrun
      split at hrun
      · next e he =>
        cases hrun
        exact ⟨_, .inr hlink, .same, hsame, fun _ => by rw [he]; rfl⟩
      · next hnone =>
        simp only [Option.bind_eq_bind, Option.bind_eq_some_iff, Option.pure_def, Option.some.injEq] at hrun
        obtain ⟨_, -, rfl⟩ := hrun
        exact ⟨l1, .inr hlink, .opened _ hnone hnew, hsame, fun _ => by rw [OrderedMap.get?_insert_self]; rfl⟩
    · next hzero =>
      cases hrun
      refine ⟨_, .inr hlink, .same, hsame, fun hne => ?_⟩
      exact absurd (List.eq_nil_of_length_eq_zero (hlen.trans (by omega))) hne

theorem linkRun_old (hp : Placed saved l) (hnew : l.newWrites = []) (hmem : ∀ i ∈ indices, (l.leafOf saved i).isSome)
    : LinkRun saved l l indices := by
  have hlt : ∀ i, (l.leafOf saved i).isSome → i < saved := by
    intro i hi
    by_contra hle
    have hnone : l.indexToLeaf.get? i = none := by
      by_contra hsome
      exact hle (hp.opened i (Option.ne_none_iff_isSome.mp hsome))
    rw [Leaves.leafOf, hnone, hnew] at hi
    simp at hi
  intro i
  cases hi : l.leafOf saved i with
  | none => rfl
  | some leaf =>
    have hold : linkTarget saved indices i leaf.next = leaf.next := by
      rw [linkTarget]
      split
      · next j hj =>
        have hi' := hlt i (by rw [hi]; rfl)
        have hj' := hlt j (hmem j (mem_of_nextIn hj).2)
        exact if_neg (by omega)
      · rfl
    rw [Option.map_some, hold]

theorem LinkRun.after (hr : LinkRun saved l l' indices) (hmem : ∀ i ∈ indices, (l.leafOf saved i).isSome) (i : Nat) :
    l'.after saved f i = { l.after saved f i with next := linkTarget saved indices i (l.after saved f i).next } := by
  rw [Leaves.after, Leaves.after, hr i]
  cases hi : l.leafOf saved i with
  | some leaf => rfl
  | none =>
    have hnot : i ∉ indices := by
      intro hin
      have := hmem i hin
      rw [hi] at this
      cases this
    rw [Option.map_none, Option.getD_none, linkTarget_of_none (nextIn_of_not_mem hnot)]

/-! ## The batch on the leaves of the tree -/

section Leaves

variable {w : Writes D n} (hw : Collected saved flatKey source w) (hp : Placed saved w.leaves)
  (htrue : OpenedTrue f w.leaves)

variable {i : Nat} {leaf : FlatStorageLeaf} {e : Key × WarmStorageValue}

include htrue in
theorem opened_eq (ho : Opened w.caches i leaf) : leaf = f i := by
  obtain ⟨p, m, hi, rfl⟩ := ho
  exact htrue i p m hi

include hp in
theorem opened_lt_saved (ho : Opened w.caches i leaf) : i < saved := hp.opened i ho.isSome

include hw htrue in
theorem after_old (hi : i < saved) : w.leaves.after saved f i =
    { f i with value := ((w.caches.modified i).bind LeafUpdateRecord.value).getD (f i).value } := by
  cases hget : w.caches.indexToLeaf.get? i with
  | none =>
    have hnot : i ∉ onPaths saved w.leaves := by
      rintro (hsome | ⟨hle, -⟩)
      · rw [show w.leaves.indexToLeaf.get? i = none from hget] at hsome
        cases hsome
      · exact absurd hi hle.not_gt
    rw [after_of_not_mem hnot, Caches.modified, hget]
    rfl
  | some e =>
    obtain ⟨p, m⟩ := e
    have hm : w.caches.modified i = m := by rw [Caches.modified, hget]; rfl
    rw [after_of_opened (l := w.leaves) hget, hm, ← htrue i p m hget]
    cases m with
    | none => rfl
    | some r =>
      obtain ⟨e, -, -, -, rfl, -⟩ := hw.modified i r hm
      rfl

include hw hp in
theorem after_new (hi : saved ≤ i) (hi' : i < saved + w.newWrites.length) :
    ∃ e ∈ source, isRead e = false ∧ e.2.isNewStorageSlot = true ∧
      w.leaves.after saved f i = appended (flatKey e.1) e.2 := by
  obtain ⟨leaf, hmem, -⟩ := NewPlaced.exists (l := w.leaves) hp.new hi hi'
  obtain ⟨e, he, hwrite, hnew, heq⟩ := hw.new_leaf hmem
  refine ⟨e, he, hwrite, hnew, ?_⟩
  rw [after_of_new hp hmem]
  exact heq

include hw hp in
theorem exists_after_new (he : e ∈ source) (hwrite : isRead e = false) (hnew : e.2.isNewStorageSlot = true) :
    ∃ i, saved ≤ i ∧ i < saved + w.newWrites.length ∧ w.leaves.after saved f i = appended (flatKey e.1) e.2 := by
  have hmem : appended (flatKey e.1) e.2 ∈ w.newWrites.map Prod.snd := by
    rw [hw.newWrites]
    exact List.mem_map_of_mem (List.mem_filter.mpr ⟨he, by rw [hwrite, hnew]; rfl⟩)
  obtain ⟨x, hx, heq⟩ := List.mem_map.mp hmem
  obtain ⟨hle, hlt, -⟩ := NewPlaced.mem (l := w.leaves) hp.new hx
  exact ⟨x.1, hle, hlt, by rw [after_of_new hp hx, heq]⟩

include hw hp htrue

theorem extends_after : Extends (fun i => (f i).key) (fun i => (f i).next) saved (saved + w.newWrites.length)
    {i | (w.caches.indexToLeaf.get? i).isSome} (fun i => (w.leaves.after saved f i).key) w.caches.keyToIndex := by
  have hkey : ∀ i < saved, (w.leaves.after saved f i).key = (f i).key := by
    intro i hi
    rw [after_old hw htrue hi]
  refine ⟨Nat.le_add_right _ _, fun i hi => hp.opened i hi, hkey, fun k i => ?_, fun i hi hi' => ?_⟩
  · rw [hw.ok.cache.keys]
    constructor
    · rintro (⟨leaf, ho, rfl⟩ | ⟨leaf, hmem, rfl⟩)
      · refine ⟨?_, .inl ho.isSome⟩
        show (w.leaves.after saved f i).key = _
        rw [hkey i (opened_lt_saved hp ho), opened_eq htrue ho]
      · obtain ⟨hle, hlt, -⟩ := NewPlaced.mem (l := w.leaves) hp.new hmem
        exact ⟨congrArg FlatStorageLeaf.key (after_of_new hp hmem), .inr ⟨hle, hlt⟩⟩
    · rintro ⟨rfl, hi | ⟨hle, hlt⟩⟩
      · obtain ⟨⟨p, m⟩, hget⟩ := Option.isSome_iff_exists.mp hi
        refine .inl ⟨p.leaf, ⟨p, m, hget, rfl⟩, ?_⟩
        show _ = (w.leaves.after saved f i).key
        rw [hkey i (hp.opened i hi), htrue i p m hget]
      · obtain ⟨leaf, hmem, -⟩ := NewPlaced.exists (l := w.leaves) hp.new hle hlt
        exact .inr ⟨leaf, hmem, (congrArg FlatStorageLeaf.key (after_of_new hp hmem)).symm⟩
  · obtain ⟨e, he, hwrite, hnew, heq⟩ := after_new (f := f) hw hp hi hi'
    obtain ⟨p, leaf, leaf', hps, ho, ho', hlt, hlt'⟩ := (hw.writes e he hwrite).new hnew
    obtain rfl := opened_eq htrue ho
    obtain rfl := opened_eq htrue ho'
    refine ⟨p, ho.isSome, ho'.isSome, ?_, ?_⟩
    · show _ < (w.leaves.after saved f i).key
      rw [heq]
      exact hlt
    · show (w.leaves.after saved f i).key < _
      rw [heq]
      exact hlt'

theorem adjustIndexes_after (hrun : adjustIndexes oracle saved w source = some l)
    (htrue' : OpenedTrue f l) (i : Nat) :
    l.after saved f i = { w.leaves.after saved f i with
      next := linkTarget saved (w.caches.keyToIndex.entries.map Prod.snd) i (w.leaves.after saved f i).next } := by
  obtain ⟨l1, hlink, hright, hsame, -⟩ := adjustIndexes_eq_some hw hrun
  have hmem : ∀ i ∈ w.caches.keyToIndex.entries.map Prod.snd, (w.leaves.leafOf saved i).isSome :=
    fun i => hw.isSome_leafOf
  have hr : LinkRun saved w.leaves l1 (w.caches.keyToIndex.entries.map Prod.snd) := by
    rcases hlink with ⟨hzero, rfl⟩ | hlink
    · refine linkRun_old hp (List.eq_nil_of_length_eq_zero ?_) hmem
      show w.newWrites.length = 0
      rw [hw.length]
      omega
    · exact relink_spec hp (extends_after hw hp htrue).values_nodup (fun i _ => hw.unlinked i) hlink
  have hpos : l1.newWrites ≠ [] → 0 < saved := by
    intro hne
    have hlt : saved < saved + w.newWrites.length := by
      have := List.length_pos_of_ne_nil hne
      rw [hsame.length] at this
      exact Nat.lt_add_of_pos_right this
    obtain ⟨p, hp', -⟩ := (extends_after hw hp htrue).around saved le_rfl hlt
    exact (Nat.zero_le p).trans_lt (hp.opened p hp')
  rw [hright.after hpos htrue']
  exact hr.after hmem i

theorem after_wellFormed (hf : WellFormed f saved)
    (hrun : adjustIndexes oracle saved w source = some l) (htrue' : OpenedTrue f l) :
    WellFormed (l.after saved f) (saved + w.newWrites.length) := by
  obtain ⟨first, last, hl, hfirst, hlast⟩ := hf.linked
  have he := extends_after hw hp htrue
  have hafter := adjustIndexes_after hw hp htrue hrun htrue'
  have hkey : (fun i => (l.after saved f i).key) = fun i => (w.leaves.after saved f i).key := by
    funext i
    rw [hafter i]
  have hlinked : Linked (fun i => (l.after saved f i).key) (fun i => (l.after saved f i).next)
      {i | i < saved + w.newWrites.length} first last := by
    rw [hkey]
    refine he.linked hl (fun i hi => ?_) (fun i hi hnot => ?_) fun i hi hi' => ⟨_, by rw [hafter i]⟩
    · rw [hafter i, after_old hw htrue (hp.opened i hi)]
    · rw [hafter i, after_old hw htrue hi]
      refine linkTarget_of_none (nextIn_of_not_mem fun hmem => hnot ?_) _
      obtain ⟨⟨k, j⟩, hentry, rfl⟩ := List.mem_map.mp hmem
      exact ((he.keys k j).mp (OrderedMap.mem_entries.mp hentry)).2.resolve_right fun hnew =>
        absurd hi hnew.1.not_gt
  refine wellFormed_of_linked hlinked ?_ ?_ fun i hi => ?_
  · rw [congrFun hkey first, after_old hw htrue hl.first_mem]
    exact hfirst
  · rw [congrFun hkey last, after_old hw htrue hl.last_mem]
    exact hlast
  · have hnot : i ∉ onPaths saved w.leaves := by
      rintro (hsome | ⟨-, hlt⟩)
      · exact absurd (hp.opened i hsome) (by omega)
      · exact absurd hlt hi.not_gt
    have hindex : i ∉ w.caches.keyToIndex.entries.map Prod.snd := by
      intro hmem
      obtain ⟨⟨k, j⟩, hentry, rfl⟩ := List.mem_map.mp hmem
      rcases ((he.keys k j).mp (OrderedMap.mem_entries.mp hentry)).2 with hopened | hnew
      · exact hnot (.inl hopened)
      · exact hnot (.inr hnew)
    rw [hafter i, after_of_not_mem hnot, linkTarget_of_none (nextIn_of_not_mem hindex)]
    exact hf.empty i (by omega)

theorem after_contents (hf : WellFormed f saved)
    (hrun : adjustIndexes oracle saved w source = some l) (htrue' : OpenedTrue f l) (k : Bytes32) :
    contents (l.after saved f) (saved + w.newWrites.length) k = applied flatKey source (contents f saved) k := by
  have hf' := after_wellFormed hw hp htrue hf hrun htrue'
  have hafter := adjustIndexes_after hw hp htrue hrun htrue'
  have hkey : ∀ i, (l.after saved f i).key = (w.leaves.after saved f i).key := fun i => by rw [hafter i]
  have hvalue : ∀ i, (l.after saved f i).value = (w.leaves.after saved f i).value := fun i => by rw [hafter i]
  rw [applied]
  cases hfind : source.find? fun e => !isRead e && decide (flatKey e.1 = k) with
  | some e =>
    have he := List.mem_of_find?_eq_some hfind
    obtain ⟨hwrite, hk⟩ : isRead e = false ∧ flatKey e.1 = k := by simpa using List.find?_some hfind
    -- the leaf of the write has its key and its value
    obtain ⟨i, hi, hleaf⟩ : ∃ i < saved + w.newWrites.length, (w.leaves.after saved f i).key = k ∧
        (w.leaves.after saved f i).value = e.2.currentValue := by
      cases hnew : e.2.isNewStorageSlot with
      | true =>
        obtain ⟨i, -, hi, heq⟩ := exists_after_new (f := f) hw hp he hwrite hnew
        exact ⟨i, hi, by rw [heq]; exact hk, by rw [heq]; rfl⟩
      | false =>
        obtain ⟨i, leaf, ho, hleaf, -, hm⟩ := (hw.writes e he hwrite).existing hnew
        have hi := opened_lt_saved hp ho
        obtain rfl := opened_eq htrue ho
        refine ⟨i, by omega, ?_, ?_⟩
        · rw [after_old hw htrue hi]
          exact hleaf.trans hk
        · rw [after_old hw htrue hi, hm]
          rfl
    have hcontents := hf'.contents_eq_some hi
    rw [hkey, hvalue, hleaf.1, hleaf.2] at hcontents
    exact hcontents
  | none =>
    have hno : ∀ e ∈ source, isRead e = false → flatKey e.1 ≠ k := by
      intro e he hwrite hk
      have := List.find?_eq_none.mp hfind e he
      simp [hwrite, hk] at this
    have hsame : ∀ i < saved, (f i).key = k → (l.after saved f i).value = (f i).value := by
      intro i hi hk
      rw [hvalue, after_old hw htrue hi]
      cases hm : w.caches.modified i with
      | none => rfl
      | some r =>
        obtain ⟨e, he, hwrite, -, -, leaf, ho, hleaf⟩ := hw.modified i r hm
        obtain rfl := opened_eq htrue ho
        exact absurd (hleaf.symm.trans hk) (hno e he hwrite)
    have hkeep : ∀ i < saved, (l.after saved f i).key = (f i).key := by
      intro i hi
      rw [hkey, after_old hw htrue hi]
    show _ = contents f saved k
    by_cases hex : ∃ i < saved, (f i).key = k
    · obtain ⟨i, hi, rfl⟩ := hex
      rw [hf.contents_eq_some hi, ← hsame i hi rfl, ← hkeep i hi]
      exact hf'.contents_eq_some (by omega)
    · have hnone : contents f saved k = none :=
        contents_eq_none_iff.mpr fun i hi hk => hex ⟨i, hi, hk⟩
      rw [hnone, contents_eq_none_iff]
      intro i hi hk
      by_cases hold : i < saved
      · exact hex ⟨i, hold, (hkeep i hold).symm.trans hk⟩
      · obtain ⟨e, he, hwrite, -, heq⟩ := after_new (f := f) hw hp (not_lt.mp hold) hi
        rw [hkey, heq] at hk
        exact hno e he hwrite hk

/-- What an entry says of the tree: a slot is new if its key is absent, and the value of another is the one that the
entry starts from. -/
theorem entry_sound (hf : WellFormed f saved) (he : e ∈ source) :
    (e.2.isNewStorageSlot = true ↔ contents f saved (flatKey e.1) = none) ∧
    (e.2.isNewStorageSlot = false → contents f saved (flatKey e.1) = some e.2.initialValue) ∧
    (isRead e = true → e.2.isNewStorageSlot = true → e.2.initialValue = 0) := by
  obtain ⟨first, last, hl, -⟩ := hf.linked
  have habsent : Around saved w.caches (flatKey e.1) → contents f saved (flatKey e.1) = none := by
    rintro ⟨p, leaf, leaf', hps, ho, ho', hlt, hlt'⟩
    obtain rfl := opened_eq htrue ho
    obtain rfl := opened_eq htrue ho'
    have hnext := opened_lt_saved hp ho'
    refine contents_eq_none_iff.mpr fun i hi => ?_
    exact hl.gap hps (hl.ne_last (hlt.trans hlt') (hl.le_last _ hnext)) hlt hlt' hi
  have hpresent : (∃ i leaf, Opened w.caches i leaf ∧ leaf.key = flatKey e.1 ∧ leaf.value = e.2.initialValue) →
      contents f saved (flatKey e.1) = some e.2.initialValue := by
    rintro ⟨i, leaf, ho, hkey, hvalue⟩
    have hi := opened_lt_saved hp ho
    obtain rfl := opened_eq htrue ho
    rw [← hkey, ← hvalue]
    exact hf.contents_eq_some hi
  have hnew : e.2.isNewStorageSlot = true → contents f saved (flatKey e.1) = none := by
    intro hnew
    cases hread : isRead e with
    | true => exact habsent ((hw.reads e he hread).new hnew).2
    | false => exact habsent ((hw.writes e he hread).new hnew)
  have hold : e.2.isNewStorageSlot = false → contents f saved (flatKey e.1) = some e.2.initialValue := by
    intro hold
    cases hread : isRead e with
    | true =>
      obtain ⟨i, leaf, ho, hkey, hvalue⟩ := (hw.reads e he hread).existing hold
      have hsame : e.2.currentValue = e.2.initialValue := by simpa [isRead] using hread
      exact hpresent ⟨i, leaf, ho, hkey, hvalue.trans hsame⟩
    | false =>
      obtain ⟨i, leaf, ho, hkey, hvalue, -⟩ := (hw.writes e he hread).existing hold
      exact hpresent ⟨i, leaf, ho, hkey, hvalue⟩
  refine ⟨⟨hnew, fun hnone => ?_⟩, hold, fun hread hnew => ((hw.reads e he hread).new hnew).1⟩
  cases hslot : e.2.isNewStorageSlot with
  | true => rfl
  | false =>
    rw [hold hslot] at hnone
    cases hnone

end Leaves

end ZkOs.Tree
