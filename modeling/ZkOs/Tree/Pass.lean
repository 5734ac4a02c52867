import ZkOs.Tree.Crossing
import ZkOs.Tree.Relink

/-!
# The old and the new root of a batch

* `Leaves.after` : the leaves of the tree after the batch;
* `entries_ascending`, `entries_writeOk`, `entries_newOk`, `entries_onPaths` : the nodes that the pass starts with;
* `pass_sound` : if the pass ends with the old root, the opened leaves are leaves of the tree, and the new root is that
  of the leaves after the batch;
* `pass_complete` : with honest leaves and paths it ends with both roots.
-/

namespace ZkOs.Tree

open Merkle (subtree)

variable {D : Type} {n : Nat} {h : FlatStorageHasher D} {l : Leaves D n} {saved : Nat} {f : Nat → FlatStorageLeaf}

def Leaves.after (saved : Nat) (f : Nat → FlatStorageLeaf) (l : Leaves D n) (i : Nat) : FlatStorageLeaf :=
  (l.leafOf saved i).getD (f i)

def leafDigests (h : FlatStorageHasher D) (f : Nat → FlatStorageLeaf) (i : Nat) : D := h.hashLeaf (f i)

/-- The positions on the paths: those of opened and of new leaves. -/
def onPaths (saved : Nat) (l : Leaves D n) : Set Nat :=
  {i | (l.indexToLeaf.get? i).isSome ∨ saved ≤ i ∧ i < saved + l.newWrites.length}

def openedEntry (h : FlatStorageHasher D) (e : Nat × LeafProof D n × Option LeafUpdateRecord) : HashEntry D :=
  ⟨e.1, e.1, some (h.hashLeaf e.2.1.leaf), e.2.2.map fun m => h.hashLeaf (updatedLeaf e.2.1.leaf m)⟩

def newEntry (h : FlatStorageHasher D) (e : Nat × FlatStorageLeaf) : HashEntry D :=
  ⟨e.1, e.1, none, some (h.hashLeaf e.2)⟩

theorem hashEntries_eq :
    hashEntries h l = l.indexToLeaf.entries.map (openedEntry h) ++ l.newWrites.map (newEntry h) := rfl

def NewPlaced (saved : Nat) (l : Leaves D n) : Prop := l.newWrites.map Prod.fst = List.range' saved l.newWrites.length

variable {e : Nat × FlatStorageLeaf} {i : Nat} {a : HashEntry D}

theorem NewPlaced.getElem? (hnew : NewPlaced saved l) {k : Nat} (hk : l.newWrites[k]? = some e)
    : e.1 = saved + k ∧ k < l.newWrites.length := by
  have hpos := congrArg (fun xs => xs[k]?) hnew
  have hlt := (List.getElem?_eq_some_iff.mp hk).1
  simp only [List.getElem?_map, hk, Option.map_some, List.getElem?_range', hlt, Nat.one_mul,
    Option.some.injEq] at hpos
  exact ⟨hpos, hlt⟩

theorem NewPlaced.mem (hnew : NewPlaced saved l) (he : e ∈ l.newWrites) :
    saved ≤ e.1 ∧ e.1 < saved + l.newWrites.length ∧ l.newWrites[e.1 - saved]? = some e := by
  obtain ⟨k, hk⟩ := List.getElem?_of_mem he
  obtain ⟨hpos, hlt⟩ := hnew.getElem? hk
  refine ⟨by omega, by omega, ?_⟩
  rw [hpos, Nat.add_sub_cancel_left, hk]

theorem NewPlaced.exists (hnew : NewPlaced saved l) (hi : saved ≤ i) (hi' : i < saved + l.newWrites.length) :
    ∃ leaf, (i, leaf) ∈ l.newWrites ∧ l.newWrites[i - saved]? = some (i, leaf) := by
  obtain ⟨e, he⟩ : ∃ e, l.newWrites[i - saved]? = some e :=
    ⟨_, List.getElem?_eq_getElem (by omega)⟩
  obtain ⟨hpos, -⟩ := hnew.getElem? he
  have heq : e = (i, e.2) := Prod.ext (by show e.1 = i; omega) rfl
  rw [heq] at he
  exact ⟨e.2, List.mem_of_getElem? he, he⟩

theorem openedEntries_ascending : Ascending (l.indexToLeaf.entries.map (openedEntry h)) :=
  List.pairwise_map.mpr l.indexToLeaf.sorted

theorem newEntries_ascending (hnew : NewPlaced saved l) : Ascending (l.newWrites.map (newEntry h)) := by
  have hsorted : (l.newWrites.map Prod.fst).Pairwise (· < ·) := by
    rw [hnew]
    exact List.pairwise_lt_range'
  exact List.pairwise_map.mpr (List.pairwise_map.mp hsorted)

theorem entries_ascending (hp : Placed saved l) : Ascending (hashEntries h l) := by
  refine List.pairwise_append.mpr ⟨openedEntries_ascending, newEntries_ascending hp.new, fun a ha b hb => ?_⟩
  obtain ⟨e, he, rfl⟩ := List.mem_map.mp ha
  obtain ⟨e', he', rfl⟩ := List.mem_map.mp hb
  have hlt := hp.opened e.1 (by rw [OrderedMap.mem_entries.mp he]; rfl)
  have hle := (NewPlaced.mem hp.new he').1
  exact hlt.trans_le hle

theorem after_of_opened {p : LeafProof D n} {m : Option LeafUpdateRecord} (hi : l.indexToLeaf.get? i = some (p, m))
    : l.after saved f i = m.elim p.leaf (updatedLeaf p.leaf) := by
  rw [Leaves.after, Leaves.leafOf, hi]
  rfl

theorem after_of_new (hp : Placed saved l) (he : e ∈ l.newWrites) :
    l.after saved f e.1 = e.2 := by
  obtain ⟨hle, -, hget⟩ := NewPlaced.mem hp.new he
  have hnone : l.indexToLeaf.get? e.1 = none := by
    by_contra hsome
    exact absurd (hp.opened e.1 (Option.ne_none_iff_isSome.mp hsome)) hle.not_gt
  rw [Leaves.after, Leaves.leafOf, hnone]
  simp [hle, hget]

theorem after_of_not_mem (hi : i ∉ onPaths saved l) : l.after saved f i = f i := by
  obtain ⟨hopened, hnew⟩ := not_or.mp hi
  rw [Leaves.after, Leaves.leafOf, Option.not_isSome_iff_eq_none.mp hopened]
  by_cases hle : saved ≤ i
  · have hnone : l.newWrites[i - saved]? = none := List.getElem?_eq_none (by omega)
    simp [hle, hnone]
  · simp [hle]

/-- The opened leaves are those of the tree. -/
def OpenedTrue (f : Nat → FlatStorageLeaf) (l : Leaves D n) : Prop :=
  ∀ i p m, l.indexToLeaf.get? i = some (p, m) → p.leaf = f i

theorem entries_changes (hempty : ∀ i, saved ≤ i → f i = .empty) :
    Changes h saved (leafDigests h f) (leafDigests h (l.after saved f)) (onPaths saved l) := by
  refine ⟨fun j hj => by rw [leafDigests, hempty j hj], fun j hne => ?_⟩
  by_contra hnot
  exact hne (by rw [leafDigests, leafDigests, after_of_not_mem hnot])

theorem entries_writeOk (hp : Placed saved l) (htrue : OpenedTrue f l) :
    ∀ e ∈ hashEntries h l, WriteOk h (leafDigests h f) (leafDigests h (l.after saved f)) 0 e := by
  intro a ha
  rcases List.mem_append.mp ha with ha | ha
  · obtain ⟨⟨i, p, m⟩, he, rfl⟩ := List.mem_map.mp ha
    have hi := OrderedMap.mem_entries.mp he
    have hafter : l.after saved f i = _ := after_of_opened hi
    constructor
    · intro d hd
      obtain ⟨m, rfl, rfl⟩ := Option.map_eq_some_iff.mp hd
      show _ = h.hashLeaf (l.after saved f i)
      rw [hafter]
      rfl
    · intro hnone
      obtain rfl : m = none := Option.map_eq_none_iff.mp hnone
      refine ⟨rfl, ?_⟩
      show h.hashLeaf (l.after saved f i) = h.hashLeaf (f i)
      rw [hafter, ← htrue i p none hi]
      rfl
  · obtain ⟨e, he, rfl⟩ := List.mem_map.mp ha
    refine ⟨fun d hd => ?_, fun hnone => (by cases hnone)⟩
    cases hd
    show _ = h.hashLeaf (l.after saved f e.1)
    rw [after_of_new hp he]

/-- The rightmost leaf of the tree was opened if there are new ones. -/
def RightOpened (saved : Nat) (l : Leaves D n) : Prop :=
  l.newWrites ≠ [] → 0 < saved ∧ (l.indexToLeaf.get? (saved - 1)).isSome

theorem entries_newOk (hp : Placed saved l) (hright : RightOpened saved l) :
    ∀ e ∈ hashEntries h l, NewOk l saved (onPaths saved l) 0 e := by
  intro a ha hnone
  rcases List.mem_append.mp ha with ha | ha
  · obtain ⟨e, -, rfl⟩ := List.mem_map.mp ha
    cases hnone
  · obtain ⟨e, he, rfl⟩ := List.mem_map.mp ha
    obtain ⟨hpos, hsome⟩ := hright (List.ne_nil_of_mem he)
    have hle := (NewPlaced.mem hp.new he).1
    refine ⟨hpos, .inl hsome, by simpa [newEntry] using hle, ?_⟩
    by_contra hopened
    exact absurd (hp.opened e.1 (Option.ne_none_iff_isSome.mp hopened)) hle.not_gt

theorem entries_onPaths (hnew : NewPlaced saved l) : OnPaths (onPaths saved l) 0 (hashEntries h l) := by
  intro j hj
  rw [pow_zero, Nat.div_one]
  rcases hj with hj | ⟨hj, hj'⟩
  · obtain ⟨e, he⟩ := Option.isSome_iff_exists.mp hj
    exact ⟨_, List.mem_append_left _ (List.mem_map_of_mem (OrderedMap.mem_entries.mpr he)), rfl⟩
  · obtain ⟨leaf, hmem, -⟩ := hnew.exists hj hj'
    exact ⟨_, List.mem_append_right _ (List.mem_map_of_mem hmem), rfl⟩

theorem entries_index_lt (hbound : ∀ i, (l.indexToLeaf.get? i).isSome → i < 2 ^ n) (hnew : NewPlaced saved l)
    (hroom : saved + l.newWrites.length ≤ 2 ^ n) : ∀ e ∈ hashEntries h l, e.index < 2 ^ n := by
  intro a ha
  rcases List.mem_append.mp ha with ha | ha
  · obtain ⟨e, he, rfl⟩ := List.mem_map.mp ha
    exact hbound e.1 (by rw [OrderedMap.mem_entries.mp he]; rfl)
  · obtain ⟨e, he, rfl⟩ := List.mem_map.mp ha
    exact (hnew.mem he).2.1.trans_le hroom

/-- No opened leaf is behind the first new position. -/
theorem opened_lt (hleaf : Function.Injective h.hashLeaf) (hnode : Function.Injective2 h.hashNode)
    (hempty : ∀ i, saved ≤ i → f i = .empty) (hnew : NewPlaced saved l) (hlt : ∀ e ∈ hashEntries h l, e.index < 2 ^ n)
    (hnonempty : ∀ i p m, l.indexToLeaf.get? i = some (p, m) → saved ≤ i → p.leaf ≠ .empty)
    (hright : RightOpened saved l) (hrun : mergeLevels h l saved n 0 (hashEntries h l) = some [a])
    (hroot : a.read = some (subtree h.hashNode (leafDigests h f) n 0)) :
    ∀ i, (l.indexToLeaf.get? i).isSome → i < saved := by
  intro i hi
  by_contra hnot
  obtain ⟨⟨p, m⟩, hget⟩ := Option.isSome_iff_exists.mp hi
  have hmem := OrderedMap.mem_entries.mpr hget
  have hroot' : a.read = some (subtree h.hashNode (leafDigests h f) (0 + n) 0) := by rw [Nat.zero_add, hroot]
  cases hwrites : l.newWrites with
  | nil =>
    have hbuffer : hashEntries h l = l.indexToLeaf.entries.map (openedEntry h) := by
      rw [hashEntries_eq, hwrites, List.map_nil, List.append_nil]
    have hasc : Ascending (hashEntries h l) := by
      rw [hbuffer]
      exact openedEntries_ascending
    have hreads := (mergeLevels_sound hnode (entries_changes (h := h) (l := l) hempty) hasc hlt hrun hroot').1
    have hd := hreads (openedEntry h (i, p, m)) (by rw [hbuffer]; exact List.mem_map_of_mem hmem) _ rfl
    refine hnonempty i p m hget (not_lt.mp hnot) (hleaf (hd.trans ?_))
    show h.hashLeaf (f i) = _
    rw [hempty i (not_lt.mp hnot)]
  | cons e rest =>
    obtain ⟨hpos, hsome⟩ := hright (by rw [hwrites]; exact List.cons_ne_nil _ _)
    have hne : l.indexToLeaf.entries ≠ [] := List.ne_nil_of_mem hmem
    obtain ⟨before, x, hentries⟩ := (List.eq_nil_or_concat _).resolve_left hne
    rw [List.concat_eq_append] at hentries
    have hx : x ∈ l.indexToLeaf.entries := by rw [hentries]; simp
    have hxget := OrderedMap.mem_entries (k := x.1) (v := x.2).mp hx
    have hxle : saved ≤ x.1 := by
      rw [hentries] at hmem
      rcases List.mem_append.mp hmem with hmem | hmem
      · have hsorted := l.indexToLeaf.sorted
        rw [hentries] at hsorted
        have := (List.pairwise_append.mp hsorted).2.2 _ hmem x List.mem_cons_self
        dsimp only at this
        omega
      · rw [← List.mem_singleton.mp hmem]
        exact not_lt.mp hnot
    have hasc : Ascending (before.map (openedEntry h) ++ [openedEntry h x]) := by
      have := openedEntries_ascending (h := h) (l := l)
      rw [hentries, List.map_append] at this
      exact this
    have hbuffer : hashEntries h l =
        before.map (openedEntry h) ++ openedEntry h x :: newEntry h e :: rest.map (newEntry h) := by
      rw [hashEntries_eq, hentries, hwrites, List.map_append, List.append_assoc]
      rfl
    have hfirst : e.1 = saved := by
      have := (hnew.getElem? (k := 0) (e := e) (by rw [hwrites]; rfl)).1
      omega
    have hascNew : Ascending (newEntry h e :: rest.map (newEntry h)) := by
      have := newEntries_ascending (h := h) hnew
      rw [hwrites] at this
      exact this
    obtain ⟨g, hg⟩ := Option.isSome_iff_exists.mp hsome
    refine behind_false hnode (F := leafDigests h f) (fun j hj => by rw [leafDigests, hempty j hj]) hxle
      (d := h.hashLeaf x.2.1.leaf) (fun heq => hnonempty x.1 x.2.1 x.2.2 hxget hxle (hleaf heq))
      (l := l) ⟨_, _, _, _, hbuffer, hasc, hascNew, ⟨rfl, ?_, fun F hF => ?_⟩, ?_, ?_, ?_⟩
      hlt hrun hroot'
    · rw [pow_zero, Nat.div_one]
      rfl
    · exact Option.some.inj hF
    · intro e' he'
      rcases List.mem_cons.mp he' with rfl | he'
      · rfl
      · obtain ⟨e'', -, rfl⟩ := List.mem_map.mp he'
        rfl
    · rw [pow_zero, Nat.div_one]
      exact hfirst
    · have hgmem := OrderedMap.mem_entries.mpr hg
      rw [hentries] at hgmem
      refine ⟨openedEntry h (saved - 1, g), ?_, by rw [pow_zero, Nat.div_one]; rfl⟩
      have := List.mem_map_of_mem (f := openedEntry h) hgmem
      rw [List.map_append] at this
      exact this

/-- If the pass ends with the old root, the opened leaves are leaves of the tree and the new root is that of the leaves
after the batch. -/
theorem pass_sound (hleaf : Function.Injective h.hashLeaf) (hnode : Function.Injective2 h.hashNode)
    (hempty : ∀ i, saved ≤ i → f i = .empty) (hnew : NewPlaced saved l)
    (hbound : ∀ i, (l.indexToLeaf.get? i).isSome → i < 2 ^ n) (hroom : saved + l.newWrites.length ≤ 2 ^ n)
    (hnonempty : ∀ i p m, l.indexToLeaf.get? i = some (p, m) → saved ≤ i → p.leaf ≠ .empty)
    (hright : RightOpened saved l) (hrun : mergeLevels h l saved n 0 (hashEntries h l) = some [a])
    (hroot : a.read = some (subtree h.hashNode (leafDigests h f) n 0)) :
    Placed saved l ∧ OpenedTrue f l ∧
      (∀ d, a.write = some d → d = subtree h.hashNode (leafDigests h (l.after saved f)) n 0) ∧
      (a.write = none → subtree h.hashNode (leafDigests h (l.after saved f)) n 0 = subtree h.hashNode (leafDigests h f) n 0) := by
  have hlt := entries_index_lt (h := h) hbound hnew hroom
  have hp : Placed saved l := ⟨opened_lt hleaf hnode hempty hnew hlt hnonempty hright hrun hroot, hnew⟩
  have hroot' : a.read = some (subtree h.hashNode (leafDigests h f) (0 + n) 0) := by rw [Nat.zero_add, hroot]
  obtain ⟨hreads, hwrites⟩ := mergeLevels_sound hnode (entries_changes (h := h) (l := l) hempty) (entries_ascending hp) hlt
    hrun hroot'
  have htrue : OpenedTrue f l := by
    intro i p m hi
    have hmem : openedEntry h (i, p, m) ∈ hashEntries h l :=
      List.mem_append_left _ (List.mem_map_of_mem (OrderedMap.mem_entries.mpr hi))
    exact hleaf (hreads _ hmem _ rfl)
  obtain ⟨hok, hzero⟩ := hwrites (entries_writeOk hp htrue) (entries_newOk hp hright) (entries_onPaths hp.new)
  rw [Nat.zero_add] at hok
  refine ⟨hp, htrue, fun d hd => ?_, fun hnone => ?_⟩
  · rw [hok.1 d hd, hzero]
  · have := (hok.2 hnone).2
    rw [hzero] at this
    exact this

/-- The siblings of a proof are the digests of the tree. -/
def PathTrue (h : FlatStorageHasher D) (f : Nat → FlatStorageLeaf) (i : Nat) (p : LeafProof D n) : Prop :=
  ∀ k < n, p.sibling k = some (subtree h.hashNode (leafDigests h f) k (i / 2 ^ k ^^^ 1))

/-- With honest leaves and paths the pass ends with the old root and the root of the leaves after the batch. -/
theorem pass_complete (hempty : ∀ i, saved ≤ i → f i = .empty) (hp : Placed saved l) (htrue : OpenedTrue f l)
    (hpaths : ∀ i p m, l.indexToLeaf.get? i = some (p, m) → PathTrue h f i p)
    (hroom : saved + l.newWrites.length ≤ 2 ^ n) (hright : RightOpened saved l)
    (hne : ∃ i, (l.indexToLeaf.get? i).isSome) :
    ∃ a, mergeLevels h l saved n 0 (hashEntries h l) = some [a] ∧
      a.read = some (subtree h.hashNode (leafDigests h f) n 0) ∧
      a.write.getD (subtree h.hashNode (leafDigests h f) n 0) =
        subtree h.hashNode (leafDigests h (l.after saved f)) n 0 := by
  have hlt := entries_index_lt (h := h) (fun i hi => (hp.opened i hi).trans_le (by omega)) hp.new hroom
  have hbuffer : hashEntries h l ≠ [] := by
    obtain ⟨i, hi⟩ := hne
    obtain ⟨e, he⟩ := Option.isSome_iff_exists.mp hi
    exact List.ne_nil_of_mem (List.mem_append_left _ (List.mem_map_of_mem (OrderedMap.mem_entries.mpr he)))
  have hok : ∀ e ∈ hashEntries h l,
      NodeOk h l saved (leafDigests h f) (leafDigests h (l.after saved f)) (onPaths saved l) 0 e := by
    intro e he
    have hwrite := entries_writeOk hp htrue e he
    have hnew := entries_newOk hp hright e he
    rcases List.mem_append.mp he with hmem | hmem
    · obtain ⟨⟨i, p, m⟩, hentry, rfl⟩ := List.mem_map.mp hmem
      have hget := OrderedMap.mem_entries.mp hentry
      refine ⟨fun d hd => ?_, fun _ => ⟨hp.opened i (by rw [hget]; rfl), ?_, p, m, hget, hpaths i p m hget⟩, hwrite, hnew,
        fun hnone => by cases hnone⟩
      · cases hd
        show h.hashLeaf p.leaf = h.hashLeaf (f i)
        rw [htrue i p m hget]
      · rw [pow_zero, Nat.div_one]
    · obtain ⟨x, hx, rfl⟩ := List.mem_map.mp hmem
      refine ⟨fun d hd => ?_, fun hsome => ?_, hwrite, hnew, fun _ => (NewPlaced.mem hp.new hx).1⟩
      · cases hd
      · cases hsome
  obtain ⟨a, hrun, hzero, hread, hwrite⟩ := mergeLevels_complete (entries_changes hempty) (entries_ascending hp) hlt
    hbuffer (Nat.zero_add n) hok (entries_onPaths hp.new)
  refine ⟨a, hrun, hread, ?_⟩
  rw [WriteOk, hzero] at hwrite
  cases ha : a.write with
  | none => exact (hwrite.2 ha).2.symm
  | some d => exact hwrite.1 d ha

end ZkOs.Tree
