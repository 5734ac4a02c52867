import Mathlib.Data.Finite.Prod
import Mathlib.Data.Finset.Card

/-!
# Maps ordered by their keys

A finite map that keeps its entries in the order of the keys, as a B-tree map does.

* `OrderedMap K V` : the entries with strictly increasing keys;
* `get?`, `insert`, `size`, `keys` : look up, set, count, iterate;
* `lastLE? k`, `firstGE? k` : the entries next to `k`, the ends of a range that starts or stops at `k`;
* `get?_insert`, `size_insert`, `mem_keys`, `lastLE?_spec`, `firstGE?_spec` : what they return.
-/

namespace ZkOs

/-- A map whose entries stand in the order of their keys. -/
structure OrderedMap (K V : Type) [LinearOrder K] where
  entries : List (K × V)
  sorted : entries.Pairwise fun a b => a.1 < b.1
  deriving DecidableEq

namespace OrderedMap

variable {K V : Type} [LinearOrder K]

def empty : OrderedMap K V := ⟨[], .nil⟩

def get? (m : OrderedMap K V) (k : K) : Option V := (m.entries.find? fun e => e.1 = k).map Prod.snd

def size (m : OrderedMap K V) : Nat := m.entries.length

def keys (m : OrderedMap K V) : List K := m.entries.map Prod.fst

/-- `entries` with `k` set to `v`, at the place of `k` in the order. -/
def insertEntry (k : K) (v : V) : List (K × V) → List (K × V)
  | [] => [(k, v)]
  | e :: rest =>
    if k < e.1 then (k, v) :: e :: rest else if k = e.1 then (k, v) :: rest else e :: insertEntry k v rest

variable {k j : K} {v : V} {entries : List (K × V)} {m : OrderedMap K V}

theorem mem_insertEntry {e : K × V} (h : e ∈ insertEntry k v entries) : e = (k, v) ∨ e ∈ entries := by
  induction entries with
  | nil => exact .inl (List.mem_singleton.mp h)
  | cons x rest ih =>
    rw [insertEntry] at h
    split at h
    · exact List.mem_cons.mp h
    · split at h
      · exact (List.mem_cons.mp h).imp id (List.mem_cons_of_mem _)
      · rcases List.mem_cons.mp h with rfl | h
        · exact .inr List.mem_cons_self
        · exact (ih h).imp id (List.mem_cons_of_mem _)

theorem pairwise_insertEntry (k : K) (v : V) (h : entries.Pairwise fun a b => a.1 < b.1) :
    (insertEntry k v entries).Pairwise fun a b => a.1 < b.1 := by
  induction entries with
  | nil => exact List.pairwise_singleton _ _
  | cons x rest ih =>
    obtain ⟨hx, hrest⟩ := List.pairwise_cons.mp h
    rw [insertEntry]
    split
    · next hlt =>
      refine List.pairwise_cons.mpr ⟨fun e he => ?_, h⟩
      rcases List.mem_cons.mp he with rfl | he
      · exact hlt
      · exact hlt.trans (hx e he)
    · next hlt =>
      split
      · next heq =>
        subst heq
        exact List.pairwise_cons.mpr ⟨hx, hrest⟩
      · next hne =>
        refine List.pairwise_cons.mpr ⟨fun e he => ?_, ih hrest⟩
        rcases mem_insertEntry he with rfl | he
        · exact lt_of_le_of_ne (not_lt.mp hlt) (Ne.symm hne)
        · exact hx e he

def insert (m : OrderedMap K V) (k : K) (v : V) : OrderedMap K V :=
  ⟨insertEntry k v m.entries, pairwise_insertEntry k v m.sorted⟩

/-- The entry with the greatest key up to `k`: `range(..=k).next_back()`. -/
def lastLE? (m : OrderedMap K V) (k : K) : Option (K × V) := (m.entries.filter fun e => e.1 ≤ k).getLast?

/-- The entry with the least key from `k` on: `range(k..).next()`. -/
def firstGE? (m : OrderedMap K V) (k : K) : Option (K × V) := m.entries.find? fun e => k ≤ e.1

/-! ## Looking up -/

theorem mem_entries : (k, v) ∈ m.entries ↔ m.get? k = some v := by
  obtain ⟨entries, sorted⟩ := m
  unfold get?
  induction entries with
  | nil => simp
  | cons x rest ih =>
    obtain ⟨hx, hrest⟩ := List.pairwise_cons.mp sorted
    rw [List.mem_cons, List.find?_cons]
    by_cases h : x.1 = k
    · have hk : (k, v) ∉ rest := fun hm => lt_irrefl k (by simpa [h] using hx _ hm)
      simp [h, hk, Prod.ext_iff, eq_comm]
    · have hne : (k, v) ≠ x := fun e => h (by rw [← e])
      simp only [h, decide_false, hne, false_or]
      exact ih hrest

theorem mem_keys : k ∈ m.keys ↔ (m.get? k).isSome := by
  rw [keys, List.mem_map, Option.isSome_iff_exists]
  constructor
  · rintro ⟨⟨_, v⟩, hm, rfl⟩
    exact ⟨v, mem_entries.mp hm⟩
  · rintro ⟨v, hv⟩
    exact ⟨(k, v), mem_entries.mpr hv, rfl⟩

theorem keys_pairwise (m : OrderedMap K V) : m.keys.Pairwise (· < ·) :=
  List.pairwise_map.mpr m.sorted

theorem find?_insertEntry (k : K) (v : V) (j : K) (entries : List (K × V)) :
    ((insertEntry k v entries).find? fun e => e.1 = j).map Prod.snd =
      if j = k then some v else (entries.find? fun e => e.1 = j).map Prod.snd := by
  induction entries with
  | nil =>
    rw [insertEntry, List.find?_cons]
    by_cases h : j = k
    · subst h; simp
    · simp [h, Ne.symm h]
  | cons x rest ih =>
    rw [insertEntry]
    split
    · next hlt =>
      by_cases h : j = k
      · subst h; simp
      · simp [h, Ne.symm h]
    · split
      · next heq =>
        subst heq
        by_cases h : j = x.1
        · subst h; simp
        · simp [h, Ne.symm h]
      · next hlt hne =>
        rw [List.find?_cons, List.find?_cons]
        by_cases h : x.1 = j
        · subst h
          simp [Ne.symm hne]
        · simp only [h, decide_false]
          exact ih

theorem get?_insert (m : OrderedMap K V) (k : K) (v : V) (j : K) :
    (m.insert k v).get? j = if j = k then some v else m.get? j :=
  find?_insertEntry k v j m.entries

@[simp] theorem get?_insert_self (m : OrderedMap K V) (k : K) (v : V) : (m.insert k v).get? k = some v := by
  rw [get?_insert, if_pos rfl]

theorem get?_insert_of_ne (m : OrderedMap K V) (v : V) (h : j ≠ k) :
    (m.insert k v).get? j = m.get? j := by
  rw [get?_insert, if_neg h]

theorem get?_insert_of_none (hk : m.get? k = none) {w : V} :
    (m.insert k v).get? j = some w ↔ j = k ∧ v = w ∨ m.get? j = some w := by
  rw [get?_insert]
  split
  · next heq => simp [heq, hk]
  · next hne => simp [hne]

theorem isSome_get?_insert : ((m.insert k v).get? j).isSome ↔ j = k ∨ (m.get? j).isSome := by
  rw [get?_insert]
  split
  · next heq => simp [heq]
  · next hne => simp [hne]

theorem get?_foldl_insert {α : Type} (f : α → K) (v : α → V) (l : List α) (m : OrderedMap K V)
    (hv : ∀ e ∈ l, ∀ e' ∈ l, f e = f e' → v e = v e') (k : K) (x : V) :
    (l.foldl (fun m e => m.insert (f e) (v e)) m).get? k = some x ↔
      (∃ e ∈ l, f e = k ∧ v e = x) ∨ (∀ e ∈ l, f e ≠ k) ∧ m.get? k = some x := by
  induction l generalizing m with
  | nil => simp
  | cons a l ih =>
    have hv' : ∀ e ∈ l, ∀ e' ∈ l, f e = f e' → v e = v e' := fun e he e' he' =>
      hv e (List.mem_cons_of_mem _ he) e' (List.mem_cons_of_mem _ he')
    rw [List.foldl_cons, ih _ hv', get?_insert]
    constructor
    · rintro (⟨e, he, hk⟩ | ⟨hnot, hx⟩)
      · exact .inl ⟨e, List.mem_cons_of_mem _ he, hk⟩
      · split at hx
        · next heq => exact .inl ⟨a, List.mem_cons_self, heq.symm, Option.some.inj hx⟩
        · next hne =>
          refine .inr ⟨fun e he => ?_, hx⟩
          rcases List.mem_cons.mp he with rfl | he
          · exact Ne.symm hne
          · exact hnot e he
    · rintro (⟨e, he, hfe, hve⟩ | ⟨hnot, hx⟩)
      · by_cases hin : ∃ e' ∈ l, f e' = k
        · obtain ⟨e', he', hfe'⟩ := hin
          refine .inl ⟨e', he', hfe', ?_⟩
          rw [hv e' (List.mem_cons_of_mem _ he') e he (hfe'.trans hfe.symm), hve]
        · have hea : e = a := (List.mem_cons.mp he).resolve_right fun he => hin ⟨e, he, hfe⟩
          subst hea
          refine .inr ⟨fun e' he' hfe' => hin ⟨e', he', hfe'⟩, ?_⟩
          rw [if_pos hfe.symm, hve]
      · refine .inr ⟨fun e he => hnot e (List.mem_cons_of_mem _ he), ?_⟩
        rw [if_neg (Ne.symm (hnot a List.mem_cons_self)), hx]

/-! ## Counting -/

theorem size_insert (m : OrderedMap K V) (k : K) (v : V) :
    (m.insert k v).size = if (m.get? k).isSome then m.size else m.size + 1 := by
  obtain ⟨entries, sorted⟩ := m
  unfold insert size get?
  dsimp only
  induction entries with
  | nil => rfl
  | cons x rest ih =>
    obtain ⟨hx, hrest⟩ := List.pairwise_cons.mp sorted
    have hnone : k < x.1 → ((x :: rest).find? fun e => e.1 = k) = none := by
      intro hlt
      refine List.find?_eq_none.mpr fun e he hek => ?_
      have hek : e.1 = k := of_decide_eq_true hek
      rcases List.mem_cons.mp he with rfl | he
      · exact absurd hek hlt.ne'
      · exact absurd hek (hlt.trans (hx e he)).ne'
    rw [insertEntry]
    split
    · next hlt =>
      rw [hnone hlt]
      rfl
    · split
      · next heq => simp [heq]
      · next hne =>
        rw [List.length_cons, ih hrest, List.find?_cons, List.length_cons]
        have : x.1 ≠ k := Ne.symm hne
        simp only [this, decide_false]
        split <;> rfl

theorem size_eq_card (m : OrderedMap K V) {s : Finset K} (hs : ∀ k, (m.get? k).isSome ↔ k ∈ s) : m.size = s.card := by
  have hkeys : m.keys.toFinset = s := by
    ext k
    rw [List.mem_toFinset, mem_keys, hs]
  have hnodup : m.keys.Nodup := m.keys_pairwise.imp ne_of_lt
  rw [← hkeys, List.toFinset_card_of_nodup hnodup, keys, List.length_map, size]

theorem finite_isSome (m : OrderedMap K V) : {k | (m.get? k).isSome}.Finite := by
  have hkeys : {k | (m.get? k).isSome} = {k | k ∈ m.keys} := by
    ext k
    exact mem_keys.symm
  rw [hkeys]
  exact m.keys.finite_toSet

/-! ## Neighbours -/

theorem lastLE?_spec (hj : m.get? j = some v) (hle : j ≤ k) :
    ∃ i w, m.lastLE? k = some (i, w) ∧ m.get? i = some w ∧ i ≤ k ∧
      ∀ i' w', m.get? i' = some w' → i' ≤ k → i' ≤ i := by
  have hmem : (j, v) ∈ m.entries.filter fun e => e.1 ≤ k := by
    rw [List.mem_filter]
    exact ⟨mem_entries.mpr hj, by simpa using hle⟩
  have hsorted := m.sorted.filter fun e => e.1 ≤ k
  obtain ⟨before, last, heq⟩ := (List.eq_nil_or_concat _).resolve_left (List.ne_nil_of_mem hmem)
  rw [List.concat_eq_append] at heq
  have hlast : last ∈ m.entries.filter fun e => e.1 ≤ k := by
    rw [heq]
    simp
  obtain ⟨hin, hk⟩ := List.mem_filter.mp hlast
  refine ⟨last.1, last.2, ?_, mem_entries.mp hin, by simpa using hk, fun i' w' hi' hle' => ?_⟩
  · rw [lastLE?, heq, List.getLast?_append]
    rfl
  · have hi : (i', w') ∈ m.entries.filter fun e => e.1 ≤ k := by
      rw [List.mem_filter]
      exact ⟨mem_entries.mpr hi', by simpa using hle'⟩
    rw [heq] at hi hsorted
    rcases List.mem_append.mp hi with hi | hi
    · exact ((List.pairwise_append.mp hsorted).2.2 _ hi last List.mem_cons_self).le
    · exact (congrArg Prod.fst (List.mem_singleton.mp hi)).le

theorem firstGE?_spec (hj : m.get? j = some v) (hle : k ≤ j) :
    ∃ i w, m.firstGE? k = some (i, w) ∧ m.get? i = some w ∧ k ≤ i ∧
      ∀ i' w', m.get? i' = some w' → k ≤ i' → i ≤ i' := by
  have hsome : (m.firstGE? k).isSome := by
    rw [firstGE?, List.find?_isSome]
    exact ⟨(j, v), mem_entries.mpr hj, by simpa using hle⟩
  obtain ⟨e, he⟩ := Option.isSome_iff_exists.mp hsome
  obtain ⟨hk, before, after, heq, hbefore⟩ := List.find?_eq_some_iff_append.mp he
  refine ⟨e.1, e.2, he, mem_entries.mp (by rw [heq]; simp), by simpa using hk, fun i' w' hi' hle' => ?_⟩
  have hi := mem_entries.mpr hi'
  have hsorted := m.sorted
  rw [heq] at hi hsorted
  rcases List.mem_append.mp hi with hi | hi
  · exact absurd hle' (by simpa using hbefore _ hi)
  · rcases List.mem_cons.mp hi with rfl | hi
    · exact le_rfl
    · exact ((List.pairwise_cons.mp (List.pairwise_append.mp hsorted).2.1).1 _ hi).le

end OrderedMap

end ZkOs
