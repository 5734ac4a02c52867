import Mathlib.Data.Set.Card
import Mathlib.Data.List.Chain

/-!
# Sorted linked lists in an array

Slots `ι` hold a key and a pointer to another slot.  The slots of a set `S` form one sorted list when each
points to the slot with the next greater key.

* `Linked key next S first last` : every slot of `S` but `last` points to its successor in the key order;
* `Walk key next S first last walk` : the pointers lead through `walk`, with growing keys and over all of `S`;
* `linked_iff_exists_walk` : on a finite set these are the same;
* `NextKey key S i j` : the successor of a slot in the key order;
* `Linked.extend`, `Linked.insert` : slots are added between slots and their successors;
* `Linked.gap`, `Linked.next_eq` : there is no key between a slot and its successor, which is unique.
-/

namespace ZkOs

variable {ι K : Type} [LinearOrder K] {key key' : ι → K} {next next' : ι → ι} {S : Set ι} {first last : ι}

/-- Every slot of `S` but `last` points to the slot with the next greater key. -/
structure Linked (key : ι → K) (next : ι → ι) (S : Set ι) (first last : ι) : Prop where
  first_mem : first ∈ S
  last_mem : last ∈ S
  injOn : Set.InjOn key S
  first_le : ∀ i ∈ S, key first ≤ key i
  le_last : ∀ i ∈ S, key i ≤ key last
  next_mem : ∀ i ∈ S, i ≠ last → next i ∈ S
  lt_next : ∀ i ∈ S, i ≠ last → key i < key (next i)
  next_le : ∀ i ∈ S, i ≠ last → ∀ j ∈ S, key i < key j → key (next i) ≤ key j

/-- `j` is the slot of `S` with the next greater key after that of `i`. -/
structure NextKey (key : ι → K) (S : Set ι) (i j : ι) : Prop where
  mem : j ∈ S
  lt : key i < key j
  le : ∀ t ∈ S, key i < key t → key j ≤ key t

/-- The pointers from `first` to `last` lead through `walk`, over all of `S`, with growing keys. -/
structure Walk (key : ι → K) (next : ι → ι) (S : Set ι) (first last : ι) (walk : List ι) : Prop where
  head : walk.head? = some first
  getLast : walk.getLast? = some last
  chain : walk.IsChain fun i j => next i = j ∧ key i < key j
  mem : ∀ i, i ∈ walk ↔ i ∈ S

namespace Walk

variable {walk : List ι}

theorem pairwise (h : Walk key next S first last walk) : walk.Pairwise fun i j => key i < key j :=
  have : IsTrans ι fun i j => key i < key j := ⟨fun _ _ _ => lt_trans⟩
  (h.chain.imp fun _ _ hij => hij.2).pairwise

theorem mem_after (h : Walk key next S first last walk) {before after : List ι} {i : ι}
    (hwalk : walk = before ++ i :: after) {j : ι} (hj : j ∈ S) (hlt : key i < key j) : j ∈ after := by
  have hp := h.pairwise
  have hj := (h.mem j).mpr hj
  rw [hwalk] at hp hj
  rcases List.mem_append.mp hj with hj | hj
  · exact absurd ((List.pairwise_append.mp hp).2.2 j hj i List.mem_cons_self) hlt.not_gt
  · rcases List.mem_cons.mp hj with rfl | hj
    · exact absurd hlt (lt_irrefl _)
    · exact hj

theorem next_after (h : Walk key next S first last walk) {i : ι} (hi : i ∈ S) (hne : i ≠ last) :
    ∃ before after, walk = before ++ i :: next i :: after := by
  obtain ⟨before, rest, hwalk⟩ := List.append_of_mem ((h.mem i).mpr hi)
  cases rest with
  | nil =>
    have hlast := h.getLast
    rw [hwalk, List.getLast?_append] at hlast
    exact absurd (Option.some.inj hlast) hne
  | cons j after =>
    have hchain := h.chain
    rw [hwalk, List.isChain_append] at hchain
    have hij := (List.isChain_cons_cons.mp hchain.2.1).1.1
    exact ⟨before, after, by rw [hij, hwalk]⟩

theorem nextKey (h : Walk key next S first last walk) {i : ι} (hi : i ∈ S) (hne : i ≠ last) :
    NextKey key S i (next i) := by
  have hp := h.pairwise
  obtain ⟨before, after, hwalk⟩ := h.next_after hi hne
  rw [hwalk] at hp
  obtain ⟨hafter, hrest⟩ := List.pairwise_cons.mp (List.pairwise_append.mp hp).2.1
  refine ⟨by rw [← h.mem, hwalk]; simp, hafter _ List.mem_cons_self, fun j hj hlt => ?_⟩
  rcases List.mem_cons.mp (h.mem_after hwalk hj hlt) with rfl | hj
  · exact le_rfl
  · exact ((List.pairwise_cons.mp hrest).1 j hj).le

theorem linked (h : Walk key next S first last walk) : Linked key next S first last := by
  have hp := h.pairwise
  refine ⟨?_, ?_, ?_, ?_, ?_, fun i hi hne => (h.nextKey hi hne).mem, fun i hi hne => (h.nextKey hi hne).lt,
    fun i hi hne => (h.nextKey hi hne).le⟩
  · exact (h.mem _).mp (List.mem_of_head? h.head)
  · exact (h.mem _).mp (List.mem_of_getLast? h.getLast)
  · intro i hi j hj hij
    obtain ⟨before, after, hwalk⟩ := List.append_of_mem ((h.mem i).mpr hi)
    have hj := (h.mem j).mpr hj
    rw [hwalk] at hp hj
    obtain ⟨-, hafter, hbefore⟩ := List.pairwise_append.mp hp
    rcases List.mem_append.mp hj with hj | hj
    · exact absurd hij (hbefore j hj i List.mem_cons_self).ne'
    · rcases List.mem_cons.mp hj with rfl | hj
      · rfl
      · exact absurd hij ((List.pairwise_cons.mp hafter).1 j hj).ne
  · intro i hi
    have hi := (h.mem i).mpr hi
    cases walk with
    | nil => cases hi
    | cons x rest =>
      obtain rfl : x = first := Option.some.inj h.head
      rcases List.mem_cons.mp hi with rfl | hi
      · exact le_rfl
      · exact ((List.pairwise_cons.mp hp).1 i hi).le
  · intro i hi
    have hi := (h.mem i).mpr hi
    obtain ⟨init, heq⟩ := List.getLast?_eq_some_iff.mp h.getLast
    rw [heq] at hi hp
    rcases List.mem_append.mp hi with hi | hi
    · exact ((List.pairwise_append.mp hp).2.2 i hi last List.mem_cons_self).le
    · rw [List.mem_singleton.mp hi]

end Walk

namespace Linked

variable {i j : ι} {k : K}

theorem ne_last (h : Linked key next S first last) (hlt : key i < k) (hk : k ≤ key last) : i ≠ last := by
  rintro rfl
  exact absurd hk hlt.not_ge

theorem gap (h : Linked key next S first last) (hi : i ∈ S) (hne : i ≠ last) (hk : key i < k) (hk' : k < key (next i))
    (hj : j ∈ S) : key j ≠ k := by
  rintro rfl
  exact absurd hk' (h.next_le i hi hne j hj hk).not_gt

/-- The slots below a key in the gap after `i` are those up to `i`. -/
theorem le_of_lt (h : Linked key next S first last) (hi : i ∈ S) (hne : i ≠ last) (hk' : k < key (next i)) (hj : j ∈ S)
    (hjk : key j < k) : key j ≤ key i := by
  by_contra hlt
  exact absurd (hjk.trans hk') (h.next_le i hi hne j hj (not_le.mp hlt)).not_gt

/-- The slots above a key in the gap after `i` are those from its successor on. -/
theorem next_le_of_lt (h : Linked key next S first last) (hi : i ∈ S) (hne : i ≠ last) (hk : key i < k) (hj : j ∈ S)
    (hjk : k < key j) : key (next i) ≤ key j :=
  h.next_le i hi hne j hj (hk.trans hjk)

theorem next_eq (h : Linked key next S first last) (hi : i ∈ S) (hj : j ∈ S) (hlt : key i < key j)
    (hmin : ∀ j' ∈ S, key i < key j' → key j ≤ key j') : next i = j := by
  have hne := h.ne_last hlt (h.le_last j hj)
  refine h.injOn (h.next_mem i hi hne) hj (le_antisymm (h.next_le i hi hne j hj hlt) ?_)
  exact hmin _ (h.next_mem i hi hne) (h.lt_next i hi hne)

theorem congr (h : Linked key next S first last) (hkey : Set.EqOn key' key S) : Linked key' next S first last := by
  refine ⟨h.first_mem, h.last_mem, h.injOn.congr hkey.symm, fun i hi => ?_, fun i hi => ?_, h.next_mem, fun i hi hne => ?_,
    fun i hi hne j hj => ?_⟩
  · rw [hkey h.first_mem, hkey hi]
    exact h.first_le i hi
  · rw [hkey h.last_mem, hkey hi]
    exact h.le_last i hi
  · rw [hkey hi, hkey (h.next_mem i hi hne)]
    exact h.lt_next i hi hne
  · rw [hkey hi, hkey hj, hkey (h.next_mem i hi hne)]
    exact h.next_le i hi hne j hj

theorem extend (h : Linked key next S first last) {T : Set ι} (hT : Set.InjOn key T)
    (hgap : ∀ i ∈ T, ∃ p ∈ S, p ≠ last ∧ key p < key i ∧ key i < key (next p))
    (hnext : ∀ i ∈ S ∪ T, i ≠ last → NextKey key (S ∪ T) i (next' i)) : Linked key next' (S ∪ T) first last := by
  have hne : ∀ i ∈ T, ∀ j ∈ S, key j ≠ key i := by
    intro i hi j hj
    obtain ⟨p, hp, hpl, hpi, hip⟩ := hgap i hi
    exact h.gap hp hpl hpi hip hj
  refine ⟨.inl h.first_mem, .inl h.last_mem, ?_, ?_, ?_, fun i hi hil => (hnext i hi hil).mem,
    fun i hi hil => (hnext i hi hil).lt, fun i hi hil => (hnext i hi hil).le⟩
  · rintro i (hi | hi) j (hj | hj) hij
    · exact h.injOn hi hj hij
    · exact absurd hij (hne j hj i hi)
    · exact absurd hij.symm (hne i hi j hj)
    · exact hT hi hj hij
  · rintro i (hi | hi)
    · exact h.first_le i hi
    · obtain ⟨p, hp, -, hpi, -⟩ := hgap i hi
      exact (h.first_le p hp).trans hpi.le
  · rintro i (hi | hi)
    · exact h.le_last i hi
    · obtain ⟨p, hp, hpl, -, hip⟩ := hgap i hi
      exact hip.le.trans (h.le_last _ (h.next_mem p hp hpl))

theorem insert [DecidableEq ι] (h : Linked key next S first last) {p prev : ι} (hp : p ∉ S) (hprev : prev ∈ S)
    (hne : prev ≠ last) (hk : key prev < k) (hk' : k < key (next prev)) :
    Linked (Function.update key p k) (Function.update (Function.update next prev p) p (next prev))
      (Insert.insert p S) first last := by
  have ne_p : ∀ i ∈ S, i ≠ p := fun i hi heq => hp (heq ▸ hi)
  have hnm := h.next_mem prev hprev hne
  have hself : Function.update key p k p = k := Function.update_self ..
  have hkey : Set.EqOn (Function.update key p k) key S := fun i hi => Function.update_of_ne (ne_p i hi) _ _
  replace h := h.congr hkey
  rw [← hself, ← hkey hprev] at hk
  rw [← hself, ← hkey hnm] at hk'
  clear hself hkey
  generalize Function.update key p k = key' at *
  rw [Set.insert_eq, Set.union_comm]
  refine h.extend (Set.injOn_singleton _ p) ?_ ?_
  · rintro _ rfl
    exact ⟨prev, hprev, hne, hk, hk'⟩
  · rintro i (hi | rfl) hil
    · by_cases hip : i = prev
      · subst hip
        rw [Function.update_of_ne (ne_p i hi), Function.update_self]
        refine ⟨.inr rfl, hk, ?_⟩
        rintro j (hj | rfl) hlt
        · exact hk'.le.trans (h.next_le i hi hil j hj hlt)
        · exact le_rfl
      · rw [Function.update_of_ne (ne_p i hi), Function.update_of_ne hip]
        refine ⟨.inl (h.next_mem i hi hil), h.lt_next i hi hil, ?_⟩
        rintro j (hj | rfl) hlt
        · exact h.next_le i hi hil j hj hlt
        · -- below the new key there are only slots below `prev`, whose successors come before it too
          have hle := h.le_of_lt hprev hne hk' hi hlt
          have hlt' := lt_of_le_of_ne hle fun heq => hip (h.injOn hi hprev heq)
          exact (h.next_le i hi hil prev hprev hlt').trans hk.le
    · rw [Function.update_self]
      refine ⟨.inl hnm, hk', ?_⟩
      rintro j (hj | rfl) hlt
      · exact h.next_le_of_lt hprev hne hk hj hlt
      · exact absurd hlt (lt_irrefl _)

/-- The pointers from `i` on lead over all slots with a key from that of `i` on. -/
theorem exists_walk_from (h : Linked key next S first last) (hS : S.Finite) (hi : i ∈ S) :
    ∃ walk, Walk key next {j ∈ S | key i ≤ key j} i last walk := by
  induction hn : {j ∈ S | key i < key j}.ncard using Nat.strong_induction_on generalizing i with
  | _ n ih =>
    by_cases hil : i = last
    · subst hil
      refine ⟨[i], rfl, rfl, List.isChain_singleton _, fun j => ?_⟩
      rw [List.mem_singleton]
      constructor
      · rintro rfl
        exact ⟨hi, le_rfl⟩
      · rintro ⟨hj, hle⟩
        exact h.injOn hj hi (le_antisymm (h.le_last j hj) hle)
    · have hnm := h.next_mem i hi hil
      have hlt := h.lt_next i hi hil
      have hsub : {j ∈ S | key (next i) < key j} ⊂ {j ∈ S | key i < key j} := by
        refine ⟨fun j hj => ⟨hj.1, hlt.trans hj.2⟩, fun hback => ?_⟩
        exact lt_irrefl _ (hback ⟨hnm, hlt⟩).2
      have hcard := Set.ncard_lt_ncard hsub (hS.subset (Set.sep_subset _ _))
      obtain ⟨walk, hwalk⟩ := ih _ (hn ▸ hcard) hnm rfl
      cases walk with
      | nil => cases hwalk.head
      | cons x rest =>
        obtain rfl : x = next i := Option.some.inj hwalk.head
        refine ⟨i :: next i :: rest, rfl, ?_, ?_, fun j => ?_⟩
        · rw [List.getLast?_cons_cons]
          exact hwalk.getLast
        · exact List.isChain_cons_cons.mpr ⟨⟨rfl, hlt⟩, hwalk.chain⟩
        · rw [List.mem_cons, hwalk.mem]
          constructor
          · rintro (rfl | ⟨hj, hle⟩)
            · exact ⟨hi, le_rfl⟩
            · exact ⟨hj, hlt.le.trans hle⟩
          · rintro ⟨hj, hle⟩
            rcases hle.eq_or_lt with heq | hij
            · exact .inl (h.injOn hi hj heq).symm
            · exact .inr ⟨hj, h.next_le i hi hil j hj hij⟩

end Linked

theorem linked_iff_exists_walk (hS : S.Finite) :
    Linked key next S first last ↔ ∃ walk, Walk key next S first last walk := by
  constructor
  · intro h
    obtain ⟨walk, hwalk⟩ := h.exists_walk_from hS h.first_mem
    refine ⟨walk, hwalk.head, hwalk.getLast, hwalk.chain, fun i => ?_⟩
    rw [hwalk.mem]
    exact ⟨fun hi => hi.1, fun hi => ⟨hi, h.first_le i hi⟩⟩
  · rintro ⟨walk, hwalk⟩
    exact hwalk.linked

end ZkOs
