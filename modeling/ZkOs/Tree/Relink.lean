import ZkOs.Lib.SortedLinks
import ZkOs.Tree.Collect

/-!
# Linking the new leaves

* `nextIn`, `following_spec` : the position after a position, in the order of the keys;
* `Leaves.leafOf` : the leaf at a position with its recorded change, or the new leaf;
* `SameProofs`, `relink_same` : `relink` opens no leaf and appends none;
* `LinkStep`, `relink_spec` : it points a leaf to the next one of the caches, unless both are old;
* `Extends.linked` : the leaves of the tree and the new ones then form one sorted list.
-/

namespace ZkOs.Tree

def nextIn : List Nat → Nat → Option Nat
  | a :: b :: rest, i => if i = a then some b else nextIn (b :: rest) i
  | _, _ => none

theorem nextIn_cons_of_ne {a i : Nat} (hne : i ≠ a) (rest : List Nat) : nextIn (a :: rest) i = nextIn rest i := by
  cases rest with
  | nil => rfl
  | cons b rest => rw [nextIn, if_neg hne]

theorem mem_of_nextIn {indices : List Nat} {i j : Nat} (hij : nextIn indices i = some j) :
    i ∈ indices ∧ j ∈ indices := by
  induction indices with
  | nil => cases hij
  | cons a rest ih =>
    cases rest with
    | nil => cases hij
    | cons b rest =>
      rw [nextIn] at hij
      split at hij
      · next heq =>
        cases hij
        exact ⟨by rw [heq]; exact List.mem_cons_self, List.mem_cons_of_mem _ List.mem_cons_self⟩
      · exact ⟨List.mem_cons_of_mem _ (ih hij).1, List.mem_cons_of_mem _ (ih hij).2⟩

/-- In a map whose values are distinct, the value after `i` is that of the next key. -/
theorem following_spec {entries : List (Bytes32 × Nat)} (hsorted : entries.Pairwise fun a b => a.1 < b.1)
    (hnodup : (entries.map Prod.snd).Nodup) {k : Bytes32} {i : Nat} (hmem : (k, i) ∈ entries) :
    (∀ j, nextIn (entries.map Prod.snd) i = some j →
      ∃ k', (k', j) ∈ entries ∧ k < k' ∧ ∀ e ∈ entries, k < e.1 → k' ≤ e.1) ∧
    (nextIn (entries.map Prod.snd) i = none → ∀ e ∈ entries, e.1 ≤ k) := by
  induction entries with
  | nil => cases hmem
  | cons a rest ih =>
    obtain ⟨ha, hrest⟩ := List.pairwise_cons.mp hsorted
    rw [List.map_cons] at hnodup
    obtain ⟨hanot, hnodup'⟩ := List.nodup_cons.mp hnodup
    rcases List.mem_cons.mp hmem with rfl | hmem
    · cases rest with
      | nil =>
        refine ⟨fun j hj => (by cases hj), fun _ e he => ?_⟩
        rw [List.mem_singleton.mp he]
      | cons b rest =>
        have hb : nextIn (((k, i) :: b :: rest).map Prod.snd) i = some b.2 := if_pos rfl
        rw [hb]
        refine ⟨fun j hj => ?_, fun hnone => (by cases hnone)⟩
        cases hj
        refine ⟨b.1, List.mem_cons_of_mem _ List.mem_cons_self, ha b List.mem_cons_self, fun e he hlt => ?_⟩
        rcases List.mem_cons.mp he with rfl | he
        · exact absurd hlt (lt_irrefl _)
        · rcases List.mem_cons.mp he with rfl | he
          · exact le_rfl
          · exact ((List.pairwise_cons.mp hrest).1 e he).le
    · have hne : i ≠ a.2 := by
        rintro rfl
        exact hanot (List.mem_map.mpr ⟨_, hmem, rfl⟩)
      have hak : a.1 < k := ha _ hmem
      rw [List.map_cons, nextIn_cons_of_ne hne]
      obtain ⟨hsome, hnone⟩ := ih hrest hnodup' hmem
      constructor
      · intro j hj
        obtain ⟨k', hk', hlt, hmin⟩ := hsome j hj
        refine ⟨k', List.mem_cons_of_mem _ hk', hlt, fun e he hke => ?_⟩
        rcases List.mem_cons.mp he with rfl | he
        · exact absurd hke hak.not_gt
        · exact hmin e he hke
      · intro hj e he
        rcases List.mem_cons.mp he with rfl | he
        · exact hak.le
        · exact hnone hj e he

/-! ## The order of the links -/

section Order

variable {key key' : Nat → Bytes32} {next : Nat → Nat} {saved size : Nat} {first last : Nat}
  {m : OrderedMap Bytes32 Nat} {opened : Set Nat}

def linkTarget (saved : Nat) (indices : List Nat) (i old : Nat) : Nat :=
  match nextIn indices i with
  | some j => if saved ≤ i ∨ saved ≤ j then j else old
  | none => old

/-- The old list with the new leaves, of which each lies between two opened leaves, as the key cache has them. -/
structure Extends (key : Nat → Bytes32) (next : Nat → Nat) (saved size : Nat) (opened : Set Nat)
    (key' : Nat → Bytes32) (m : OrderedMap Bytes32 Nat) : Prop where
  le : saved ≤ size
  opened_lt : ∀ i ∈ opened, i < saved
  key_eq : ∀ i < saved, key' i = key i
  keys : ∀ k i, m.get? k = some i ↔ key' i = k ∧ (i ∈ opened ∨ saved ≤ i ∧ i < size)
  around : ∀ i, saved ≤ i → i < size → ∃ p ∈ opened, next p ∈ opened ∧ key p < key' i ∧ key' i < key (next p)

namespace Extends

variable (he : Extends key next saved size opened key' m)

include he

theorem values_nodup : (m.entries.map Prod.snd).Nodup := by
  refine List.pairwise_map.mpr (m.sorted.imp_of_mem fun {a b} ha hb hlt heq => ?_)
  have hka := ((he.keys _ _).mp (OrderedMap.mem_entries.mp ha)).1
  have hkb := ((he.keys _ _).mp (OrderedMap.mem_entries.mp hb)).1
  rw [heq, hkb] at hka
  exact absurd hka hlt.ne'

variable {i j t : Nat}

theorem get_key (hi : i ∈ opened ∨ saved ≤ i ∧ i < size) : m.get? (key' i) = some i :=
  (he.keys _ _).mpr ⟨rfl, hi⟩

theorem next_some (hi : i ∈ opened ∨ saved ≤ i ∧ i < size) (hij : nextIn (m.entries.map Prod.snd) i = some j) :
    (j ∈ opened ∨ saved ≤ j ∧ j < size) ∧ key' i < key' j ∧
      ∀ t, t ∈ opened ∨ saved ≤ t ∧ t < size → key' i < key' t → key' j ≤ key' t := by
  obtain ⟨k', hk', hlt, hmin⟩ :=
    (following_spec m.sorted he.values_nodup (OrderedMap.mem_entries.mpr (he.get_key hi))).1 j hij
  obtain ⟨rfl, hj⟩ := (he.keys _ _).mp (OrderedMap.mem_entries.mp hk')
  exact ⟨hj, hlt, fun t ht => hmin _ (OrderedMap.mem_entries.mpr (he.get_key ht))⟩

theorem next_none (hi : i ∈ opened ∨ saved ≤ i ∧ i < size) (hij : nextIn (m.entries.map Prod.snd) i = none)
    (ht : t ∈ opened ∨ saved ≤ t ∧ t < size) :
    key' t ≤ key' i :=
  (following_spec m.sorted he.values_nodup (OrderedMap.mem_entries.mpr (he.get_key hi))).2 hij _
    (OrderedMap.mem_entries.mpr (he.get_key ht))

section Old

variable (hl : Linked key' next {i | i < saved} first last)

include hl

theorem gap (hi : saved ≤ i) (hi' : i < size) :
    ∃ p ∈ opened, next p ∈ opened ∧ p ≠ last ∧ key' p < key' i ∧ key' i < key' (next p) := by
  obtain ⟨p, hp, hnp, hpi, hip⟩ := he.around i hi hi'
  rw [← he.key_eq p (he.opened_lt p hp)] at hpi
  rw [← he.key_eq _ (he.opened_lt _ hnp)] at hip
  exact ⟨p, hp, hnp, hl.ne_last (hpi.trans hip) (hl.le_last _ (he.opened_lt _ hnp)), hpi, hip⟩

/-- A new key comes after one opened leaf, and no other leaf of the tree has it in its gap. -/
theorem prev_eq (hi : i < saved) (hne : i ≠ last) (ht : saved ≤ t) (ht' : t < size) (hit : key' i < key' t)
    (hti : key' t < key' (next i)) : i ∈ opened := by
  obtain ⟨p, hp, -, hpne, hpt, htp⟩ := he.gap hl ht ht'
  have hpS : p ∈ {i | i < saved} := he.opened_lt p hp
  have heq : i = p := by
    refine hl.injOn hi hpS (le_antisymm ?_ ?_)
    · exact hl.le_of_lt hpS hpne htp hi hit
    · exact hl.le_of_lt hi hne hti hpS hpt
  rw [heq]
  exact hp

theorem keeps_next (hi : i < saved) (hne : i ≠ last)
    (hno : ∀ t, saved ≤ t → t < size → key' i < key' t → ¬ key' t < key' (next i)) :
    NextKey key' {t | t < size} i (next i) := by
  refine ⟨(hl.next_mem i hi hne).trans_le he.le, hl.lt_next i hi hne, fun t ht hlt => ?_⟩
  by_cases hold : t < saved
  · exact hl.next_le i hi hne t hold hlt
  · exact not_lt.mp (hno t (not_lt.mp hold) ht hlt)

theorem opened_next (hi : i ∈ opened) (hne : i ≠ last) :
    NextKey key' {t | t < size} i (linkTarget saved (m.entries.map Prod.snd) i (next i)) := by
  have hiS := he.opened_lt i hi
  rw [linkTarget]
  cases hij : nextIn (m.entries.map Prod.snd) i with
  | none =>
    refine he.keeps_next hl hiS hne fun t ht ht' hlt _ => ?_
    exact absurd hlt (he.next_none (.inl hi) hij (.inr ⟨ht, ht'⟩)).not_gt
  | some j =>
    obtain ⟨hj, hlt, hmin⟩ := he.next_some (.inl hi) hij
    dsimp only
    split
    · next hor =>
      have hjnew : saved ≤ j ∧ j < size := hj.resolve_left fun hmem => by
        have := he.opened_lt j hmem
        omega
      refine ⟨hjnew.2, hlt, fun t ht hit => ?_⟩
      by_cases hold : t < saved
      · -- the new leaf comes right after `i`
        obtain ⟨p, hp, -, hpne, hpj, hjp⟩ := he.gap hl hjnew.1 hjnew.2
        have hpi : key' p ≤ key' i := by
          by_contra hnot
          exact absurd hpj (hmin p (.inl hp) (not_le.mp hnot)).not_gt
        exact hjp.le.trans (hl.next_le p (he.opened_lt p hp) hpne t hold (hpi.trans_lt hit))
      · exact hmin t (.inr ⟨not_lt.mp hold, ht⟩) hit
    · next hor =>
      -- both are old: a new key between would be the next one
      have hjold : j < saved := by omega
      refine he.keeps_next hl hiS hne fun t ht ht' hit hti => ?_
      exact absurd ((hmin t (.inr ⟨ht, ht'⟩) hit).trans_lt hti) (hl.next_le i hiS hne j hjold hlt).not_gt

theorem new_next {old : Nat} (hi : saved ≤ i) (hi' : i < size) :
    NextKey key' {t | t < size} i (linkTarget saved (m.entries.map Prod.snd) i old) := by
  obtain ⟨p, hp, hnp, hpne, hpi, hip⟩ := he.gap hl hi hi'
  rw [linkTarget]
  cases hij : nextIn (m.entries.map Prod.snd) i with
  | none => exact absurd hip (he.next_none (.inr ⟨hi, hi'⟩) hij (.inl hnp)).not_gt
  | some j =>
    obtain ⟨hj, hlt, hmin⟩ := he.next_some (.inr ⟨hi, hi'⟩) hij
    dsimp only
    rw [if_pos (.inl hi)]
    refine ⟨hj.elim (fun hmem => (he.opened_lt j hmem).trans_le he.le) And.right, hlt, fun t ht hit => ?_⟩
    by_cases hold : t < saved
    · exact (hmin _ (.inl hnp) hip).trans (hl.next_le p (he.opened_lt p hp) hpne t hold (hpi.trans hit))
    · exact hmin t (.inr ⟨not_lt.mp hold, ht⟩) hit

end Old

theorem linked (hl : Linked key next {i | i < saved} first last) {next' : Nat → Nat}
    (hopened : ∀ i ∈ opened, next' i = linkTarget saved (m.entries.map Prod.snd) i (next i))
    (hother : ∀ i < saved, i ∉ opened → next' i = next i)
    (hnew : ∀ i, saved ≤ i → i < size → ∃ old, next' i = linkTarget saved (m.entries.map Prod.snd) i old) :
    Linked key' next' {i | i < size} first last := by
  have hl : Linked key' next {i | i < saved} first last := hl.congr he.key_eq
  have hsize : {i | i < size} = {i | i < saved} ∪ {i | saved ≤ i ∧ i < size} := by
    ext i
    have := he.le
    show i < size ↔ i < saved ∨ saved ≤ i ∧ i < size
    omega
  rw [hsize]
  refine hl.extend (fun i hi j hj hij => ?_) (fun i hi => ?_) ?_
  · have hgi := he.get_key (.inr hi)
    rw [hij, he.get_key (.inr hj)] at hgi
    exact (Option.some.inj hgi).symm
  · obtain ⟨p, hp, -, hne, hk⟩ := he.gap hl hi.1 hi.2
    exact ⟨p, he.opened_lt p hp, hne, hk⟩
  · rw [← hsize]
    intro i hi hne
    by_cases hold : i < saved
    · by_cases hmem : i ∈ opened
      · rw [hopened i hmem]
        exact he.opened_next hl hmem hne
      · rw [hother i hold hmem]
        exact he.keeps_next hl hold hne fun t ht ht' hit hti => hmem (he.prev_eq hl hold hne ht ht' hit hti)
    · obtain ⟨old, heq⟩ := hnew i (not_lt.mp hold) hi
      rw [heq]
      exact he.new_next hl (not_lt.mp hold) hi

end Extends

end Order

/-! ## The leaves after the linking -/

section Leaves

variable {D : Type} {n : Nat} {saved : Nat} {l l' : Leaves D n}

/-- The leaf at `i` with its recorded change, or the new leaf at `i`. -/
def Leaves.leafOf (saved : Nat) (l : Leaves D n) (i : Nat) : Option FlatStorageLeaf :=
  match l.indexToLeaf.get? i with
  | some (p, m) => some (m.elim p.leaf (updatedLeaf p.leaf))
  | none => if saved ≤ i then (l.newWrites[i - saved]?).map Prod.snd else none

/-- A leaf that is linked to the one at `next`. -/
def linkedLeaf (saved current next : Nat) (leaf : FlatStorageLeaf) : FlatStorageLeaf :=
  { leaf with next := if saved ≤ current ∨ saved ≤ next then next else leaf.next }

def Unlinked (l : Leaves D n) (i : Nat) : Prop := ∀ p m, l.indexToLeaf.get? i = some (p, some m) → m.next = none

/-- The new leaves stand at their positions, and the opened ones before them. -/
structure Placed (saved : Nat) (l : Leaves D n) : Prop where
  opened : ∀ i, (l.indexToLeaf.get? i).isSome → i < saved
  new : l.newWrites.map Prod.fst = List.range' saved l.newWrites.length

/-- The same leaves are opened, and the new ones stand where they did. -/
structure SameProofs (l l' : Leaves D n) : Prop where
  proofs : ∀ i, (l'.indexToLeaf.get? i).map Prod.fst = (l.indexToLeaf.get? i).map Prod.fst
  new : l'.newWrites.map Prod.fst = l.newWrites.map Prod.fst

theorem SameProofs.refl (l : Leaves D n) : SameProofs l l := ⟨fun _ => rfl, rfl⟩

variable {l'' : Leaves D n} {i first second current next lastIndex j : Nat} {p : LeafProof D n}
    {m : Option LeafUpdateRecord} {rest indices : List Nat} {m' : LeafUpdateRecord}

theorem SameProofs.trans (hs : SameProofs l l') (hs' : SameProofs l' l'') : SameProofs l l'' :=
  ⟨fun i => (hs'.proofs i).trans (hs.proofs i), hs'.new.trans hs.new⟩

theorem SameProofs.isSome (hs : SameProofs l l') (i : Nat) :
    (l'.indexToLeaf.get? i).isSome = (l.indexToLeaf.get? i).isSome := by
  rw [← Option.isSome_map (f := Prod.fst), hs.proofs, Option.isSome_map]

theorem SameProofs.length (hs : SameProofs l l') : l'.newWrites.length = l.newWrites.length := by
  rw [← List.length_map (f := Prod.fst), hs.new, List.length_map]

theorem SameProofs.placed (hs : SameProofs l l') (hp : Placed saved l) : Placed saved l' := by
  refine ⟨fun i hi => hp.opened i ?_, ?_⟩
  · rw [← hs.isSome]
    exact hi
  · rw [hs.new, hs.length]
    exact hp.new

theorem sameProofs_record {m' : Option LeafUpdateRecord} (hi : l.indexToLeaf.get? i = some (p, m)) :
    SameProofs l { l with indexToLeaf := l.indexToLeaf.insert i (p, m') } := by
  refine ⟨fun t => ?_, rfl⟩
  rw [OrderedMap.get?_insert]
  split
  · next heq =>
    rw [heq, hi]
    rfl
  · rfl

theorem linkFirst_same (hrun : linkFirst saved l first second = some l') : SameProofs l l' := by
  rw [linkFirst] at hrun
  obtain ⟨⟨p, m⟩, hi, hrun⟩ := Option.bind_eq_some_iff.mp hrun
  dsimp only at hrun
  split at hrun
  · obtain ⟨m', -, hrun⟩ := Option.bind_eq_some_iff.mp hrun
    cases hrun
    exact sameProofs_record hi
  · cases hrun
    exact .refl l

theorem linkNext_same (hrun : linkNext saved l current next = some l') : SameProofs l l' := by
  rw [linkNext] at hrun
  split at hrun
  · next p m hi =>
    split at hrun
    · obtain ⟨m', -, hrun⟩ := Option.bind_eq_some_iff.mp hrun
      cases hrun
      exact sameProofs_record hi
    · cases hrun
      exact .refl l
  · simp only [Option.bind_eq_bind, Option.bind_eq_some_iff, Option.pure_def, Option.some.injEq] at hrun
    obtain ⟨⟨expected, leaf⟩, hget, _, -, rfl⟩ := hrun
    refine ⟨fun t => rfl, ?_⟩
    rw [List.map_set]
    refine List.ext_getElem? fun k => ?_
    rw [List.getElem?_set]
    split
    · next heq =>
      rw [← heq, List.length_map, if_pos (List.getElem?_eq_some_iff.mp hget).1, List.getElem?_map, hget]
      rfl
    · rfl

theorem linkRest_same (hrun : linkRest saved l current rest = some (l', lastIndex)) : SameProofs l l' := by
  induction rest generalizing l current with
  | nil =>
    cases hrun
    exact .refl _
  | cons next rest ih =>
    rw [linkRest] at hrun
    obtain ⟨l1, hlink, hrun⟩ := Option.bind_eq_some_iff.mp hrun
    exact (linkNext_same hlink).trans (ih hrun)

theorem relink_eq_some (hrun : relink saved l indices = some l') :
    ∃ first second rest l1 lastIndex, indices = first :: second :: rest ∧ linkFirst saved l first second = some l1 ∧
      linkRest saved l1 second rest = some (l', lastIndex) := by
  match indices with
  | [] => cases hrun
  | [_] => cases hrun
  | first :: second :: rest =>
    simp only [relink, Option.bind_eq_bind, Option.bind_eq_some_iff, Option.pure_def, Option.some.injEq] at hrun
    obtain ⟨_, -, l1, hfirst, ⟨l2, lastIndex⟩, hrest, _, -, rfl⟩ := hrun
    exact ⟨first, second, rest, l1, lastIndex, rfl, hfirst, hrest⟩

theorem relink_same (hrun : relink saved l indices = some l') : SameProofs l l' := by
  obtain ⟨first, second, rest, l1, lastIndex, -, hfirst, hrest⟩ := relink_eq_some hrun
  exact (linkFirst_same hfirst).trans (linkRest_same hrest)

structure LinkStep (saved : Nat) (l l' : Leaves D n) (current next : Nat) : Prop where
  leafOf : ∀ i, l'.leafOf saved i =
    if i = current then (l.leafOf saved i).map (linkedLeaf saved current next) else l.leafOf saved i
  others : ∀ i, i ≠ current → l'.indexToLeaf.get? i = l.indexToLeaf.get? i

theorem linkStep_record (hi : l.indexToLeaf.get? i = some (p, m)) (hvalue : m'.value = m.bind LeafUpdateRecord.value)
    (hnext : m'.next.getD p.leaf.next = j) (hj : saved ≤ j) :
    LinkStep saved l { l with indexToLeaf := l.indexToLeaf.insert i (p, some m') } i j := by
  refine ⟨fun t => ?_, fun t ht => OrderedMap.get?_insert_of_ne _ _ ht⟩
  · rw [Leaves.leafOf, OrderedMap.get?_insert]
    by_cases ht : t = i
    · subst ht
      rw [if_pos rfl, if_pos rfl, Leaves.leafOf, hi, Option.map_some]
      have htarget : ∀ old, (if saved ≤ t ∨ saved ≤ j then j else old) = j := fun _ => if_pos (.inr hj)
      cases m <;> simp [updatedLeaf, linkedLeaf, hvalue, hnext, htarget]
    · rw [if_neg ht, if_neg ht]
      rfl

theorem linkStep_none (hold : i < saved) (hj : j < saved) : LinkStep saved l l i j := by
  refine ⟨fun t => ?_, fun t ht => rfl⟩
  split
  · have hid : linkedLeaf saved i j = id := by
      funext leaf
      rw [linkedLeaf, if_neg (by omega)]
      rfl
    rw [hid, Option.map_id]
    rfl
  · rfl

theorem setNext_eq_some {m : LeafUpdateRecord} (hm : m.setNext next = some m') :
    m.next = none ∧ m' = { m with next := some next } := by
  simp only [LeafUpdateRecord.setNext, Option.bind_eq_bind, Option.bind_eq_some_iff, Option.guard_eq_some', exists_const,
    Option.pure_def, Option.some.injEq] at hm
  exact ⟨hm.1, hm.2.symm⟩

theorem linkNextRecord_spec {leaf : FlatStorageLeaf} (hu : ∀ r, m = some r → r.next = none)
    (hm : linkNextRecord leaf m next = some m') :
    m'.value = m.bind LeafUpdateRecord.value ∧ m'.next.getD leaf.next = next := by
  have hnone : (m.getD ⟨none, none⟩).next = none := by
    cases m with
    | none => rfl
    | some m => exact hu m rfl
  have hvalue : (m.getD ⟨none, none⟩).value = m.bind LeafUpdateRecord.value := by
    cases m <;> rfl
  rw [linkNextRecord] at hm
  split at hm
  · obtain ⟨-, rfl⟩ := setNext_eq_some hm
    exact ⟨hvalue, rfl⟩
  · next hsame =>
    cases hm
    rw [hnone]
    exact ⟨hvalue, not_not.mp hsame⟩

theorem linkFirstRecord_spec (leaf : FlatStorageLeaf) (hm : linkFirstRecord m next = some m') :
    m'.value = m.bind LeafUpdateRecord.value ∧ m'.next.getD leaf.next = next := by
  cases m with
  | none =>
    cases hm
    exact ⟨rfl, rfl⟩
  | some m =>
    obtain ⟨-, rfl⟩ := setNext_eq_some hm
    exact ⟨rfl, rfl⟩

theorem linkNext_spec (hp : Placed saved l) (hu : Unlinked l current) (hrun : linkNext saved l current next = some l')
    : LinkStep saved l l' current next := by
  rw [linkNext] at hrun
  split at hrun
  · next p m hi =>
    have hold := hp.opened current (by rw [hi]; rfl)
    split at hrun
    · next hj =>
      obtain ⟨m', hm', hrun⟩ := Option.bind_eq_some_iff.mp hrun
      cases hrun
      obtain ⟨hvalue, hnext⟩ := linkNextRecord_spec (fun r hr => hu p r (hr ▸ hi)) hm'
      exact linkStep_record hi hvalue hnext hj
    · next hj =>
      cases hrun
      exact linkStep_none hold (not_le.mp hj)
  · next hi =>
    simp only [Option.bind_eq_bind, Option.bind_eq_some_iff, Option.guard_eq_some', exists_const, Option.pure_def,
      Option.some.injEq] at hrun
    obtain ⟨⟨expected, leaf⟩, hget, rfl, rfl⟩ := hrun
    have hnew : saved ≤ expected := by
      have hpos := congrArg (fun xs => xs[expected - saved]?) hp.new
      simp only [List.getElem?_map, hget, Option.map_some] at hpos
      have hmem : expected ∈ List.range' saved l.newWrites.length := List.mem_of_getElem? hpos.symm
      exact (List.mem_range'_1.mp hmem).1
    have hlen : expected - saved < l.newWrites.length := (List.getElem?_eq_some_iff.mp hget).1
    refine ⟨fun t => ?_, fun t ht => rfl⟩
    rw [Leaves.leafOf, Leaves.leafOf]
    by_cases ht : t = expected
    · subst ht
      rw [if_pos rfl, hi]
      simp only [hnew, ↓reduceIte, List.getElem?_set_self hlen, hget, Option.map_some]
      rw [linkedLeaf, if_pos (.inl hnew)]
    · rw [if_neg ht]
      cases l.indexToLeaf.get? t with
      | some e => rfl
      | none =>
        by_cases hle : saved ≤ t
        · simp only [hle, ↓reduceIte]
          rw [List.getElem?_set_ne (by omega)]
        · simp [hle]

theorem linkFirst_spec (hp : Placed saved l) (hrun : linkFirst saved l first second = some l')
    : LinkStep saved l l' first second := by
  rw [linkFirst] at hrun
  obtain ⟨⟨p, m⟩, hi, hrun⟩ := Option.bind_eq_some_iff.mp hrun
  have hold := hp.opened first (by rw [hi]; rfl)
  dsimp only at hrun
  split at hrun
  · next hj =>
    obtain ⟨m', hm', hrun⟩ := Option.bind_eq_some_iff.mp hrun
    cases hrun
    obtain ⟨hvalue, hnext⟩ := linkFirstRecord_spec p.leaf hm'
    exact linkStep_record hi hvalue hnext hj
  · next hj =>
    cases hrun
    exact linkStep_none hold (not_le.mp hj)

theorem LinkStep.unlinked (hs : LinkStep saved l l' current next) (hnot : current ∉ rest)
    (hu : ∀ i ∈ current :: rest, Unlinked l i) : ∀ i ∈ rest, Unlinked l' i := by
  intro i hi p m hget
  rw [hs.others i (fun heq => hnot (heq ▸ hi))] at hget
  exact hu i (List.mem_cons_of_mem _ hi) p m hget

theorem LinkStep.isSome (hs : LinkStep saved l l' current next) (hnot : current ∉ rest)
    (hmem : ∀ i ∈ current :: rest, (l.leafOf saved i).isSome) : ∀ i ∈ rest, (l'.leafOf saved i).isSome := by
  intro i hi
  rw [hs.leafOf, if_neg fun heq : i = current => hnot (heq ▸ hi)]
  exact hmem i (List.mem_cons_of_mem _ hi)

def LinkRun (saved : Nat) (l l' : Leaves D n) (indices : List Nat) : Prop :=
  ∀ i, l'.leafOf saved i =
    (l.leafOf saved i).map fun leaf => { leaf with next := linkTarget saved indices i leaf.next }

theorem linkTarget_of_none (hi : nextIn indices i = none) (old : Nat) :
    linkTarget saved indices i old = old := by
  rw [linkTarget, hi]

theorem nextIn_of_not_mem (hi : i ∉ indices) : nextIn indices i = none := by
  cases h : nextIn indices i with
  | none => rfl
  | some j => exact absurd (mem_of_nextIn h).1 hi

theorem LinkStep.run (hs : LinkStep saved l l' current next) (hnot : current ∉ next :: rest)
    (hr : LinkRun saved l' l'' (next :: rest)) :
    LinkRun saved l l'' (current :: next :: rest) := by
  intro i
  rw [hr i, hs.leafOf]
  by_cases hi : i = current
  · subst hi
    rw [if_pos rfl, Option.map_map]
    congr 1
    funext leaf
    have hstop : ∀ old, linkTarget saved (next :: rest) i old = old := linkTarget_of_none (nextIn_of_not_mem hnot)
    have hhere : ∀ old, linkTarget saved (i :: next :: rest) i old = if saved ≤ i ∨ saved ≤ next then next else old := by
      intro old
      rw [linkTarget, nextIn, if_pos rfl]
    simp only [Function.comp_apply, hstop, hhere, linkedLeaf]
  · rw [if_neg hi]
    congr 1
    funext leaf
    rw [linkTarget, linkTarget, nextIn_cons_of_ne hi]

theorem linkRun_single (l : Leaves D n) (i : Nat) : LinkRun saved l l [i] := by
  intro j
  have hid : (fun leaf : FlatStorageLeaf => { leaf with next := linkTarget saved [i] j leaf.next }) = id := by
    funext leaf
    rw [linkTarget_of_none rfl]
    rfl
  rw [hid, Option.map_id]
  rfl

theorem linkRest_spec (hp : Placed saved l) (hnodup : (current :: rest).Nodup)
    (hu : ∀ i ∈ current :: rest, Unlinked l i) (hrun : linkRest saved l current rest = some (l', lastIndex))
    : LinkRun saved l l' (current :: rest) := by
  induction rest generalizing l current with
  | nil =>
    cases hrun
    exact linkRun_single _ _
  | cons next rest ih =>
    rw [linkRest] at hrun
    obtain ⟨l1, hlink, hrun⟩ := Option.bind_eq_some_iff.mp hrun
    obtain ⟨hnot, hnodup⟩ := List.nodup_cons.mp hnodup
    have hs := linkNext_spec hp (hu current List.mem_cons_self) hlink
    exact hs.run hnot (ih ((linkNext_same hlink).placed hp) hnodup (hs.unlinked hnot hu) hrun)

theorem relink_spec (hp : Placed saved l) (hnodup : indices.Nodup) (hu : ∀ i ∈ indices, Unlinked l i)
    (hrun : relink saved l indices = some l') : LinkRun saved l l' indices := by
  obtain ⟨first, second, rest, l1, lastIndex, rfl, hfirst, hrest⟩ := relink_eq_some hrun
  obtain ⟨hnot, hnodup⟩ := List.nodup_cons.mp hnodup
  have hs := linkFirst_spec hp hfirst
  exact hs.run hnot (linkRest_spec ((linkFirst_same hfirst).placed hp) hnodup (hs.unlinked hnot hu) hrest)

end Leaves

end ZkOs.Tree
