import ZkOs.Tree.Batch
import ZkOs.Tree.Hashes

/-!
# Joining the paths of a batch

One pass computes the digests before and after the writes, level by level.  `F` and `G` are the digests of the leaves
before and after, and `subtree` gives those of the nodes.

* `Joins` : what one level does to nodes, single ones and neighbours;
* `FromBelow`, `Joins.fromBelow`, `Joins.goesInto` : where nodes come from and go to, if they are in ascending order;
* `Joins.reads` : if the digests above are those of the tree, so are the digests below (nothing collides);
* `OnPaths`, `WriteOk`, `NewOk`, `Joins.writes` : the digests after the writes follow the new leaves;
* `mergeLevels_sound`, `mergeLevels_complete` : the two directions for the whole pass.
-/

namespace ZkOs.Tree

open Merkle (subtree join)

variable {D : Type} {n : Nat} {h : FlatStorageHasher D} {l : Leaves D n} {saved level : Nat}

/-- The sibling that a single node is joined with. -/
def siblingOf (h : FlatStorageHasher D) (l : Leaves D n) (level leafIndex : Nat) : Option D :=
  match l.indexToLeaf.get? leafIndex with
  | some (leaf, _) => leaf.sibling level
  | none => some (emptyHash h level)

/-- A single node, joined with the sibling `s`. -/
def HashEntry.up (h : FlatStorageHasher D) (a : HashEntry D) (s : D) : HashEntry D where
  index := a.index / 2
  leafIndex := a.leafIndex
  read := a.read.map fun d => join h.hashNode a.index d s
  write := a.write.map fun d => join h.hashNode a.index d s

theorem processSingle_eq (a : HashEntry D) :
    processSingle h l level a = (siblingOf h l level a.leafIndex).map (a.up h) := by
  rw [processSingle, siblingOf]
  cases l.indexToLeaf.get? a.leafIndex with
  | none => rfl
  | some p =>
    obtain ⟨leaf, modification⟩ := p
    show (leaf.sibling level).bind _ = (leaf.sibling level).map _
    cases leaf.sibling level <;> rfl

def HashEntry.pair (h : FlatStorageHasher D) (level : Nat) (a b : HashEntry D) : HashEntry D where
  index := a.index / 2
  leafIndex := a.leafIndex
  read :=
    if a.read.isSome ∨ b.read.isSome then
      some (h.hashNode (a.read.getD (emptyHash h level)) (b.read.getD (emptyHash h level)))
    else none
  write :=
    if a.write.isSome ∨ b.write.isSome then
      some (h.hashNode (a.write.getD (a.read.getD (emptyHash h level)))
        (b.write.getD (b.read.getD (emptyHash h level))))
    else none

theorem mergePair_eq (a b : HashEntry D) :
    mergePair h saved level a b =
      if ((a.pair h level b).read = none → saved ≤ a.leafIndex ∧ saved ≤ b.leafIndex) ∧
          ((a.pair h level b).write = none → (a.pair h level b).read.isSome) then some (a.pair h level b)
      else none := by
  unfold mergePair HashEntry.pair
  by_cases hr : a.read.isSome = true ∨ b.read.isSome = true <;>
    by_cases hw : a.write.isSome = true ∨ b.write.isSome = true <;>
    by_cases ha : saved ≤ a.leafIndex <;> by_cases hb : saved ≤ b.leafIndex <;>
    simp [hr, hw, ha, hb]

theorem none_of_pair {x y : Option D} {d : D} (hnone : (if x.isSome ∨ y.isSome then some d else none) = none) :
    x = none ∧ y = none := by
  split at hnone
  · cases hnone
  · next hor =>
    obtain ⟨hx, hy⟩ := not_or.mp hor
    exact ⟨Option.not_isSome_iff_eq_none.mp hx, Option.not_isSome_iff_eq_none.mp hy⟩

def Ascending (buffer : List (HashEntry D)) : Prop := buffer.Pairwise fun a b => a.index < b.index

/-- What a level does to its nodes. -/
inductive Joins (h : FlatStorageHasher D) (l : Leaves D n) (level : Nat) : List (HashEntry D) → List (HashEntry D) → Prop
  | nil : Joins h l level [] []
  | single {a : HashEntry D} {s : D} {rest rest' : List (HashEntry D)}
      (hs : siblingOf h l level a.leafIndex = some s) (hne : ∀ b ∈ rest.head?, a.index / 2 ≠ b.index / 2)
      (hrest : Joins h l level rest rest') : Joins h l level (a :: rest) (a.up h s :: rest')
  | pair {a b : HashEntry D} {rest rest' : List (HashEntry D)} (hne : a.index ≠ b.index)
      (hhalf : a.index / 2 = b.index / 2) (hrest : Joins h l level rest rest') :
      Joins h l level (a :: b :: rest) (a.pair h level b :: rest')

theorem joins_of_mergeLoop {buffer buffer' : List (HashEntry D)}
    (hrun : mergeLoop h l saved level buffer = some buffer') : Joins h l level buffer buffer' := by
  induction hlen : buffer.length using Nat.strong_induction_on generalizing buffer buffer' with
  | _ len ih =>
    match buffer with
    | [] =>
      cases hrun
      exact .nil
    | [a] =>
      simp only [mergeLoop, processSingle_eq, Option.bind_eq_bind, Option.bind_eq_some_iff,
        Option.map_eq_some_iff] at hrun
      obtain ⟨_, ⟨s, hs, rfl⟩, hrun⟩ := hrun
      cases hrun
      exact .single hs nofun .nil
    | a :: b :: rest =>
      simp only [List.length_cons] at hlen
      rw [mergeLoop] at hrun
      simp only [Option.bind_eq_bind, Option.bind_eq_some_iff] at hrun
      obtain ⟨_, hguard, hrun⟩ := hrun
      split at hrun
      · next hhalf =>
        obtain ⟨merged, hmerged, hrun⟩ := Option.bind_eq_some_iff.mp hrun
        obtain ⟨rest', hrest', hrun⟩ := Option.bind_eq_some_iff.mp hrun
        cases hrun
        rw [mergePair_eq] at hmerged
        obtain ⟨-, hmerged⟩ := Option.ite_none_right_eq_some.mp hmerged
        cases hmerged
        refine .pair ?_ hhalf (ih _ (by omega) hrest' rfl)
        rintro heq
        simp [heq] at hguard
      · next hhalf =>
        obtain ⟨a', ha', hrun⟩ := Option.bind_eq_some_iff.mp hrun
        obtain ⟨rest', hrest', hrun⟩ := Option.bind_eq_some_iff.mp hrun
        cases hrun
        rw [processSingle_eq] at ha'
        obtain ⟨s, hs, rfl⟩ := Option.map_eq_some_iff.mp ha'
        refine .single hs ?_ (ih _ (by simp only [List.length_cons]; omega) hrest' rfl)
        rintro _ ⟨⟩
        exact hhalf

variable {a : HashEntry D} {rest : List (HashEntry D)}

theorem Ascending.single (hasc : Ascending (a :: rest)) (hne : ∀ b ∈ rest.head?, a.index / 2 ≠ b.index / 2)
    : ∀ e ∈ rest, a.index / 2 < e.index / 2 := by
  obtain ⟨ha, hrest⟩ := List.pairwise_cons.mp hasc
  intro e he
  cases rest with
  | nil => cases he
  | cons b rest =>
    have hab := ha b List.mem_cons_self
    have hhalf := hne b rfl
    rcases List.mem_cons.mp he with rfl | he
    · omega
    · have := (List.pairwise_cons.mp hrest).1 e he
      omega

theorem Ascending.pair {b : HashEntry D} (hasc : Ascending (a :: b :: rest)) (hhalf : a.index / 2 = b.index / 2) :
    a.index % 2 = 0 ∧ b.index = a.index + 1 ∧ ∀ e ∈ rest, a.index / 2 < e.index / 2 := by
  obtain ⟨ha, hbrest⟩ := List.pairwise_cons.mp hasc
  have hab := ha b List.mem_cons_self
  refine ⟨by omega, by omega, fun e he => ?_⟩
  have := (List.pairwise_cons.mp hbrest).1 e he
  omega

/-- Where a node comes from if the nodes below are in ascending order. -/
inductive FromBelow (h : FlatStorageHasher D) (l : Leaves D n) (level : Nat) (buffer : List (HashEntry D)) :
    HashEntry D → Prop
  | single {a : HashEntry D} {s : D} (ha : a ∈ buffer) (hs : siblingOf h l level a.leafIndex = some s)
      (halone : ∀ e ∈ buffer, e.index / 2 = a.index / 2 → e.index = a.index) : FromBelow h l level buffer (a.up h s)
  | pair {a b : HashEntry D} (ha : a ∈ buffer) (hb : b ∈ buffer) (heven : a.index % 2 = 0)
      (hsibling : b.index = a.index + 1) : FromBelow h l level buffer (a.pair h level b)

theorem FromBelow.append {e' : HashEntry D} (ha : FromBelow h l level rest e') (first : List (HashEntry D))
    (hlt : ∀ x ∈ first, ∀ e ∈ rest, x.index / 2 < e.index / 2) :
    FromBelow h l level (first ++ rest) e' := by
  cases ha with
  | @single a s ha hs halone =>
    refine .single (List.mem_append_right _ ha) hs fun e he hi => ?_
    rcases List.mem_append.mp he with he | he
    · have := hlt e he a ha
      omega
    · exact halone e he hi
  | pair ha hb heven hsibling =>
    exact .pair (List.mem_append_right _ ha) (List.mem_append_right _ hb) heven hsibling

namespace Joins

variable {buffer buffer' : List (HashEntry D)}

theorem exists_child (hj : Joins h l level buffer buffer') : ∀ e' ∈ buffer', ∃ e ∈ buffer, e'.index = e.index / 2 := by
  induction hj with
  | nil => exact fun e he => absurd he List.not_mem_nil
  | @single a _ _ _ _ _ _ ih =>
    refine List.forall_mem_cons.mpr ⟨⟨a, List.mem_cons_self, rfl⟩, fun e' he' => ?_⟩
    obtain ⟨e, he, hi⟩ := ih e' he'
    exact ⟨e, List.mem_cons_of_mem _ he, hi⟩
  | @pair a _ _ _ _ _ _ ih =>
    refine List.forall_mem_cons.mpr ⟨⟨a, List.mem_cons_self, rfl⟩, fun e' he' => ?_⟩
    obtain ⟨e, he, hi⟩ := ih e' he'
    exact ⟨e, List.mem_cons_of_mem _ (List.mem_cons_of_mem _ he), hi⟩

theorem index_lt {levels : Nat} (hj : Joins h l level buffer buffer') (hlt : ∀ e ∈ buffer, e.index < 2 ^ (levels + 1)) :
    ∀ e ∈ buffer', e.index < 2 ^ levels := by
  intro e' he'
  obtain ⟨e, he, hi⟩ := hj.exists_child e' he'
  have := hlt e he
  rw [pow_succ] at this
  omega

theorem fromBelow (hj : Joins h l level buffer buffer') (hasc : Ascending buffer) :
    ∀ e' ∈ buffer', FromBelow h l level buffer e' := by
  induction hj with
  | nil => exact fun e he => absurd he List.not_mem_nil
  | @single a s rest rest' hs hne hrest ih =>
    have hlt := hasc.single hne
    refine List.forall_mem_cons.mpr ⟨.single List.mem_cons_self hs (List.forall_mem_cons.mpr ⟨fun _ => rfl, ?_⟩), ?_⟩
    · intro e he hi
      have := hlt e he
      omega
    · intro e' he'
      exact (ih (List.Pairwise.of_cons hasc) e' he').append [a] (by simpa using hlt)
  | @pair a b rest rest' hne hhalf hrest ih =>
    obtain ⟨heven, hsibling, hlt⟩ := hasc.pair hhalf
    have hb : b ∈ a :: b :: rest := List.mem_cons_of_mem _ List.mem_cons_self
    refine List.forall_mem_cons.mpr ⟨.pair List.mem_cons_self hb heven hsibling, fun e' he' => ?_⟩
    exact (ih (List.Pairwise.of_cons (List.Pairwise.of_cons hasc)) e' he').append [a, b] (by simpa [← hhalf] using hlt)

theorem goesInto (hj : Joins h l level buffer buffer') (hasc : Ascending buffer) :
    ∀ e ∈ buffer, (∃ s, e.up h s ∈ buffer') ∨
      ∃ a b, a.pair h level b ∈ buffer' ∧ a.index % 2 = 0 ∧ b.index = a.index + 1 ∧ (e = a ∨ e = b) := by
  induction hj with
  | nil => exact fun e he => absurd he List.not_mem_nil
  | @single a s rest rest' hs hne hrest ih =>
    refine List.forall_mem_cons.mpr ⟨.inl ⟨s, List.mem_cons_self⟩, fun e he => ?_⟩
    rcases ih (List.Pairwise.of_cons hasc) e he with ⟨s, hup⟩ | ⟨a, b, hpair, hab⟩
    · exact .inl ⟨s, List.mem_cons_of_mem _ hup⟩
    · exact .inr ⟨a, b, List.mem_cons_of_mem _ hpair, hab⟩
  | @pair a b rest rest' hne hhalf hrest ih =>
    obtain ⟨heven, hsibling, -⟩ := hasc.pair hhalf
    refine List.forall_mem_cons.mpr ⟨.inr ⟨a, b, List.mem_cons_self, heven, hsibling, .inl rfl⟩,
      List.forall_mem_cons.mpr ⟨.inr ⟨a, b, List.mem_cons_self, heven, hsibling, .inr rfl⟩, fun e he => ?_⟩⟩
    rcases ih (List.Pairwise.of_cons (List.Pairwise.of_cons hasc)) e he with ⟨s, hup⟩ | ⟨a, b, hpair, hab⟩
    · exact .inl ⟨s, List.mem_cons_of_mem _ hup⟩
    · exact .inr ⟨a, b, List.mem_cons_of_mem _ hpair, hab⟩

theorem exists_parent (hj : Joins h l level buffer buffer') (hasc : Ascending buffer) {e : HashEntry D}
    (he : e ∈ buffer) : ∃ e' ∈ buffer', e'.index = e.index / 2 := by
  rcases hj.goesInto hasc e he with ⟨s, hup⟩ | ⟨a, b, hpair, heven, hsibling, rfl | rfl⟩
  · exact ⟨_, hup, rfl⟩
  · exact ⟨_, hpair, rfl⟩
  · refine ⟨_, hpair, ?_⟩
    show a.index / 2 = _
    omega

theorem ascending (hj : Joins h l level buffer buffer') (hasc : Ascending buffer) : Ascending buffer' := by
  induction hj with
  | nil => exact hasc
  | single hs hne hrest ih =>
    refine List.pairwise_cons.mpr ⟨fun e' he' => ?_, ih (List.Pairwise.of_cons hasc)⟩
    obtain ⟨e, he, hi⟩ := hrest.exists_child e' he'
    rw [hi]
    exact hasc.single hne e he
  | pair hne hhalf hrest ih =>
    refine List.pairwise_cons.mpr ⟨fun e' he' => ?_, ih (List.Pairwise.of_cons (List.Pairwise.of_cons hasc))⟩
    obtain ⟨e, he, hi⟩ := hrest.exists_child e' he'
    rw [hi]
    exact (hasc.pair hhalf).2.2 e he

end Joins

/-! ## Digests before the writes -/

section Reads

variable {F : Nat → D}

/-- The digest before the writes is that of the tree. -/
def ReadOk (h : FlatStorageHasher D) (F : Nat → D) (level : Nat) (e : HashEntry D) : Prop :=
  ∀ d, e.read = some d → d = subtree h.hashNode F level e.index

variable {i : Nat} {s : D} {a : HashEntry D}

theorem subtree_succ_even (heven : i % 2 = 0) :
    subtree h.hashNode F (level + 1) (i / 2) =
      h.hashNode (subtree h.hashNode F level i) (subtree h.hashNode F level (i + 1)) := by
  have hi : 2 * (i / 2) = i := by omega
  rw [subtree, hi]

/-- A digest joined with any sibling to the digest of the tree is that of the tree, and so is the sibling. -/
theorem join_injective (hnode : Function.Injective2 h.hashNode) {d : D}
    (hjoin : join h.hashNode i d s = subtree h.hashNode F (level + 1) (i / 2)) :
    d = subtree h.hashNode F level i ∧ s = subtree h.hashNode F level (i ^^^ 1) := by
  rw [← Merkle.join_subtree, join, join] at hjoin
  split at hjoin
  · exact hnode hjoin
  · exact (hnode hjoin).symm

theorem ReadOk.of_up (hnode : Function.Injective2 h.hashNode) (hup : ReadOk h F (level + 1) (a.up h s))
    : ReadOk h F level a := by
  intro d hd
  have hj := hup (join h.hashNode a.index d s) (by rw [HashEntry.up, hd]; rfl)
  exact (join_injective hnode hj).1

theorem ReadOk.sibling (hnode : Function.Injective2 h.hashNode) (hup : ReadOk h F (level + 1) (a.up h s))
    (hsome : a.read.isSome) :
    s = subtree h.hashNode F level (a.index ^^^ 1) := by
  obtain ⟨d, hd⟩ := Option.isSome_iff_exists.mp hsome
  have hj := hup (join h.hashNode a.index d s) (by rw [HashEntry.up, hd]; rfl)
  exact (join_injective hnode hj).2

theorem ReadOk.of_pair (hnode : Function.Injective2 h.hashNode) {b : HashEntry D} (heven : a.index % 2 = 0)
    (hsibling : b.index = a.index + 1) (hpair : ReadOk h F (level + 1) (a.pair h level b)) :
    ReadOk h F level a ∧ ReadOk h F level b := by
  have hboth : ∀ d, (a.pair h level b).read = some d →
      d = h.hashNode (subtree h.hashNode F level a.index) (subtree h.hashNode F level b.index) := by
    intro d hd
    rw [hpair d hd, hsibling, ← subtree_succ_even heven]
    rfl
  constructor
  · intro d hd
    have := hboth (h.hashNode d (b.read.getD (emptyHash h level))) (by simp [HashEntry.pair, hd])
    exact (hnode this).1
  · intro d hd
    have := hboth (h.hashNode (a.read.getD (emptyHash h level)) d) (by simp [HashEntry.pair, hd])
    exact (hnode this).2

/-- If the digests above are those of the tree, so are the digests below. -/
theorem Joins.reads (hnode : Function.Injective2 h.hashNode) {buffer buffer' : List (HashEntry D)}
    (hj : Joins h l level buffer buffer') (hasc : Ascending buffer) (habove : ∀ e ∈ buffer', ReadOk h F (level + 1) e) :
    ∀ e ∈ buffer, ReadOk h F level e := by
  intro e he
  rcases hj.goesInto hasc e he with ⟨s, hup⟩ | ⟨a, b, hpair, heven, hsibling, rfl | rfl⟩
  · exact (habove _ hup).of_up hnode
  · exact ((habove _ hpair).of_pair hnode heven hsibling).1
  · exact ((habove _ hpair).of_pair hnode heven hsibling).2

end Reads

/-! ## Digests after the writes -/

section Writes

variable {F G : Nat → D} {R : Set Nat}

/-- The digest after the writes is that of the new tree; without one the node does not change. -/
def WriteOk (h : FlatStorageHasher D) (F G : Nat → D) (level : Nat) (e : HashEntry D) : Prop :=
  (∀ d, e.write = some d → d = subtree h.hashNode G level e.index) ∧
  (e.write = none → e.read.isSome ∧ subtree h.hashNode G level e.index = subtree h.hashNode F level e.index)

/-- A node without a digest before the writes stands above new positions only, and the last old position is one of
those on the paths. -/
def NewOk (l : Leaves D n) (saved : Nat) (R : Set Nat) (level : Nat) (e : HashEntry D) : Prop :=
  e.read = none → 0 < saved ∧ saved - 1 ∈ R ∧ saved ≤ e.index * 2 ^ level ∧ l.indexToLeaf.get? e.leafIndex = none

/-- All positions of `R` are on the paths. -/
def OnPaths (R : Set Nat) (level : Nat) (buffer : List (HashEntry D)) : Prop :=
  ∀ j ∈ R, ∃ e ∈ buffer, e.index = j / 2 ^ level

/-- All changes are at positions of `R`, and positions from `saved` on were empty. -/
structure Changes (h : FlatStorageHasher D) (saved : Nat) (F G : Nat → D) (R : Set Nat) : Prop where
  empty : ∀ j, saved ≤ j → F j = h.hashLeaf .empty
  changed : ∀ j, F j ≠ G j → j ∈ R

variable {i : Nat} {buffer buffer' : List (HashEntry D)} {a b : HashEntry D} {s : D}

theorem Changes.subtree_empty (hc : Changes h saved F G R) (hi : saved ≤ i * 2 ^ level) :
    subtree h.hashNode F level i = emptyHash h level := by
  rw [← Tree.subtree_empty level i]
  refine Merkle.subtree_congr fun j hj => hc.empty j (hi.trans ?_)
  rw [← hj]
  exact Nat.div_mul_le_self j _

theorem Changes.subtree_eq (hc : Changes h saved F G R) (hi : ∀ j ∈ R, j / 2 ^ level ≠ i) :
    subtree h.hashNode G level i = subtree h.hashNode F level i := by
  refine Merkle.subtree_congr fun j hj => ?_
  by_contra hne
  exact hi j (hc.changed j (Ne.symm hne)) hj

/-- No path goes through the sibling of a single node. -/
theorem OnPaths.sibling (hr : OnPaths R level buffer)
    (halone : ∀ e ∈ buffer, e.index / 2 = a.index / 2 → e.index = a.index) :
    ∀ j ∈ R, j / 2 ^ level ≠ a.index ^^^ 1 := by
  intro j hj hji
  obtain ⟨e, he, hi⟩ := hr j hj
  rw [hji, Merkle.xor_one] at hi
  have := halone e he (by rw [hi]; split <;> omega)
  rw [hi] at this
  split at this <;> omega

theorem half_mul_two_pow (i : Nat) : i / 2 * 2 ^ (level + 1) = (i - i % 2) * 2 ^ level := by
  rw [pow_succ, ← Nat.mul_assoc, Nat.mul_right_comm]
  congr 1
  omega

/-- The sibling of a node above new positions, and the node above both, stand above new positions too. -/
theorem sibling_new (hi : saved ≤ i * 2 ^ level) (hpos : 0 < saved) (hright : (saved - 1) / 2 ^ level ≠ i ^^^ 1) :
    saved ≤ (i ^^^ 1) * 2 ^ level ∧ saved ≤ i / 2 * 2 ^ (level + 1) := by
  have hpow : 0 < 2 ^ level := Nat.two_pow_pos level
  rw [Merkle.xor_one] at hright ⊢
  rw [half_mul_two_pow]
  split at hright
  · next heven =>
    rw [if_pos heven, heven]
    exact ⟨hi.trans (Nat.mul_le_mul_right _ (Nat.le_succ i)), hi⟩
  · next hodd =>
    rw [if_neg hodd, Nat.mod_two_ne_zero.mp hodd]
    have hle : saved ≤ (i - 1) * 2 ^ level := by
      by_contra hlt
      refine hright (Nat.div_eq_of_lt_le (by omega) ?_)
      rw [Nat.sub_add_cancel (by omega)]
      omega
    exact ⟨hle, hle⟩

theorem NewOk.up (ha : NewOk l saved R level a) (hsib : ∀ j ∈ R, j / 2 ^ level ≠ a.index ^^^ 1)
    : NewOk l saved R (level + 1) (a.up h s) := by
  intro hnone
  obtain ⟨hpos, hright, hi, hleaf⟩ := ha (Option.map_eq_none_iff.mp hnone)
  exact ⟨hpos, hright, (sibling_new hi hpos (hsib _ hright)).2, hleaf⟩

theorem NewOk.pair (ha : NewOk l saved R level a) (heven : a.index % 2 = 0) :
    NewOk l saved R (level + 1) (a.pair h level b) := by
  intro hnone
  obtain ⟨hpos, hright, hi, hleaf⟩ := ha (none_of_pair hnone).1
  refine ⟨hpos, hright, ?_, hleaf⟩
  show saved ≤ a.index / 2 * 2 ^ (level + 1)
  rw [half_mul_two_pow, heven]
  exact hi

/-- The sibling that a single node is joined with is that of the old tree. -/
def SiblingOk (h : FlatStorageHasher D) (F : Nat → D) (level : Nat) (a : HashEntry D) (s : D) : Prop :=
  s = subtree h.hashNode F level (a.index ^^^ 1)

theorem NewOk.sibling (hc : Changes h saved F G R) (ha : NewOk l saved R level a)
    (hsib : ∀ j ∈ R, j / 2 ^ level ≠ a.index ^^^ 1) (hs : siblingOf h l level a.leafIndex = some s)
    (hnone : a.read = none) : SiblingOk h F level a s := by
  obtain ⟨hpos, hright, hi, hleaf⟩ := ha hnone
  rw [siblingOf, hleaf] at hs
  rw [SiblingOk, hc.subtree_empty (sibling_new hi hpos (hsib _ hright)).1]
  exact (Option.some.inj hs).symm

theorem WriteOk.up (hc : Changes h saved F G R) (ha : WriteOk h F G level a)
    (hsib : ∀ j ∈ R, j / 2 ^ level ≠ a.index ^^^ 1) (hs : SiblingOk h F level a s) :
    WriteOk h F G (level + 1) (a.up h s) := by
  have heq := hc.subtree_eq hsib
  rw [SiblingOk, ← heq] at hs
  constructor
  · intro d hd
    obtain ⟨w, hw, rfl⟩ := Option.map_eq_some_iff.mp hd
    show _ = subtree h.hashNode G (level + 1) (a.index / 2)
    rw [← Merkle.join_subtree, ha.1 w hw, hs]
  · intro hnone
    obtain ⟨hsome, hsame⟩ := ha.2 (Option.map_eq_none_iff.mp hnone)
    refine ⟨by rw [HashEntry.up, Option.isSome_map]; exact hsome, ?_⟩
    show subtree h.hashNode G (level + 1) (a.index / 2) = subtree h.hashNode F (level + 1) (a.index / 2)
    rw [← Merkle.join_subtree, ← Merkle.join_subtree, hsame, heq]

theorem WriteOk.getD (ha : WriteOk h F G level a) (hread : ReadOk h F level a) :
    a.write.getD (a.read.getD (emptyHash h level)) = subtree h.hashNode G level a.index := by
  cases hw : a.write with
  | some d => exact ha.1 d hw
  | none =>
    obtain ⟨hsome, hsame⟩ := ha.2 hw
    obtain ⟨d, hd⟩ := Option.isSome_iff_exists.mp hsome
    rw [hd, hsame]
    exact hread d hd

theorem WriteOk.pair (ha : WriteOk h F G level a) (hb : WriteOk h F G level b) (hra : ReadOk h F level a)
    (hrb : ReadOk h F level b) (heven : a.index % 2 = 0) (hsibling : b.index = a.index + 1)
    : WriteOk h F G (level + 1) (a.pair h level b) := by
  have hnode : h.hashNode (a.write.getD (a.read.getD (emptyHash h level)))
      (b.write.getD (b.read.getD (emptyHash h level))) = subtree h.hashNode G (level + 1) (a.index / 2) := by
    rw [ha.getD hra, hb.getD hrb, hsibling, ← subtree_succ_even heven]
  constructor
  · intro d hd
    obtain ⟨-, hd⟩ := Option.ite_none_right_eq_some.mp hd
    rw [← Option.some.inj hd]
    exact hnode
  · intro hnone
    obtain ⟨hna, hnb⟩ := none_of_pair hnone
    obtain ⟨hsome, hsame⟩ := ha.2 hna
    obtain ⟨-, hsame'⟩ := hb.2 hnb
    refine ⟨by simp [HashEntry.pair, hsome], ?_⟩
    show subtree h.hashNode G (level + 1) (a.index / 2) = subtree h.hashNode F (level + 1) (a.index / 2)
    rw [subtree_succ_even heven, subtree_succ_even heven, ← hsibling, hsame, hsame']

/-- One level keeps the digests after the writes, when the siblings of its single nodes are those of the old tree. -/
theorem Joins.writes (hc : Changes h saved F G R) (hj : Joins h l level buffer buffer') (hasc : Ascending buffer)
    (hr : OnPaths R level buffer)
    (hsiblings : ∀ a ∈ buffer, ∀ s, a.read.isSome → a.up h s ∈ buffer' → siblingOf h l level a.leafIndex = some s →
      SiblingOk h F level a s) (hread : ∀ e ∈ buffer, ReadOk h F level e) (hwrite : ∀ e ∈ buffer, WriteOk h F G level e)
    (hnew : ∀ e ∈ buffer, NewOk l saved R level e) :
    ∀ e ∈ buffer', WriteOk h F G (level + 1) e ∧ NewOk l saved R (level + 1) e := by
  intro e' he'
  cases hj.fromBelow hasc e' he' with
  | @single a s ha hs halone =>
    have hsib := hr.sibling halone
    have hsok : SiblingOk h F level a s := by
      cases hra : a.read with
      | none => exact (hnew a ha).sibling hc hsib hs hra
      | some d => exact hsiblings a ha s (by rw [hra]; rfl) he' hs
    exact ⟨(hwrite a ha).up hc hsib hsok, (hnew a ha).up hsib⟩
  | @pair a b ha hb heven hsibling =>
    exact ⟨(hwrite a ha).pair (hwrite b hb) (hread a ha) (hread b hb) heven hsibling, (hnew a ha).pair heven⟩

theorem Joins.onPaths (hj : Joins h l level buffer buffer') (hasc : Ascending buffer) (hr : OnPaths R level buffer)
    : OnPaths R (level + 1) buffer' := by
  intro j hj'
  obtain ⟨e, he, hi⟩ := hr j hj'
  obtain ⟨e', he', hi'⟩ := hj.exists_parent hasc he
  exact ⟨e', he', by rw [hi', hi, Merkle.div_two_pow_succ]⟩

end Writes

/-! ## The whole pass -/

section Pass

variable {F G : Nat → D} {R : Set Nat}

variable {levels : Nat} {buffer : List (HashEntry D)} {a b : HashEntry D} {s : D}

/-- If the pass over nodes in ascending order ends with the digest of the old tree, all the digests it started with
were those of the tree, and then it ends with the digest of the new tree too. -/
theorem mergeLevels_sound (hnode : Function.Injective2 h.hashNode) (hc : Changes h saved F G R)
    (hasc : Ascending buffer) (hlt : ∀ e ∈ buffer, e.index < 2 ^ levels)
    (hrun : mergeLevels h l saved levels level buffer = some [a])
    (hroot : a.read = some (subtree h.hashNode F (level + levels) 0)) :
    (∀ e ∈ buffer, ReadOk h F level e) ∧
      ((∀ e ∈ buffer, WriteOk h F G level e) → (∀ e ∈ buffer, NewOk l saved R level e) → OnPaths R level buffer →
        WriteOk h F G (level + levels) a ∧ a.index = 0) := by
  induction levels generalizing level buffer with
  | zero =>
    cases hrun
    have hzero : a.index = 0 := Nat.lt_one_iff.mp (hlt a List.mem_cons_self)
    refine ⟨?_, fun hwrite _ _ => ⟨hwrite a List.mem_cons_self, hzero⟩⟩
    intro e he d hd
    rw [List.mem_singleton.mp he] at hd ⊢
    rw [hroot] at hd
    rw [hzero, ← Option.some.inj hd]
    rfl
  | succ levels ih =>
    rw [mergeLevels] at hrun
    simp only [Option.bind_eq_bind, Option.bind_eq_some_iff] at hrun
    obtain ⟨-, -, buffer', hloop, hrun⟩ := hrun
    have hj := joins_of_mergeLoop hloop
    rw [Nat.add_comm levels 1, ← Nat.add_assoc] at hroot ⊢
    obtain ⟨habove, hafter⟩ := ih (hj.ascending hasc) (hj.index_lt hlt) hrun hroot
    have hreads := hj.reads hnode hasc habove
    refine ⟨hreads, fun hwrite hnew hr => ?_⟩
    have hnext := hj.writes hc hasc hr
      (fun a _ s hsome hmem _ => (habove _ hmem).sibling hnode hsome) hreads hwrite hnew
    exact hafter (fun e he => (hnext e he).1) (fun e he => (hnext e he).2) (hj.onPaths hasc hr)

/-- A node with a digest before the writes stands above a cached leaf whose path is that of the old tree. -/
def PathOk (h : FlatStorageHasher D) (l : Leaves D n) (saved : Nat) (F : Nat → D) (level : Nat) (e : HashEntry D) :
    Prop :=
  e.read.isSome → e.leafIndex < saved ∧ e.leafIndex / 2 ^ level = e.index ∧
    ∃ p m, l.indexToLeaf.get? e.leafIndex = some (p, m) ∧
      ∀ k < n, p.sibling k = some (subtree h.hashNode F k (e.leafIndex / 2 ^ k ^^^ 1))

/-- What holds of the nodes of a level when the oracle is honest. -/
structure NodeOk (h : FlatStorageHasher D) (l : Leaves D n) (saved : Nat) (F G : Nat → D) (R : Set Nat) (level : Nat)
    (e : HashEntry D) : Prop where
  read : ReadOk h F level e
  path : PathOk h l saved F level e
  write : WriteOk h F G level e
  new : NewOk l saved R level e
  leafIndex : e.read = none → saved ≤ e.leafIndex

theorem NodeOk.siblingOf {e : HashEntry D} (he : NodeOk h l saved F G R level e) (hlevel : level < n) :
    ∃ s, siblingOf h l level e.leafIndex = some s ∧ (e.read.isSome → SiblingOk h F level e s) := by
  rw [Tree.siblingOf]
  cases hr : e.read with
  | none =>
    rw [(he.new hr).2.2.2]
    exact ⟨_, rfl, fun hsome => absurd hsome Bool.false_ne_true⟩
  | some d =>
    obtain ⟨-, hindex, p, m, hp, hpath⟩ := he.path (by rw [hr]; rfl)
    rw [hp]
    refine ⟨_, hpath level hlevel, fun _ => ?_⟩
    rw [SiblingOk, hindex]

/-- With an honest oracle no assertion of a level fails. -/
theorem mergeLoop_total (hasc : Ascending buffer) (hlevel : level < n)
    (hok : ∀ e ∈ buffer, NodeOk h l saved F G R level e) :
    ∃ buffer', mergeLoop h l saved level buffer = some buffer' := by
  induction hlen : buffer.length using Nat.strong_induction_on generalizing buffer with
  | _ len ih =>
    match buffer with
    | [] => exact ⟨[], rfl⟩
    | [a] =>
      obtain ⟨s, hs, -⟩ := (hok a List.mem_cons_self).siblingOf hlevel
      refine ⟨[a.up h s], ?_⟩
      rw [mergeLoop, processSingle_eq, hs]
      rfl
    | a :: b :: rest =>
      obtain ⟨ha, hbrest⟩ := List.pairwise_cons.mp hasc
      have hab : a.index ≠ b.index := (ha b List.mem_cons_self).ne
      have hb : b ∈ a :: b :: rest := List.mem_cons_of_mem _ List.mem_cons_self
      simp only [List.length_cons] at hlen
      rw [mergeLoop]
      simp only [hab, ne_eq, not_false_eq_true, guard_true, Option.bind_eq_bind, Option.pure_def, Option.bind_some]
      split
      · have hpair : mergePair h saved level a b = some (a.pair h level b) := by
          rw [mergePair_eq, if_pos]
          refine ⟨fun hnone => ?_, fun hnone => ?_⟩
          · obtain ⟨hna, hnb⟩ := none_of_pair hnone
            exact ⟨(hok a List.mem_cons_self).leafIndex hna, (hok b hb).leafIndex hnb⟩
          · have hsome := ((hok a List.mem_cons_self).write.2 (none_of_pair hnone).1).1
            simp [HashEntry.pair, hsome]
        obtain ⟨rest', hrest'⟩ := ih _ (by omega) (List.pairwise_cons.mp hbrest).2
          (fun e he => hok e (List.mem_cons_of_mem _ (List.mem_cons_of_mem _ he))) rfl
        exact ⟨a.pair h level b :: rest', by rw [hpair, Option.bind_some, hrest']; rfl⟩
      · obtain ⟨s, hs, -⟩ := (hok a List.mem_cons_self).siblingOf hlevel
        obtain ⟨rest', hrest'⟩ := ih _ (by simp only [List.length_cons]; omega) hbrest
          (fun e he => hok e (List.mem_cons_of_mem _ he)) rfl
        exact ⟨a.up h s :: rest', by rw [processSingle_eq, hs, Option.map_some, Option.bind_some, hrest']; rfl⟩

theorem NodeOk.up_read (ha : NodeOk h l saved F G R level a) (hs : a.read.isSome → SiblingOk h F level a s)
    : ReadOk h F (level + 1) (a.up h s) := by
  intro d hd
  obtain ⟨r, hr, rfl⟩ := Option.map_eq_some_iff.mp hd
  show _ = subtree h.hashNode F (level + 1) (a.index / 2)
  rw [← Merkle.join_subtree, ha.read r hr, hs (by rw [hr]; rfl)]

theorem NodeOk.up_path (ha : NodeOk h l saved F G R level a) :
    PathOk h l saved F (level + 1) (a.up h s) := by
  intro hsome
  have hsome : a.read.isSome := by
    rw [HashEntry.up, Option.isSome_map] at hsome
    exact hsome
  obtain ⟨hlt, hindex, hpath⟩ := ha.path hsome
  exact ⟨hlt, by rw [Merkle.div_two_pow_succ, HashEntry.up, hindex], hpath⟩

theorem NodeOk.getD_read (hc : Changes h saved F G R) (ha : NodeOk h l saved F G R level a) :
    a.read.getD (emptyHash h level) = subtree h.hashNode F level a.index := by
  cases hr : a.read with
  | some d => exact ha.read d hr
  | none => exact (hc.subtree_empty (ha.new hr).2.2.1).symm

theorem NodeOk.pair_read (hc : Changes h saved F G R) (ha : NodeOk h l saved F G R level a)
    (hb : NodeOk h l saved F G R level b) (heven : a.index % 2 = 0) (hsibling : b.index = a.index + 1) :
    ReadOk h F (level + 1) (a.pair h level b) := by
  intro d hd
  obtain ⟨-, hd⟩ := Option.ite_none_right_eq_some.mp hd
  rw [← Option.some.inj hd, ha.getD_read hc, hb.getD_read hc, hsibling, ← subtree_succ_even heven]
  rfl

/-- The left node of a pair stands above an old leaf if the right one does. -/
theorem NodeOk.pair_path (ha : NodeOk h l saved F G R level a) (hb : NodeOk h l saved F G R level b)
    (hsibling : b.index = a.index + 1) :
    PathOk h l saved F (level + 1) (a.pair h level b) := by
  intro hsome
  have hsome : a.read.isSome := by
    by_contra hnone
    have hnone := Option.not_isSome_iff_eq_none.mp hnone
    have hbsome : b.read.isSome := by
      by_contra hbnone
      simp [HashEntry.pair, hnone, hbnone] at hsome
    obtain ⟨hlt, hindex, -⟩ := hb.path hbsome
    have hle := (ha.new hnone).2.2.1
    have hdiv := Nat.div_mul_le_self b.leafIndex (2 ^ level)
    rw [hindex, hsibling, Nat.add_mul] at hdiv
    omega
  obtain ⟨hlt, hindex, hpath⟩ := ha.path hsome
  exact ⟨hlt, by rw [Merkle.div_two_pow_succ, HashEntry.pair, hindex], hpath⟩

theorem Joins.nodeOk (hc : Changes h saved F G R) {buffer' : List (HashEntry D)} (hj : Joins h l level buffer buffer')
    (hasc : Ascending buffer) (hlevel : level < n) (hr : OnPaths R level buffer)
    (hok : ∀ e ∈ buffer, NodeOk h l saved F G R level e) : ∀ e ∈ buffer', NodeOk h l saved F G R (level + 1) e := by
  have hsiblings : ∀ a ∈ buffer, ∀ s, a.read.isSome → siblingOf h l level a.leafIndex = some s →
      SiblingOk h F level a s := by
    intro a ha s hsome hs
    obtain ⟨s', hs', hok'⟩ := (hok a ha).siblingOf hlevel
    obtain rfl : s' = s := Option.some.inj (hs'.symm.trans hs)
    exact hok' hsome
  intro e' he'
  obtain ⟨hwrite, hnew⟩ := hj.writes hc hasc hr (fun a ha s hsome _ hs => hsiblings a ha s hsome hs)
    (fun e he => (hok e he).read) (fun e he => (hok e he).write) (fun e he => (hok e he).new) e' he'
  cases hj.fromBelow hasc e' he' with
  | @single a s ha hs halone =>
    refine ⟨(hok a ha).up_read fun hsome => hsiblings a ha s hsome hs, (hok a ha).up_path, hwrite, hnew, ?_⟩
    exact fun hnone => (hok a ha).leafIndex (Option.map_eq_none_iff.mp hnone)
  | @pair a b ha hb heven hsibling =>
    refine ⟨(hok a ha).pair_read hc (hok b hb) heven hsibling, (hok a ha).pair_path (hok b hb) hsibling, hwrite, hnew, ?_⟩
    exact fun hnone => (hok a ha).leafIndex (none_of_pair hnone).1

/-- With an honest oracle the pass ends with the digests of the old and the new tree. -/
theorem mergeLevels_complete (hc : Changes h saved F G R) (hasc : Ascending buffer)
    (hlt : ∀ e ∈ buffer, e.index < 2 ^ levels) (hne : buffer ≠ []) (hn : level + levels = n)
    (hok : ∀ e ∈ buffer, NodeOk h l saved F G R level e) (hr : OnPaths R level buffer) :
    ∃ a, mergeLevels h l saved levels level buffer = some [a] ∧ a.index = 0 ∧
      a.read = some (subtree h.hashNode F n 0) ∧ WriteOk h F G n a := by
  induction levels generalizing level buffer with
  | zero =>
    obtain ⟨a, rest, rfl⟩ := List.exists_cons_of_ne_nil hne
    have hzero : a.index = 0 := Nat.lt_one_iff.mp (hlt a List.mem_cons_self)
    have hrest : rest = [] := by
      rw [List.eq_nil_iff_forall_not_mem]
      intro e he
      have h1 := (List.pairwise_cons.mp hasc).1 e he
      have h2 := hlt e (List.mem_cons_of_mem _ he)
      rw [pow_zero] at h2
      omega
    subst hrest
    obtain rfl : level = n := hn
    have ha := hok a List.mem_cons_self
    refine ⟨a, rfl, hzero, ?_, ha.write⟩
    cases hread : a.read with
    | some d => rw [ha.read d hread, hzero]
    | none =>
      obtain ⟨hpos, -, hle, -⟩ := ha.new hread
      rw [hzero, Nat.zero_mul] at hle
      omega
  | succ levels ih =>
    obtain ⟨buffer', hloop⟩ := mergeLoop_total hasc (by omega) hok
    have hj := joins_of_mergeLoop hloop
    have hne' : buffer' ≠ [] := by
      obtain ⟨e, rest, rfl⟩ := List.exists_cons_of_ne_nil hne
      obtain ⟨e', he', -⟩ := hj.exists_parent hasc List.mem_cons_self
      exact List.ne_nil_of_mem he'
    obtain ⟨a, hrun, ha⟩ := ih (hj.ascending hasc) (hj.index_lt hlt) hne' (by omega)
      (hj.nodeOk hc hasc (by omega) hr hok) (hj.onPaths hasc hr)
    refine ⟨a, ?_, ha⟩
    simp only [mergeLevels, hne, ne_eq, not_false_eq_true, guard_true, Option.bind_eq_bind, Option.pure_def,
      Option.bind_some, hloop]
    exact hrun

end Pass

end ZkOs.Tree
