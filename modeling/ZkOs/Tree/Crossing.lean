import ZkOs.Tree.Merge

/-!
# Paths out of order

The nodes of old leaves come before those of new ones.  The order is ascending when the old leaves are below the first
new position, which the code does not check of every index that the oracle gives.  If an old leaf claims a later
position, its node ends up on the wrong side of the first new one, and the pass does not end with the old root.

* `Carries` : a node whose digest fixes the digest of a leaf;
* `Joins.append` : a level over two ascending parts;
* `Even` : two nodes with one index, which are never joined;
* `Behind`, `behind_false` : a leaf behind the first new position.
-/

namespace ZkOs.Tree

open Merkle (subtree join)

variable {D : Type} {n : Nat} {h : FlatStorageHasher D} {l : Leaves D n} {saved level : Nat}

/-- Whatever the tree, if the digest of the node is right, the digest of the leaf at `c` is `d`. -/
structure Carries (h : FlatStorageHasher D) (level : Nat) (e : HashEntry D) (c : Nat) (d : D) : Prop where
  isSome : e.read.isSome
  index : e.index = c / 2 ^ level
  digest : ∀ F : Nat → D, e.read = some (subtree h.hashNode F level e.index) → d = F c

variable {a x y : HashEntry D} {c levels : Nat} {d : D} {after buffer' buffer : List (HashEntry D)} {F : Nat → D}

theorem Carries.up (hnode : Function.Injective2 h.hashNode) (ha : Carries h level a c d) (s : D)
    : Carries h (level + 1) (a.up h s) c d := by
  refine ⟨by rw [HashEntry.up, Option.isSome_map]; exact ha.isSome, ?_, fun F hF => ?_⟩
  · rw [Merkle.div_two_pow_succ, HashEntry.up, ha.index]
  · obtain ⟨r, hr⟩ := Option.isSome_iff_exists.mp ha.isSome
    rw [HashEntry.up, hr] at hF
    refine ha.digest F ?_
    rw [hr, (join_injective hnode (Option.some.inj hF)).1]

theorem Carries.pair_right (hnode : Function.Injective2 h.hashNode) {b : HashEntry D} (hb : Carries h level b c d)
    (heven : a.index % 2 = 0) (hsibling : b.index = a.index + 1) :
    Carries h (level + 1) (a.pair h level b) c d := by
  obtain ⟨r, hr⟩ := Option.isSome_iff_exists.mp hb.isSome
  have hread : (a.pair h level b).read = some (h.hashNode (a.read.getD (emptyHash h level)) r) := by
    simp [HashEntry.pair, hr]
  refine ⟨by rw [hread]; rfl, ?_, fun F hF => ?_⟩
  · rw [Merkle.div_two_pow_succ, ← hb.index]
    show a.index / 2 = b.index / 2
    omega
  · rw [hread] at hF
    have hF := Option.some.inj hF
    rw [show (a.pair h level b).index = a.index / 2 from rfl, subtree_succ_even heven] at hF
    refine hb.digest F ?_
    rw [hr, (hnode hF).2, hsibling]

/-! ## A level over two ascending parts -/

/-- A level over an ascending part that ends with `x`, and what follows: `x` is joined with the node before it, or it is
left for what follows. -/
theorem Joins.append {before : List (HashEntry D)} (hasc : Ascending (before ++ [x]))
    (hj : Joins h l level (before ++ x :: after) buffer') :
    (∃ (before' : List (HashEntry D)) (p : HashEntry D) (after' : List (HashEntry D)),
      buffer' = before' ++ p.pair h level x :: after' ∧ p.index % 2 = 0 ∧ x.index = p.index + 1 ∧
      Joins h l level (before ++ [x]) (before' ++ [p.pair h level x]) ∧ Joins h l level after after') ∨
    (∃ before' after', buffer' = before' ++ after' ∧ Joins h l level before before' ∧
      (∀ e ∈ before, e.index / 2 < x.index / 2) ∧ Joins h l level (x :: after) after') := by
  generalize hb : before ++ x :: after = buffer at hj
  induction hj generalizing before with
  | nil => cases before <;> cases hb
  | @single a s rest rest' hs hne hrest ih =>
    cases before with
    | nil =>
      cases hb
      exact .inr ⟨[], _, rfl, .nil, fun e he => absurd he List.not_mem_nil, .single hs hne hrest⟩
    | cons c before =>
      cases hb
      have hx := hasc.single (by cases before <;> exact hne) x (by simp)
      rcases ih (List.Pairwise.of_cons hasc) rfl with
        ⟨before', p, after', rfl, heven, hsib, hl, hafter⟩ | ⟨before', after', rfl, hl, hhalves, hafter⟩
      · exact .inl ⟨_ :: before', p, after', rfl, heven, hsib, .single hs (by cases before <;> exact hne) hl, hafter⟩
      · refine .inr ⟨_ :: before', after', rfl, .single hs ?_ hl, List.forall_mem_cons.mpr ⟨hx, hhalves⟩, hafter⟩
        cases before with
        | nil => exact nofun
        | cons => exact hne
  | @pair a b rest rest' hne hhalf hrest ih =>
    match before with
    | [] =>
      cases hb
      exact .inr ⟨[], _, rfl, .nil, fun e he => absurd he List.not_mem_nil, .pair hne hhalf hrest⟩
    | [c] =>
      cases hb
      obtain ⟨heven, hsib, -⟩ := Ascending.pair hasc hhalf
      exact .inl ⟨[], a, _, rfl, heven, hsib, .pair hne hhalf .nil, hrest⟩
    | c :: d :: before =>
      cases hb
      have hx := (Ascending.pair hasc hhalf).2.2 x (by simp)
      rcases ih (List.Pairwise.of_cons (List.Pairwise.of_cons hasc)) rfl with
        ⟨before', p, after', rfl, heven, hsib, hl, hafter⟩ | ⟨before', after', rfl, hl, hhalves, hafter⟩
      · exact .inl ⟨_ :: before', p, after', rfl, heven, hsib, .pair hne hhalf hl, hafter⟩
      · exact .inr ⟨_ :: before', after', rfl, .pair hne hhalf hl,
          List.forall_mem_cons.mpr ⟨hx, List.forall_mem_cons.mpr ⟨by omega, hhalves⟩⟩, hafter⟩

theorem Joins.head (hj : Joins h l level (y :: after) buffer') :
    ∃ y' after', buffer' = y' :: after' ∧ y'.index = y.index / 2 := by
  cases hj <;> exact ⟨_, _, rfl, rfl⟩

theorem Joins.isNone (hj : Joins h l level buffer buffer') (hnone : ∀ e ∈ buffer, e.read = none)
    : ∀ e ∈ buffer', e.read = none := by
  induction hj with
  | nil => exact hnone
  | single hs hne hrest ih =>
    obtain ⟨ha, hrest'⟩ := List.forall_mem_cons.mp hnone
    exact List.forall_mem_cons.mpr ⟨by rw [HashEntry.up, ha]; rfl, ih hrest'⟩
  | pair hne hhalf hrest ih =>
    obtain ⟨ha, hrest'⟩ := List.forall_mem_cons.mp hnone
    obtain ⟨hb, hrest'⟩ := List.forall_mem_cons.mp hrest'
    exact List.forall_mem_cons.mpr ⟨by simp [HashEntry.pair, ha, hb], ih hrest'⟩

/-! ## Two nodes with one index -/

/-- Two ascending parts that meet at one index. -/
structure Even (buffer : List (HashEntry D)) : Prop where
  parts : ∃ before x y after, buffer = before ++ x :: y :: after ∧ Ascending (before ++ [x]) ∧ Ascending (y :: after) ∧
    x.index = y.index

theorem even_false (heven : Even buffer) (hrun : mergeLevels h l saved levels level buffer = some [a]) : False := by
  induction levels generalizing level buffer with
  | zero =>
    obtain ⟨before, x, y, after, rfl, -, -, -⟩ := heven.parts
    have hlen := congrArg List.length (Option.some.inj hrun)
    rw [List.length_append, List.length_cons, List.length_cons, List.length_singleton] at hlen
    omega
  | succ levels ih =>
    obtain ⟨before, x, y, after, rfl, hasc, hasc', hxy⟩ := heven.parts
    rw [mergeLevels] at hrun
    simp only [Option.bind_eq_bind, Option.bind_eq_some_iff] at hrun
    obtain ⟨-, -, buffer', hloop, hrun⟩ := hrun
    rcases (joins_of_mergeLoop hloop).append hasc with
      ⟨before', p, after', rfl, heven', hsib, hl, hafter⟩ | ⟨before', after', rfl, -, -, hafter⟩
    · obtain ⟨y', after'', rfl, hy'⟩ := hafter.head
      refine ih ⟨before', _, y', after'', rfl, hl.ascending hasc, hafter.ascending hasc', ?_⟩ hrun
      rw [hy', ← hxy, hsib]
      show p.index / 2 = (p.index + 1) / 2
      omega
    · -- the level ends at two nodes with one index
      cases hafter with
      | single hs hne hrest => exact hne y rfl (by rw [hxy])
      | pair hne hhalf hrest => exact hne hxy

/-! ## A leaf behind the first new position -/

/-- Old nodes, the last with a leaf from `saved` on, and then new nodes from `saved` on. -/
structure Behind (h : FlatStorageHasher D) (saved level c : Nat) (d : D) (buffer : List (HashEntry D)) : Prop where
  parts : ∃ before x y after, buffer = before ++ x :: y :: after ∧ Ascending (before ++ [x]) ∧ Ascending (y :: after) ∧
    Carries h level x c d ∧ (∀ e ∈ y :: after, e.read = none) ∧ y.index = saved / 2 ^ level ∧
    ∃ g ∈ before ++ [x], g.index = (saved - 1) / 2 ^ level

/-- The old node is joined with the first new one only where no old leaf is. -/
theorem le_of_crossing {y g : Nat} (hy : y = saved / 2 ^ level) (hg : g = (saved - 1) / 2 ^ level) (hlt : g < y) :
    saved ≤ y * 2 ^ level := by
  by_contra hnot
  have hpow : 0 < 2 ^ level := Nat.two_pow_pos level
  have : y ≤ (saved - 1) / 2 ^ level := by
    rw [Nat.le_div_iff_mul_le hpow]
    omega
  omega

/-- A crossing: the old node `x` as the left and the new node `y` as the right child, with the indices the other way. -/
theorem crossing_false (hnode : Function.Injective2 h.hashNode) (hempty : ∀ j, saved ≤ j → F j = h.hashLeaf .empty)
    (hd : d ≠ h.hashLeaf .empty) (hx : Carries h level x c d) (hy : y.read = none) (hcross : x.index = y.index + 1)
    (heven : y.index % 2 = 0) (hle : saved ≤ y.index * 2 ^ level) (hok : ReadOk h F (level + 1) (x.pair h level y)) :
    False := by
  obtain ⟨r, hr⟩ := Option.isSome_iff_exists.mp hx.isSome
  have hread : (x.pair h level y).read = some (h.hashNode r (emptyHash h level)) := by
    simp [HashEntry.pair, hr, hy]
  have hroot := hok _ hread
  rw [show (x.pair h level y).index = y.index / 2 by show x.index / 2 = _; omega, subtree_succ_even heven] at hroot
  have hF : subtree h.hashNode F level y.index = emptyHash h level :=
    Changes.subtree_empty (G := F) (R := Set.univ) ⟨hempty, fun _ _ => trivial⟩ hle
  refine hd (hx.digest (fun _ => h.hashLeaf .empty) ?_)
  rw [hr, (hnode hroot).1, hF, Tree.subtree_empty]

/-- What a level makes of a leaf behind the first new position: it stays behind, two nodes meet at one index, or it
crosses over and the nodes are in ascending order from there on. -/
theorem Behind.step (hnode : Function.Injective2 h.hashNode) (hc : saved ≤ c) (hb : Behind h saved level c d buffer)
    (hloop : mergeLoop h l saved level buffer = some buffer') :
    Behind h saved (level + 1) c d buffer' ∨ Even buffer' ∨
      (Ascending buffer' ∧
        ∃ x y, x.pair h level y ∈ buffer' ∧ Carries h level x c d ∧ y.read = none ∧ x.index = y.index + 1 ∧
          y.index % 2 = 0 ∧ saved ≤ y.index * 2 ^ level) := by
  obtain ⟨before, x, y, after, rfl, hasc, hasc', hx, hnone, hy, g, hg, hgi⟩ := hb.parts
  have hyhalf : y.index / 2 = saved / 2 ^ (level + 1) := by rw [hy, Merkle.div_two_pow_succ]
  rcases (joins_of_mergeLoop hloop).append hasc with
    ⟨before', p, after', rfl, heven, hsib, hl, hafter⟩ | ⟨before', after', rfl, hl, hhalves, hafter⟩
  · -- `x` is joined with the old node before it
    obtain ⟨y', after'', rfl, hy'⟩ := hafter.head
    obtain ⟨g', hg', hgi'⟩ := hl.exists_parent hasc hg
    refine .inl ⟨before', _, y', after'', rfl, hl.ascending hasc, hafter.ascending hasc', hx.pair_right hnode heven hsib,
      hafter.isNone hnone, by rw [hy', hyhalf], g', hg', ?_⟩
    rw [hgi', hgi, Merkle.div_two_pow_succ]
  · have hascBefore : Ascending before := (List.pairwise_append.mp hasc).1
    have hle : y.index ≤ x.index := by
      rw [hy, hx.index]
      exact Nat.div_le_div_right hc
    have hbefore : ∀ e' ∈ before', e'.index < x.index / 2 := by
      intro e' he'
      obtain ⟨e, he, hi⟩ := hl.exists_child e' he'
      rw [hi]
      exact hhalves e he
    have hascX : ∀ z : HashEntry D, z.index = x.index / 2 → Ascending (before' ++ [z]) := by
      intro z hz
      refine List.pairwise_append.mpr ⟨hl.ascending hascBefore, List.pairwise_singleton _ _, fun e' he' e'' he'' => ?_⟩
      rw [List.mem_singleton.mp he'', hz]
      exact hbefore e' he'
    cases hafter with
    | pair hne hhalf hrest =>
      -- `x` is joined with `y`, which should have been to its left
      obtain ⟨hylt, hascAfter⟩ := List.pairwise_cons.mp hasc'
      have hglt : g.index < y.index := by
        rcases List.mem_append.mp hg with hg | hg
        · have := hhalves g hg
          omega
        · rw [List.mem_singleton.mp hg] at hgi
          have : (saved - 1) / 2 ^ level ≤ saved / 2 ^ level := Nat.div_le_div_right (Nat.sub_le _ _)
          omega
      by_cases hmeet : ∀ e ∈ after, x.index / 2 < e.index / 2
      · refine .inr (.inr ⟨?_, x, y, by simp, hx, hnone y List.mem_cons_self, by omega, by omega,
          le_of_crossing hy hgi hglt⟩)
        refine List.pairwise_append.mpr ⟨hl.ascending hascBefore,
          List.pairwise_cons.mpr ⟨fun e' he' => ?_, hrest.ascending hascAfter⟩,
          fun e' he' e'' he'' => ?_⟩
        · obtain ⟨e, he, hi⟩ := hrest.exists_child e' he'
          rw [hi]
          exact hmeet e he
        · rcases List.mem_cons.mp he'' with rfl | he''
          · exact hbefore e' he'
          · obtain ⟨e, he, hi⟩ := hrest.exists_child e'' he''
            rw [hi]
            exact (hbefore e' he').trans (hmeet e he)
      · -- the next new node has the index of `x`
        push Not at hmeet
        obtain ⟨e, he, hei⟩ := hmeet
        obtain ⟨y', after', rfl⟩ := List.exists_cons_of_ne_nil (List.ne_nil_of_mem he)
        obtain ⟨z, after'', rfl, hz⟩ := hrest.head
        have hy'lt := hylt y' List.mem_cons_self
        have hy'le : y'.index ≤ e.index := by
          rcases List.mem_cons.mp he with rfl | he
          · exact le_rfl
          · exact ((List.pairwise_cons.mp hascAfter).1 e he).le
        refine .inr (.inl ⟨before', _, z, after'', rfl, hascX _ rfl, hrest.ascending hascAfter, ?_⟩)
        rw [hz]
        show x.index / 2 = y'.index / 2
        omega
    | @single _ s _ _ hs hne hrest =>
      -- `x` stays behind
      obtain ⟨y', after'', rfl, hy'⟩ := hrest.head
      refine .inl ⟨before', x.up h s, y', after'', rfl, hascX _ rfl, hrest.ascending hasc', hx.up hnode s,
        hrest.isNone hnone, by rw [hy', hyhalf], ?_⟩
      rcases List.mem_append.mp hg with hg | hg
      · obtain ⟨g', hg', hgi'⟩ := hl.exists_parent hascBefore hg
        exact ⟨g', by simp [hg'], by rw [hgi', hgi, Merkle.div_two_pow_succ]⟩
      · refine ⟨x.up h s, by simp, ?_⟩
        rw [← List.mem_singleton.mp hg, HashEntry.up, hgi, Merkle.div_two_pow_succ]

theorem behind_false (hnode : Function.Injective2 h.hashNode) (hempty : ∀ j, saved ≤ j → F j = h.hashLeaf .empty)
    (hc : saved ≤ c) (hd : d ≠ h.hashLeaf .empty) (hb : Behind h saved level c d buffer)
    (hlt : ∀ e ∈ buffer, e.index < 2 ^ levels) (hrun : mergeLevels h l saved levels level buffer = some [a])
    (hroot : a.read = some (subtree h.hashNode F (level + levels) 0)) : False := by
  induction levels generalizing level buffer with
  | zero =>
    obtain ⟨before, x, y, after, rfl, -⟩ := hb.parts
    have hlen := congrArg List.length (Option.some.inj hrun)
    rw [List.length_append, List.length_cons, List.length_cons, List.length_singleton] at hlen
    omega
  | succ levels ih =>
    rw [mergeLevels] at hrun
    simp only [Option.bind_eq_bind, Option.bind_eq_some_iff] at hrun
    obtain ⟨-, -, buffer', hloop, hrun⟩ := hrun
    rw [Nat.add_comm levels 1, ← Nat.add_assoc] at hroot
    have hlt' := (joins_of_mergeLoop hloop).index_lt hlt
    rcases hb.step hnode hc hloop with hb' | heven | ⟨hasc, x, y, hmem, hx, hy, hcross, heven, hle⟩
    · exact ih hb' hlt' hrun hroot
    · exact even_false heven hrun
    · have hreads := (mergeLevels_sound (G := F) (R := Set.univ) hnode ⟨hempty, fun _ _ => trivial⟩ hasc hlt' hrun hroot).1
      exact crossing_false hnode hempty hd hx hy hcross heven hle (hreads _ hmem)

end ZkOs.Tree
