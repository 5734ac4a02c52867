import ZkOs.Tree.Completeness

/-!
# A batch that is accepted

* `CommitmentOf` : the root and the counter of a well-formed tree;
* `verifyAndApplyBatch_eq_some` : the stages of a call that returns;
* `verifyAndApplyBatch_sound` : whatever the oracle answers, the entries agree with the old tree, and the new commitment
  is that of a tree with the writes.
-/

namespace ZkOs.Tree

open Merkle (subtree)

variable {D : Type} {n : Nat} {h : FlatStorageHasher D} {f : Nat → FlatStorageLeaf}

/-- The commitment to a well-formed tree of depth `n`. -/
structure CommitmentOf (h : FlatStorageHasher D) (n : Nat) (commitment : FlatStorageCommitment D)
    (f : Nat → FlatStorageLeaf) : Prop where
  wellFormed : WellFormed f commitment.nextFreeSlot
  root : commitment.root = subtree h.hashNode (leafDigests h f) n 0

variable {Key : Type} {flatKey : Key → Bytes32} {source : List (Key × WarmStorageValue)} {oracle : BatchOracle D n}
  {commitment commitment' : FlatStorageCommitment D} [DecidableEq D]

theorem verifyAndApplyBatch_eq_some (hne : source ≠ [])
    (hrun : verifyAndApplyBatch h flatKey oracle commitment source = some commitment') :
    ∃ c w l a, verifyReads flatKey oracle commitment.nextFreeSlot source = some c ∧
      applyWrites flatKey oracle commitment.nextFreeSlot c source = some w ∧
      adjustIndexes oracle commitment.nextFreeSlot w source = some l ∧
      mergeLevels h l commitment.nextFreeSlot n 0 (hashEntries h l) = some [a] ∧
      a.read = some commitment.root ∧ commitment' = ⟨a.write.getD commitment.root, w.nextFreeSlot⟩ := by
  rw [verifyAndApplyBatch, if_neg (by simpa using hne)] at hrun
  simp only [Option.bind_eq_bind, Option.bind_eq_some_iff] at hrun
  obtain ⟨c, hreads, w, hwrites, l, hadjust, buffer, hmerge, hrun⟩ := hrun
  rcases buffer with _ | ⟨a, _ | _⟩
  · cases hrun
  · obtain ⟨_, hguard, hrun⟩ := Option.bind_eq_some_iff.mp hrun
    have hread : a.read = some commitment.root := by simpa using hguard
    refine ⟨c, w, l, a, hreads, hwrites, hadjust, hmerge, hread, ?_⟩
    cases hwrite : a.write with
    | none =>
      rw [hwrite] at hrun
      obtain ⟨_, -, hrun⟩ := Option.bind_eq_some_iff.mp hrun
      exact (Option.some.inj hrun).symm
    | some newRoot =>
      simp only [hwrite] at hrun
      split at hrun
      · obtain ⟨_, -, hrun⟩ := Option.bind_eq_some_iff.mp hrun
        exact (Option.some.inj hrun).symm
      · exact (Option.some.inj hrun).symm
  · cases hrun

omit [DecidableEq D] in
/-- The opened leaves of an accepted call are those of the tree, and the new root is that of the leaves after it. -/
theorem stages_sound {oracle : BatchOracle D 64} (hleaf : Function.Injective h.hashLeaf)
    (hnode : Function.Injective2 h.hashNode) {saved : Nat} (hempty : ∀ i, saved ≤ i → f i = .empty)
    {w : Writes D 64} {l : Leaves D 64} {a : HashEntry D} (hw : Collected saved flatKey source w)
    (hroom : saved + numNewWrites source < 2 ^ 64) (hadjust : adjustIndexes oracle saved w source = some l)
    (hmerge : mergeLevels h l saved 64 0 (hashEntries h l) = some [a])
    (hread : a.read = some (subtree h.hashNode (leafDigests h f) 64 0)) :
    Placed saved w.leaves ∧ OpenedTrue f w.leaves ∧ OpenedTrue f l ∧
      a.write.getD (subtree h.hashNode (leafDigests h f) 64 0) =
        subtree h.hashNode (leafDigests h (l.after saved f)) 64 0 := by
  obtain ⟨l1, -, hright, hsame, hrightmost⟩ := adjustIndexes_eq_some hw hadjust
  have hkept : ∀ i p m, w.leaves.indexToLeaf.get? i = some (p, m) → ∃ m', l.indexToLeaf.get? i = some (p, m') := by
    intro i p m hi
    have hfst := hsame.proofs i
    rw [hi] at hfst
    obtain ⟨⟨p', m'⟩, hi', rfl⟩ := Option.map_eq_some_iff.mp hfst
    exact ⟨m', hright.kept hi'⟩
  have honly : ∀ i p m, l.indexToLeaf.get? i = some (p, m) → Opened w.caches i p.leaf ∨ i = saved - 1 ∧ l1.newWrites ≠ [] := by
    intro i p m hi
    rcases hright.only hi with hi' | hi'
    · have hfst := hsame.proofs i
      rw [hi'] at hfst
      obtain ⟨⟨p', m'⟩, hi'', heq⟩ := Option.map_eq_some_iff.mp hfst.symm
      exact .inl ⟨p', m', hi'', congrArg LeafProof.leaf heq⟩
    · exact .inr ⟨hi'.1, hi'.2.1⟩
  have hnewWrites : l.newWrites.map Prod.fst = w.newWrites.map Prod.fst := by
    rw [hright.newWrites]
    exact hsame.new
  have hlen : l.newWrites.length = w.newWrites.length := by
    rw [hright.newWrites]
    exact hsame.length
  have hnew : NewPlaced saved l := by
    rw [NewPlaced, hnewWrites, hlen]
    exact hw.ok.positions
  have hpos : l.newWrites ≠ [] → 0 < saved := by
    intro hne
    obtain ⟨x, hx⟩ := List.exists_mem_of_ne_nil w.newWrites fun heq => by
      rw [heq, List.length_nil] at hlen
      exact hne (List.eq_nil_of_length_eq_zero hlen)
    obtain ⟨e, he, hwrite, hslot, -⟩ := hw.new_leaf hx
    obtain ⟨p, -, -, hp, -⟩ := (hw.writes e he hwrite).new hslot
    exact (Nat.zero_le p).trans_lt hp
  have hlast : l1.newWrites ≠ [] → saved - 1 < saved := by
    intro hne
    have := hpos (by rw [hright.newWrites]; exact hne)
    omega
  have hbound : ∀ i, (l.indexToLeaf.get? i).isSome → i < 2 ^ 64 := by
    intro i hi
    obtain ⟨⟨p, m⟩, hget⟩ := Option.isSome_iff_exists.mp hi
    rcases honly i p m hget with ho | ⟨rfl, hne⟩
    · exact hw.ok.cache.bound i _ ho
    · exact (hlast hne).trans_le (by omega)
  obtain ⟨hp, htrue, hsome, hnone⟩ := pass_sound hleaf hnode hempty hnew hbound (by rw [hlen, hw.length]; omega)
    (fun i p m hget hle => by
      rcases honly i p m hget with ho | ⟨rfl, hne⟩
      · intro heq
        exact hw.ok.cache.nonempty i _ ho hle (by rw [heq]; rfl)
      · exact absurd hle (hlast hne).not_ge)
    (fun hne => ⟨hpos hne, hrightmost hne⟩) hmerge hread
  refine ⟨⟨fun i hi => ?_, hw.ok.positions⟩, fun i p m hi => ?_, htrue, ?_⟩
  · obtain ⟨⟨p, m⟩, hget⟩ := Option.isSome_iff_exists.mp hi
    obtain ⟨m', hget'⟩ := hkept i p m hget
    exact hp.opened i (by rw [hget']; rfl)
  · obtain ⟨m', hget'⟩ := hkept i p m hi
    exact htrue i p m' hget'
  · cases hwrite : a.write with
    | none => exact (hnone hwrite).symm
    | some d => exact hsome d hwrite

/-- With hashes without collisions an accepted batch agrees with the old tree, and the new commitment is that of a
well-formed tree with the writes.  The value that a write to a new slot starts from is not checked. -/
theorem verifyAndApplyBatch_sound (hleaf : Function.Injective h.hashLeaf) (hnode : Function.Injective2 h.hashNode)
    (oracle : BatchOracle D 64) (hcommit : CommitmentOf h 64 commitment f) (hkeys : ∀ e ∈ source, flatKey e.1 ≠ 0)
    (hroom : commitment.nextFreeSlot + numNewWrites source < 2 ^ 64)
    (hrun : verifyAndApplyBatch h flatKey oracle commitment source = some commitment') :
    (∀ e ∈ source,
      (e.2.isNewStorageSlot = true ↔ contents f commitment.nextFreeSlot (flatKey e.1) = none) ∧
      (e.2.isNewStorageSlot = false → contents f commitment.nextFreeSlot (flatKey e.1) = some e.2.initialValue) ∧
      (isRead e = true → e.2.isNewStorageSlot = true → e.2.initialValue = 0)) ∧
    ∃ f', CommitmentOf h 64 commitment' f' ∧
      contents f' commitment'.nextFreeSlot = applied flatKey source (contents f commitment.nextFreeSlot) := by
  by_cases hne : source = []
  · subst hne
    cases hrun
    exact ⟨fun e he => absurd he List.not_mem_nil, f, hcommit, rfl⟩
  obtain ⟨c, w, l, a, hreads, hwrites, hadjust, hmerge, hread, rfl⟩ := verifyAndApplyBatch_eq_some hne hrun
  have hf := hcommit.wellFormed
  have hw := collected hkeys hroom hreads hwrites
  rw [hcommit.root] at hread
  obtain ⟨hp, htrue, htrue', hroot⟩ := stages_sound hleaf hnode hf.empty hw hroom hadjust hmerge hread
  refine ⟨fun e he => entry_sound hw hp htrue hf he, l.after commitment.nextFreeSlot f, ⟨?_, ?_⟩, funext fun k => ?_⟩
  · show WellFormed _ w.nextFreeSlot
    rw [hw.ok.counter]
    exact after_wellFormed hw hp htrue hf hadjust htrue'
  · show a.write.getD commitment.root = _
    rw [hcommit.root]
    exact hroot
  · show contents _ w.nextFreeSlot k = _
    rw [hw.ok.counter]
    exact after_contents hw hp htrue hf hadjust htrue' k

/-! ## The empty tree -/

def guards : Nat → FlatStorageLeaf
  | 0 => ⟨0, 0, 1⟩
  | 1 => ⟨maxKey, 0, 1⟩
  | _ => .empty

def guardsOracle : BatchOracle TermDigest 64 where
  prevIndex _ _ := 0
  index _ key := if key = 0 then 0 else 1
  proof _ i := ⟨i, guards i, fun k => subtree termHasher.hashNode (leafDigests termHasher guards) k (i / 2 ^ k.val ^^^ 1)⟩
  prevIndex_lt _ _ := by decide
  index_lt _ key := by split <;> decide
  next_lt _ i := by
    match i with
    | 0 => exact (by decide : 1 < 2 ^ 64)
    | 1 => exact (by decide : 1 < 2 ^ 64)
    | _ + 2 => exact Nat.two_pow_pos 64

theorem guards_wellFormed : WellFormed guards 2 := by
  refine ⟨⟨0, 1, [0, 1], ⟨rfl, rfl, ?_, fun i => ?_⟩, rfl, rfl⟩, fun i hi => ?_⟩
  · exact List.isChain_pair.mpr ⟨rfl, by decide⟩
  · simp only [List.mem_cons, List.not_mem_nil, or_false, Set.mem_ofPred_eq]
    omega
  · match i with
    | 0 | 1 => omega
    | _ + 2 => rfl

theorem guardsOracle_honest : HonestOracle termHasher guards 2 guardsOracle := by
  refine ⟨fun asked k habsent => ⟨Nat.two_pos, Nat.one_lt_two, ?_, ?_⟩, fun asked i hi => ?_, fun asked i hi => rfl,
    fun asked i hi => rfl, fun asked i hi k hk => ?_⟩
  · exact lt_of_le_of_ne (zero_le_key k) (habsent 0 (by decide))
  · exact lt_of_le_of_ne (key_le_max k) (Ne.symm (habsent 1 (by decide)))
  · match i with
    | 0 => rfl
    | 1 => rfl
    | _ + 2 => omega
  · rw [LeafProof.sibling, dif_pos hk]
    rfl

theorem guards_correct {k v : Bytes32} (hk : k ≠ 0) (hmax : k ≠ maxKey) {initial : Bytes32} (hv : v ≠ initial) :
    Correct 64 guards 2 id [(k, ⟨initial, v, true, true⟩)] := by
  have hread : isRead (k, (⟨initial, v, true, true⟩ : WarmStorageValue)) = false := by simp [isRead, hv]
  refine ⟨List.nodup_singleton _, fun e he => ?_, fun e he => ?_, fun e he _ => ?_, ?_, ?_⟩
  · rw [List.mem_singleton.mp he]
    exact ⟨hk, hmax⟩
  · rw [List.mem_singleton.mp he]
    refine ⟨fun _ => ⟨fun i hi => ?_, fun heq => absurd heq hv⟩, fun hold => by cases hold⟩
    rcases i with _ | _ | i
    · exact hk.symm
    · exact hmax.symm
    · omega
  · rw [List.mem_singleton.mp he]
  · simp [numNewWrites, hread]
  · simp [numNewWrites, hread]

def guardsCommitment : FlatStorageCommitment TermDigest :=
  ⟨subtree termHasher.hashNode (leafDigests termHasher guards) 64 0, 2⟩

theorem exists_commitment (k v initial : Bytes32) (hk : k ≠ 0) (hmax : k ≠ maxKey) (hv : v ≠ initial) :
    ∃ commitment, verifyAndApplyBatch termHasher id guardsOracle guardsCommitment [(k, ⟨initial, v, true, true⟩)] =
      some commitment := by
  obtain ⟨g, hrun, -⟩ := verifyAndApplyBatch_ok termHasher_hashLeaf_injective termHasher_hashNode_injective
    guardsOracle_honest guards_wellFormed ⟨rfl, rfl, by decide⟩ (guards_correct hk hmax hv)
  exact ⟨_, hrun⟩

theorem verifyAndApplyBatch_sound_first_write : ∃ commitment f',
    verifyAndApplyBatch termHasher id guardsOracle guardsCommitment [(5, ⟨0, 7, true, true⟩)] = some commitment ∧
    CommitmentOf termHasher 64 commitment f' ∧ contents f' commitment.nextFreeSlot 5 = some 7 := by
  obtain ⟨commitment, hrun⟩ := exists_commitment 5 7 0 (by decide) (by decide) (by decide)
  obtain ⟨-, f', hf', hcontents⟩ := verifyAndApplyBatch_sound termHasher_hashLeaf_injective
    termHasher_hashNode_injective guardsOracle ⟨guards_wellFormed, rfl⟩ (by decide) (by decide) hrun
  exact ⟨commitment, f', hrun, hf', by rw [hcontents]; rfl⟩

/-- The value that a write to a new slot claims to start from is not checked. -/
theorem verifyAndApplyBatch_new_write_unchecked : CommitmentOf termHasher 64 guardsCommitment guards ∧
    contents guards guardsCommitment.nextFreeSlot 5 = none ∧
    ∃ commitment, verifyAndApplyBatch termHasher id guardsOracle guardsCommitment [(5, ⟨3, 7, true, true⟩)] =
      some commitment :=
  ⟨⟨guards_wellFormed, rfl⟩, by decide, exists_commitment 5 7 3 (by decide) (by decide) (by decide)⟩

end ZkOs.Tree
