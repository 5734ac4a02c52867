import ZkOs.Batch.PublicInput
import ZkOs.Lib.MerkleTree
import Mathlib.Data.List.GetD

/-!
# The tree of logs

* `hashLevel_spec` : one level, folded in place, hashes the elements that were there before;
* `LevelOk` : the elements after some levels are the digests of the subtrees over the logs;
* `logs_roots` : both computations of the root give the root of the full tree of height 14.
-/

namespace ZkOs.Batch

open Merkle

section LogsRoot

variable (env : Env)

def logNode (l r : Bytes32) : Bytes32 := env.keccak (bytes32 l ++ bytes32 r)

/-- The hash of 88 zero bytes. -/
def defaultLeaf : Bytes32 := env.keccak (List.replicate 88 0)

/-- The table of the source, as its comment describes it. -/
def EmptyHashesOk : Prop :=
  ∀ level ≤ logsTreeHeight, emptyHashes.getD level 0 = subtree (logNode env) (fun _ => defaultLeaf env) level 0

/-- The root of the full tree whose first leaves are the list. -/
def fullTreeRoot (leaves : List Bytes32) : Bytes32 :=
  subtree (logNode env) (fun i => leaves.getD i (defaultLeaf env)) logsTreeHeight 0

/-- Writes in place, in order, of values that do not read what was written before. -/
theorem getElem?_foldl_set {α : Type} {g : List α → Nat → α}
    (hg : ∀ els els' i, (∀ j ≥ i, els'[j]? = els[j]?) → g els' i = g els i) (els : List α) {k : Nat}
    (hk : k ≤ els.length) (i : Nat) :
    ((List.range k).foldl (fun els i => els.set i (g els i)) els)[i]? = if i < k then some (g els i) else els[i]? := by
  induction k generalizing i with
  | zero => simp
  | succ k ih =>
    have hread := hg els _ k fun j hj => (ih (by omega) j).trans (if_neg (by omega))
    have hlen : ∀ l, ((List.range l).foldl (fun els i => els.set i (g els i)) els).length = els.length := by
      intro l
      induction l with
      | zero => rfl
      | succ l ih => simp [List.range_succ, ih]
    rw [List.range_succ, List.foldl_append, List.foldl_cons, List.foldl_nil, hread, List.getElem?_set, ih (by omega),
      hlen]
    split_ifs <;> grind

/-- One level of the tree: node `i` is written after the elements `2 * i` and `2 * i + 1` were read. -/
theorem hashLevel_spec {level n : Nat} {els : List Bytes32} (hn : n ≤ els.length) (i : Nat) :
    (hashLevel env level n els)[i]? = if i < (n + 1) / 2 then some (logNode env (els.getD (2 * i) 0)
      (if 2 * i + 1 < n then els.getD (2 * i + 1) 0 else emptyHashes.getD level 0)) else els[i]? := by
  unfold hashLevel
  rw [getElem?_foldl_set]
  · rfl
  · intro els els' i h
    simp only [List.getD_eq_getElem?_getD, h (2 * i) (by omega), h (2 * i + 1) (by omega)]
  · omega

/-- The number of nodes over the first `n` leaves, `level` levels up. -/
def nonDefault (n : Nat) : Nat → Nat
  | 0 => n
  | level + 1 => (nonDefault n level + 1) / 2

theorem le_nonDefault_mul (n level : Nat) : n ≤ nonDefault n level * 2 ^ level := by
  induction level with
  | zero => simp [nonDefault]
  | succ level ih =>
    calc n ≤ nonDefault n level * 2 ^ level := ih
      _ ≤ nonDefault n (level + 1) * 2 * 2 ^ level := Nat.mul_le_mul_right _ (by rw [nonDefault]; omega)
      _ = nonDefault n (level + 1) * 2 ^ (level + 1) := by rw [pow_succ']; ring

theorem nonDefault_le {n k level : Nat} (h : n ≤ k * 2 ^ level) : nonDefault n level ≤ k := by
  induction level generalizing k with
  | zero => simpa [nonDefault] using h
  | succ level ih =>
    have := ih (k := k * 2) (by rw [pow_succ'] at h; linarith)
    rw [nonDefault]
    omega

variable {env} {leaves : List Bytes32}

theorem subtree_default (hempty : EmptyHashesOk env) {level i : Nat} (hl : level ≤ logsTreeHeight)
    (hi : nonDefault leaves.length level ≤ i) :
    subtree (logNode env) (fun i => leaves.getD i (defaultLeaf env)) level i = emptyHashes.getD level 0 := by
  rw [hempty level hl, subtree_const _ _ _ 0 i]
  apply subtree_congr
  intro j hj
  apply List.getD_eq_default
  calc leaves.length ≤ nonDefault leaves.length level * 2 ^ level := le_nonDefault_mul _ _
    _ ≤ i * 2 ^ level := Nat.mul_le_mul_right _ hi
    _ ≤ j := by rw [← hj]; exact Nat.div_mul_le_self j _

theorem levels_spec (hempty : EmptyHashesOk env) (leaves : List Bytes32) (level : Nat) (hl : level ≤ logsTreeHeight) :
    ∃ els, (List.range level).foldl (fun x level => (hashLevel env level x.2 x.1, (x.2 + 1) / 2))
        (leaves, leaves.length) = (els, nonDefault leaves.length level) ∧
      ∀ i < nonDefault leaves.length level, els[i]? =
        some (subtree (logNode env) (fun i => leaves.getD i (defaultLeaf env)) level i) := by
  induction level with
  | zero =>
    refine ⟨leaves, rfl, fun i hi => ?_⟩
    rw [subtree, List.getD_eq_getElem _ _ hi, List.getElem?_eq_getElem hi]
  | succ level ih =>
    obtain ⟨els, heq, hget⟩ := ih (by omega)
    have hle : nonDefault leaves.length level ≤ els.length := by
      by_contra hlt
      have := hget els.length (by omega)
      simp at this
    rw [List.range_succ, List.foldl_append, heq]
    refine ⟨_, rfl, fun i hi => ?_⟩
    rw [nonDefault] at hi
    rw [hashLevel_spec env hle, if_pos hi, subtree]
    congr 2
    · rw [List.getD_eq_getElem?_getD, hget _ (by omega), Option.getD_some]
    · split_ifs with h
      · rw [List.getD_eq_getElem?_getD, hget _ h, Option.getD_some]
      · exact (subtree_default hempty (by omega) (by omega)).symm

theorem logsRoot_eq (hempty : EmptyHashesOk env) (hlen : leaves.length ≤ 2 ^ logsTreeHeight) :
    logsRoot env leaves = fullTreeRoot env leaves := by
  obtain ⟨els, heq, hget⟩ := levels_spec hempty leaves logsTreeHeight le_rfl
  have hone : nonDefault leaves.length logsTreeHeight ≤ 1 := nonDefault_le (by omega)
  simp only [logsRoot, heq]
  split_ifs with h
  · rw [List.getD_eq_getElem?_getD, hget 0 (by omega), Option.getD_some, fullTreeRoot]
  · exact (subtree_default hempty le_rfl (by omega)).symm

/-- Both roots of the logs are the root of the full tree, padded with the default leaf. -/
theorem logs_roots (hempty : EmptyHashesOk env) :
    (∀ l : LogsStorage, l.contents.length ≤ 16384 →
      treeRoot env l = fullTreeRoot env (l.contents.map (logHash env))) ∧
    ∀ logs : List Bytes32, logs.length ≤ 16384 → BatchPublicInputBuilder.l2LogsRoot env logs = fullTreeRoot env logs := by
  constructor
  · intro l hl
    exact logsRoot_eq hempty (by rwa [List.length_map])
  · intro logs hl
    exact logsRoot_eq hempty hl

/-- A hash function under which the table is right: it maps the entries of the table to the next ones. -/
def tableKeccak (bytes : List UInt8) : Bytes32 :=
  match emptyHashes.idxOf? (BitVec.ofNat 256 (Digits.beNat (bytes.take 32))) with
  | some level => emptyHashes.getD (level + 1) 0
  | none => emptyHashes.getD 0 0

def tableEnv : Env := { Bootloader.emptyChain with keccak := tableKeccak }

theorem logs_roots_tableEnv : EmptyHashesOk tableEnv ∧
    BatchPublicInputBuilder.l2LogsRoot tableEnv [1, 2, 3] = fullTreeRoot tableEnv [1, 2, 3] := by
  have hok : EmptyHashesOk tableEnv := by
    unfold EmptyHashesOk
    decide +kernel
  exact ⟨hok, (logs_roots hok).2 [1, 2, 3] (by decide)⟩

end LogsRoot

end ZkOs.Batch
