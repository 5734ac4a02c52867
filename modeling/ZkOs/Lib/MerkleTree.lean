import Mathlib.Algebra.Order.Ring.Nat
import Mathlib.Logic.Function.Basic
import Mathlib.Tactic.Ring

/-!
# Binary hash trees

The digests of a complete binary tree over leaf digests `leaf : Nat → D`, with `node` to hash two children.

* `subtree node leaf h i` : the digest of the subtree of height `h` with index `i` on its level, which stands
  over the leaves `j` with `j / 2 ^ h = i`;
* `subtree_congr`, `subtree_injective` : it depends on these leaves only, and with a collision-free `node`
  it determines them;
* `join`, `climb` : one step and a whole walk from a leaf to the root along the siblings of a path;
* `climb_subtree` : a path of true siblings leads to the true root.
-/

namespace ZkOs.Merkle

variable {D : Type} (node : D → D → D)

/-- The digest of the subtree of height `h` at index `i`. -/
def subtree (leaf : Nat → D) : Nat → Nat → D
  | 0, i => leaf i
  | h + 1, i => node (subtree leaf h (2 * i)) (subtree leaf h (2 * i + 1))

/-- The digest above `d` at index `i` and its sibling `s`. -/
def join (i : Nat) (d s : D) : D := if i % 2 = 0 then node d s else node s d

/-- The digest at the end of a path of siblings that starts with `d` at index `i`. -/
def climb : Nat → D → List D → D
  | _, d, [] => d
  | i, d, s :: path => climb (i / 2) (join node i d s) path

theorem xor_one (i : Nat) : i ^^^ 1 = if i % 2 = 0 then i + 1 else i - 1 := by
  have hdiv : (i ^^^ 1) / 2 = i / 2 := by rw [Nat.xor_div_two]; simp
  have hmod : (i ^^^ 1) % 2 = i % 2 ^^^ 1 := Nat.xor_mod_two_pow (n := 1)
  generalize i ^^^ 1 = x at hdiv hmod ⊢
  rcases Nat.mod_two_eq_zero_or_one i with h | h
  · rw [h, Nat.zero_xor] at hmod
    rw [if_pos h]
    omega
  · rw [h, Nat.xor_self] at hmod
    rw [if_neg (by omega)]
    omega

theorem div_two_pow_succ (j h : Nat) : j / 2 ^ (h + 1) = j / 2 ^ h / 2 := by
  rw [pow_succ, Nat.div_div_eq_div_mul]

variable {node}

theorem join_subtree (leaf : Nat → D) (h i : Nat) :
    join node i (subtree node leaf h i) (subtree node leaf h (i ^^^ 1)) = subtree node leaf (h + 1) (i / 2) := by
  rw [join, xor_one]
  split
  · next heven =>
    have hi : i = 2 * (i / 2) := by omega
    rw [subtree, ← hi]
  · next hodd =>
    have hi : i = 2 * (i / 2) + 1 := by omega
    have hi' : i - 1 = 2 * (i / 2) := by omega
    rw [subtree, ← hi, hi']

theorem subtree_congr {leaf leaf' : Nat → D} {h i : Nat} (heq : ∀ j, j / 2 ^ h = i → leaf j = leaf' j) :
    subtree node leaf h i = subtree node leaf' h i := by
  induction h generalizing i with
  | zero => exact heq i (by simp)
  | succ h ih =>
    have hchild : ∀ b < 2, subtree node leaf h (2 * i + b) = subtree node leaf' h (2 * i + b) := by
      intro b hb
      refine ih fun j hj => heq j ?_
      rw [div_two_pow_succ, hj]
      omega
    rw [subtree, subtree, hchild 1 (by omega)]
    have := hchild 0 (by omega)
    rw [Nat.add_zero] at this
    rw [this]

theorem subtree_const (node : D → D → D) (d : D) (h i j : Nat) :
    subtree node (fun _ => d) h i = subtree node (fun _ => d) h j := by
  induction h generalizing i j with
  | zero => rfl
  | succ h ih => rw [subtree, subtree, ih (2 * i) (2 * j), ih (2 * i + 1) (2 * j + 1)]

/-- With a collision-free `node`, a subtree determines the leaves below it. -/
theorem subtree_injective (hnode : Function.Injective2 node) {leaf leaf' : Nat → D} {h i : Nat}
    (heq : subtree node leaf h i = subtree node leaf' h i) {j : Nat} (hj : j / 2 ^ h = i) :
    leaf j = leaf' j := by
  induction h generalizing i with
  | zero =>
    have hij : j = i := by simpa using hj
    rw [hij]
    exact heq
  | succ h ih =>
    rw [subtree, subtree] at heq
    obtain ⟨hleft, hright⟩ := hnode heq
    rw [div_two_pow_succ] at hj
    rcases Nat.mod_two_eq_zero_or_one (j / 2 ^ h) with hb | hb
    · exact ih hleft (by omega)
    · exact ih hright (by omega)

/-- A path of true siblings, from height `h` on, leads to the true digest above. -/
theorem climb_subtree (node : D → D → D) (leaf : Nat → D) (path : List D) {h i : Nat}
    (hpath : ∀ (j : Nat) (d : D), path[j]? = some d → d = subtree node leaf (h + j) (i / 2 ^ j ^^^ 1)) :
    climb node i (subtree node leaf h i) path = subtree node leaf (h + path.length) (i / 2 ^ path.length) := by
  induction path generalizing h i with
  | nil => simp [climb]
  | cons s path ih =>
    have hs : s = subtree node leaf h (i ^^^ 1) := by simpa using hpath 0 s rfl
    rw [climb, hs, join_subtree, ih]
    · rw [List.length_cons, Nat.add_right_comm, ← Nat.add_assoc, div_two_pow_succ, Nat.div_div_eq_div_mul,
        Nat.div_div_eq_div_mul, Nat.mul_comm]
    · intro j d hj
      have := hpath (j + 1) d (by simpa using hj)
      rw [this, Nat.div_div_eq_div_mul, ← pow_succ', Nat.add_right_comm, Nat.add_assoc]

end ZkOs.Merkle
