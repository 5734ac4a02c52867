import ZkOs.Lib.Barycentric
import ZkOs.Lib.Digits
import Mathlib.RingTheory.RootsOfUnity.PrimitiveRoots
import Mathlib.Algebra.Field.ZMod
import Mathlib.Tactic.NormNum.Prime

/-!
# The polynomial of a blob

Model of `polynomial_evaluation.rs`, over any field in the place of the scalar field of the curve.

* `blobElements` : the data in chunks of 31 bytes, as values of the polynomial;
* `evaluateBlobPolynomial` : barycentric evaluation with one inversion; `none` is a panic;
* `evaluate_blob_polynomial` : it is the value of the polynomial that interpolates the chunks.
-/

namespace ZkOs.Batch

open Barycentric Digits Polynomial

def blobChunkSize : Nat := 31

def elementsPer4844Blob : Nat := 4096

def frModulus : Nat := 0x73eda753299d7d483339d80809a1d80553bda402fffe5bfeffffffff00000001

section Blob

variable {F : Type} [Field F]

def fromBigint (n : Nat) : Option F := if n < frModulus then some n else none

def arrayChunks (data : List UInt8) : List (List UInt8) × List UInt8 :=
  let count := data.length / blobChunkSize
  ((List.range count).map fun i => (data.drop (blobChunkSize * i)).take blobChunkSize, data.drop (blobChunkSize * count))

/-- The polynomial in evaluated form. -/
def blobElements (data : List UInt8) : Option (List F) := do
  let (chunks, remainder) := arrayChunks data
  if elementsPer4844Blob < chunks.length then none
  let els ← chunks.mapM fun chunk => fromBigint (beNat chunk)
  let last ← if els.length < elementsPer4844Blob then
      (fromBigint (beNat (remainder ++ List.replicate (blobChunkSize - remainder.length) 0))).map ([·])
    else some []
  return els ++ last ++ List.replicate (elementsPer4844Blob - els.length - last.length) 0

/-- The second part of `evaluate_blob_polynomial`: the value at `x` from the `n` values `poly` at the points `roots`. -/
def evaluateBarycentric [DecidableEq F] (n : Nat) (roots poly : List F) (x : F) : Option F :=
  let inversesIn := roots.map (x - ·)
  let (inverses, accumulator) := prefixProducts 1 inversesIn
  if accumulator = 0 then do
    let i ← (List.range n).find? fun i => roots[i]? = some x
    poly[i]?
  else do
    let (inverses, _) := backwardPass inverses inversesIn accumulator⁻¹
    let out := (inverses.zip (roots.zip poly)).foldl (fun out (inverse, root, el) => out + inverse * root * el) 0
    let tmp ← fromBigint (beNat (beBytes 8 n))
    return out / tmp * (x ^ n - 1)

/-- The evaluation at `x`, with the table `roots` of evaluation points. -/
def evaluateBlobPolynomial [DecidableEq F] (roots : List F) (data : List UInt8) (x : F) : Option F := do
  let poly ← blobElements data
  evaluateBarycentric elementsPer4844Blob roots poly x

/-! ## The elements -/

/-- The bytes of a chunk, zero behind the end of the data. -/
def paddedChunk (data : List UInt8) (i : Nat) : List UInt8 :=
  (List.range blobChunkSize).map fun j => data.getD (blobChunkSize * i + j) 0

theorem take_drop_append (data : List UInt8) (i : Nat) :
    (data.drop (blobChunkSize * i)).take blobChunkSize ++
      List.replicate (blobChunkSize - ((data.drop (blobChunkSize * i)).take blobChunkSize).length) 0 =
    paddedChunk data i := by
  apply List.ext_getElem
  · simp [paddedChunk, blobChunkSize]
  · intro j hj hj'
    simp only [paddedChunk, List.getElem_append, List.getElem_take, List.getElem_drop, List.getElem_replicate,
      List.getElem_map, List.getElem_range, List.getD_eq_getElem?_getD]
    split
    · next h =>
      simp only [List.length_take, List.length_drop] at h
      rw [List.getElem?_eq_getElem (by omega), Option.getD_some]
    · next h =>
      simp only [List.length_take, List.length_drop] at h
      simp only [paddedChunk, List.length_map, List.length_range] at hj'
      rw [List.getElem?_eq_none (by omega), Option.getD_none]

theorem fromBigint_paddedChunk (data : List UInt8) (i : Nat) :
    fromBigint (beNat (paddedChunk data i)) = some ((beNat (paddedChunk data i) : Nat) : F) := by
  have hlt := beNat_lt (paddedChunk data i)
  rw [paddedChunk, List.length_map, List.length_range] at hlt
  exact if_pos (hlt.trans (by decide))

theorem mapM_eq_some {α β : Type} {f : α → Option β} {g : α → β} {l : List α} (h : ∀ a ∈ l, f a = some (g a)) :
    l.mapM f = some (l.map g) := by
  induction l with
  | nil => rfl
  | cons a l ih => simp [h a, ih fun b hb => h b (by simp [hb])]

theorem blobElements_eq {data : List UInt8} (h : data.length ≤ blobChunkSize * elementsPer4844Blob) :
    blobElements data = some ((List.range elementsPer4844Blob).map fun i =>
      ((beNat (paddedChunk data i) : Nat) : F)) := by
  unfold blobElements arrayChunks
  generalize hc : data.length / blobChunkSize = c
  simp only [blobChunkSize, elementsPer4844Blob] at h hc
  have hels : (((List.range c).map fun i => (data.drop (blobChunkSize * i)).take blobChunkSize).mapM fun chunk =>
      (fromBigint (beNat chunk) : Option F)) = some ((List.range c).map fun i => ((beNat (paddedChunk data i) : Nat) : F)) := by
    rw [List.mapM_map]
    apply mapM_eq_some
    intro i hi
    rw [List.mem_range] at hi
    have hfull : (data.drop (blobChunkSize * i)).take blobChunkSize = paddedChunk data i := by
      rw [← take_drop_append, List.length_take, List.length_drop, blobChunkSize,
        show 31 - min 31 (data.length - 31 * i) = 0 by omega, List.replicate_zero, List.append_nil]
    rw [Function.comp, hfull, fromBigint_paddedChunk]
  have hlast : data.drop (blobChunkSize * c) ++
      List.replicate (blobChunkSize - (data.drop (blobChunkSize * c)).length) 0 = paddedChunk data c := by
    have htake : (data.drop (blobChunkSize * c)).take blobChunkSize = data.drop (blobChunkSize * c) := by
      apply List.take_of_length_le
      rw [List.length_drop, blobChunkSize]
      omega
    rw [← take_drop_append, htake]
  have hzero : ∀ i > c, beNat (paddedChunk data i) = 0 := by
    intro i hi
    have hnil : data.drop (blobChunkSize * i) = [] := by
      rw [List.drop_eq_nil_iff, blobChunkSize]
      omega
    rw [← take_drop_append, hnil]
    decide
  simp only [List.length_map, List.length_range, hels, hlast, fromBigint_paddedChunk, Option.bind_eq_bind,
    Option.bind_some, Option.map_some]
  rw [if_neg (by rw [elementsPer4844Blob]; omega)]
  split
  · next hlt =>
    simp only [Option.pure_def, Option.some.injEq]
    apply List.ext_getElem
    · simp
      omega
    · intro i hi hi'
      simp only [List.getElem_append, List.length_append, List.length_map, List.length_range, List.length_cons,
        List.length_nil, List.getElem_map, List.getElem_range, List.getElem_replicate, List.getElem_singleton]
      split_ifs with h₁ h₂
      · rfl
      · rw [show i = c by omega]
      · rw [hzero i (by omega), Nat.cast_zero]
  · next hlt =>
    have : elementsPer4844Blob = c := by
      rw [elementsPer4844Blob] at hlt ⊢
      omega
    simp [this]

/-! ## The evaluation -/

theorem foldl_add_eq_sum (f : Nat → F) (n : Nat) :
    (List.range n).foldl (fun out i => out + f i) 0 = ∑ i ∈ Finset.range n, f i := by
  induction n with
  | zero => rfl
  | succ n ih => rw [List.range_succ, List.foldl_append, ih, Finset.sum_range_succ, List.foldl_cons, List.foldl_nil]

/-- The evaluation is right for any distinct roots of unity. -/
theorem evaluateBarycentric_eq [DecidableEq F] {n : Nat} {v : Nat → F} (hv : Set.InjOn v (Finset.range n))
    (hroot : ∀ i < n, v i ^ n = 1) (hn : (n : F) ≠ 0) (hbig : fromBigint (beNat (beBytes 8 n)) = some (n : F)) {P : F[X]}
    (hP : P.degree < n) (x : F) :
    evaluateBarycentric n ((List.range n).map v) ((List.range n).map fun i => P.eval (v i)) x = some (P.eval x) := by
  unfold evaluateBarycentric
  simp only [List.map_map, prefixProducts_snd, one_mul]
  split
  · next hzero =>
    have hmem : ∃ i < n, x = v i := by simpa [List.prod_eq_zero_iff, sub_eq_zero, eq_comm] using hzero
    rcases hfind : (List.range n).find? fun i => ((List.range n).map v)[i]? = some x with _ | i
    · obtain ⟨i, hi, hx⟩ := hmem
      have := List.find?_eq_none.1 hfind i (List.mem_range.2 hi)
      simp [hi, hx] at this
    · have hi := List.mem_range.1 (List.mem_of_find?_eq_some hfind)
      have hx : v i = x := by simpa [hi] using List.find?_some hfind
      simp [hi, hx]
  · next hne =>
    have hx : ∀ i < n, x ≠ v i := by simpa [List.prod_eq_zero_iff, sub_eq_zero, eq_comm] using hne
    have hinv := backwardPass_prefixProducts (one_ne_zero (α := F)) (l := (List.range n).map fun i => x - v i) (by
      simpa [sub_eq_zero] using hx)
    simp only [prefixProducts_snd, one_mul] at hinv
    simp only [Function.comp_def, hinv, hbig, Option.bind_eq_bind, Option.bind_some, List.map_map, List.zip_map', List.foldl_map,
      foldl_add_eq_sum, eval_eq_sum hv hroot hn hP hx]
    rfl

/-- The evaluation points in the order of the table. -/
def brpRoot (ω : F) (i : Nat) : F := ω ^ bitReverse 12 i

/-- `P` has degree below 4096 and takes the chunks as values. -/
def Interpolates (ω : F) (data : List UInt8) (P : F[X]) : Prop :=
  P.degree < elementsPer4844Blob ∧
    ∀ i < elementsPer4844Blob, P.eval (brpRoot ω i) = ((beNat (paddedChunk data i) : Nat) : F)

variable {ω : F} (hω : IsPrimitiveRoot ω elementsPer4844Blob)
include hω

theorem injOn_brpRoot : Set.InjOn (brpRoot ω) (Finset.range elementsPer4844Blob) := by
  intro i hi j hj h
  exact bitReverse_inj (k := 12) (Finset.mem_range.1 hi) (Finset.mem_range.1 hj)
    (hω.pow_inj (bitReverse_lt 12 i) (bitReverse_lt 12 j) h)

theorem brpRoot_pow (i : Nat) : brpRoot ω i ^ elementsPer4844Blob = 1 := by
  rw [brpRoot, ← pow_mul, Nat.mul_comm, pow_mul, hω.pow_eq_one, one_pow]

omit hω in
theorem fromBigint_elements :
    fromBigint (beNat (beBytes 8 elementsPer4844Blob)) = some ((elementsPer4844Blob : Nat) : F) := by
  rw [beNat_beBytes]
  rfl

theorem elements_ne_zero : ((elementsPer4844Blob : Nat) : F) ≠ 0 := by
  have : NeZero elementsPer4844Blob := ⟨by decide⟩
  exact hω.neZero'.out

/-- For any data that fits, the function returns the value at `x` of the one polynomial of degree below 4096 that takes
the zero-padded chunks as values at the bit-reversed roots of unity. -/
theorem evaluate_blob_polynomial [DecidableEq F] {roots : List F}
    (hroots : roots = (List.range elementsPer4844Blob).map (brpRoot ω)) {data : List UInt8}
    (hdata : data.length ≤ blobChunkSize * elementsPer4844Blob) :
    ∃ P : F[X], Interpolates ω data P ∧ (∀ Q, Interpolates ω data Q → Q = P) ∧
      ∀ x, evaluateBlobPolynomial roots data x = some (P.eval x) := by
  have hv := injOn_brpRoot hω
  let P := Lagrange.interpolate (Finset.range elementsPer4844Blob) (brpRoot ω) fun i =>
    ((beNat (paddedChunk data i) : Nat) : F)
  have hP : Interpolates ω data P := by
    refine ⟨?_, fun i hi => Lagrange.eval_interpolate_at_node _ hv (Finset.mem_range.2 hi)⟩
    have := Lagrange.degree_interpolate_lt (r := fun i => ((beNat (paddedChunk data i) : Nat) : F)) hv
    rwa [Finset.card_range] at this
  refine ⟨P, hP, fun Q hQ => ?_, fun x => ?_⟩
  · apply Lagrange.eq_interpolate_of_eval_eq _ hv
    · rw [Finset.card_range]
      exact hQ.1
    · intro i hi
      exact hQ.2 i (Finset.mem_range.1 hi)
  · have hvalues : ((List.range elementsPer4844Blob).map fun i => ((beNat (paddedChunk data i) : Nat) : F)) =
        (List.range elementsPer4844Blob).map fun i => P.eval (brpRoot ω i) := by
      apply List.map_congr_left
      intro i hi
      exact (hP.2 i (List.mem_range.1 hi)).symm
    rw [evaluateBlobPolynomial, blobElements_eq hdata, Option.bind_eq_bind, Option.bind_some, hroots, hvalues]
    exact evaluateBarycentric_eq hv (fun i _ => brpRoot_pow hω i) (elements_ne_zero hω) fromBigint_elements hP.1 x

end Blob

section Small

local instance prime_12289 : Fact (Nat.Prime 12289) := ⟨by norm_num⟩

theorem isPrimitiveRoot_small : IsPrimitiveRoot (1331 : ZMod 12289) elementsPer4844Blob := by
  have hpow : ∀ k r : Nat, 1331 ^ k % 12289 = r % 12289 → (1331 : ZMod 12289) ^ k = r := by
    intro k r h
    exact_mod_cast (ZMod.natCast_eq_natCast_iff' (1331 ^ k) r 12289).2 h
  have hhalf : (1331 : ZMod 12289) ^ 2 ^ 11 ≠ 1 := by
    rw [hpow (2 ^ 11) 12288 (by decide +kernel)]
    decide
  have horder : orderOf (1331 : ZMod 12289) = 2 ^ 12 :=
    orderOf_eq_prime_pow hhalf ((hpow (2 ^ 12) 1 (by decide +kernel)).trans Nat.cast_one)
  rw [elementsPer4844Blob, show 4096 = 2 ^ 12 by rfl, ← horder]
  exact IsPrimitiveRoot.orderOf 1331

theorem evaluate_blob_polynomial_small :
    ∃ P : (ZMod 12289)[X], Interpolates 1331 [1, 2, 3] P ∧ (∀ Q, Interpolates 1331 [1, 2, 3] Q → Q = P) ∧
      ∀ x, evaluateBlobPolynomial ((List.range elementsPer4844Blob).map (brpRoot (1331 : ZMod 12289))) [1, 2, 3] x =
        some (P.eval x) :=
  evaluate_blob_polynomial isPrimitiveRoot_small rfl (by decide)

end Small

end ZkOs.Batch
