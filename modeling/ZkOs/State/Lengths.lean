import ZkOs.Lib.DiffLength
import ZkOs.State.Compression

/-!
# Lengths of compressed diffs

* `length_optimalCompression` : a value diff is as long as was predicted;
* `optimalCompressionLength_eq` : which is a byte for the metadata and the shortest description of the change;
* `optimal_compression_minimal_and_decodable` : value diffs are as short as the strategies allow, and can be read back;
* `diff_compression_length_iff` : when an account diff is as long as was predicted;
* `optimalCompressionLength_triangle`, `AccountProperties.diffCompressionLength_triangle` : diffs to a value in
  between and from it are together at least as long as one diff.
-/

namespace ZkOs

open DiffLength ValueDiffCompressionStrategy Digits

/-! ## Values -/

section Values

variable {a b c : U256}

theorem byteLength_eq (x : U256) : byteLength x = byteCount x.toNat := by
  unfold byteLength byteCount
  simp only [BitVec.toNat_eq]
  rfl

theorem optimalCompressionLength_options (a b : U256) : optimalCompressionLength a b false =
    min (min (min 33 ((add.compressionLength a b).getD 33)) ((sub.compressionLength a b).getD 33))
      ((transform.compressionLength a b).getD 33) := by
  have hget : ∀ (o : Option Nat) (n : Nat), n ≤ 33 → min n (o.getD n) = min n (o.getD 33) := by
    intro o n hn
    cases o with
    | none => simp [hn]
    | some m => rfl
  simp only [optimalCompressionLength, Bool.false_eq_true, if_false, List.foldl_cons, List.foldl_nil]
  rw [hget _ 33 (Nat.le_refl _), hget _ _ (Nat.min_le_left _ _),
    hget _ _ ((Nat.min_le_left _ _).trans (Nat.min_le_left _ _))]

theorem compressionLength_getD {x : U256} {p : Prop} [Decidable p] :
    min 33 ((if p ∨ byteLength x = 32 then none else some (byteLength x + 1)).getD 33) =
      if p then 33 else byteLength x + 1 := by
  have := byteLength_le x
  by_cases hp : p
  · simp [hp]
  · by_cases hx : byteLength x = 32
    · simp [hp, hx]
    · simp only [hp, hx, or_self, if_false, Option.getD_some]
      omega

theorem optimalCompressionLength_eq (a b : U256) :
    optimalCompressionLength a b false = shortest bytes a.toNat b.toNat + 1 := by
  have hadd := @compressionLength_getD (b - a) (b < a) _
  have hsub := @compressionLength_getD (a - b) (a < b) _
  have htransform := @compressionLength_getD b False _
  simp only [false_or, if_false] at htransform
  have hle := byteLength_le b
  rw [optimalCompressionLength_options]
  simp only [compressionLength]
  unfold shortest
  show _ = min (byteCount (Nat.dist a.toNat b.toNat)) (byteCount b.toNat) + 1
  rw [← byteLength_eq b]
  rcases Decidable.em (b < a) with hlt | hnot
  · have hdist : byteCount (Nat.dist a.toNat b.toNat) = byteLength (a - b) := by
      rw [byteLength_eq, BitVec.toNat_sub_of_le (BitVec.le_of_lt hlt)]
      have := BitVec.lt_def.mp hlt
      unfold Nat.dist
      congr 1
      omega
    rw [if_pos hlt] at hadd
    rw [if_neg (BitVec.not_lt.mpr (BitVec.le_of_lt hlt))] at hsub
    rw [hdist]
    omega
  · have hle' : a ≤ b := BitVec.not_lt.mp hnot
    have hdist : byteCount (Nat.dist a.toNat b.toNat) = byteLength (b - a) := by
      rw [byteLength_eq, BitVec.toNat_sub_of_le hle']
      have := BitVec.le_def.mp hle'
      unfold Nat.dist
      congr 1
      omega
    rw [if_neg hnot] at hadd
    rw [hdist]
    by_cases hab : a < b
    · rw [if_pos hab] at hsub
      omega
    · have heq : a = b := BitVec.le_antisymm hle' (BitVec.not_lt.mp hab)
      rw [if_neg hab, heq] at hsub
      rw [heq] at hadd ⊢
      omega

theorem optimalCompressionLength_triangle (a b c : U256) :
    optimalCompressionLength a c false ≤ optimalCompressionLength a b false + optimalCompressionLength b c false := by
  simp only [optimalCompressionLength_eq]
  have := shortest_triangle bytes a.toNat b.toNat c.toNat
  omega

theorem optimalCompressionLength_le (a b : U256) (noCompression : Bool) :
    optimalCompressionLength a b false ≤ optimalCompressionLength a b noCompression := by
  cases noCompression with
  | false => exact Nat.le_refl _
  | true =>
    rw [optimalCompressionLength_options]
    exact ((Nat.min_le_left _ _).trans (Nat.min_le_left _ _)).trans (Nat.min_le_left _ _)

/-- What a diff that leaves unchanged values out has for one value. -/
def changeLength (a b : U256) : Nat := if a ≠ b then optimalCompressionLength a b false else 0

theorem changeLength_le (a b : U256) : changeLength a b ≤ optimalCompressionLength a b false := by
  unfold changeLength
  split
  · exact Nat.le_refl _
  · exact Nat.zero_le _

theorem optimalCompressionLength_le_left (a b c : U256) :
    optimalCompressionLength a c false ≤ changeLength a b + optimalCompressionLength b c false := by
  unfold changeLength
  split
  · exact optimalCompressionLength_triangle a b c
  · rename_i h
    rw [not_not.mp h, Nat.zero_add]

theorem optimalCompressionLength_le_right (a b c : U256) :
    optimalCompressionLength a c false ≤ optimalCompressionLength a b false + changeLength b c := by
  unfold changeLength
  split
  · exact optimalCompressionLength_triangle a b c
  · rename_i h
    rw [not_not.mp h, Nat.add_zero]

theorem changeLength_triangle (a b c : U256) : changeLength a c ≤ changeLength a b + changeLength b c := by
  by_cases h : b = c
  · rw [h]
    exact Nat.le_add_right _ _
  · have hbc : changeLength b c = optimalCompressionLength b c false := if_pos h
    rw [hbc]
    exact (changeLength_le a c).trans (optimalCompressionLength_le_left a b c)

theorem length_compress {st : ValueDiffCompressionStrategy} {out : List UInt8} (h : st.compress a b = some out) :
    st.compressionLength a b = some out.length := by
  have hlow : ∀ x : U256, (lowBytes x (byteLength x)).length = byteLength x := fun x => by
    rw [lowBytes_byteLength, length_beBytes]
  cases st with
  | nothing =>
    cases h
    rw [List.length_cons, length_beBytes]
    rfl
  | add | sub | transform =>
    simp only [compress] at h
    simp only [compressionLength]
    split at h
    · cases h
    · rename_i hc
      cases h
      rw [if_neg hc, List.length_cons, hlow]

theorem optimalStrategy_spec (a b : U256) :
    (optimalStrategy a b).1.compressionLength a b = some (optimalStrategy a b).2 ∧
      (optimalStrategy a b).2 = optimalCompressionLength a b false := by
  have step : ∀ (l : List ValueDiffCompressionStrategy) (best : ValueDiffCompressionStrategy × Nat),
      best.1.compressionLength a b = some best.2 →
      ((l.foldl (shorter a b) best).1.compressionLength a b = some (l.foldl (shorter a b) best).2 ∧
        (l.foldl (shorter a b) best).2 =
          l.foldl (fun n st => min n ((st.compressionLength a b).getD n)) best.2) := by
    intro l
    induction l with
    | nil => exact fun best h => ⟨h, rfl⟩
    | cons st l ih =>
      intro best h
      have hshorter : (shorter a b best st).1.compressionLength a b = some (shorter a b best st).2 ∧
          (shorter a b best st).2 = min best.2 ((st.compressionLength a b).getD best.2) := by
        unfold shorter
        rcases hst : st.compressionLength a b with _ | n
        · exact ⟨h, (Nat.min_self _).symm⟩
        · simp only [Option.getD_some]
          split
          · rename_i hlt
            exact ⟨hst, (Nat.min_eq_right (Nat.le_of_lt hlt)).symm⟩
          · rename_i hlt
            exact ⟨h, (Nat.min_eq_left (Nat.not_lt.mp hlt)).symm⟩
      rw [List.foldl_cons, List.foldl_cons, ← hshorter.2]
      exact ih _ hshorter.1
  exact step [add, sub, transform] (nothing, 33) rfl

theorem length_optimalCompression {out : List UInt8} (h : optimalCompression a b = some out) :
    out.length = optimalCompressionLength a b false := by
  obtain ⟨hlen, hopt⟩ := optimalStrategy_spec a b
  rw [← hopt]
  exact Option.some.inj ((length_compress h).symm.trans hlen)

theorem optimalCompressionLength_le_strategy {st : ValueDiffCompressionStrategy} {n : Nat}
    (h : st.compressionLength a b = some n) : optimalCompressionLength a b false ≤ n := by
  rw [optimalCompressionLength_options]
  cases st with
  | nothing =>
    cases h
    omega
  | add =>
    rw [h, Option.getD_some]
    omega
  | sub =>
    rw [h, Option.getD_some]
    omega
  | transform =>
    rw [h, Option.getD_some]
    omega

/-- A value diff is always written. It has the predicted length, which is at most 33 bytes and the least of
all strategies that are available, and whatever follows it, a reader who knows the old value reads the new
value and stops where the diff ends. -/
theorem optimal_compression_minimal_and_decodable (initial final : U256) :
    ∃ out, optimalCompression initial final = some out ∧ out.length = optimalCompressionLength initial final false ∧
      out.length ≤ 33 ∧ (∃ st : ValueDiffCompressionStrategy, st.compress initial final = some out) ∧
      (∀ (st : ValueDiffCompressionStrategy) (bytes : List UInt8),
        st.compress initial final = some bytes → out.length ≤ bytes.length) ∧
      ∀ suffix, Pubdata.valueDiff initial (out ++ suffix) = .ok (final, suffix) := by
  obtain ⟨out, hout, hreads⟩ := reads_optimalCompression initial final
  have hlength := length_optimalCompression hout
  refine ⟨out, hout, hlength, ?_, ⟨_, hout⟩, ?_, hreads⟩
  · rw [hlength]
    exact optimalCompressionLength_le_strategy (show nothing.compressionLength initial final = some 33 from rfl)
  · intro st bytes hbytes
    rw [hlength]
    exact optimalCompressionLength_le_strategy (length_compress hbytes)

end Values

/-! ## Accounts -/

namespace AccountProperties

variable {initial middle final : AccountProperties}

/-- Nothing except nonce and balance differs. -/
def SameCode (initial final : AccountProperties) : Prop :=
  { initial with nonce := final.nonce, balance := final.balance } = final

instance (initial final : AccountProperties) : Decidable (SameCode initial final) :=
  inferInstanceAs (Decidable (_ = _))

theorem SameCode.refl (p : AccountProperties) : SameCode p p := rfl

theorem SameCode.trans (h : SameCode initial middle) (h' : SameCode middle final) : SameCode initial final := by
  unfold SameCode at h h' ⊢
  rw [← h', ← h]

theorem SameCode.fullBytecodeLen (h : SameCode initial final) : final.fullBytecodeLen = initial.fullBytecodeLen := by
  unfold SameCode at h
  rw [← h]
  rfl

theorem not_fullDiff_iff : ¬fullDiff initial final ↔ SameCode initial final := by
  unfold fullDiff SameCode
  rcases initial with ⟨v, n, b, h, l, al, oh, ol⟩
  rcases final with ⟨v', n', b', h', l', al', oh', ol'⟩
  simp only [mk.injEq, not_or, ne_eq, not_not]
  tauto

def nonceWord (p : AccountProperties) : U256 := p.nonce.setWidth 256

theorem nonceWord_inj : initial.nonceWord = final.nonceWord ↔ initial.nonce = final.nonce := by
  unfold nonceWord
  rw [BitVec.toNat_eq, BitVec.toNat_eq, BitVec.toNat_setWidth_of_le (by decide), BitVec.toNat_setWidth_of_le (by decide)]

/-- The predicted length of the part of a full diff that describes the code. -/
def codeLength (p : AccountProperties) (notPublishBytecode : Bool) : Nat :=
  if notPublishBytecode then 32 + 4 + 4 else 4 + 4 + p.fullBytecodeLen + 4

theorem diffCompressionLength_of_full (h : ¬SameCode initial final) (np : Bool) :
    initial.diffCompressionLength final np false = 9 + optimalCompressionLength initial.nonceWord final.nonceWord false +
      optimalCompressionLength initial.balance final.balance false + final.codeLength np := by
  unfold SameCode at h
  unfold diffCompressionLength codeLength nonceWord
  simp only
  rw [if_pos h]
  split <;> omega

theorem diffCompressionLength_of_sameCode (h : SameCode initial final) (np : Bool) :
    initial.diffCompressionLength final np false =
      1 + changeLength initial.nonceWord final.nonceWord + changeLength initial.balance final.balance := by
  unfold SameCode at h
  unfold diffCompressionLength changeLength
  simp only [ne_eq, nonceWord_inj, h, not_true, if_false, Bool.false_eq_true, or_false]
  rfl

/-- Without compression of the balance a diff is not shorter. -/
theorem diffCompressionLength_le (initial final : AccountProperties) (np notCompressBalance : Bool) :
    initial.diffCompressionLength final np false ≤ initial.diffCompressionLength final np notCompressBalance := by
  have hle := optimalCompressionLength_le initial.balance final.balance notCompressBalance
  unfold diffCompressionLength
  simp only
  split
  · split <;> omega
  · by_cases hb : initial.balance = final.balance
    · simp [hb]
    · simp only [hb, ne_eq, not_false_eq_true, true_or, if_true]
      omega

theorem change_le (initial final : AccountProperties) (np : Bool) :
    1 + changeLength initial.nonceWord final.nonceWord + changeLength initial.balance final.balance ≤
      initial.diffCompressionLength final np false := by
  by_cases h : SameCode initial final
  · rw [diffCompressionLength_of_sameCode h]
  · rw [diffCompressionLength_of_full h]
    have hn := changeLength_le initial.nonceWord final.nonceWord
    have hb := changeLength_le initial.balance final.balance
    omega

/-- Two diffs are together at least as long as one, if the way in which code is published changes only with
the code. -/
theorem diffCompressionLength_triangle {np np' : Bool} (hnp : SameCode middle final → np' = np) :
    initial.diffCompressionLength final np' false ≤
      initial.diffCompressionLength middle np false + middle.diffCompressionLength final np' false := by
  have hfirst := change_le initial middle np
  have hsecond := change_le middle final np'
  by_cases h : SameCode initial final
  · rw [diffCompressionLength_of_sameCode h]
    have hn := changeLength_triangle initial.nonceWord middle.nonceWord final.nonceWord
    have hb := changeLength_triangle initial.balance middle.balance final.balance
    omega
  · rw [diffCompressionLength_of_full h]
    by_cases h₂ : SameCode middle final
    · -- the code changed in the first step
      have h₁ : ¬SameCode initial middle := fun h₁ => h (h₁.trans h₂)
      have hcode : final.codeLength np' = middle.codeLength np := by
        unfold codeLength
        rw [hnp h₂, h₂.fullBytecodeLen]
      have hn := optimalCompressionLength_le_right initial.nonceWord middle.nonceWord final.nonceWord
      have hb := optimalCompressionLength_le_right initial.balance middle.balance final.balance
      rw [diffCompressionLength_of_full h₁]
      omega
    · have hn := optimalCompressionLength_le_left initial.nonceWord middle.nonceWord final.nonceWord
      have hb := optimalCompressionLength_le_left initial.balance middle.balance final.balance
      rw [diffCompressionLength_of_full h₂]
      omega

/-! ## Predicted and written lengths -/

section Written

variable {env : Env} {s s' : Sys} {out : List UInt8}

/-- The bytecode that a full diff asks for has the length that the account says. -/
def CodeFound (env : Env) (final : AccountProperties) (s : Sys) : Prop :=
  ∀ code u, withInfiniteResources (getPreimage env final.bytecodeHash final.fullBytecodeLen) s = (.ok code, u) →
    code.length = final.fullBytecodeLen

/-- The code part of a forced deployment is four bytes shorter than predicted: it lacks the length of the
artifacts. -/
theorem length_codeDiff_iff {np : Bool} (h : codeDiff env final np s = (.ok out, s')) :
    out.length + 4 = final.codeLength np ↔ np = false ∧ CodeFound env final s := by
  unfold codeDiff at h
  unfold codeLength
  cases np with
  | true =>
    cases h
    refine iff_of_false ?_ fun hc => Bool.false_ne_true hc.1.symm
    rw [length_beBytes]
    simp
  | false =>
    obtain ⟨code, u, hcode, hout⟩ := Action.bind_ok.mp h
    cases hout
    have hfound : CodeFound env final s ↔ code.length = final.fullBytecodeLen := by
      constructor
      · intro hf
        exact hf code _ hcode
      · intro hlen code' u' hcode'
        rw [hcode] at hcode'
        cases hcode'
        exact hlen
    rw [hfound]
    simp only [List.length_append, length_beBytes, Bool.false_eq_true, if_false, true_and]
    omega

/-- The predicted length of the diff of an account is the number of bytes that are written exactly if the
diff is not that of a forced deployment and the bytecode, if it is written, has the length that the account says. -/
theorem diff_compression_length_iff {np : Bool} (h : diffCompression env initial final np s = (.ok out, s')) :
    out.length = initial.diffCompressionLength final np false ↔
      (fullDiff initial final → np = false ∧ CodeFound env final s) := by
  obtain ⟨nonce, hn, -⟩ := reads_nonceDiff initial final
  obtain ⟨balance, hb, -⟩ := reads_optimalCompression initial.balance final.balance
  have hnonce : nonce.length = optimalCompressionLength initial.nonceWord final.nonceWord false :=
    length_optimalCompression hn
  have hbalance : balance.length = optimalCompressionLength initial.balance final.balance false :=
    length_optimalCompression hb
  simp only [diffCompression, hn, show balanceDiff initial final = some balance from hb] at h
  by_cases hfull : fullDiff initial final
  · rw [if_pos hfull] at h
    obtain ⟨code, u, hcode, hout⟩ := Action.bind_ok.mp h
    cases hout
    rw [← length_codeDiff_iff hcode, diffCompressionLength_of_full fun hs => not_fullDiff_iff.mpr hs hfull]
    simp only [List.length_cons, List.length_append, length_beBytes, hnonce, hbalance, hfull, true_imp_iff]
    omega
  · rw [if_neg hfull] at h
    split at h
    · cases h
    · cases h
      refine iff_of_true ?_ fun hf => absurd hf hfull
      rw [diffCompressionLength_of_sameCode (not_fullDiff_iff.mp hfull)]
      unfold changeLength
      simp only [ne_eq, nonceWord_inj, List.length_cons, List.length_append]
      split <;> split <;> simp only [List.length_nil, hnonce, hbalance] <;> omega

end Written

/-- A forced deployment of the code `STOP`: 54 bytes are predicted and 50 are written. -/
theorem forced_deployment_shorter_than_predicted : ∃ out s', stopAccountDiff 8 true = (.ok out, s') ∧ out.length = 50 ∧
    AccountProperties.trivial.diffCompressionLength (stopAccount 8) true false = 54 := by
  exact ⟨_, _, rfl, rfl, rfl⟩

theorem diff_compression_length_stopAccount : ∃ out s', stopAccountDiff 8 false = (.ok out, s') ∧
    (out.length = AccountProperties.trivial.diffCompressionLength (stopAccount 8) false false ↔
      (fullDiff .trivial (stopAccount 8) → false = false ∧ CodeFound blankChain (stopAccount 8) ⟨.new, .empty⟩)) := by
  obtain ⟨out, s', hrun, -⟩ := Action.exists_ok_of_any (x := stopAccountDiff 8 false) (f := fun _ _ => true) rfl
  exact ⟨out, s', hrun, diff_compression_length_iff hrun⟩

end AccountProperties

end ZkOs
