import ZkOs.Evm.Interpreter
import ZkOs.Lib.Limbs

/-!
# Signed arithmetic

Model of `i256.rs` and of the opcodes `SDIV`, `SMOD` and `SIGNEXTEND`.

* `i256Sign`, `i256Div`, `i256Mod` : on words; `none` is the panic of a division by zero;
* `sdiv`, `smod`, `signExtend` : the opcodes;
* `signed_opcodes` : their results are those of two's complement arithmetic.
-/

namespace ZkOs.Evm

open Bootloader ZkOs.Action

inductive Sign where
  | plus
  | minus
  | zero
  deriving DecidableEq

def minNegativeValueRepr : Limbs := ⟨0, 0, 0, 0x8000000000000000⟩

def twoCompl (op : U256) : U256 := -op

/-- `i256_sign::<true>`, with the word that it leaves: the modulus. -/
def i256Sign (val : U256) : Sign × U256 :=
  if (asLimbs val).l₃ >>> 63 = 0 then if val = 0 then (.zero, val) else (.plus, val)
  else (.minus, twoCompl val)

def divRem (a b : U256) : Option (U256 × U256) := if b = 0 then none else some (a / b, a % b)

def i256Div (dividend divisor : U256) : Option U256 := do
  let (divisorSign, divisor) := i256Sign divisor
  if divisorSign = .zero then return 0
  let (dividendSign, dividend) := i256Sign dividend
  if dividendSign = .minus ∧ asLimbs dividend = minNegativeValueRepr ∧ divisor = 1 then
    return twoCompl { asLimbs 0 with l₃ := 0x8000000000000000 }.value
  let (quotient, _) ← divRem dividend divisor
  if quotient = 0 then return 0
  match dividendSign, divisorSign with
  | .zero, .plus | .plus, .zero | .zero, .zero | .plus, .plus | .minus, .minus => return quotient
  | .zero, .minus | .plus, .minus | .minus, .zero | .minus, .plus => return 0 - quotient

def i256Mod (dividend divisor : U256) : Option U256 := do
  let (dividendSign, dividend) := i256Sign dividend
  if dividendSign = .zero then return 0
  let (_, r) ← divRem dividend (i256Sign divisor).2
  if r = 0 then return r
  if dividendSign = .minus then return twoCompl r
  return r

/-! ## Opcodes -/

namespace EvmStack

/-- `pop_1_and_peek_mut`: the top, taken from the stack, and the word below it. -/
def pop1AndPeek (s : EvmStack) : Except ExitCode ((U256 × U256) × EvmStack) :=
  match s with
  | ⟨v₀ :: v₁ :: words, h⟩ => .ok ((v₀, v₁), ⟨v₁ :: words, (Nat.le_succ _).trans h⟩)
  | _ => .error (.evmError .stackUnderflow)

def setTop (v : U256) (s : EvmStack) : Except ExitCode EvmStack :=
  .ok ⟨s.words.set 0 v, by rw [List.length_set]; exact s.length_le⟩

end EvmStack

section Opcodes

variable {p : PointerWidth} {ρ : Type}

/-- The word that was peeked is overwritten by a computation that may panic. -/
def setTopOrPanic (v : Option U256) : InstructionM p ρ Unit :=
  match v with
  | some v => onStack_ (EvmStack.setTop v)
  | none => throw .undefinedBehaviour

def sdiv : InstructionM p ρ Unit := do
  spendGasAndNative 5 1000
  let x ← onStack EvmStack.pop1AndPeek
  setTopOrPanic (i256Div x.1 x.2)

def smod : InstructionM p ρ Unit := do
  spendGasAndNative 5 800
  let x ← onStack EvmStack.pop1AndPeek
  if x.2 ≠ 0 then setTopOrPanic (i256Mod x.1 x.2) else pure ()

def u256TryToUsizeCapped (cap : Nat) (src : U256) : Option Nat :=
  let limbs := asLimbs src
  if limbs.l₃ ≠ 0 ∨ limbs.l₂ ≠ 0 ∨ limbs.l₁ ≠ 0 ∨ cap ≤ limbs.l₀.toNat then none else some limbs.l₀.toNat

/-- The word with the sign bit of its byte `shift` in all bits above. -/
def extendFrom (shift : Nat) (op : U256) : U256 :=
  let bitIndex := 8 * shift + 7
  let mask := ((1 : U256) <<< bitIndex) - 1
  if op.getLsbD bitIndex then op ||| ~~~mask else op &&& mask

def signExtend : InstructionM p ρ Unit := do
  spendGasAndNative 5 400
  let x ← onStack EvmStack.pop1AndPeek
  match u256TryToUsizeCapped 32 x.1 with
  | some shift => onStack_ (EvmStack.setTop (extendFrom shift x.2))
  | none => pure ()

end Opcodes

/-! ## Results -/

theorem limb_shift_eq_zero (v : U256) : (asLimbs v).l₃ >>> 63 = 0 ↔ v.msb = false := by
  rw [BitVec.msb_eq_decide, ← BitVec.toNat_inj]
  simp [asLimbs, BitVec.toNat_ushiftRight, Nat.shiftRight_eq_div_pow, BitVec.extractLsb'_toNat]
  have := v.isLt
  omega

theorem i256Sign_eq (v : U256) :
    i256Sign v = if v.msb then (.minus, -v) else (if v = 0 then .zero else .plus, v) := by
  unfold i256Sign twoCompl
  simp only [limb_shift_eq_zero]
  cases v.msb
  · simp only [if_true, Bool.false_eq_true, if_false]
    split <;> rfl
  · simp

theorem asLimbs_eq_iff (v w : U256) : asLimbs v = asLimbs w ↔ v = w :=
  ⟨fun h => by rw [← Limbs.value_asLimbs v, h, Limbs.value_asLimbs], congrArg asLimbs⟩

theorem i256Div_eq (a b : U256) : i256Div a b = some (a.sdiv b) := by
  unfold i256Div
  by_cases hb : b = 0#256
  · simp [hb, i256Sign_eq]
  have hlimbs : minNegativeValueRepr = asLimbs (BitVec.intMin 256) := by decide
  have hmin : twoCompl { asLimbs 0 with l₃ := 0x8000000000000000 }.value = BitVec.intMin 256 := by decide
  simp only [i256Sign_eq, hlimbs, asLimbs_eq_iff, BitVec.sdiv_eq, hmin]
  cases hx : a.msb <;> cases hy : b.msb <;> simp only [divRem]
  · by_cases ha : a = 0#256 <;> simp +contextual [hb, ha]
  · by_cases ha : a = 0#256 <;> simp +contextual [hb, ha]
  · by_cases ho : a = BitVec.intMin 256 ∧ b = 1#256
    · simp [ho.1, ho.2]
    · simp +contextual [hb, ho]
  · by_cases ho : a = BitVec.intMin 256 ∧ -b = 1#256
    · simp [ho.1, ho.2]
    · simp +contextual [hb, ho]

theorem i256Mod_eq (a b : U256) (hb : b ≠ 0#256) : i256Mod a b = some (a.srem b) := by
  unfold i256Mod
  simp only [i256Sign_eq, BitVec.srem_eq]
  cases hx : a.msb <;> cases hy : b.msb <;> by_cases ha : a = 0#256 <;> simp +contextual [divRem, hb, ha, twoCompl]

theorem getLsbD_mask {k : Nat} (hk : k < 256) (i : Nat) : (((1 : U256) <<< k) - 1).getLsbD i = decide (i < k) := by
  have hlt : 2 ^ k < 2 ^ 256 := Nat.pow_lt_pow_right (by decide) hk
  have htoNat : (((1 : U256) <<< k) - 1).toNat = 2 ^ k - 1 := by
    have hone : ((1 : U256) <<< k).toNat = 2 ^ k := by
      rw [BitVec.toNat_shiftLeft, Nat.shiftLeft_eq, show (1 : U256).toNat = 1 from rfl, one_mul, Nat.mod_eq_of_lt hlt]
    rw [BitVec.toNat_sub_of_le, hone]
    · rfl
    · rw [BitVec.le_def, hone]
      exact Nat.one_le_two_pow
  rw [← BitVec.testBit_toNat, htoNat, Nat.testBit_two_pow_sub_one]

theorem extendFrom_eq {shift : Nat} (h : shift < 32) (op : U256) :
    extendFrom shift op = (op.setWidth (8 * shift + 8)).signExtend 256 := by
  have hk : 8 * shift + 7 < 256 := by omega
  have hmsb : (op.setWidth (8 * shift + 8)).msb = op.getLsbD (8 * shift + 7) := by
    simp [BitVec.msb_eq_getLsbD_last]
  apply BitVec.eq_of_getLsbD_eq
  intro i hi
  rw [BitVec.getLsbD_signExtend, hmsb]
  unfold extendFrom
  simp only [BitVec.getLsbD_setWidth, hi, decide_true, Bool.true_and]
  split_ifs with hbit hlt hlt
  · simp only [BitVec.getLsbD_or, BitVec.getLsbD_not, getLsbD_mask hk, hi, hlt]
    rcases Nat.lt_succ_iff_lt_or_eq.mp hlt with h | rfl
    · simp [h]
    · simp [hbit]
  · rw [BitVec.getLsbD_or, BitVec.getLsbD_not, getLsbD_mask hk, hbit, decide_eq_false (by omega : ¬i < 8 * shift + 7)]
    simp [hi]
  · simp only [BitVec.getLsbD_and, getLsbD_mask hk, hlt]
    rcases Nat.lt_succ_iff_lt_or_eq.mp hlt with h | rfl
    · simp [h]
    · simp [hbit]
  · rw [BitVec.getLsbD_and, getLsbD_mask hk, decide_eq_false (by omega : ¬i < 8 * shift + 7)]
    simp [hbit]

theorem u256TryToUsizeCapped_eq {cap : Nat} (hcap : cap ≤ 2 ^ 64) (v : U256) :
    u256TryToUsizeCapped cap v = if v.toNat < cap then some v.toNat else none := by
  have hv : v.toNat = _ := (congrArg BitVec.toNat (Limbs.value_asLimbs v)).symm.trans (Limbs.toNat_value _)
  have h₀ := (asLimbs v).l₀.isLt
  unfold u256TryToUsizeCapped
  simp only [← BitVec.toNat_inj, ne_eq, hv, show (0 : U64).toNat = 0 from rfl]
  split_ifs <;> first | omega | rfl | (congr 1; omega)

/-- The quotient of the EVM, rounded towards zero. -/
def sdivSpec (a b : Int) : Int := if b = 0 then 0 else if a = -2 ^ 255 ∧ b = -1 then -2 ^ 255 else a.tdiv b

/-- The remainder of the EVM, with the sign of the dividend. -/
def smodSpec (a b : Int) : Int := if b = 0 then 0 else a.tmod b

/-- The low bytes of the word up to the one with the index, read as a signed number. -/
def signExtendSpec (index x : U256) : Int :=
  if index.toNat < 31 then (x.setWidth (8 * (index.toNat + 1))).toInt else x.toInt

theorem toInt_sdiv_eq (a b : U256) : (a.sdiv b).toInt = sdivSpec a.toInt b.toInt := by
  unfold sdivSpec
  by_cases h : a = BitVec.intMin 256 ∧ b = -1#256
  · rw [h.1, h.2]
    decide
  have hne : ¬(a.toInt = -2 ^ 255 ∧ b.toInt = -1) := fun hi =>
    h ⟨BitVec.eq_of_toInt_eq hi.1, BitVec.eq_of_toInt_eq hi.2⟩
  rw [if_neg hne, BitVec.toInt_sdiv_of_ne_or_ne a b (by tauto)]
  split
  · next hb => rw [hb, Int.tdiv_zero]
  · rfl

section Run

variable {p : PointerWidth} {ρ : Type} {s : Interpreter p ρ} {a b : U256} {words : List U256}

/-- The instruction succeeds and replaces its two operands by one word. -/
def Leaves (m : InstructionM p ρ Unit) (s : Interpreter p ρ) (words : List U256) (P : U256 → Prop) : Prop :=
  ∃ r s', m s = (.ok (), s') ∧ s'.data.stack.words = r :: words ∧ P r

theorem Leaves.of_operands {gas native : Nat} {f : U256 × U256 → InstructionM p ρ Unit} {P : U256 → Prop}
    (hpaid : (spendGasAndNative gas native s).1 = .ok ()) (hstack : s.data.stack.words = a :: b :: words)
    (hf : ∀ s₁ : Interpreter p ρ, s₁.data.stack.words = b :: words → Leaves (f (a, b)) s₁ words P) :
    Leaves (do spendGasAndNative gas native; let x ← onStack EvmStack.pop1AndPeek; f x) s words P := by
  rcases hspend : spendGasAndNative gas native s with ⟨r, s₁⟩
  rw [hspend] at hpaid
  obtain rfl : r = .ok () := hpaid
  have hkept := spendGasAndNative_stack gas native s
  rw [hspend] at hkept
  rcases hs : s₁.data.stack with ⟨ws, hlen⟩
  obtain rfl : ws = a :: b :: words := by rw [← hstack, ← hkept, hs]
  have hpop : onStack EvmStack.pop1AndPeek s₁ =
      (.ok (a, b), { s₁ with data := { s₁.data with stack := ⟨b :: words, (Nat.le_succ _).trans hlen⟩ } }) := by
    unfold onStack
    rw [hs]
    rfl
  obtain ⟨r, s', hrun, h⟩ :=
    hf { s₁ with data := { s₁.data with stack := ⟨b :: words, (Nat.le_succ _).trans hlen⟩ } } rfl
  exact ⟨r, s', by rw [bind_of_ok hspend, bind_of_ok hpop, hrun], h⟩

theorem Leaves.setTop {r : U256} {P : U256 → Prop} (hwords : s.data.stack.words = b :: words) (hP : P r) :
    Leaves (onStack_ (EvmStack.setTop r)) s words P :=
  ⟨r, _, rfl, by show s.data.stack.words.set 0 r = _; rw [hwords]; rfl, hP⟩

/-- `SDIV`, `SMOD` and `SIGNEXTEND`, if they can be paid for. -/
theorem signed_opcodes (hstack : s.data.stack.words = a :: b :: words) :
    ((spendGasAndNative 5 1000 s).1 = .ok () → Leaves sdiv s words fun r => r.toInt = sdivSpec a.toInt b.toInt) ∧
      ((spendGasAndNative 5 800 s).1 = .ok () → Leaves smod s words fun r => r.toInt = smodSpec a.toInt b.toInt) ∧
      ((spendGasAndNative 5 400 s).1 = .ok () → Leaves signExtend s words fun r => r.toInt = signExtendSpec a b) := by
  refine ⟨fun h => .of_operands h hstack ?_, fun h => .of_operands h hstack ?_, fun h => .of_operands h hstack ?_⟩
  · intro s₁ hwords
    rw [i256Div_eq]
    exact .setTop hwords (toInt_sdiv_eq a b)
  · intro s₁ hwords
    unfold smodSpec
    by_cases hb : b = 0#256
    · rw [if_neg (not_not_intro (show b = 0 from hb))]
      exact ⟨b, s₁, rfl, hwords, by rw [hb]; rfl⟩
    · have hint : b.toInt ≠ 0 := fun h => hb (BitVec.eq_of_toInt_eq h)
      rw [if_pos (show b ≠ 0 from hb), if_neg hint, i256Mod_eq a b hb]
      exact .setTop hwords (BitVec.toInt_srem a b)
  · intro s₁ hwords
    unfold signExtendSpec
    rw [u256TryToUsizeCapped_eq (by decide)]
    dsimp only
    split_ifs with h32 h31 h31
    · refine .setTop hwords ?_
      rw [extendFrom_eq h32, BitVec.toInt_signExtend_of_le (by omega)]
      rfl
    · have heq : a.toNat = 31 := by omega
      refine .setTop hwords ?_
      rw [extendFrom_eq h32, heq]
      simp
    · omega
    · exact ⟨b, s₁, rfl, hwords, rfl⟩

end Run

/-- A frame that divides the smallest number by -1. -/
def divisionFrame : Interpreter .w64 Unit where
  instructionPointer := 1
  bytecode := ⟨[0x05], by decide⟩
  bytecodePreprocessing := .createArtifacts .w64 [0x05]
  data := ⟨.infinite, ⟨[.intMin 256, -1], by decide⟩, ()⟩

theorem signed_opcodes_divisionFrame : Leaves sdiv divisionFrame [] fun r => r.toInt = -2 ^ 255 := by
  have h := (signed_opcodes (s := divisionFrame) rfl).1 (by decide +kernel)
  have hspec : sdivSpec (BitVec.intMin 256).toInt (-1 : U256).toInt = -2 ^ 255 := by decide
  rwa [hspec] at h

end ZkOs.Evm
