import Mathlib.Logic.Relation
import ZkOs.Bootloader.Metadata
import ZkOs.Lib.Bits

/-!
# Preprocessed bytecode

The valid jump destinations of a code are found by one scan and kept as a bitmap of `usize` words. For deployed code
the bitmap is stored behind the code, as bytes, possibly by a machine with another `usize`.

* `analyze` : the scan;
* `BytecodePreprocessingData` : bitmap and length, computed (`createArtifacts`) or cut from stored bytes
  (`parseBytecode`);
* `NextInstruction`, `Boundary` : the linear disassembly of a code;
* `bit_analyze` : the bitmap marks the boundaries with a `JUMPDEST`;
* `asSlice_analyze` : its bytes are those that the deployment stores, for both widths;
* `createArtifacts_sound`, `parseBytecode_deployed` : the test of a destination accepts these boundaries only.
-/

namespace ZkOs.Evm

open Bootloader Bits

/-! ## Opcodes -/

def JUMPDEST : UInt8 := 0x5b
def PUSH1 : UInt8 := 0x60
def PUSH32 : UInt8 := 0x7f

/-- Bytes of immediate data behind an opcode. -/
def pushBytes (op : UInt8) : Nat := if PUSH1 ≤ op ∧ op ≤ PUSH32 then (op - PUSH1 + 1).toNat else 0

/-! ## The scan -/

abbrev BitMap (p : PointerWidth) := List (Usize p)

namespace BitMap

variable (p : PointerWidth)

def allocateForBitCapacity (capacity : Nat) : BitMap p :=
  List.replicate ((capacity + 63) / 64 * (64 / p.bits)) 0

variable {p}

/-- `get_bit_unchecked`; nothing is known about a read outside of the words. -/
def getBitUnchecked (m : BitMap p) (pos : Nat) : Option Bool :=
  m[pos / p.bits]?.map fun d => decide (d &&& 1#p.bits <<< (pos % p.bits) ≠ 0)

def asSlice (m : BitMap p) : List UInt8 := (recast 8 (m.length * p.bits / 8) m).map UInt8.ofBitVec

def fromRaw (p : PointerWidth) (slice : List UInt8) : Option (BitMap p) :=
  if slice.length % 8 = 0 then some (recast p.bits (slice.length / (p.bits / 8)) (slice.map UInt8.toBitVec)) else none

end BitMap

/-- The loop of `analyze` from position `i` on. -/
def analyzeLoop {p : PointerWidth} (code : List UInt8) (i : Nat) (jumps : BitMap p) : BitMap p :=
  if h : i < code.length then
    let op := code[i]
    if op = JUMPDEST then analyzeLoop code (i + 1) (setBit jumps i)
    else if PUSH1 ≤ op ∧ op ≤ PUSH32 then analyzeLoop code (i + (1 + (op - PUSH1 + 1).toNat)) jumps
    else analyzeLoop code (i + 1) jumps
  else jumps
termination_by code.length - i

def analyze (p : PointerWidth) (code : List UInt8) : BitMap p :=
  analyzeLoop code 0 (.allocateForBitCapacity p code.length)

/-! ## Preprocessing data -/

/-- `BytecodePreprocessingData`. Borrowed and owned bitmaps have the same words. -/
structure BytecodePreprocessingData (p : PointerWidth) where
  originalBytecodeLen : Nat
  jumpdestBitmap : BitMap p

namespace BytecodePreprocessingData

variable {p : PointerWidth}

/-- `is_valid_jumpdest`; nothing is known if the bitmap is too short. -/
def isValidJumpdest (d : BytecodePreprocessingData p) (off : Nat) : Option Bool :=
  if off < d.originalBytecodeLen then d.jumpdestBitmap.getBitUnchecked off else some false

def createArtifacts (p : PointerWidth) (deployedCode : List UInt8) : BytecodePreprocessingData p :=
  ⟨deployedCode.length, analyze p deployedCode⟩

/-- `parse_bytecode`: the code, and the artifacts at the end. -/
def parseBytecode (p : PointerWidth) (bytecode : List UInt8) (deployedLen artifactsLen : Nat) :
    Option (List UInt8 × BytecodePreprocessingData p) := do
  guard (deployedLen ≤ bytecode.length)
  guard (artifactsLen ≤ bytecode.length - deployedLen)
  let padding := bytecode.length - deployedLen - artifactsLen
  let rest := bytecode.drop deployedLen
  let bitmap ← BitMap.fromRaw p (rest.drop padding)
  some (bytecode.take deployedLen, ⟨deployedLen, bitmap⟩)

end BytecodePreprocessingData

/-! ## Linear disassembly -/

/-- The instruction at `i` is followed by one at `j`. -/
def NextInstruction (code : List UInt8) (i j : Nat) : Prop := ∃ op, code[i]? = some op ∧ j = i + (1 + pushBytes op)

/-- The disassembly from `i` on comes to `j`. -/
def Disassembles (code : List UInt8) (i j : Nat) : Prop := Relation.ReflTransGen (NextInstruction code) i j

/-- Where the instructions of a code start; the last one may end behind the code. -/
def Boundary (code : List UInt8) (i : Nat) : Prop := Disassembles code 0 i

def RealJumpdest (code : List UInt8) (i : Nat) : Prop := Boundary code i ∧ code[i]? = some JUMPDEST

section Analyze

variable {p : PointerWidth} {code : List UInt8}

theorem bits_pos (p : PointerWidth) : 0 < p.bits := by cases p <;> decide

theorem pushBytes_le (op : UInt8) : pushBytes op ≤ 32 := by
  unfold pushBytes
  split
  · rename_i h
    have h1 : 96 ≤ op.toNat := UInt8.le_iff_toNat_le.mp h.1
    have h2 : op.toNat ≤ 127 := UInt8.le_iff_toNat_le.mp h.2
    simp only [PUSH1, UInt8.toNat_add, UInt8.toNat_sub, UInt8.reduceToNat]
    omega
  · exact Nat.zero_le _

theorem disassembles_iff {i j : Nat} {op : UInt8} (h : code[i]? = some op) :
    Disassembles code i j ↔ i = j ∨ Disassembles code (i + (1 + pushBytes op)) j := by
  unfold Disassembles
  rw [Relation.ReflTransGen.cases_head_iff]
  refine or_congr Iff.rfl ⟨?_, fun h' => ⟨_, ⟨op, h, rfl⟩, h'⟩⟩
  rintro ⟨k, ⟨op', hop', rfl⟩, hk⟩
  obtain rfl : op' = op := Option.some.inj (hop'.symm.trans h)
  exact hk

theorem le_of_disassembles {i j : Nat} (h : Disassembles code i j) : i ≤ j := by
  unfold Disassembles at h
  induction h with
  | refl => exact Nat.le_refl _
  | tail _ hnext ih =>
    obtain ⟨op, -, rfl⟩ := hnext
    exact ih.trans (Nat.le_add_right _ _)

theorem bit_analyzeLoop (i : Nat) (jumps : BitMap p) (hlen : code.length ≤ jumps.length * p.bits) (pos : Nat) :
    bit (analyzeLoop code i jumps) pos = true ↔
      bit jumps pos = true ∨ Disassembles code i pos ∧ code[pos]? = some JUMPDEST := by
  fun_induction analyzeLoop code i jumps with
  | case1 i jumps hi op hop ih =>
    have hcode : code[i]? = some op := List.getElem?_eq_getElem hi
    have hpush : pushBytes op = 0 := by
      rw [hop]
      decide
    rw [ih (by rw [length_setBit]; exact hlen), bit_setBit _ (Nat.lt_of_lt_of_le hi hlen), disassembles_iff hcode, hpush,
      Bool.or_eq_true, decide_eq_true_eq]
    constructor
    · rintro ((h | rfl) | h)
      · exact .inl h
      · exact .inr ⟨.inl rfl, by rw [hcode, hop]⟩
      · exact .inr ⟨.inr h.1, h.2⟩
    · rintro (h | ⟨rfl | h, hpos⟩)
      · exact .inl (.inl h)
      · exact .inl (.inr rfl)
      · exact .inr ⟨h, hpos⟩
  | case2 i jumps hi op hop hpush ih | case3 i jumps hi op hop hpush ih =>
    have hcode : code[i]? = some op := List.getElem?_eq_getElem hi
    rw [ih hlen, disassembles_iff hcode]
    simp only [pushBytes, hpush, if_true, if_false, and_self]
    refine or_congr Iff.rfl (and_congr_left fun hpos => ⟨.inr, fun h => h.resolve_left ?_⟩)
    rintro rfl
    exact hop (Option.some.inj (hcode.symm.trans hpos))
  | case4 i jumps hi =>
    refine ⟨.inl, fun h => h.resolve_right fun ⟨hpos, hop⟩ => ?_⟩
    have hlt := (List.getElem?_eq_some_iff.mp hop).1
    have hle := le_of_disassembles hpos
    omega

theorem length_analyzeLoop (i : Nat) (jumps : BitMap p) : (analyzeLoop code i jumps).length = jumps.length := by
  fun_induction analyzeLoop code i jumps with
  | case1 i jumps hi op hop ih => rw [ih, length_setBit]
  | case2 i jumps hi op hop hpush ih => exact ih
  | case3 i jumps hi op hop hpush ih => exact ih
  | case4 i jumps hi => rfl

theorem length_analyze (p : PointerWidth) (code : List UInt8) :
    (analyze p code).length * p.bits = (code.length + 63) / 64 * 64 := by
  unfold analyze BitMap.allocateForBitCapacity
  rw [length_analyzeLoop, List.length_replicate]
  cases p <;> simp only [PointerWidth.bits] <;> omega

theorem bit_analyze (pos : Nat) : bit (analyze p code) pos = true ↔ RealJumpdest code pos := by
  have hlen : code.length ≤ (BitMap.allocateForBitCapacity p code.length).length * p.bits := by
    have hanalyze := length_analyze p code
    unfold analyze at hanalyze
    rw [length_analyzeLoop] at hanalyze
    omega
  unfold analyze
  rw [bit_analyzeLoop 0 _ hlen]
  unfold BitMap.allocateForBitCapacity
  rw [bit_replicate_zero]
  exact ⟨fun h => h.resolve_left Bool.false_ne_true, .inr⟩

end Analyze

/-! ## Stored artifacts -/

section Artifacts

variable {p : PointerWidth} {code : List UInt8}

theorem getElem?_jumpdests (code : List UInt8) (i n k : Nat) : (jumpdests n (code.drop i))[k]? = some true ↔
    Disassembles code (i + n) (i + k) ∧ code[i + k]? = some JUMPDEST := by
  induction hl : code.drop i generalizing i n k with
  | nil =>
    have hnone : code[i + k]? = none := by
      rw [← List.getElem?_drop, hl]
      rfl
    rw [hnone]
    simp [jumpdests]
  | cons op rest ih =>
    have hop : code[i]? = some op := by
      have h : (code.drop i)[0]? = code[i + 0]? := List.getElem?_drop
      rw [hl] at h
      exact h.symm
    have hrest : code.drop (i + 1) = rest := by
      rw [← List.drop_drop, hl]
      rfl
    have ih' : ∀ n k, (jumpdests n rest)[k]? = some true ↔
        Disassembles code (i + 1 + n) (i + 1 + k) ∧ code[i + 1 + k]? = some JUMPDEST := fun n k => ih (i + 1) n k hrest
    cases n with
    | succ n =>
      cases k with
      | zero =>
        refine ⟨fun h => ?_, fun h => ?_⟩
        · simp [jumpdests] at h
        · have := le_of_disassembles h.1
          omega
      | succ k =>
        show (jumpdests n rest)[k]? = some true ↔ _
        rw [ih', show i + 1 + n = i + (n + 1) by omega, show i + 1 + k = i + (k + 1) by omega]
    | zero =>
      have hflags : jumpdests 0 (op :: rest) = decide (op = JUMPDEST) :: jumpdests (pushBytes op) rest := by
        by_cases hj : op = JUMPDEST
        · subst hj
          rfl
        · show (if op = JUMPDEST then _ else if PUSH1 ≤ op ∧ op ≤ PUSH32 then _ else _) = _
          rw [if_neg hj, decide_eq_false hj]
          unfold pushBytes
          split <;> rfl
      rw [hflags]
      cases k with
      | zero =>
        have hrefl : Disassembles code i i := Relation.ReflTransGen.refl
        simp [hop, hrefl]
      | succ k =>
        rw [List.getElem?_cons_succ, ih', show i + 0 = i from rfl, disassembles_iff hop,
          show i + 1 + pushBytes op = i + (1 + pushBytes op) by omega, show i + 1 + k = i + (k + 1) by omega]
        refine and_congr_left fun _ => ⟨.inr, fun h => h.resolve_left (by omega)⟩

theorem testBit_foldr (l : List Bool) (j : Nat) :
    (l.foldr (fun b n => 2 * n + Bool.toNat b) 0).testBit j = l[j]?.getD false := by
  induction l generalizing j with
  | nil => rw [List.foldr_nil, Nat.zero_testBit]; rfl
  | cons b l ih =>
    rw [List.foldr_cons]
    cases j with
    | zero =>
      rw [Nat.testBit_zero]
      cases b <;> simp [Nat.add_mod]
    | succ j =>
      have hhalf : (2 * l.foldr (fun b n => 2 * n + Bool.toNat b) 0 + b.toNat) / 2 =
          l.foldr (fun b n => 2 * n + Bool.toNat b) 0 := by
        have := Bool.toNat_lt b
        omega
      rw [Nat.testBit_succ, hhalf, ih]
      rfl

theorem length_artifacts (code : List UInt8) : (artifacts code).length = (code.length + 63) / 64 * 8 := by
  unfold artifacts
  rw [List.length_map, List.length_range]

theorem length_jumpdests (n : Nat) (code : List UInt8) : (jumpdests n code).length = code.length := by
  fun_induction jumpdests n code <;> simp_all

theorem bit_artifacts (pos : Nat) :
    bit ((artifacts code).map UInt8.toBitVec) pos = true ↔ RealJumpdest code pos := by
  have hflag : RealJumpdest code pos ↔ (jumpdests 0 code)[pos]? = some true := by
    have h := getElem?_jumpdests code 0 0 pos
    rw [List.drop_zero, Nat.zero_add, Nat.zero_add] at h
    exact h.symm
  rw [hflag]
  unfold bit artifacts
  simp only [List.map_map]
  rw [List.getElem?_map]
  by_cases hi : pos / 8 < (code.length + 63) / 64 * 8
  · rw [List.getElem?_range hi, Option.map_some, Option.any_some]
    have hmod : pos % 8 < 8 := Nat.mod_lt _ (by decide)
    have hpos : 8 * (pos / 8) + pos % 8 = pos := Nat.div_add_mod pos 8
    show (UInt8.ofNat _).toBitVec.getLsbD (pos % 8) = true ↔ _
    rw [UInt8.toBitVec_ofNat', BitVec.getLsbD_ofNat, decide_eq_true hmod, Bool.true_and, testBit_foldr,
      List.getElem?_take_of_lt hmod, List.getElem?_drop, hpos]
    rcases (jumpdests 0 code)[pos]? with _ | _ | _ <;> simp
  · have hlen : code.length ≤ pos := by omega
    rw [List.getElem?_eq_none (by rw [List.length_range]; omega),
      List.getElem?_eq_none (by rw [length_jumpdests]; exact hlen)]
    simp

theorem asSlice_analyze (p : PointerWidth) (code : List UInt8) : (analyze p code).asSlice = artifacts code := by
  have hlen := length_analyze p code
  have hbits : recast 8 ((analyze p code).length * p.bits / 8) (analyze p code) =
      (artifacts code).map UInt8.toBitVec := by
    refine Bits.ext (by decide) ?_ fun pos => ?_
    · rw [length_recast, List.length_map, length_artifacts]
      omega
    · rw [bit_recast _ (by decide)]
      refine Bool.eq_iff_iff.mpr ?_
      rw [Bool.and_eq_true, bit_analyze, bit_artifacts, decide_eq_true_eq, and_iff_right_iff_imp]
      rintro ⟨-, hop⟩
      have := (List.getElem?_eq_some_iff.mp hop).1
      omega
  unfold BitMap.asSlice
  rw [hbits, List.map_map]
  exact List.map_id _

end Artifacts

/-! ## The test of a destination -/

namespace BytecodePreprocessingData

variable {p : PointerWidth} {code : List UInt8}

/-- The test stays within the bitmap and finds the jump destinations of `code`. -/
def Sound (d : BytecodePreprocessingData p) (code : List UInt8) : Prop :=
  ∀ off, ∃ valid, d.isValidJumpdest off = some valid ∧ (valid = true ↔ RealJumpdest code off)

theorem sound_of_bits {d : BytecodePreprocessingData p} (hlen : d.originalBytecodeLen = code.length)
    (hcapacity : code.length ≤ d.jumpdestBitmap.length * p.bits)
    (hbits : ∀ pos, bit d.jumpdestBitmap pos = true ↔ RealJumpdest code pos) : d.Sound code := by
  intro off
  unfold isValidJumpdest
  rw [hlen]
  by_cases hoff : off < code.length
  · have hword : off / p.bits < d.jumpdestBitmap.length :=
      (Nat.div_lt_iff_lt_mul (bits_pos p)).mpr (Nat.lt_of_lt_of_le hoff hcapacity)
    rw [if_pos hoff]
    refine ⟨_, by rw [BitMap.getBitUnchecked, List.getElem?_eq_getElem hword, Option.map_some], ?_⟩
    rw [decide_eq_true_eq, and_shiftLeft_ne_zero _ (Nat.mod_lt _ (bits_pos p)), ← hbits, bit,
      List.getElem?_eq_getElem hword, Option.any_some]
  · rw [if_neg hoff]
    refine ⟨false, rfl, fun h => absurd h Bool.false_ne_true, fun h => ?_⟩
    exact absurd (List.getElem?_eq_some_iff.mp h.2).1 hoff

theorem createArtifacts_sound (p : PointerWidth) (code : List UInt8) : (createArtifacts p code).Sound code := by
  refine sound_of_bits rfl ?_ fun pos => bit_analyze pos
  have hlen := length_analyze p code
  show code.length ≤ (analyze p code).length * p.bits
  omega

theorem parseBytecode_deployed (p : PointerWidth) (code : List UInt8) :
    ∃ d, parseBytecode p (paddedBytecode code (artifacts code)) code.length (artifacts code).length = some (code, d) ∧
      d.Sound code := by
  have hlen := length_artifacts code
  have hpadding : (paddedBytecode code (artifacts code)).length - code.length - (artifacts code).length =
      bytecodePaddingLen code.length := by
    unfold paddedBytecode
    simp only [List.length_append, List.length_replicate]
    omega
  have hcode : (paddedBytecode code (artifacts code)).take code.length = code := by
    unfold paddedBytecode
    rw [List.append_assoc, List.take_left]
  have hslice : ((paddedBytecode code (artifacts code)).drop code.length).drop (bytecodePaddingLen code.length) =
      artifacts code := by
    unfold paddedBytecode
    rw [List.append_assoc, List.drop_left, List.drop_left' List.length_replicate]
  have hle : code.length ≤ (paddedBytecode code (artifacts code)).length := by
    unfold paddedBytecode
    simp only [List.length_append]
    omega
  have hle' : (artifacts code).length ≤ (paddedBytecode code (artifacts code)).length - code.length := by
    unfold paddedBytecode
    simp only [List.length_append]
    omega
  let words := recast p.bits ((artifacts code).length / (p.bits / 8)) ((artifacts code).map UInt8.toBitVec)
  have hwords : words.length * p.bits = (code.length + 63) / 64 * 64 := by
    rw [length_recast, hlen]
    cases p <;> simp only [PointerWidth.bits] <;> omega
  refine ⟨⟨code.length, words⟩, ?_, sound_of_bits rfl ?_ fun pos => ?_⟩
  · have hraw : BitMap.fromRaw p (artifacts code) = some words := if_pos (by omega)
    unfold parseBytecode
    dsimp only
    rw [hpadding, hcode, hslice, hraw]
    simp only [hle, hle', guard_true]
    rfl
  · show code.length ≤ words.length * p.bits
    omega
  · rw [bit_recast _ (bits_pos p), Bool.and_eq_true, bit_artifacts, decide_eq_true_eq, and_iff_right_iff_imp]
    rintro ⟨-, hop⟩
    have hpos := (List.getElem?_eq_some_iff.mp hop).1
    have hn : words.length = (artifacts code).length / (p.bits / 8) := length_recast _ _
    rw [← hn]
    omega

end BytecodePreprocessingData

end ZkOs.Evm
