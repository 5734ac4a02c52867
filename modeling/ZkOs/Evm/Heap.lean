import ZkOs.Evm.StorageOps

/-!
# Growth of the heap

* `SliceVec`, `HeapData` : the heap of a frame and the gas paid for its growth;
* `payForMemoryGrowth`, `resizeHeap` : growth in words, paid as the difference to what was paid before;
* `HeapAccess` : the ways in which instructions reach the heap;
* `Reached` : the states of a frame between its accesses;
* `heap_growth` : what was charged is the cost of the largest access, and the heap ends with it.
-/

namespace ZkOs.Evm

open Bootloader ZkOs.Action

/-- The bytes written so far and the length of the memory behind them. -/
structure SliceVec where
  bytes : List UInt8
  memoryLen : Nat

def SliceVec.resize (v : SliceVec) (newLength : Nat) (padding : UInt8) : Option SliceVec :=
  if v.memoryLen ≤ newLength then none
  else some { v with bytes := v.bytes.take newLength ++ List.replicate (newLength - v.bytes.length) padding }

structure HeapData (σ : Type) where
  heap : SliceVec
  gasPaidForHeapGrowth : U64
  rest : σ

def memoryLimitOog : ExitCode := .evmError (.other 9)

section Heap

variable {p : PointerWidth} {σ : Type}

/-- `end_cost` in `pay_for_memory_growth` -/
def heapCost (words : Nat) : U64 :=
  saturate ((saturate (3 * words)).toNat + (saturate (words * words)).toNat / 512)

/-- The heap grows; the difference of the costs wraps. -/
def payForMemoryGrowth (currentMsize newMsize : Nat) : InstructionM p (HeapData σ) Unit := do
  let s ← get
  let netByteIncrease := newMsize - currentMsize
  let endCost := heapCost (newMsize / 32)
  let netCostGas := endCost - s.data.rest.gasPaidForHeapGrowth
  let netCostNative := saturate (35 + (saturate (1 * netByteIncrease)).toNat)
  spendGasAndNative netCostGas.toNat netCostNative.toNat
  modify fun s => { s with data := { s.data with rest := { s.data.rest with gasPaidForHeapGrowth := endCost } } }

def resizeHeap (offset len : Usize p) : InstructionM p (HeapData σ) Unit := do
  let maxOffset := min (offset.toNat + len.toNat) (2 ^ p.bits - 1)
  if maxOffset > 2 ^ 32 - 1 - 31 then throw memoryLimitOog
  else
    let newHeapSize := (maxOffset + 31) / 32 * 32
    let s ← get
    let currentHeapSize := s.data.rest.heap.bytes.length
    if newHeapSize > currentHeapSize then
      payForMemoryGrowth currentHeapSize newHeapSize
      let heap ← ofOption (.evmError .outOfGas) (s.data.rest.heap.resize newHeapSize 0)
      modify fun s => { s with data := { s.data with rest := { s.data.rest with heap := heap } } }
    else pure ()

def castOffsetAndLen (offset len : U256) (errorToSet : ExitCode) : InstructionM p (HeapData σ) (Usize p × Usize p) :=
  if len = 0 then pure (0, 0)
  else do
    let offset ← castToUsize offset errorToSet
    let len ← castToUsize len errorToSet
    return (offset, len)

inductive HeapAccess where
  /-- `MLOAD`, `MSTORE` -/
  | word (index : U256)
  /-- `MSTORE8` -/
  | byte (index : U256)
  /-- With `cast_offset_and_len`: `EXTCODECOPY`, logs, creations, input and output of calls. -/
  | range (offset len : U256)
  /-- The length is cast first, and nothing is done if it is zero: `RETURN`, `REVERT`, `SHA3`, `CODECOPY`,
  `CALLDATACOPY`, `RETURNDATACOPY`. -/
  | nonempty (offset len : U256)
  /-- `MCOPY` -/
  | copy (dst src len : U256)

namespace HeapAccess

/-- What the instruction does to reach the heap. -/
def run : HeapAccess → InstructionM p (HeapData σ) Unit
  | word index => do
    let index ← castToUsize index invalidOperandOog
    resizeHeap index 32
  | byte index => do
    let index ← castToUsize index invalidOperandOog
    resizeHeap index 1
  | range offset len => do
    let (offset, len) ← castOffsetAndLen offset len invalidOperandOog
    resizeHeap offset len
  | nonempty offset len => do
    let len ← castToUsize len invalidOperandOog
    if len = 0 then pure ()
    else
      let offset ← castToUsize offset invalidOperandOog
      resizeHeap offset len
  | copy dst src len => do
    let len ← castToUsize len invalidOperandOog
    if len = 0 then pure ()
    else
      let dst ← castToUsize dst invalidOperandOog
      let src ← castToUsize src invalidOperandOog
      resizeHeap (if dst ≤ src then src else dst) len

def span : HeapAccess → Nat × Nat
  | word index => (index.toNat, 32)
  | byte index => (index.toNat, 1)
  | range offset len | nonempty offset len => (offset.toNat, len.toNat)
  | copy dst src len => (max dst.toNat src.toNat, len.toNat)

/-- The number of words up to the end of the access, none if it is empty. -/
def words (a : HeapAccess) : Nat := if a.span.2 = 0 then 0 else (a.span.1 + a.span.2 + 31) / 32

end HeapAccess

/-- The states of one frame, with the words of the largest access so far and the gas that the accesses have cost. In
between anything may happen that keeps the length of the heap and the amount paid for it. -/
inductive Reached : Interpreter p (HeapData σ) → Nat → Nat → Prop where
  | start {s : Interpreter p (HeapData σ)} (hheap : s.data.rest.heap.bytes = [])
      (hpaid : s.data.rest.gasPaidForHeapGrowth = 0) : Reached s 0 0
  | access {s s' : Interpreter p (HeapData σ)} {w total : Nat} (h : Reached s w total) (a : HeapAccess)
      (hrun : a.run s = (.ok (), s')) :
      Reached s' (max w a.words) (total + (s.data.gas.ergs.toNat - s'.data.gas.ergs.toNat) / ergsPerGas)
  | other {s s' : Interpreter p (HeapData σ)} {w total : Nat} (h : Reached s w total)
      (hheap : s'.data.rest.heap.bytes.length = s.data.rest.heap.bytes.length)
      (hpaid : s'.data.rest.gasPaidForHeapGrowth = s.data.rest.gasPaidForHeapGrowth) : Reached s' w total

/-! ## One access -/

def memoryGas (w : Nat) : Nat := 3 * w + w * w / 512

theorem memoryGas_mono {w w' : Nat} (h : w ≤ w') : memoryGas w ≤ memoryGas w' :=
  Nat.add_le_add (Nat.mul_le_mul_left 3 h) (Nat.div_le_div_right (Nat.mul_le_mul h h))

theorem heapCost_toNat {w : Nat} (h : w < 2 ^ 27) : (heapCost w).toNat = memoryGas w := by
  have hsq : w * w < 2 ^ 27 * 2 ^ 27 := Nat.mul_lt_mul'' h h
  have hsat : ∀ {n : Nat}, n < 2 ^ 64 → (saturate n).toNat = n := by
    intro n hn
    rw [saturate, BitVec.toNat_ofNat]
    omega
  rw [heapCost, hsat (by omega : w * w < 2 ^ 64), hsat (by omega : 3 * w < 2 ^ 64), hsat (by omega), memoryGas]

variable {s s' : Interpreter p (HeapData σ)} {w total : Nat}

/-- The heap has `w` words, and they are paid. -/
structure Paid (s : Interpreter p (HeapData σ)) (w : Nat) : Prop where
  length : s.data.rest.heap.bytes.length = 32 * w
  paid : s.data.rest.gasPaidForHeapGrowth.toNat = memoryGas w

/-- From `w` words to `w'`: new bytes are zero, and the difference of the costs is charged. -/
structure Grows (s s' : Interpreter p (HeapData σ)) (w w' : Nat) : Prop where
  heap : s'.data.rest.heap.bytes = s.data.rest.heap.bytes ++ List.replicate (32 * (w' - w)) 0
  paid : Paid s' w'
  ergs : s.data.gas.ergs.toNat = s'.data.gas.ergs.toNat + (memoryGas w' - memoryGas w) * ergsPerGas

theorem Paid.grows_self (h : Paid s w) {w' : Nat} (hw : w' ≤ w) : Grows s s w (max w w') := by
  rw [Nat.max_eq_left hw]
  exact ⟨by simp, h, by simp⟩

theorem castToUsize_ok {ρ : Type} {s s' : Interpreter p ρ} {src : U256} {e : ExitCode} {n : Usize p}
    (h : castToUsize src e s = (.ok n, s')) : s' = s ∧ n.toNat = src.toNat := by
  unfold castToUsize at h
  split at h
  · next hlt =>
    cases h
    exact ⟨rfl, by rw [BitVec.toNat_ofNat, Nat.mod_eq_of_lt hlt]⟩
  · cases h

theorem payForMemoryGrowth_ok {w' : Nat} (hs : Paid s w) (hw : w ≤ w') (hlim : w' < 2 ^ 27)
    (h : payForMemoryGrowth (32 * w) (w' * 32) s = (.ok (), s')) :
    s'.data.rest.heap = s.data.rest.heap ∧ s'.data.rest.gasPaidForHeapGrowth.toNat = memoryGas w' ∧
      s.data.gas.ergs.toNat = s'.data.gas.ergs.toNat + (memoryGas w' - memoryGas w) * ergsPerGas := by
  obtain ⟨_, _, hget, h⟩ := bind_ok.mp h
  cases hget
  obtain ⟨_, t, hspend, h⟩ := bind_ok.mp h
  cases h
  obtain ⟨hergs, -, hrest⟩ := spendGasAndNative_ok hspend
  have hcost := heapCost_toNat hlim
  have hle := memoryGas_mono hw
  have hsub : (heapCost w' - s.data.rest.gasPaidForHeapGrowth).toNat = memoryGas w' - memoryGas w := by
    rw [BitVec.toNat_sub_of_le (by rw [BitVec.le_def, hcost, hs.paid]; exact hle), hcost, hs.paid]
  rw [Nat.mul_div_cancel _ (by decide)] at hergs
  rw [← hsub]
  refine ⟨?_, ?_, hergs⟩
  · show t.data.rest.heap = _
    rw [hrest]
  · show (heapCost (w' * 32 / 32)).toNat = _
    rw [Nat.mul_div_cancel _ (by decide), hcost]

theorem SliceVec.resize_some {v v' : SliceVec} {n : Nat} {padding : UInt8} (h : v.resize n padding = some v')
    (hn : v.bytes.length ≤ n) : v'.bytes = v.bytes ++ List.replicate (n - v.bytes.length) padding := by
  unfold SliceVec.resize at h
  split at h
  · cases h
  · cases h
    rw [List.take_of_length_le hn]

theorem resizeHeap_ok {offset len : Usize p} (hs : Paid s w) (h : resizeHeap offset len s = (.ok (), s')) :
    Grows s s' w (max w ((offset.toNat + len.toNat + 31) / 32)) := by
  unfold resizeHeap at h
  split at h
  · cases h
  next hlim =>
  have hbits : 2 ^ 32 ≤ 2 ^ p.bits := by cases p <;> decide
  have hmin : min (offset.toNat + len.toNat) (2 ^ p.bits - 1) = offset.toNat + len.toNat := by omega
  rw [hmin] at h hlim
  obtain ⟨_, _, hget, h⟩ := bind_ok.mp h
  cases hget
  dsimp only at h
  rw [hs.length] at h
  generalize hw : (offset.toNat + len.toNat + 31) / 32 = w' at h ⊢
  split at h
  · next hgrow =>
    obtain ⟨_, t, hpay, h⟩ := bind_ok.mp h
    obtain ⟨hheap, hpaid, hergs⟩ := payForMemoryGrowth_ok hs (by omega) (by omega) hpay
    obtain ⟨heap, _, hresize, h⟩ := bind_ok.mp h
    cases h
    rw [Nat.max_eq_right (by omega)]
    rcases hv : s.data.rest.heap.resize (w' * 32) 0 with _ | v
    · rw [hv] at hresize
      cases hresize
    rw [hv] at hresize
    cases hresize
    have hbytes := SliceVec.resize_some hv (by rw [hs.length]; omega)
    rw [hs.length, show w' * 32 - 32 * w = 32 * (w' - w) by omega] at hbytes
    refine ⟨hbytes, ⟨?_, hpaid⟩, hergs⟩
    show heap.bytes.length = _
    rw [hbytes, List.length_append, hs.length, List.length_replicate]
    omega
  · next hgrow =>
    cases h
    exact hs.grows_self (by omega)

theorem HeapAccess.run_ok {a : HeapAccess} (hs : Paid s w) (h : a.run s = (.ok (), s')) :
    Grows s s' w (max w a.words) := by
  cases a with
  | word index | byte index =>
    obtain ⟨i, t, hcast, h₁⟩ := bind_ok.mp h
    obtain ⟨rfl, hi⟩ := castToUsize_ok hcast
    have hgrows := resizeHeap_ok hs h₁
    rw [hi] at hgrows
    cases p <;> exact hgrows
  | range offset len =>
    obtain ⟨⟨o, l⟩, t, hcast, h₁⟩ := bind_ok.mp h
    have hgrows := @resizeHeap_ok _ _ t s' w o l
    unfold castOffsetAndLen at hcast
    split at hcast
    · next hlen =>
      cases hcast
      have hzero : (HeapAccess.range offset len).words = 0 := by simp [words, span, hlen]
      rw [hzero]
      simpa using hgrows hs h₁
    · next hlen =>
      obtain ⟨o', t₁, ho, hcast₁⟩ := bind_ok.mp hcast
      obtain ⟨rfl, ho'⟩ := castToUsize_ok ho
      obtain ⟨l', t₂, hl, hcast₂⟩ := bind_ok.mp hcast₁
      obtain ⟨rfl, hl'⟩ := castToUsize_ok hl
      cases hcast₂
      have hlen' : len.toNat ≠ 0 := fun h0 => hlen (BitVec.eq_of_toNat_eq h0)
      simpa [words, span, hlen', ho', hl'] using hgrows hs h₁
  | nonempty offset len =>
    obtain ⟨l, t, hl, h₁⟩ := bind_ok.mp h
    obtain ⟨rfl, hl'⟩ := castToUsize_ok hl
    split at h₁
    · next h0 =>
      cases h₁
      exact hs.grows_self (by simp [words, span, ← hl', h0])
    · next h0 =>
      obtain ⟨o, t, ho, h₂⟩ := bind_ok.mp h₁
      obtain ⟨rfl, ho'⟩ := castToUsize_ok ho
      have hlen' : len.toNat ≠ 0 := fun hz => h0 (BitVec.eq_of_toNat_eq (hl'.trans hz))
      simpa [words, span, hlen', ho', hl'] using resizeHeap_ok hs h₂
  | copy dst src len =>
    obtain ⟨l, t, hl, h₁⟩ := bind_ok.mp h
    obtain ⟨rfl, hl'⟩ := castToUsize_ok hl
    split at h₁
    · next h0 =>
      cases h₁
      exact hs.grows_self (by simp [words, span, ← hl', h0])
    · next h0 =>
      obtain ⟨d, t, hd, h₂⟩ := bind_ok.mp h₁
      obtain ⟨rfl, hd'⟩ := castToUsize_ok hd
      obtain ⟨o, t, ho, h₃⟩ := bind_ok.mp h₂
      obtain ⟨rfl, ho'⟩ := castToUsize_ok ho
      have hlen' : len.toNat ≠ 0 := fun hz => h0 (BitVec.eq_of_toNat_eq (hl'.trans hz))
      have hmax : (if d ≤ o then o else d).toNat = max dst.toNat src.toNat := by
        rw [← hd', ← ho']
        split <;> rename_i hle <;> rw [BitVec.le_def] at hle <;> omega
      simpa [words, span, hlen', hmax, hl'] using resizeHeap_ok hs h₃

theorem HeapAccess.run_empty {a : HeapAccess} (ha : a.span.2 = 0) : a.run s = (.ok (), s) := by
  have hcast : ∀ {len : U256} {e : ExitCode}, len.toNat = 0 →
      castToUsize len e s = (.ok 0, s) := by
    intro len e h0
    simp [castToUsize, h0]
  cases a with
  | word index | byte index => cases ha
  | range offset len =>
    have hlen : len = 0 := BitVec.eq_of_toNat_eq ha
    simp [run, castOffsetAndLen, hlen, resizeHeap, bind_apply]
  | nonempty offset len | copy dst src len =>
    exact (bind_of_ok (hcast ha)).trans rfl

/-! ## All accesses of a frame -/

theorem Reached.paid (h : Reached s w total) : Paid s w ∧ total = memoryGas w := by
  induction h with
  | start hheap hpaid => exact ⟨⟨by rw [hheap]; rfl, by rw [hpaid]; rfl⟩, rfl⟩
  | access h a hrun ih =>
    obtain ⟨hs, htotal⟩ := ih
    have hgrows := a.run_ok hs hrun
    refine ⟨hgrows.paid, ?_⟩
    rw [hgrows.ergs, Nat.add_sub_cancel_left, Nat.mul_div_cancel _ (by decide), htotal,
      Nat.add_sub_cancel' (memoryGas_mono (Nat.le_max_left _ _))]
  | other h hheap hpaid ih => exact ⟨⟨hheap.trans ih.1.length, by rw [hpaid]; exact ih.1.paid⟩, ih.2⟩

/-- In every state of a frame, the accesses so far have cost what the largest one costs, the heap has the size of the
largest one, and no growth has been paid for more than it costs. The next access adds zero bytes, and none if it is
empty. -/
theorem heap_growth (h : Reached s w total) :
    total = 3 * w + w * w / 512 ∧ s.data.rest.heap.bytes.length = 32 * w ∧
    (∀ newMsize, s.data.rest.heap.bytes.length ≤ newMsize → newMsize ≤ 2 ^ 32 - 32 →
      s.data.rest.gasPaidForHeapGrowth ≤ heapCost (newMsize / 32)) ∧
    ∀ a : HeapAccess,
      (∀ s', a.run s = (.ok (), s') →
        s'.data.rest.heap.bytes = s.data.rest.heap.bytes ++ List.replicate (32 * (a.words - w)) 0) ∧
      (a.span.2 = 0 → a.run s = (.ok (), s)) := by
  obtain ⟨hs, htotal⟩ := h.paid
  refine ⟨htotal, hs.length, fun newMsize hle hlim => ?_, fun a => ⟨fun s' hrun => ?_, a.run_empty⟩⟩
  · rw [hs.length] at hle
    rw [BitVec.le_def, heapCost_toNat (by omega), hs.paid]
    exact memoryGas_mono (by omega)
  · rw [(a.run_ok hs hrun).heap, show max w a.words - w = a.words - w by omega]

end Heap

def memoryFrame : Interpreter .w64 (HeapData Unit) where
  instructionPointer := 0
  bytecode := ⟨[0x52], by decide⟩
  bytecodePreprocessing := .createArtifacts .w64 [0x52]
  data := ⟨.infinite, .new, ⟨⟨[], 1000⟩, 0, ()⟩⟩

theorem heap_growth_memoryFrame :
    ∃ s : Interpreter .w64 (HeapData Unit), Reached s 2 6 ∧ s.data.rest.heap.bytes.length = 64 := by
  have hrun : (HeapAccess.word 1).run memoryFrame = (.ok (), ((HeapAccess.word 1).run memoryFrame).2) := by
    rw [Prod.ext_iff]
    exact ⟨by decide +kernel, rfl⟩
  have hcost : 0 + (memoryFrame.data.gas.ergs.toNat -
      ((HeapAccess.word 1).run memoryFrame).2.data.gas.ergs.toNat) / ergsPerGas = 6 := by decide +kernel
  have h := Reached.access (.start rfl rfl) (.word 1) hrun
  rw [hcost] at h
  exact ⟨_, h, (heap_growth h).2.1⟩

end ZkOs.Evm
