import ZkOs.Evm.Interpreter
import ZkOs.State.Access
import ZkOs.State.Refunds

/-!
# The opcode `SSTORE`

* `SystemFrame` : what the opcode uses of a frame besides stack and resources, `onIo` : an operation of the IO
  subsystem, paid by the frame;
* `sstore` : the opcode;
* `sstore_ergs` : what it takes from the frame, in any state that a transaction can reach.
-/

namespace ZkOs.Evm

open Bootloader History ZkOs.Action FrameProgram

structure SystemFrame where
  io : Io
  address : B160
  isStatic : Bool

def ExitCode.ofSystemError : Err → ExitCode
  | .outOfErgs => .evmError .outOfGas
  | _ => .fatalError

section Opcode

variable {p : PointerWidth}

/-- An operation of the IO subsystem on the resources of the frame. -/
def onIo {α : Type} (m : IoM α) : InstructionM p SystemFrame α := fun s =>
  let x := m ⟨s.data.rest.io, s.data.gas⟩
  (x.1.mapError ExitCode.ofSystemError,
    { s with data := { s.data with gas := x.2.res, rest := { s.data.rest with io := x.2.io } } })

def stateChangeDuringStaticCall : ExitCode := .evmError (.other 8)

def invalidOperandOog : ExitCode := .evmError (.other 10)

def gasLeft (r : Resources) : Nat := r.ergs.toNat / ergsPerGas

def sstore (env : Env) : InstructionM p SystemFrame Unit := do
  spendGasAndNative 0 100
  let s ← get
  require (s.data.rest.isStatic = false) stateChangeDuringStaticCall
  -- EIP-2200: no store with at most the stipend of a call left
  require (¬gasLeft s.data.gas ≤ 2300) invalidOperandOog
  let x ← onStack EvmStack.pop2
  onIo (storageWriteSlot env .evm s.data.rest.address x.1 x.2)

theorem spendGasAndNative_ok {ρ : Type} {gas native : Nat} {s s' : Interpreter p ρ}
    (h : spendGasAndNative gas native s = (.ok (), s')) :
    s.data.gas.ergs.toNat = s'.data.gas.ergs.toNat + gas * ergsPerGas ∧ s'.data.stack = s.data.stack ∧
      s'.data.rest = s.data.rest := by
  unfold spendGasAndNative at h
  split at h
  · cases h
  · next hlt =>
    rcases hx : s.data.gas.charge ⟨BitVec.ofNat 64 (gas * ergsPerGas), BitVec.ofNat 64 native⟩ with ⟨_ | _, r⟩
    · rename_i e
      rw [hx] at h
      cases e <;> cases h
    · rw [hx] at h
      cases h
      have hspent := (Resources.charge_spends hx).ergs
      rw [BitVec.toNat_ofNat, Nat.mod_eq_of_lt (not_le.mp hlt)] at hspent
      exact ⟨hspent, rfl, rfl⟩

theorem onIo_ok {α : Type} {m : IoM α} {a : α} {s s' : Interpreter p SystemFrame} (h : onIo m s = (.ok a, s')) :
    m ⟨s.data.rest.io, s.data.gas⟩ = (.ok a, ⟨s'.data.rest.io, s'.data.gas⟩) := by
  unfold onIo at h
  rcases hm : m ⟨s.data.rest.io, s.data.gas⟩ with ⟨_ | b, t⟩
  · rw [hm] at h
    cases h
  · rw [hm] at h
    cases h
    rfl

theorem sstore_ok {env : Env} {s s' : Interpreter p SystemFrame} (h : sstore env s = (.ok (), s')) :
    ∃ index value words r, s.data.stack.words = index :: value :: words ∧ s.data.gas.ergs = r.ergs ∧
      storageWriteSlot env .evm s.data.rest.address index value ⟨s.data.rest.io, r⟩ =
        (.ok (), ⟨s'.data.rest.io, s'.data.gas⟩) := by
  unfold sstore at h
  obtain ⟨_, s₁, hspend, h₁⟩ := bind_ok.mp h
  obtain ⟨hergs, hstack, hrest⟩ := spendGasAndNative_ok hspend
  obtain ⟨_, s₂, hget, h₂⟩ := bind_ok.mp h₁
  cases hget
  obtain ⟨_, s₃, hstatic, h₃⟩ := bind_ok.mp h₂
  unfold require at hstatic h₃
  split at hstatic
  · cases hstatic
    obtain ⟨_, s₄, hgas, h₄⟩ := bind_ok.mp h₃
    split at hgas
    · cases hgas
      obtain ⟨x, s₅, hpop, hio⟩ := bind_ok.mp h₄
      unfold onStack at hpop
      rcases hwords : s₁.data.stack with ⟨_ | ⟨index, _ | ⟨value, words⟩⟩, hlen⟩
      · rw [hwords] at hpop
        cases hpop
      · rw [hwords] at hpop
        cases hpop
      · rw [hwords] at hpop
        cases hpop
        refine ⟨index, value, words, s₁.data.gas, ?_, ?_, ?_⟩
        · rw [← hstack, hwords]
        · rw [Nat.zero_mul, Nat.add_zero] at hergs
          exact BitVec.eq_of_toNat_eq hergs
        · have hwrite := onIo_ok hio
          rw [← hrest]
          exact hwrite
    · cases hgas
  · cases hstatic

end Opcode

/-- In any state of a transaction, inside of frames too: `SSTORE` takes 256 times the gas of EIP-2200 and EIP-2929.
The value at the start of the transaction is the one that the transaction before has left, for a slot that was in the
cache then; otherwise it is the answer of the oracle. -/
theorem sstore_ergs (env : Env) (w : PointerWidth) {α : Type} {prog : Prog α} (io : Io) {l : Option FrameLabel}
    {es : List (FrameProgram.Event IoQuery FrameLabel Io)} {s s' : Interpreter w SystemFrame}
    (hr : prog.Reaches (Io.handler env) l io.beginNextTx es s.data.rest.io) (h : sstore env s = (.ok (), s')) :
    ∃ index value words, s.data.stack.words = index :: value :: words ∧
      let k : SlotKey := (s.data.rest.address, index)
      let v := s.data.rest.io.slotView env k
      (∀ e, io.storage.cache.elems k = some e → v.start = e.current.value) ∧
        (∀ e, s.data.rest.io.storage.cache.elems k = some e → v.current = e.current.value) ∧
        s.data.gas.ergs.toNat = s'.data.gas.ergs.toNat + 256 * sstoreGas v.start v.current value v.warm := by
  obtain ⟨index, value, words, r, hstack, hergs, hwrite⟩ := sstore_ok h
  refine ⟨index, value, words, hstack, fun e he => ?_, fun e he => ?_, ?_⟩
  · have hstart : io.beginNextTx.storage.cache.elems (s.data.rest.address, index) = some e.commit :=
      (congrFun (HistoryMap.commit_elems _) _).trans (congrArg (Option.map Element.commit) he)
    obtain ⟨e', he', hbase⟩ := Io.reaches_base prog hr hstart
    unfold Io.slotView
    simp only [he', hbase, Element.commit_base]
  · unfold Io.slotView
    simp only [he]
  · rw [hergs]
    exact storageWriteSlot_ergs hwrite

/-- A frame that stores 5 in a slot that the transaction has cleared. -/
def storeFrame : Interpreter .w64 SystemFrame where
  instructionPointer := 1
  bytecode := ⟨[0x55], by decide⟩
  bytecodePreprocessing := .createArtifacts .w64 [0x55]
  data := ⟨plenty, ⟨[1, 5], by decide⟩, ⟨(clearSlot.run (Io.handler sevens) Io.new.beginNextTx).2, 0x1111, false⟩⟩

theorem sstore_ergs_storeFrame :
    (sstore sevens storeFrame).1 = .ok () ∧
      storeFrame.data.gas.ergs.toNat = (sstore sevens storeFrame).2.data.gas.ergs.toNat + 256 * 100 := by
  have hok : (sstore sevens storeFrame).1 = .ok () := by decide +kernel
  refine ⟨hok, ?_⟩
  obtain ⟨index, value, words, hwords, -, -, hergs⟩ := sstore_ergs sevens .w64 Io.new
    (Prog.reaches_run none clearSlot Io.new.beginNextTx) (s := storeFrame) (Prod.ext hok rfl)
  cases hwords
  have hgas : sstoreGas (storeFrame.data.rest.io.slotView sevens (0x1111, 1)).start
      (storeFrame.data.rest.io.slotView sevens (0x1111, 1)).current 5
      (storeFrame.data.rest.io.slotView sevens (0x1111, 1)).warm = 100 := by decide +kernel
  rw [← hgas]
  exact hergs

end ZkOs.Evm
