import ZkOs.Evm.Bytecode

/-!
# The interpreter loop

The loop of `run` reads the byte at the instruction pointer, advances the pointer and executes the instruction. Only
jumps and pushes move the pointer further. The opcodes that do not are given by a function on the rest of the frame
(`Host`); an external call leaves the loop, which is entered again with the same pointer when the call has returned.

* `EvmStack`, `Interpreter` : the state of a frame;
* `jump`, `jumpi`, `push`, … `execute`, `step` : the instructions and one round of the loop;
* `Started`, `Continues` : how a frame starts and comes to the next round;
* `instruction_pointer_at_boundary` : every round finds the pointer at an instruction of the linear disassembly, or
  at the end of the code.
-/

namespace ZkOs.Evm

open Bootloader ZkOs.Action Digits

/-! ## State -/

/-- The errors of this module; others come from the opcodes of the host. -/
inductive EvmError where
  | outOfGas
  | invalidJump
  | invalidOpcode (op : UInt8)
  | stackUnderflow
  | stackOverflow
  | other (code : UInt8)
  deriving DecidableEq

inductive ExitCode where
  | stop
  | return_
  | selfDestruct
  | externalCall
  | evmError (e : EvmError)
  | fatalError
  /-- A read outside of the jump destination bitmap. -/
  | undefinedBehaviour
  deriving DecidableEq

def stackSize : Nat := 1024

structure EvmStack where
  words : List U256
  length_le : words.length ≤ stackSize

namespace EvmStack

def new : EvmStack := ⟨[], Nat.zero_le _⟩

def push (value : U256) (s : EvmStack) : Except ExitCode EvmStack :=
  if h : s.words.length = stackSize then .error (.evmError .stackOverflow)
  else .ok ⟨value :: s.words, Nat.lt_of_le_of_ne s.length_le h⟩

def pop1 (s : EvmStack) : Except ExitCode (U256 × EvmStack) :=
  match s with
  | ⟨v :: words, h⟩ => .ok (v, ⟨words, (Nat.le_succ _).trans h⟩)
  | _ => .error (.evmError .stackUnderflow)

def pop2 (s : EvmStack) : Except ExitCode ((U256 × U256) × EvmStack) :=
  match s with
  | ⟨v₀ :: v₁ :: words, h⟩ => .ok ((v₀, v₁), ⟨words, (Nat.le_add_right _ 2).trans h⟩)
  | _ => .error (.evmError .stackUnderflow)

/-- The `n`-th word from the top, counted from one, again on top. -/
def dup (n : Nat) (s : EvmStack) : Except ExitCode EvmStack :=
  if s.words.length = stackSize then .error (.evmError .stackOverflow)
  else match s.words[n - 1]? with
    | some v => s.push v
    | none => .error (.evmError .stackUnderflow)

/-- The top exchanged with the `n`-th word below it. -/
def swap (n : Nat) (s : EvmStack) : Except ExitCode EvmStack :=
  match s.words[0]?, s.words[n]? with
  | some top, some v => .ok ⟨(s.words.set n top).set 0 v, by rw [List.length_set, List.length_set]; exact s.length_le⟩
  | _, _ => .error (.evmError .stackUnderflow)

end EvmStack

/-- A slice of bytes; none is longer than `isize::MAX`. -/
structure Slice (p : PointerWidth) where
  bytes : List UInt8
  length_lt : bytes.length < 2 ^ (p.bits - 1)

/-- What every instruction may change: the resources, the stack and the rest, which is the heap, the return data,
the fields of the frame and the state of the system. -/
structure FrameData (ρ : Type) where
  gas : Resources
  stack : EvmStack
  rest : ρ

structure Interpreter (p : PointerWidth) (ρ : Type) where
  instructionPointer : Usize p
  bytecode : Slice p
  bytecodePreprocessing : BytecodePreprocessingData p
  data : FrameData ρ

abbrev InstructionM (p : PointerWidth) (ρ : Type) := Action ExitCode (Interpreter p ρ)

/-- The opcodes that do not move the instruction pointer and are not in this module. They may look at everything. -/
abbrev Host (p : PointerWidth) (ρ : Type) := UInt8 → Interpreter p ρ → Except ExitCode Unit × FrameData ρ

section Instructions

variable {p : PointerWidth} {ρ : Type}

/-! ## Instructions -/

def spendGasAndNative (gas native : Nat) : InstructionM p ρ Unit := fun s =>
  if 2 ^ 64 ≤ gas * ergsPerGas then (.error (.evmError .outOfGas), s)
  else
    let x := s.data.gas.charge ⟨BitVec.ofNat 64 (gas * ergsPerGas), BitVec.ofNat 64 native⟩
    let s' := { s with data := { s.data with gas := x.2 } }
    match x.1 with
    | .ok _ => (.ok (), s')
    | .error .outOfErgs => (.error (.evmError .outOfGas), s')
    | .error _ => (.error .fatalError, s')

def onStack {α : Type} (f : EvmStack → Except ExitCode (α × EvmStack)) : InstructionM p ρ α := fun s =>
  match f s.data.stack with
  | .ok (a, stack) => (.ok a, { s with data := { s.data with stack := stack } })
  | .error e => (.error e, s)

def onStack_ (f : EvmStack → Except ExitCode EvmStack) : InstructionM p ρ Unit :=
  onStack fun stack => (f stack).map fun stack => ((), stack)

def castToUsize (src : U256) (errorToSet : ExitCode) : InstructionM p ρ (Usize p) :=
  if src.toNat < 2 ^ p.bits then pure (BitVec.ofNat _ src.toNat) else throw errorToSet

/-- The jump to an offset, if it is a valid destination. -/
def jumpToOffset (dest : Usize p) : InstructionM p ρ Unit := fun s =>
  match s.bytecodePreprocessing.isValidJumpdest dest.toNat with
  | some true => (.ok (), { s with instructionPointer := dest })
  | some false => (.error (.evmError .invalidJump), s)
  | none => (.error .undefinedBehaviour, s)

def jumpTo (dest : U256) : InstructionM p ρ Unit := do
  let dest ← castToUsize dest (.evmError .invalidJump)
  jumpToOffset dest

def jump : InstructionM p ρ Unit := do
  spendGasAndNative 8 70
  let dest ← onStack EvmStack.pop1
  jumpTo dest

def jumpi : InstructionM p ρ Unit := do
  spendGasAndNative 10 300
  let x ← onStack EvmStack.pop2
  if x.2 ≠ 0 then jumpTo x.1 else pure ()

def jumpdest : InstructionM p ρ Unit := spendGasAndNative 1 40

def pc : InstructionM p ρ Unit := do
  spendGasAndNative 2 40
  let s ← get
  onStack_ (EvmStack.push ((s.instructionPointer - 1).setWidth 256))

def pop : InstructionM p ρ Unit := do
  spendGasAndNative 2 40
  let _ ← onStack EvmStack.pop1

def push0 : InstructionM p ρ Unit := do
  spendGasAndNative 2 50
  onStack_ (EvmStack.push 0)

def pushNativeCosts : List Nat :=
  [50, 60, 120, 140, 140, 150, 160, 170, 180, 190, 200, 210, 210, 220, 230, 240, 240, 240, 240, 240, 240, 250, 260, 260,
    260, 260, 270, 280, 280, 290, 290, 300, 300]

/-- The word made of the `n` bytes from `start` on, as far as there are any: they are copied to the start of 32 zero
bytes, read as a big-endian number and shifted to the right. -/
def immediate (code : List UInt8) (start n : Nat) : U256 :=
  let copied := (code.drop start).take n
  BitVec.ofNat 256 (beNat (copied ++ List.replicate (32 - copied.length) 0) / 2 ^ ((32 - n) * 8))

/-- The immediate data of a push; the pointer moves behind it. -/
def takeImmediate (n : Nat) : InstructionM p ρ U256 := fun s =>
  (.ok (immediate s.bytecode.bytes s.instructionPointer.toNat n),
    { s with instructionPointer := s.instructionPointer + BitVec.ofNat _ n })

def push (n : Nat) : InstructionM p ρ Unit := do
  spendGasAndNative 3 (pushNativeCosts.getD n 0)
  let value ← takeImmediate n
  onStack_ (EvmStack.push value)

def dup (n : Nat) : InstructionM p ρ Unit := do
  spendGasAndNative 3 60
  onStack_ (EvmStack.dup n)

def swap (n : Nat) : InstructionM p ρ Unit := do
  spendGasAndNative 3 90
  onStack_ (EvmStack.swap n)

def onHost (host : Host p ρ) (opcode : UInt8) : InstructionM p ρ Unit := fun s =>
  ((host opcode s).1, { s with data := (host opcode s).2 })

/-- The opcodes that are left to the host: arithmetic, comparison and bits, `SHA3`, environment and block, memory,
storage, `GAS`, logs, `CREATE` to `CREATE2`, `STATICCALL`, `REVERT` and `SELFDESTRUCT`. -/
def isHostOpcode (op : UInt8) : Bool :=
  (0x01 ≤ op && op ≤ 0x0b) || (0x10 ≤ op && op ≤ 0x1d) || op == 0x20 || (0x30 ≤ op && op ≤ 0x3f) ||
    (0x40 ≤ op && op ≤ 0x4a) || (0x51 ≤ op && op ≤ 0x55) || op == 0x59 || op == 0x5a || (0x5c ≤ op && op ≤ 0x5e) ||
    (0xa0 ≤ op && op ≤ 0xa4) || (0xf0 ≤ op && op ≤ 0xf5) || op == 0xfa || op == 0xfd || op == 0xff

def execute (host : Host p ρ) (opcode : UInt8) : InstructionM p ρ Unit :=
  if opcode = 0x00 then throw .stop
  else if opcode = 0x50 then pop
  else if opcode = 0x56 then jump
  else if opcode = 0x57 then jumpi
  else if opcode = 0x58 then pc
  else if opcode = JUMPDEST then jumpdest
  else if opcode = 0x5f then push0
  else if PUSH1 ≤ opcode ∧ opcode ≤ PUSH32 then push (opcode - PUSH1 + 1).toNat
  else if 0x80 ≤ opcode ∧ opcode ≤ 0x8f then dup (opcode - 0x80 + 1).toNat
  else if 0x90 ≤ opcode ∧ opcode ≤ 0x9f then swap (opcode - 0x90 + 1).toNat
  else if isHostOpcode opcode then onHost host opcode
  else throw (.evmError (.invalidOpcode opcode))

/-- `get_bytecode_unchecked`: the code ends with `STOP`. -/
def Interpreter.opcode (s : Interpreter p ρ) : UInt8 := s.bytecode.bytes.getD s.instructionPointer.toNat 0x00

def step (host : Host p ρ) : InstructionM p ρ Unit := do
  let s ← get
  modify fun s => { s with instructionPointer := s.instructionPointer + 1 }
  spendGasAndNative 0 20
  execute host s.opcode

/-! ## Runs -/

/-- The loop of `run` is entered with a new frame: initcode, or code of a version without artifacts, is preprocessed;
deployed code comes with its artifacts; the marker of a delegation has none. -/
inductive Started : Interpreter p ρ → Prop where
  | preprocessed (code : Slice p) (data : FrameData ρ) : Started ⟨0, code, .createArtifacts p code.bytes, data⟩
  | deployed (code : Slice p) (d : BytecodePreprocessingData p) (data : FrameData ρ)
      (h : BytecodePreprocessingData.parseBytecode p (paddedBytecode code.bytes (artifacts code.bytes))
        code.bytes.length (artifacts code.bytes).length = some (code.bytes, d)) : Started ⟨0, code, d, data⟩
  | delegation (delegate : B160) (code : Slice p) (d : BytecodePreprocessingData p) (data : FrameData ρ)
      (h : BytecodePreprocessingData.parseBytecode p (paddedBytecode (delegationCode delegate) []) 23 0 = some (code.bytes, d)) :
      Started ⟨0, code, d, data⟩

/-- From one round of the loop to the next: the instruction succeeded, or it was an external call after which the
frame was continued, with any change of its data. -/
inductive Continues (host : Host p ρ) : Interpreter p ρ → Interpreter p ρ → Prop where
  | next {s s' : Interpreter p ρ} (h : step host s = (.ok (), s')) : Continues host s s'
  | resumed {s s' : Interpreter p ρ} (h : step host s = (.error .externalCall, s')) (data : FrameData ρ) :
      Continues host s { s' with data := data }

end Instructions

/-! ## What one round does to the pointer -/

section Step

variable {p : PointerWidth} {ρ : Type} {host : Host p ρ} {s s' : Interpreter p ρ}

structure SameCode (s s' : Interpreter p ρ) : Prop where
  bytecode : s'.bytecode = s.bytecode
  preprocessing : s'.bytecodePreprocessing = s.bytecodePreprocessing

structure Stays (s s' : Interpreter p ρ) : Prop extends SameCode s s' where
  pointer : s'.instructionPointer = s.instructionPointer

variable {s'' : Interpreter p ρ} {e : ExitCode} {α : Type} {m : InstructionM p ρ α} {f : α → InstructionM p ρ Unit}
    {n : Nat}

theorem SameCode.trans (h : SameCode s s') (h' : SameCode s' s'') : SameCode s s'' :=
  ⟨h'.bytecode.trans h.bytecode, h'.preprocessing.trans h.preprocessing⟩

theorem Stays.refl (s : Interpreter p ρ) : Stays s s := ⟨⟨rfl, rfl⟩, rfl⟩

theorem Stays.trans (h : Stays s s') (h' : Stays s' s'') : Stays s s'' :=
  ⟨h.toSameCode.trans h'.toSameCode, h'.pointer.trans h.pointer⟩

def Ends (e : ExitCode) : Prop := e ≠ .externalCall ∧ e ≠ .undefinedBehaviour

instance (e : ExitCode) : Decidable (Ends e) := inferInstanceAs (Decidable (_ ∧ _))

/-- An instruction that keeps the pointer and does not leave the loop for a call. -/
structure Plain {α : Type} (m : InstructionM p ρ α) : Prop where
  stays : Respects Stays m
  ends : Raises Ends m

namespace Plain

variable {α β : Type}

theorem pure (a : α) : Plain (Pure.pure a : InstructionM p ρ α) := ⟨.refl, nofun⟩

theorem throw {e : ExitCode} (h : Ends e) : Plain (Action.throw e : InstructionM p ρ α) := 
  ⟨.refl, fun _ _ he => by cases he; exact h⟩

theorem get : Plain (Action.get : InstructionM p ρ (Interpreter p ρ)) := ⟨.refl, nofun⟩

theorem bind {m : InstructionM p ρ α} {f : α → InstructionM p ρ β} (hm : Plain m) (hf : ∀ a, Plain (f a)) :
    Plain (m >>= f) :=
  ⟨.bind (fun _ _ _ => Stays.trans) hm.stays fun a => (hf a).stays, .bind hm.ends fun a => (hf a).ends⟩

theorem spendGasAndNative (gas native : Nat) : Plain (spendGasAndNative gas native : InstructionM p ρ Unit) := by
  refine ⟨fun s => ?_, fun s e he => ?_⟩ <;> unfold Evm.spendGasAndNative at * <;> dsimp only at *
  · split
    · exact .refl s
    · split <;> exact ⟨⟨rfl, rfl⟩, rfl⟩
  · split at he
    · cases he
      decide
    · split at he <;> cases he <;> decide

theorem onStack {f : EvmStack → Except ExitCode (α × EvmStack)} (hf : ∀ stack e, f stack = .error e → Ends e) :
    Plain (onStack f : InstructionM p ρ α) := by
  refine ⟨fun s => ?_, fun s e he => ?_⟩ <;> unfold Evm.onStack at * <;> dsimp only at *
  · split <;> exact ⟨⟨rfl, rfl⟩, rfl⟩
  · split at he
    · cases he
    · rename_i e' heq
      cases he
      exact hf _ e heq

theorem onStack_ {f : EvmStack → Except ExitCode EvmStack} (hf : ∀ stack e, f stack = .error e → Ends e) :
    Plain (onStack_ f : InstructionM p ρ Unit) := by
  refine onStack fun stack e he => ?_
  rcases h : f stack with e' | stack' <;> rw [h] at he <;> cases he
  exact hf stack e h

end Plain

theorem pop1_ends (stack : EvmStack) (e : ExitCode) (h : stack.pop1 = .error e) : Ends e := by
  unfold EvmStack.pop1 at h
  split at h <;> cases h
  decide

theorem pop2_ends (stack : EvmStack) (e : ExitCode) (h : stack.pop2 = .error e) : Ends e := by
  unfold EvmStack.pop2 at h
  split at h <;> cases h
  decide

theorem push_ends (v : U256) (stack : EvmStack) (e : ExitCode) (h : stack.push v = .error e) : Ends e := by
  unfold EvmStack.push at h
  split at h <;> cases h
  decide

theorem dup_ends (n : Nat) (stack : EvmStack) (e : ExitCode) (h : stack.dup n = .error e) : Ends e := by
  unfold EvmStack.dup at h
  split at h
  · cases h
    decide
  · split at h
    · exact push_ends _ stack e h
    · cases h
      decide

theorem swap_ends (n : Nat) (stack : EvmStack) (e : ExitCode) (h : stack.swap n = .error e) : Ends e := by
  unfold EvmStack.swap at h
  split at h <;> cases h
  decide

theorem castToUsize_plain (v : U256) (he : Ends e) :
    Plain (castToUsize v e : InstructionM p ρ (Usize p)) := by
  unfold castToUsize
  split
  · exact .pure _
  · exact .throw he

/-- The frame goes on after the instruction, at once or after an external call. -/
def GoesOn (r : Except ExitCode Unit) : Prop := r = .ok () ∨ r = .error .externalCall

theorem not_goesOn_of_ends (h : Ends e) : ¬GoesOn (.error e) := by
  rintro (h' | h') <;> cases h'
  exact h.1 rfl

/-- What an instruction with `n` bytes of immediate data may do to the code and the pointer. -/
structure Moves (n : Nat) (m : InstructionM p ρ Unit) : Prop where
  sameCode : ∀ s, SameCode s (m s).2
  pointer : ∀ s, GoesOn (m s).1 → (m s).2.instructionPointer = s.instructionPointer + BitVec.ofNat _ n

/-- An instruction that, if it succeeds, has jumped to a valid destination. -/
structure Jumps (m : InstructionM p ρ Unit) : Prop where
  sameCode : ∀ s, SameCode s (m s).2
  ends : ∀ s e, (m s).1 = .error e → e ≠ .undefinedBehaviour → Ends e
  valid : ∀ s, (m s).1 = .ok () →
    s.bytecodePreprocessing.isValidJumpdest (m s).2.instructionPointer.toNat = some true
  defined : ∀ s, (m s).1 = .error .undefinedBehaviour → ∃ off, s.bytecodePreprocessing.isValidJumpdest off = none

theorem Plain.moves {m : InstructionM p ρ Unit} (h : Plain m) : Moves 0 m :=
  ⟨fun s => (h.stays s).toSameCode, fun s _ => by rw [(h.stays s).pointer]; exact (BitVec.add_zero _).symm⟩

theorem Plain.bind_cases (hm : Plain m) (f : α → InstructionM p ρ Unit) (s : Interpreter p ρ) :
    (∃ e t, (m >>= f) s = (.error e, t) ∧ Stays s t ∧ Ends e) ∨
      ∃ a t, m s = (.ok a, t) ∧ (m >>= f) s = f a t ∧ Stays s t := by
  have hs := hm.stays s
  rcases h : m s with ⟨e | a, t⟩ <;> rw [h] at hs
  · exact .inl ⟨e, t, bind_of_error h, hs, hm.ends s e (by rw [h])⟩
  · exact .inr ⟨a, t, rfl, bind_of_ok h, hs⟩

theorem Jumps.after (hm : Plain m) (hf : ∀ a, Jumps (f a)) : Jumps (m >>= f) := by
  refine ⟨fun s => ?_, fun s e he hne => ?_, fun s hok => ?_, fun s hu => ?_⟩ <;>
    rcases hm.bind_cases f s with ⟨e', t, hrun, hs, hends⟩ | ⟨a, t, -, hrun, hs⟩
  · rw [hrun]
    exact hs.toSameCode
  · rw [hrun]
    exact hs.toSameCode.trans ((hf a).sameCode t)
  · rw [hrun] at he
    cases he
    exact hends
  · rw [hrun] at he
    exact (hf a).ends t e he hne
  · rw [hrun] at hok
    cases hok
  · rw [hrun] at hok ⊢
    rw [← hs.preprocessing]
    exact (hf a).valid t hok
  · rw [hrun] at hu
    cases hu
    exact absurd rfl hends.2
  · rw [hrun] at hu
    rw [← hs.preprocessing]
    exact (hf a).defined t hu

theorem jumpTo_jumps (dest : U256) : Jumps (jumpTo dest : InstructionM p ρ Unit) := by
  refine .after (castToUsize_plain dest (by decide)) fun off => ⟨fun s => ?_, fun s e he hne => ?_, fun s hok => ?_,
    fun s hu => ?_⟩ <;> unfold jumpToOffset at *
  · split <;> exact ⟨rfl, rfl⟩
  · split at he <;> cases he
    · decide
    · exact absurd rfl hne
  · rcases h : s.bytecodePreprocessing.isValidJumpdest off.toNat with _ | _ | _ <;> rw [h] at hok <;> cases hok
    exact h
  · rcases h : s.bytecodePreprocessing.isValidJumpdest off.toNat with _ | _ | _ <;> rw [h] at hu <;> cases hu
    exact ⟨_, h⟩

theorem jump_jumps : Jumps (jump : InstructionM p ρ Unit) :=
  .after (.spendGasAndNative _ _) fun _ => .after (.onStack pop1_ends) fun dest => jumpTo_jumps dest

def condition (s : Interpreter p ρ) : Bool := s.data.stack.words[1]?.any (· ≠ 0)

theorem spendGasAndNative_stack (gas native : Nat) (s : Interpreter p ρ) :
    (spendGasAndNative gas native s).2.data.stack = s.data.stack := by
  unfold spendGasAndNative
  dsimp only
  split
  · rfl
  · split <;> rfl

theorem onStack_pop2_ok {t t' : Interpreter p ρ} {x : U256 × U256}
    (h : (onStack EvmStack.pop2 : InstructionM p ρ (U256 × U256)) t = (.ok x, t')) : t.data.stack.words[1]? = some x.2 := by
  unfold onStack at h
  rcases hs : t.data.stack.pop2 with e | ⟨y, stack⟩ <;> rw [hs] at h <;> cases h
  unfold EvmStack.pop2 at hs
  split at hs
  · rename_i v₀ v₁ words hle heq
    cases hs
    rw [heq]
    rfl
  · cases hs

theorem jumpi_cases (s : Interpreter p ρ) :
    (∃ e t, jumpi s = (.error e, t) ∧ Stays s t ∧ Ends e) ∨
    (∃ dest t, jumpi s = jumpTo dest t ∧ Stays s t ∧ condition s = true) ∨
    (∃ t, jumpi s = (.ok (), t) ∧ Stays s t ∧ condition s = false) := by
  rcases (Plain.spendGasAndNative 10 300).bind_cases _ s with ⟨e, t, hspend, ht, hends⟩ | ⟨_, t, h₁, hspend, ht⟩
  · exact .inl ⟨e, t, hspend, ht, hends⟩
  have hstack : t.data.stack = s.data.stack := by
    have := spendGasAndNative_stack 10 300 s
    rwa [h₁] at this
  rcases (Plain.onStack pop2_ends).bind_cases _ t with ⟨e, t', hpop, ht', hends⟩ | ⟨x, t', h₂, hpop, ht'⟩
  · exact .inl ⟨e, t', hspend.trans hpop, ht.trans ht', hends⟩
  have hcondition : condition s = decide (x.2 ≠ 0) := by
    unfold condition
    rw [← hstack, onStack_pop2_ok h₂, Option.any_some]
  have hrun : jumpi s = (if x.2 ≠ 0 then jumpTo x.1 else pure ()) t' := hspend.trans hpop
  by_cases hx : x.2 ≠ 0
  · rw [if_pos hx] at hrun
    exact .inr (.inl ⟨x.1, t', hrun, ht.trans ht', by rw [hcondition, decide_eq_true hx]⟩)
  · rw [if_neg hx] at hrun
    exact .inr (.inr ⟨t', hrun, ht.trans ht', by rw [hcondition, decide_eq_false hx]⟩)

theorem Moves.after (hm : Plain m) (hf : ∀ a, Moves n (f a)) : Moves n (m >>= f) := by
  refine ⟨fun s => ?_, fun s hgoes => ?_⟩ <;>
    rcases hm.bind_cases f s with ⟨e, t, hrun, hs, hends⟩ | ⟨a, t, -, hrun, hs⟩
  · rw [hrun]
    exact hs.toSameCode
  · rw [hrun]
    exact hs.toSameCode.trans ((hf a).sameCode t)
  · rw [hrun] at hgoes
    exact absurd hgoes (not_goesOn_of_ends hends)
  · rw [hrun] at hgoes ⊢
    rw [← hs.pointer]
    exact (hf a).pointer t hgoes

theorem push_moves (n : Nat) : Moves n (push n : InstructionM p ρ Unit) := by
  refine .after (.spendGasAndNative _ _) fun _ => ?_
  have hpush : ∀ v, Plain (onStack_ (EvmStack.push v) : InstructionM p ρ Unit) := fun v => .onStack_ (push_ends v)
  refine ⟨fun s => ?_, fun s hgoes => ?_⟩
  · have h := ((hpush (immediate s.bytecode.bytes s.instructionPointer.toNat n)).stays
      { s with instructionPointer := s.instructionPointer + BitVec.ofNat _ n }).toSameCode
    exact ⟨h.bytecode, h.preprocessing⟩
  · exact ((hpush (immediate s.bytecode.bytes s.instructionPointer.toNat n)).stays
      { s with instructionPointer := s.instructionPointer + BitVec.ofNat _ n }).pointer

theorem onHost_moves (op : UInt8) : Moves 0 (onHost host op) :=
  ⟨fun _ => ⟨rfl, rfl⟩, fun _ _ => (BitVec.add_zero _).symm⟩

def isJump (op : UInt8) : Bool := op = 0x56 || op = 0x57

theorem execute_moves (host : Host p ρ) {op : UInt8} (h : isJump op = false) : Moves (pushBytes op) (execute host op) := by
  have hjump : op ≠ 0x56 ∧ op ≠ 0x57 := by
    simpa [isJump] using h
  by_cases hpush : PUSH1 ≤ op ∧ op ≤ PUSH32
  · have hbytes : pushBytes op = (op - PUSH1 + 1).toNat := if_pos hpush
    have hexec : execute host op = push (op - PUSH1 + 1).toNat := by
      have h96 : 96 ≤ op.toNat := UInt8.le_iff_toNat_le.mp hpush.1
      have hne : ∀ c : UInt8, c.toNat < 96 → op ≠ c := fun c hc heq => by
        rw [heq] at h96
        omega
      unfold execute
      rw [if_neg (hne _ (by decide)), if_neg (hne _ (by decide)), if_neg (hne _ (by decide)), if_neg (hne _ (by decide)),
        if_neg (hne _ (by decide)), if_neg (hne _ (by decide)), if_neg (hne _ (by decide)), if_pos hpush]
    rw [hbytes, hexec]
    exact push_moves _
  · have hbytes : pushBytes op = 0 := if_neg hpush
    have hpushWord : ∀ v, Plain (onStack_ (EvmStack.push v) : InstructionM p ρ Unit) := fun v => .onStack_ (push_ends v)
    rw [hbytes]
    unfold execute
    rw [if_neg hjump.1, if_neg hjump.2, if_neg hpush]
    repeat' split
    · exact (Plain.throw (by decide)).moves
    · exact (Plain.bind (.spendGasAndNative _ _) fun _ => .bind (.onStack pop1_ends) fun _ => .pure _).moves
    · exact (Plain.bind (.spendGasAndNative _ _) fun _ => .bind .get fun _ => hpushWord _).moves
    · exact (Plain.spendGasAndNative _ _).moves
    · exact (Plain.bind (.spendGasAndNative _ _) fun _ => hpushWord _).moves
    · exact (Plain.bind (.spendGasAndNative _ _) fun _ => .onStack_ (dup_ends _)).moves
    · exact (Plain.bind (.spendGasAndNative _ _) fun _ => .onStack_ (swap_ends _)).moves
    · exact onHost_moves op
    · exact (Plain.throw (by simp [Ends])).moves

theorem step_cases (host : Host p ρ) (s : Interpreter p ρ) :
    (∃ e t, step host s = (.error e, t) ∧ SameCode s t ∧ Ends e) ∨
    ∃ t, step host s = execute host s.opcode t ∧ SameCode s t ∧
      t.instructionPointer = s.instructionPointer + 1 ∧ t.data.stack = s.data.stack := by
  let s₁ : Interpreter p ρ := { s with instructionPointer := s.instructionPointer + 1 }
  have hstack := spendGasAndNative_stack 0 20 s₁
  rcases (Plain.spendGasAndNative 0 20).bind_cases (fun _ => execute host s.opcode) s₁ with
    ⟨e, t, hrun, hstays, hends⟩ | ⟨_, t, h, hrun, hstays⟩
  · exact .inl ⟨e, t, hrun, ⟨hstays.bytecode, hstays.preprocessing⟩, hends⟩
  · rw [h] at hstack
    exact .inr ⟨t, hrun, ⟨hstays.bytecode, hstays.preprocessing⟩, hstays.pointer, hstack⟩

/-- A round jumps: a `JUMP`, or a `JUMPI` whose condition holds. -/
def takesJump (s : Interpreter p ρ) : Bool := s.opcode = 0x56 || (s.opcode = 0x57 && condition s)

theorem step_run (host : Host p ρ) (s : Interpreter p ρ) : SameCode s (step host s).2 ∧
    (GoesOn (step host s).1 →
      if takesJump s then
        s.bytecodePreprocessing.isValidJumpdest (step host s).2.instructionPointer.toNat = some true
      else (step host s).2.instructionPointer =
        s.instructionPointer + 1 + BitVec.ofNat _ (pushBytes s.opcode)) ∧
    (isJump s.opcode = true → (step host s).1 = .error .undefinedBehaviour →
      ∃ off, s.bytecodePreprocessing.isValidJumpdest off = none) := by
  rcases step_cases host s with ⟨e, t, hrun, hcode, hends⟩ | ⟨t, hrun, hcode, hpointer, hstack⟩
  · rw [hrun]
    refine ⟨hcode, fun h => absurd h (not_goesOn_of_ends hends), fun _ h => ?_⟩
    cases h
    exact absurd rfl hends.2
  rw [hrun]
  have hcondition : condition t = condition s := by
    unfold condition
    rw [hstack]
  have hjumpTo : ∀ (m : InstructionM p ρ Unit) (t' : Interpreter p ρ), Jumps m → SameCode t t' →
      SameCode s (m t').2 ∧
      (GoesOn (m t').1 → s.bytecodePreprocessing.isValidJumpdest (m t').2.instructionPointer.toNat = some true) ∧
      ((m t').1 = .error .undefinedBehaviour → ∃ off, s.bytecodePreprocessing.isValidJumpdest off = none) := by
    intro m t' hm ht'
    have hs := hcode.trans ht'
    refine ⟨hs.trans (hm.sameCode t'), fun h => ?_, fun h => ?_⟩
    · rcases h with h | h
      · rw [← hs.preprocessing]
        exact hm.valid t' h
      · exact absurd rfl (hm.ends t' _ h (by decide)).1
    · rw [← hs.preprocessing]
      exact hm.defined t' h
  by_cases h56 : s.opcode = 0x56
  · have htakes : takesJump s = true := by simp [takesJump, h56]
    have hexec : execute host s.opcode = jump := by
      rw [h56]
      rfl
    obtain ⟨h₁, h₂, h₃⟩ := hjumpTo jump t jump_jumps ⟨rfl, rfl⟩
    rw [hexec, htakes]
    exact ⟨h₁, h₂, fun _ => h₃⟩
  by_cases h57 : s.opcode = 0x57
  · have htakes : takesJump s = condition s := by simp [takesJump, h57]
    have hexec : execute host s.opcode = jumpi := by
      rw [h57]
      rfl
    rw [hexec, htakes]
    rcases jumpi_cases t with ⟨e, t', hrun', hstays, hends⟩ | ⟨dest, t', hrun', hstays, hc⟩ | ⟨t', hrun', hstays, hc⟩
    · rw [hrun']
      refine ⟨hcode.trans hstays.toSameCode, fun h => absurd h (not_goesOn_of_ends hends), fun _ h => ?_⟩
      cases h
      exact absurd rfl hends.2
    · obtain ⟨h₁, h₂, h₃⟩ := hjumpTo (jumpTo dest) t' (jumpTo_jumps dest) hstays.toSameCode
      rw [hrun', ← hcondition, hc]
      exact ⟨h₁, h₂, fun _ => h₃⟩
    · rw [hrun', ← hcondition, hc]
      refine ⟨hcode.trans hstays.toSameCode, fun _ => ?_, fun _ h => ?_⟩
      · rw [if_neg Bool.false_ne_true, hstays.pointer, hpointer, h57]
        exact (BitVec.add_zero _).symm
      · cases h
  · have hjump : isJump s.opcode = false := by simp [isJump, h56, h57]
    have htakes : takesJump s = false := by simp [takesJump, h56, h57]
    have hmoves := execute_moves host hjump
    rw [htakes]
    refine ⟨hcode.trans (hmoves.sameCode t), fun h => ?_, fun h => ?_⟩
    · rw [if_neg Bool.false_ne_true, hmoves.pointer t h, hpointer]
    · rw [hjump] at h
      cases h

/-! ## Whole runs -/

/-- The pointer is at or behind the end of the code, or at an instruction of the linear disassembly. -/
def AtInstruction (s : Interpreter p ρ) : Prop :=
  s.bytecode.bytes.length ≤ s.instructionPointer.toNat ∨ Boundary s.bytecode.bytes s.instructionPointer.toNat

/-- A byte of immediate data of a push. -/
def InPushData (code : List UInt8) (i : Nat) : Prop :=
  ∃ j op, Boundary code j ∧ code[j]? = some op ∧ j < i ∧ i ≤ j + pushBytes op

theorem not_inPushData {code : List UInt8} {i : Nat} (h : Boundary code i) : ¬InPushData code i := by
  rintro ⟨j, op, hj, hop, hlt, hle⟩
  have hunique : Relator.RightUnique (NextInstruction code) := by
    rintro a b c ⟨op, hop, rfl⟩ ⟨op', hop', rfl⟩
    rw [Option.some.inj (hop.symm.trans hop')]
  rcases Relation.ReflTransGen.total_of_right_unique hunique hj h with hji | hij
  · rcases (disassembles_iff hop).mp hji with rfl | hji
    · exact absurd hlt (Nat.lt_irrefl _)
    · have := le_of_disassembles hji
      omega
  · have := le_of_disassembles hij
    omega

theorem opcode_of_lt (h : s.instructionPointer.toNat < s.bytecode.bytes.length) :
    s.bytecode.bytes[s.instructionPointer.toNat]? = some s.opcode := by
  unfold Interpreter.opcode
  rw [List.getD_eq_getElem?_getD, List.getElem?_eq_getElem h, Option.getD_some]

theorem lt_of_goesOn (h : GoesOn (step host s).1) : s.instructionPointer.toNat < s.bytecode.bytes.length := by
  by_contra hlt
  have hopcode : s.opcode = 0x00 := by
    unfold Interpreter.opcode
    rw [List.getD_eq_getElem?_getD, List.getElem?_eq_none (Nat.le_of_not_lt hlt), Option.getD_none]
  rcases step_cases host s with ⟨e, t, hrun, -, hends⟩ | ⟨t, hrun, -⟩
  · rw [hrun] at h
    exact not_goesOn_of_ends hends h
  · rw [hrun, hopcode] at h
    exact not_goesOn_of_ends (e := .stop) (by decide) h

/-- The pointer does not overflow: no slice fills half of the address space. -/
theorem toNat_pointer_add (h : s.instructionPointer.toNat < s.bytecode.bytes.length) (hn : n ≤ 32) :
    (s.instructionPointer + 1 + BitVec.ofNat p.bits n).toNat = s.instructionPointer.toNat + (1 + n) := by
  have hlt := s.bytecode.length_lt
  have hone : (1 : Usize p).toNat = 1 := by cases p <;> rfl
  have hbits : 2 ^ (p.bits - 1) + 33 < 2 ^ p.bits := by cases p <;> decide
  rw [BitVec.toNat_add, BitVec.toNat_add, BitVec.toNat_ofNat, hone, Nat.mod_eq_of_lt (a := n) (by omega),
    Nat.mod_eq_of_lt (a := s.instructionPointer.toNat + 1) (by omega), Nat.mod_eq_of_lt (by omega), Nat.add_assoc]

structure Inv (s : Interpreter p ρ) : Prop where
  sound : s.bytecodePreprocessing.Sound s.bytecode.bytes
  atInstruction : AtInstruction s

theorem Inv.realJumpdest (h : Inv s) (hgoes : GoesOn (step host s).1) (htakes : takesJump s = true) :
    RealJumpdest s.bytecode.bytes (step host s).2.instructionPointer.toNat := by
  have hvalid := (step_run host s).2.1 hgoes
  rw [if_pos htakes] at hvalid
  obtain ⟨valid, hv, hiff⟩ := h.sound (step host s).2.instructionPointer.toNat
  exact hiff.mp (Option.some.inj (hv.symm.trans hvalid))

theorem Inv.step (h : Inv s) (hgoes : GoesOn (step host s).1) : Inv (step host s).2 := by
  obtain ⟨hcode, hpointer, -⟩ := step_run host s
  refine ⟨by rw [hcode.preprocessing, hcode.bytecode]; exact h.sound, ?_⟩
  unfold AtInstruction
  rw [hcode.bytecode]
  by_cases htakes : takesJump s = true
  · exact .inr (h.realJumpdest hgoes htakes).1
  · have hlt := lt_of_goesOn hgoes
    have hboundary := h.atInstruction.resolve_left (Nat.not_le.mpr hlt)
    have hnext := hpointer hgoes
    rw [if_neg htakes] at hnext
    rw [hnext, toNat_pointer_add hlt (pushBytes_le _)]
    exact .inr (hboundary.tail ⟨s.opcode, opcode_of_lt hlt, rfl⟩)

theorem Inv.continues (h : Inv s) (hc : Continues host s s') : Inv s' ∧ s'.bytecode = s.bytecode := by
  have hcode := (step_run host s).1
  cases hc with
  | next hstep =>
    have hgoes : GoesOn (Evm.step host s).1 := .inl (by rw [hstep])
    have hinv := h.step hgoes
    rw [hstep] at hinv hcode
    exact ⟨hinv, hcode.bytecode⟩
  | resumed hstep data =>
    have hgoes : GoesOn (Evm.step host s).1 := .inr (by rw [hstep])
    have hinv := h.step hgoes
    rw [hstep] at hinv hcode
    exact ⟨⟨hinv.sound, hinv.atInstruction⟩, hcode.bytecode⟩

theorem opcode_delegation {delegate : B160} {code : Slice p} {d : BytecodePreprocessingData p} (data : FrameData ρ)
    (h : BytecodePreprocessingData.parseBytecode p (paddedBytecode (delegationCode delegate) []) 23 0 =
      some (code.bytes, d)) : (⟨0, code, d, data⟩ : Interpreter p ρ).opcode = 0xef := by
  unfold BytecodePreprocessingData.parseBytecode at h
  simp only [Option.bind_eq_bind, Option.bind_eq_some_iff, Option.some.injEq, Prod.mk.injEq] at h
  obtain ⟨-, -, -, -, -, -, hcode, -⟩ := h
  unfold Interpreter.opcode
  rw [← hcode]
  rfl

theorem not_continues_delegation (h : s.opcode = 0xef) : ¬Continues host s s' := by
  have hends : ¬GoesOn (step host s).1 := by
    rcases step_cases host s with ⟨e, t, hrun, -, hends⟩ | ⟨t, hrun, -⟩
    · rw [hrun]
      exact not_goesOn_of_ends hends
    · rw [hrun, h]
      exact not_goesOn_of_ends (e := .evmError (.invalidOpcode 0xef)) (by decide)
  intro hc
  cases hc with
  | next hstep => exact hends (.inl (by rw [hstep]))
  | resumed hstep data => exact hends (.inr (by rw [hstep]))

structure Round (host : Host p ρ) (s : Interpreter p ρ) : Prop where
  atInstruction : AtInstruction s
  notInPushData : s.instructionPointer.toNat < s.bytecode.bytes.length →
    ¬InPushData s.bytecode.bytes s.instructionPointer.toNat
  realJumpdest : ∀ s', step host s = (.ok (), s') → takesJump s = true →
    RealJumpdest s.bytecode.bytes s'.instructionPointer.toNat
  /-- The test of a destination stays within the bitmap. -/
  defined : isJump s.opcode = true → (step host s).1 ≠ .error .undefinedBehaviour

theorem AtInstruction.notInPushData (h : AtInstruction s) (hlt : s.instructionPointer.toNat < s.bytecode.bytes.length) :
    ¬InPushData s.bytecode.bytes s.instructionPointer.toNat :=
  not_inPushData (h.resolve_left (Nat.not_le.mpr hlt))

theorem Inv.round (h : Inv s) : Round host s where
  atInstruction := h.atInstruction
  notInPushData := h.atInstruction.notInPushData
  realJumpdest s' hstep htakes := by
    have hgoes : GoesOn (Evm.step host s).1 := .inl (by rw [hstep])
    have hjump := h.realJumpdest hgoes htakes
    rwa [hstep] at hjump
  defined hjump hu := by
    obtain ⟨off, hoff⟩ := (step_run host s).2.2 hjump hu
    obtain ⟨valid, hv, -⟩ := h.sound off
    rw [hv] at hoff
    cases hoff

theorem Inv.run {s₀ : Interpreter p ρ} (h : Inv s₀) (hrun : Relation.ReflTransGen (Continues host) s₀ s) :
    Inv s ∧ s.bytecode = s₀.bytecode := by
  induction hrun with
  | refl => exact ⟨h, rfl⟩
  | tail _ hc ih =>
    obtain ⟨hinv, hcode⟩ := ih.1.continues hc
    exact ⟨hinv, hcode.trans ih.2⟩

/-- In every round of the loop the pointer is at or behind the end of the code or at an instruction of its linear
disassembly, never in the data of a push, and a jump that is taken goes to a `JUMPDEST`. -/
theorem instruction_pointer_at_boundary {s₀ : Interpreter p ρ} (hstart : Started s₀)
    (hrun : Relation.ReflTransGen (Continues host) s₀ s) : s.bytecode = s₀.bytecode ∧ Round host s := by
  have hstart₀ : ∀ (code : Slice p) (d : BytecodePreprocessingData p) (data : FrameData ρ),
      AtInstruction (⟨0, code, d, data⟩ : Interpreter p ρ) := fun code d data => .inr (by
    show Boundary code.bytes (0 : Usize p).toNat
    rw [show (0 : Usize p).toNat = 0 by cases p <;> rfl]
    exact Relation.ReflTransGen.refl)
  cases hstart with
  | preprocessed code data =>
    obtain ⟨hinv, hcode⟩ :=
      Inv.run ⟨BytecodePreprocessingData.createArtifacts_sound p code.bytes, hstart₀ _ _ _⟩ hrun
    exact ⟨hcode, hinv.round⟩
  | deployed code d data h =>
    obtain ⟨d', hd', hsound⟩ := BytecodePreprocessingData.parseBytecode_deployed p code.bytes
    rw [h] at hd'
    cases hd'
    obtain ⟨hinv, hcode⟩ := Inv.run ⟨hsound, hstart₀ _ _ _⟩ hrun
    exact ⟨hcode, hinv.round⟩
  | delegation delegate code d data h =>
    have hopcode := opcode_delegation data h
    -- the first instruction is invalid, so there is only one round
    rcases Relation.ReflTransGen.cases_head_iff.mp hrun with rfl | ⟨s₁, hc, -⟩
    · refine ⟨rfl, hstart₀ _ _ _, (hstart₀ _ _ _).notInPushData, fun s' _ htakes => ?_, fun hjump => ?_⟩
      · rw [takesJump, hopcode] at htakes
        cases htakes
      · rw [hopcode] at hjump
        cases hjump
    · exact absurd hc (not_continues_delegation hopcode)

end Step

/-- `PUSH1 3`, `JUMP`, `JUMPDEST`. -/
def jumpCode : Slice .w32 := ⟨[0x60, 0x03, 0x56, 0x5b], by decide⟩

def noHost : Host .w32 Unit := fun _ s => (.error .fatalError, s.data)

def jumpStart : Interpreter .w32 Unit :=
  ⟨0, jumpCode, .createArtifacts .w32 jumpCode.bytes, ⟨⟨1000000, 1000000⟩, .new, ()⟩⟩

theorem instruction_pointer_at_boundary_jumpCode :
    Relation.ReflTransGen (Continues noHost) jumpStart (step noHost jumpStart).2 ∧
    RealJumpdest jumpCode.bytes (step noHost (step noHost jumpStart).2).2.instructionPointer.toNat := by
  have hfirst : Continues noHost jumpStart (step noHost jumpStart).2 :=
    .next (Prod.ext (by decide +kernel) rfl)
  have hround := (instruction_pointer_at_boundary (.preprocessed jumpCode _) (.single hfirst)).2
  refine ⟨.single hfirst, ?_⟩
  exact hround.realJumpdest _ (Prod.ext (by decide +kernel) rfl) (by decide +kernel)

end ZkOs.Evm
