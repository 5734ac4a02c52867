import ZkOs.Exec.SysM

/-!
# The EVM execution environment as the runner sees it

The opcodes themselves are a parameter: a frame is any program `EeProg` over the operations that the
interpreter has (`EeOp`), its charges and its external calls. Everything that decides *with which
arguments* the system is asked is kept: the frame's own address, the masked addresses, the call
modifiers, the checks for static frames and the constructor flag.

* `ExternalCallRequest`, `CallResult` : requests to the system and their results;
* `FrameContext`, `EeProg` : a running frame;
* `EeOp.perform`, `EeCall.request` : what the opcodes of `host.rs` ask from the system;
* `beforeExecutingFrame`, `calculateResourcesPassed`, `startExecutingFrame`, `endFrame` : the
  operations of the environment around the opcodes.
-/

namespace ZkOs

open SysM

/-- `ExternalCallRequest`; the available resources are those of the program that makes it. -/
structure ExternalCallRequest where
  ergsToPass : U64
  callersCaller : B160
  caller : B160
  callee : B160
  modifier : CallModifier
  input : List UInt8
  nominalTokenValue : U256

namespace ExternalCallRequest

def isDelegate (q : ExternalCallRequest) : Bool := q.modifier = .delegate ∨ q.modifier = .delegateStatic

def isCallcode (q : ExternalCallRequest) : Bool := q.modifier = .evmCallcode ∨ q.modifier = .evmCallcodeStatic

def isTransferAllowed (q : ExternalCallRequest) : Bool :=
  q.modifier = .noModifier ∨ q.modifier = .constructor ∨ q.isCallcode

end ExternalCallRequest

inductive CallResult where
  | preparationStepFailed
  | failed (returndata : List UInt8)
  | successful (returndata : List UInt8)
  deriving DecidableEq

def CallResult.isFailed : CallResult → Bool
  | successful _ => false
  | _ => true

/-- A frame is undone if its call failed. An error that leaves a frame leaves it open; an outer frame
undoes it. -/
def callFailed (r : Except Err CallResult) : Bool := r.toOption.any CallResult.isFailed

structure CalleeAccountProperties where
  eeType : BitVec 8
  bytecode : List UInt8
  codeVersion : BitVec 8
  unpaddedCodeLen : BitVec 32
  artifactsLen : BitVec 32
  nonce : U64
  nominalTokenBalance : U256

/-- The fields of the interpreter that are fixed when a frame starts. -/
structure FrameContext where
  address : B160
  caller : B160
  isStatic : Bool
  isConstructor : Bool
  callValue : U256
  calldata : List UInt8
  bytecode : List UInt8

/-! ## Frames -/

inductive CallScheme where
  | call
  | callCode
  | delegateCall
  | staticCall
  deriving DecidableEq

/-- An external call of a frame, as its opcode reads it from the stack. -/
inductive EeCall where
  | call (scheme : CallScheme) (gasToPass : U64) (destination value : U256) (input : List UInt8)
  | create (address : BitVec 160) (value : U256) (input : List UInt8)

/-- The operations that opcodes perform. Addresses are words from the stack. -/
inductive EeOp where
  | sload (key : Bytes32)
  | sstore (key value : Bytes32)
  | tload (key : Bytes32)
  | tstore (key value : Bytes32)
  | log (topics : List Bytes32) (data : List UInt8)
  | account (address : U256) (withBytecode : Bool)
  | selfBalance
  | readNonce
  | selfDestruct (beneficiary : U256)

inductive EeResp where
  | unit
  | word (w : U256)
  | account (p : AccountProperties) (bytecode : List UInt8)

inductive ExitCode where
  /-- `STOP`, `RETURN` or `SELFDESTRUCT` -/
  | success (returndata : List UInt8)
  | revert (returndata : List UInt8)
  /-- Any other `EvmError` -/
  | error
  /-- The return data does not fit in the return memory, a fatal runtime error. -/
  | outOfReturnMemory

/-- The opcodes of one frame. After each step the program sees what is left of its resources. -/
inductive EeProg where
  | charge (c : Resources) (k : Resources → EeProg)
  | op (o : EeOp) (k : EeResp → Resources → EeProg)
  | call (q : EeCall) (k : CallResult → Resources → EeProg)
  | exit (e : ExitCode)

/-- The parts of the system that are not modelled: the opcodes of a frame, and cost and result of a
precompile (no result for invalid input). -/
structure Machine where
  interpreter : FrameContext → EeProg
  precompile : Nat → List UInt8 → Resources × Option (List UInt8)

/-! ## Opcodes that reach the system -/

namespace EeOp

def changesState : EeOp → Bool
  | sstore .. | tstore .. | log .. | selfDestruct .. => true
  | _ => false

/-- What the opcode asks from the system; a state change in a static frame is refused. -/
def perform (ctx : FrameContext) : EeOp → SysM Err EeResp
  | sload k => do pure (.word (← SysM.perform (.storageRead .evm ctx.address k)))
  | sstore k v => do
    SysM.perform (.storageWrite .evm ctx.address k v)
    pure .unit
  | tload k => do pure (.word (← SysM.perform (.transientRead .evm ctx.address k)))
  | tstore k v => do
    SysM.perform (.transientWrite .evm ctx.address k v)
    pure .unit
  | log ts d => do
    SysM.perform (.emitEvent .evm ctx.address ts d)
    pure .unit
  | account a b => do
    let x ← SysM.perform (.readAccount .evm (u256ToB160 a) b false)
    pure (.account x.1 x.2)
  | selfBalance => do pure (.word (← SysM.perform (.selfBalance .evm ctx.address)))
  | readNonce => do
    let x ← infiniteErgs (SysM.perform (.readAccount .evm ctx.address false false))
    pure (.account x.1 x.2)
  | selfDestruct b => do
    pure (.word (← SysM.perform (.markForDeconstruction .evm ctx.address (u256ToB160 b) ctx.isConstructor)))

end EeOp

namespace EeCall

/-- The modifier that `call_impl` chooses. -/
def modifier (isStatic : Bool) : CallScheme → CallModifier
  | .staticCall => .static
  | .call => if isStatic then .static else .noModifier
  | .delegateCall => if isStatic then .delegateStatic else .delegate
  | .callCode => if isStatic then .evmCallcodeStatic else .evmCallcode

/-- The request of a call or create opcode, nothing if it is not allowed in a static frame. -/
def request (ctx : FrameContext) (available : Resources) : EeCall → Option ExternalCallRequest
  | call scheme gasToPass destination value input =>
    if scheme = .call ∧ ctx.isStatic = true ∧ value ≠ 0 then none
    else some
      { ergsToPass := saturate (gasToPass.toNat * ergsPerGas)
        callersCaller := ctx.caller
        caller := ctx.address
        callee := u256ToB160 destination
        modifier := modifier ctx.isStatic scheme
        input := input
        nominalTokenValue := match scheme with
          | .call | .callCode => value
          | .delegateCall => ctx.callValue
          | .staticCall => 0 }
  | create address value input =>
    if ctx.isStatic then none
    else some
      { ergsToPass := available.ergs
        callersCaller := ctx.caller
        caller := ctx.address
        callee := .ofLow20 address
        modifier := .constructor
        input := input
        nominalTokenValue := value }

end EeCall

/-! ## Around the opcodes -/

/-- Checks and effects that are not rolled back if the call fails. -/
def beforeExecutingFrame (q : ExternalCallRequest) (callee : CalleeAccountProperties) (depth : Nat) :
    SysM Err Bool := do
  if 1024 < depth then pure false
  else do
    let enough ←
      (if q.nominalTokenValue ≠ 0 ∧ q.isDelegate = false then do
        let x ← infiniteErgs (perform (.readAccount .evm q.caller false false))
        pure (decide (q.nominalTokenValue ≤ x.1.balance))
      else pure true)
    if enough = false then pure false
    else if q.modifier = .constructor then do
      let incremented ←
        (if 0 < depth then attempt (infiniteErgs (perform (.incrementNonce .evm q.caller 1)))
          else pure (.ok (0 : U64)))
      match incremented with
      | .error .nonceOverflow => pure false
      | .error e => throw e
      | .ok _ =>
        -- a contract is deployed there already: all gas is burned
        if callee.unpaddedCodeLen ≠ 0 ∨ callee.nonce ≠ 0 then do
          modifyResources Resources.exhaustErgs
          pure false
        else pure true
    else pure true

def apply6364Rule (ergs : U64) : U64 :=
  BitVec.ofNat 64 (ergs.toNat - ergs.toNat / ergsPerGas / 64 * ergsPerGas)

/-- `calculate_resources_passed_in_external_call`: charges the caller and returns the callee's ergs. -/
def calculateResourcesPassed (q : ExternalCallRequest) (callee : CalleeAccountProperties) : SysM Err U64 := do
  let isPaid := q.modifier ≠ .constructor ∧ q.isDelegate = false ∧ q.nominalTokenValue ≠ 0
  let calleeIsEmpty := callee.nonce = 0 ∧ callee.unpaddedCodeLen = 0 ∧ callee.nominalTokenBalance = 0
  (if isPaid then pay (.fromErgs (gas 9000)) else pure ())
  (if isPaid ∧ q.isCallcode = false ∧ calleeIsEmpty then pay (.fromErgs (gas 25000)) else pure ())
  let r ← resources
  let ergsToPass := if q.ergsToPass ≤ apply6364Rule r.ergs then q.ergsToPass else apply6364Rule r.ergs
  pay (.fromErgs ergsToPass)
  pure (if isPaid then ergsToPass + gas 2300 else ergsToPass)

/-- The native cost of the analysis of the code. -/
def createArtifacts (code : List UInt8) : SysM Err Unit := pay (.fromNative (saturate (6 * code.length)))

/-- The code that a frame runs: init code, or the decommitted code of the callee. -/
def frameBytecode (q : ExternalCallRequest) (callee : CalleeAccountProperties) : SysM Err (List UInt8) :=
  if q.modifier = .constructor then do
    createArtifacts q.input
    pure q.input
  else if callee.codeVersion = 0 then do
    require (callee.artifactsLen = 0) .defect
    createArtifacts callee.bytecode
    pure callee.bytecode
  else if callee.codeVersion = 1 then do
    require (callee.unpaddedCodeLen.toNat + callee.artifactsLen.toNat ≤ callee.bytecode.length) .defect
    pure (callee.bytecode.take callee.unpaddedCodeLen.toNat)
  else throw .defect

/-- `start_executing_frame` up to the first opcode. -/
def startExecutingFrame (q : ExternalCallRequest) (callee : CalleeAccountProperties) :
    SysM Err FrameContext := do
  let bytecode ← frameBytecode q callee
  -- EIP-161: a contract under construction has nonce 1
  (if q.modifier = .constructor then do
    let r ← attempt (infiniteErgs (perform (.incrementNonce .evm q.callee 1)))
    match r with
    | .ok _ => pure ()
    | .error .fatal => throw .fatal
    | .error _ => throw .defect
  else pure ())
  pure
    { address := if q.isDelegate ∨ q.isCallcode then q.caller else q.callee
      caller := if q.isDelegate then q.callersCaller else q.caller
      isStatic := q.modifier = .static ∨ q.modifier = .delegateStatic ∨ q.modifier = .evmCallcodeStatic
      isConstructor := q.modifier = .constructor
      callValue := q.nominalTokenValue
      calldata := if q.modifier = .constructor then [] else q.input
      bytecode := bytecode }

def maxCodeSize : Nat := 0x6000

/-- A frame that ends with an error loses all its gas. -/
def failFrame : SysM Err CallResult := do
  modifyResources Resources.exhaustErgs
  pure (.failed [])

/-- `create_immediate_return_state`: the end of a frame; a constructor deploys what it returns. -/
def endFrame (ctx : FrameContext) : ExitCode → SysM Err CallResult
  | .outOfReturnMemory => throw .fatal
  | .error => failFrame
  | .revert d => pure (.failed d)
  | .success d =>
    if ctx.isConstructor = false then pure (.successful d)
    else if maxCodeSize < d.length ∨ d.head? = some 0xef then failFrame
    else do
      let r ← attempt (perform (.deployCode .evm ctx.address d))
      match r with
      | .ok _ => pure (.successful [])
      | .error .outOfErgs => failFrame
      | .error e => throw e

end ZkOs
