import ZkOs.Exec.Hooks

/-!
# The runner

`run_till_completion` and the functions it is made of. A call is handled in the order of the source:
the callee is read at the caller's expense, resources are split, checks that survive a failure are
made, and then transfer and callee run in a frame that is undone if the call fails.

The depth of calls is bounded by the check of `beforeExecutingFrame`, so the recursion over nested
calls is given fuel that never runs out (`maxCallDepth`).
-/

namespace ZkOs

open SysM Digits

/-! ## Preparing a call -/

/-- `parse_delegation`: `0xef0100` and an address. -/
def parseDelegation (delegation : List UInt8) : Option B160 :=
  if delegation.length = 23 ∧ delegation.take 3 = [0xef, 0x01, 0x00] then
    some (.ofLow20 (BitVec.ofNat 160 (beNat (delegation.drop 3))))
  else none

def VersioningData.codeVersion (v : U64) : BitVec 8 := (v >>> 40).setWidth 8

/-- Code comes from the delegate of a delegated account, nonce and
balance from the account itself. -/
def readCalleeAccountProperties (callerEe : ExecutionEnvironmentType) (q : ExternalCallRequest) :
    SysM Err CalleeAccountProperties := do
  let account ← perform (.readAccount callerEe q.callee true true)
  let code ←
    (if VersioningData.isDelegated account.1.versioningData = true ∧ q.modifier ≠ .constructor then
      match parseDelegation (account.2.take account.1.unpaddedCodeLen.toNat) with
      | none => throw .defect
      | some delegate => perform (.readAccount callerEe delegate true false)
    else pure account)
  pure
    { eeType := VersioningData.eeVersion code.1.versioningData
      bytecode := code.2
      codeVersion := VersioningData.codeVersion code.1.versioningData
      unpaddedCodeLen := code.1.unpaddedCodeLen
      artifactsLen := code.1.artifactsLen
      nonce := account.1.nonce
      nominalTokenBalance := account.1.balance }

def parseEeVersionByte (b : BitVec 8) : Option ExecutionEnvironmentType :=
  if b = 0 then some .noEE else if b = 1 then some .evm else none

/-- A call that is ready to be executed. The resources of the program are then the callee's; the
caller's part is put aside. -/
structure LaunchParams where
  nextEe : ExecutionEnvironmentType
  callee : CalleeAccountProperties
  inCaller : Resources

/-- The callee's share, which takes all of the native. -/
def splitResources (isEntryFrame : Bool) (q : ExternalCallRequest) (callee : CalleeAccountProperties) :
    SysM Err Resources :=
  if isEntryFrame then pure .empty
  else do
    let ergs ← calculateResourcesPassed q callee
    let r ← resources
    modifyResources fun r => ⟨ergs, r.native⟩
    pure ⟨r.ergs, 0⟩

/-- `read_callee_and_prepare_frame_state`; nothing if the caller ran out of ergs. -/
def readCalleeAndPrepareFrameState (isEntryFrame : Bool) (callerEe : ExecutionEnvironmentType)
    (q : ExternalCallRequest) : SysM Err (Option LaunchParams) := do
  let read := readCalleeAccountProperties callerEe q
  let r ← attempt (if isEntryFrame = true ∨ q.modifier = .constructor then infiniteErgs read else read)
  match r with
  | .error .outOfErgs => pure none
  | .error e => throw e
  | .ok callee => do
    let split ← attempt (splitResources isEntryFrame q callee)
    match split with
    | .error .outOfErgs => pure none
    | .error e => throw e
    | .ok inCaller =>
      match (if q.modifier = .constructor then some callerEe else parseEeVersionByte callee.eeType) with
      | none => throw .defect
      | some nextEe => pure (some ⟨nextEe, callee, inCaller⟩)

/-! ## Executing a call -/

/-- False if an EVM caller cannot pay. -/
def performTransferIfRequired (callerEe : ExecutionEnvironmentType) (q : ExternalCallRequest) :
    SysM Err Bool := do
  if q.nominalTokenValue = 0 ∨ q.isDelegate = true then pure true
  else if q.isTransferAllowed = false then throw .defect
  else do
    let target := if q.isCallcode then q.caller else q.callee
    let r ← attempt (infiniteErgs (perform (.transfer .noEE q.caller target q.nominalTokenValue)))
    match r with
    | .ok _ => pure true
    | .error .fatal => throw .fatal
    | .error .insufficientBalance | .error .balanceOverflow =>
      match callerEe with
      | .noEE => throw .insufficientBalance
      | .evm => pure false
    | .error _ => throw .defect

/-- The opcodes of a frame; `handleCall` answers its external calls. A failed charge or operation
ends the frame, a fatal error or defect ends the execution. -/
def runOpcodes (handleCall : ExternalCallRequest → SysM Err CallResult) (ctx : FrameContext) :
    EeProg → SysM Err ExitCode
  | .exit e => pure e
  | .charge c k => do
    let r ← attempt (pay c)
    match r with
    | .ok _ => do runOpcodes handleCall ctx (k (← resources))
    | .error .outOfErgs => pure .error
    | .error e => throw e
  | .op o k =>
    if ctx.isStatic = true ∧ o.changesState = true then pure .error
    else do
      let r ← attempt (o.perform ctx)
      match r with
      | .ok x => do runOpcodes handleCall ctx (k x (← resources))
      | .error .outOfErgs => pure .error
      | .error e => throw e
  | .call q k => do
    match q.request ctx (← resources) with
    | none => pure .error
    | some request => do
      let result ← handleCall request
      match result with
      -- the caller ran out of gas before the call started
      | .preparationStepFailed => pure .error
      | result => do runOpcodes handleCall ctx (k result (← resources))

/-- `call_execute_callee_frame` and the end of its frame; calls to accounts without code succeed. -/
def calleeFrame (machine : Machine) (handleCall : ExternalCallRequest → SysM Err CallResult)
    (p : LaunchParams) (q : ExternalCallRequest) : SysM Err CallResult :=
  match p.nextEe with
  | .noEE =>
    if q.modifier = .constructor ∨ p.callee.unpaddedCodeLen ≠ 0 then throw .defect
    else pure (.successful [])
  | .evm => do
    let ctx ← startExecutingFrame q p.callee
    let e ← runOpcodes handleCall ctx (machine.interpreter ctx)
    endFrame ctx e

/-- The part of `execute_call` that runs in a frame: transfer, then hook or callee. -/
def frameBody (machine : Machine) (handleCall : ExternalCallRequest → SysM Err CallResult)
    (callerEe : ExecutionEnvironmentType) (p : LaunchParams) (q : ExternalCallRequest) :
    SysM Err CallResult := do
  let transferred ← performTransferIfRequired callerEe q
  if transferred = false then pure (.failed [])
  else match hookFor machine q with
    | some hook => if q.modifier = .constructor then pure (.failed []) else hook
    | none => calleeFrame machine handleCall p q

def executeCall (machine : Machine) (handleCall : ExternalCallRequest → SysM Err CallResult)
    (depth : Nat) (callerEe : ExecutionEnvironmentType) (p : LaunchParams) (q : ExternalCallRequest) :
    SysM Err CallResult := do
  let ok ← beforeExecutingFrame q p.callee depth
  if ok = false then pure (.failed [])
  else
    SysM.frame (.call q.modifier q.caller q.callee) callFailed
      (frameBody machine handleCall callerEe p q)

/-- `handle_requested_external_call`, with fuel for the calls nested in this one. -/
def handleRequestedExternalCall (machine : Machine) :
    Nat → Nat → Bool → ExecutionEnvironmentType → ExternalCallRequest → SysM Err CallResult
  | 0, _, _, _, _ => throw .defect
  | fuel + 1, depth, isEntryFrame, callerEe, q => do
    match ← readCalleeAndPrepareFrameState isEntryFrame callerEe q with
    | none => pure .preparationStepFailed
    | some p => do
      let result ← executeCall machine
        (handleRequestedExternalCall machine fuel (depth + 1) false .evm) depth callerEe p q
      -- unused resources of the callee return to the caller; `reclaim` asserts that native is on one side only
      let returned ← resources
      require (p.inCaller.native = 0 ∨ returned.native = 0) .defect
      modifyResources p.inCaller.reclaim
      pure result

/-- Calls at depth 1025 fail before they call again. -/
def maxCallDepth : Nat := 1026

def runTillCompletion (machine : Machine) (callerEe : ExecutionEnvironmentType) (q : ExternalCallRequest) :
    SysM Err CallResult :=
  handleRequestedExternalCall machine maxCallDepth 0 true callerEe q

/-- `run_single_interaction`, with a frame of its own if asked for. -/
def runSingleInteraction (machine : Machine) (calldata : List UInt8) (caller callee : B160) (value : U256)
    (shouldMakeFrame : Bool) : SysM Err CallResult := do
  let account ← infiniteErgs (perform (.readAccount .noEE caller false false))
  match parseEeVersionByte (VersioningData.eeVersion account.1.versioningData) with
  | none => throw .defect
  | some ee => do
    let r ← resources
    let q : ExternalCallRequest :=
      { ergsToPass := r.ergs, callersCaller := 0, caller := caller, callee := callee, modifier := .noModifier
        input := calldata, nominalTokenValue := value }
    if shouldMakeFrame then
      SysM.frame .interaction callFailed (runTillCompletion machine ee q)
    else runTillCompletion machine ee q

end ZkOs
