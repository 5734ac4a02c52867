import ZkOs.Exec.Evm

/-!
# System hooks

Code of the system that is called at fixed addresses below `2 ^ 16`:

* `l1MessengerHook` : `sendToL1(bytes)`;
* `l2BaseTokenHook` : `withdraw(address)` and `withdrawWithMessage(address,bytes)`, which burn the
  value of the call and announce it in a message;
* `contractDeployerHook` : `setBytecodeDetailsEVM`, for protocol upgrades;
* the precompiles, through `Machine.precompile`.

An inner `none` is the outcome `Ok(Err(_))` of the source: the call failed, its frame is undone.
-/

namespace ZkOs

open SysM Digits

def contractDeployerAddress : B160 := 0x8006
def l1MessengerAddress : B160 := 0x8008
def l2BaseTokenAddress : B160 := 0x800a
def l2ComplexUpgraderAddress : B160 := 0x800f

/-- `HOOK_BASE_NATIVE_COST` and `HOOK_BASE_ERGS_COST` -/
def hookBaseCost : Resources := ⟨gas 100, 1000⟩

/-- The big-endian word at `[i, i + 32)`. -/
def wordAt (bs : List UInt8) (i : Nat) : Nat := beNat ((bs.drop i).take 32)

def wordBytes (w : U256) : List UInt8 := beBytes 32 w.toNat

/-! ## L1 messenger -/

def l1MessageSentTopic : Bytes32 := 0x3a36e47291f4201faf137fab081d92295bce2d53be2c6ca68ba82c7faa9ce241

def l1MessageErgsCost (messageLen : Nat) : U64 :=
  keccak256ErgsCost 88 + 3 * keccak256ErgsCost 64 + keccak256ErgsCost messageLen +
    gas (375 + 8 * messageLen)

/-- The message of an ABI encoded `bytes` argument with the strict offset 32. -/
def parseMessage (abi : List UInt8) : Option (List UInt8) :=
  if abi.length < 64 then none
  else if wordAt abi 0 ≠ 32 then none
  else
    let messageEnd := 64 + wordAt abi 32
    if 2 ^ 32 ≤ wordAt abi 32 ∨ 2 ^ 32 ≤ messageEnd ∨ abi.length < messageEnd then none
    else if abi.length % 32 ≠ 0 then none
    else some ((abi.take messageEnd).drop 64)

def sendToL1Inner (abi : List UInt8) (caller : B160) : SysM Err (Option Bytes32) := do
  require (abi.length < 2 ^ 32) .defect
  match parseMessage abi with
  | none => pure none
  | some message => do
    pay (.fromErgs (l1MessageErgsCost message.length))
    let messageHash ← perform (.emitL1Message caller message)
    perform (.emitEvent .evm l1MessengerAddress
      [l1MessageSentTopic, caller.low20.setWidth 256, messageHash] abi)
    pure (some messageHash)

def sendToL1Selector : List UInt8 := [0x62, 0xf8, 0x4b, 0x24]

def l1MessengerHookInner (calldata : List UInt8) (caller : B160) (isStatic : Bool) :
    SysM Err (Option (List UInt8)) := do
  pay hookBaseCost
  if calldata.take 4 = sendToL1Selector ∧ isStatic = false then do
    let h ← sendToL1Inner (calldata.drop 4) caller
    pure (h.map wordBytes)
  else pure none

/-! ## L2 base token -/

/-- The value was transferred to the hook's address by the call. -/
def burnNominalTokenValue (value : U256) : SysM Err Unit := do
  let r ← attempt (perform (.updateBalance .evm l2BaseTokenAddress value true false))
  match r with
  | .ok _ => pure ()
  | .error .insufficientBalance | .error .balanceOverflow => throw .defect
  | .error e => throw e

/-- `IMailbox.finalizeEthWithdrawal.selector` -/
def finalizeEthWithdrawalSelector : List UInt8 := [0x6c, 0x09, 0x60, 0xf9]

/-- The message of a withdrawal: receiver and amount follow the selector. -/
def withdrawalMessage (l1Receiver : List UInt8) (value : U256) : List UInt8 :=
  finalizeEthWithdrawalSelector ++ l1Receiver ++ wordBytes value

/-- `bytes` ABI encoded: offset, length and the data padded to whole words. -/
def abiEncodeBytes (message : List UInt8) : List UInt8 :=
  beBytes 32 32 ++ beBytes 32 message.length ++ message ++
    List.replicate ((32 - message.length % 32) % 32) 0

def withdrawalTopic : Bytes32 := 0x2717ead6b9200dd235aad468c9809ea400fe33ac69b5bfaa6d3e90fc922b6398
def withdrawalWithMessageTopic : Bytes32 := 0xc405fe8958410bbaf0c73b7a0c3e20859e86ca168a4c9b0def9c54d2555a306b

/-- `COPY_BASE_NATIVE_COST + COPY_BYTE_NATIVE_COST * len` -/
def copyNativeCost (len : Nat) : Resources := .fromNative (saturate (80 + len))

/-- The first 12 bytes of an address argument are zero. -/
def addressArgumentOk (calldata : List UInt8) : Bool := ((calldata.drop 4).take 12).all (· = 0)

/-- The 20 bytes of the first argument. -/
def receiverOf (calldata : List UInt8) : List UInt8 := (calldata.drop 16).take 20

def withdraw (calldata : List UInt8) (caller : B160) (value : U256) : SysM Err (Option (List UInt8)) := do
  if calldata.length < 36 then pure none
  else do
    burnNominalTokenValue value
    if addressArgumentOk calldata = false then pure none
    else do
      let receiver := receiverOf calldata
      let sent ← sendToL1Inner (abiEncodeBytes (withdrawalMessage receiver value)) l2BaseTokenAddress
      perform (.emitEvent .evm l2BaseTokenAddress
        [withdrawalTopic, caller.low20.setWidth 256, BitVec.ofNat 256 (beNat receiver)] (wordBytes value))
      pure (sent.map fun _ => [])

/-- The `bytes` argument of `withdrawWithMessage(address,bytes)`. -/
def additionalData (calldata : List UInt8) : Option (List UInt8) :=
  let messageOffset := wordAt calldata 36
  let lengthEncodingEnd := messageOffset + 36
  if 2 ^ 32 ≤ lengthEncodingEnd ∨ calldata.length < lengthEncodingEnd then none
  else
    let length := wordAt calldata (lengthEncodingEnd - 32)
    let messageEnd := lengthEncodingEnd + length
    if 2 ^ 32 ≤ messageEnd ∨ calldata.length < messageEnd then none
    else some ((calldata.take messageEnd).drop lengthEncodingEnd)

def withdrawWithMessage (calldata : List UInt8) (caller : B160) (value : U256) :
    SysM Err (Option (List UInt8)) := do
  if calldata.length < 68 then pure none
  else match additionalData calldata with
    | none => pure none
    | some data => do
      if addressArgumentOk calldata = false then pure none
      else do
        burnNominalTokenValue value
        let receiver := receiverOf calldata
        let message := abiEncodeBytes
          (withdrawalMessage receiver value ++ beBytes 20 caller.low20.toNat ++ data)
        pay (copyNativeCost message.length)
        let sent ← sendToL1Inner message l2BaseTokenAddress
        let eventData := wordBytes value ++ beBytes 32 64 ++ beBytes 32 data.length ++ data ++
          List.replicate ((32 - data.length % 32) % 32) 0
        pay (copyNativeCost eventData.length)
        perform (.emitEvent .evm l2BaseTokenAddress
          [withdrawalWithMessageTopic, caller.low20.setWidth 256, BitVec.ofNat 256 (beNat receiver)] eventData)
        pure (sent.map fun _ => [])

def withdrawSelector : List UInt8 := [0x51, 0xcf, 0xf8, 0xd9]
def withdrawWithMessageSelector : List UInt8 := [0x84, 0xbc, 0x3e, 0xb0]

def l2BaseTokenHookInner (calldata : List UInt8) (caller : B160) (value : U256) (isStatic : Bool) :
    SysM Err (Option (List UInt8)) := do
  pay hookBaseCost
  require (calldata.length < 4 ∨ calldata.length < 2 ^ 32) .defect
  if isStatic then pure none
  else if calldata.take 4 = withdrawSelector then withdraw calldata caller value
  else if calldata.take 4 = withdrawWithMessageSelector then withdrawWithMessage calldata caller value
  else pure none

/-! ## Contract deployer -/

/-- `setBytecodeDetailsEVM(address,bytes32,uint32,bytes32)` -/
def setEvmBytecodeDetailsSelector : List UInt8 := [0xf6, 0xec, 0xa0, 0xb0]

def contractDeployerHookInner (calldata : List UInt8) (caller : B160) (isStatic : Bool) :
    SysM Err (Option (List UInt8)) := do
  pay hookBaseCost
  let len := wordAt calldata 68
  if calldata.take 4 ≠ setEvmBytecodeDetailsSelector ∨ isStatic = true ∨ caller ≠ l2ComplexUpgraderAddress ∨
      calldata.length < 132 ∨ addressArgumentOk calldata = false ∨ maxCodeSize < len then pure none
  else do
    pay (.fromErgs (gas (50 * len)))
    perform (.setBytecodeDetails .evm (.ofLow20 (BitVec.ofNat 160 (beNat (receiverOf calldata))))
      (BitVec.ofNat 256 (wordAt calldata 36)) (BitVec.ofNat 32 len) 0
      (BitVec.ofNat 256 (wordAt calldata 100)) (BitVec.ofNat 32 len))
    pure (some [])

/-! ## Dispatch -/

/-- The common frame of the three hooks: refused modifiers, and the outcomes of the inner part. A
hook that runs out of ergs fails without burning what is left. -/
def hookResult (q : ExternalCallRequest) (payable : Bool) (inner : SysM Err (Option (List UInt8))) :
    SysM Err CallResult := do
  if q.isDelegate ∨ q.isCallcode ∨ (payable = false ∧ q.nominalTokenValue ≠ 0) then pure (.failed [])
  else do
    let r ← attempt inner
    match r with
    | .ok (some returndata) => pure (.successful returndata)
    | .ok none => pure (.failed [])
    | .error .outOfErgs => pure (.failed [])
    | .error e => throw e

/-- `pure_system_function_hook_impl`: gas is burned on out of gas and on invalid input. -/
def precompileHook (machine : Machine) (low : Nat) (q : ExternalCallRequest) : SysM Err CallResult := do
  let r ← attempt (pay (machine.precompile low q.input).1)
  match r, (machine.precompile low q.input).2 with
  | .ok _, some returndata => pure (.successful returndata)
  | .ok _, none | .error .outOfErgs, _ => failFrame
  | .error e, _ => throw e

/-- Addresses of the precompiles: 1 to 8 and P256. -/
def precompileAddresses : List Nat := [1, 2, 3, 4, 5, 6, 7, 8, 0x100]

def hookFor (machine : Machine) (q : ExternalCallRequest) : Option (SysM Err CallResult) :=
  let isStatic := q.modifier = .static
  if q.callee = contractDeployerAddress then
    some (hookResult q false (contractDeployerHookInner q.input q.caller isStatic))
  else if q.callee = l1MessengerAddress then
    some (hookResult q false (l1MessengerHookInner q.input q.caller isStatic))
  else if q.callee = l2BaseTokenAddress then
    some (hookResult q true (l2BaseTokenHookInner q.input q.caller q.nominalTokenValue isStatic))
  else if q.callee.toNat ∈ precompileAddresses then some (precompileHook machine q.callee.toNat q)
  else none

end ZkOs
