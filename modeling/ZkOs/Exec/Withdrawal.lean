import ZkOs.Exec.Runner
import ZkOs.State.Shifts

/-!
# Withdrawals through the base token hook

A call to `L2_BASE_TOKEN_ADDRESS` first transfers its value there; the hook burns it and announces it
in a message to L1.

* `parseMessage_abiEncodeBytes` : the encoding that the hook builds is accepted by the messenger;
* `Announces` : the calls that ask for a withdrawal, and the message of each;
* `Withdraws` : the value is burned and the message appended; `l2BaseTokenHookInner_ok` : this is what
  the hook did if it succeeds;
* `performTransferIfRequired_ok` : after the transfer the burn has the balance it needs;
* `frameBody_baseToken` : transfer and hook together.
-/

namespace ZkOs

open SysM Digits ZkOs.Action

/-! ## The encoding of a message -/

theorem length_abiEncodeBytes (message : List UInt8) :
    (abiEncodeBytes message).length = 64 + (message.length + (32 - message.length % 32) % 32) := by
  simp only [abiEncodeBytes, List.length_append, length_beBytes, List.length_replicate]
  omega

theorem wordAt_append {xs ys : List UInt8} {i n : Nat} (hi : xs.length = i) (hn : n < 2 ^ 256) :
    wordAt (xs ++ (beBytes 32 n ++ ys)) i = n := by
  subst hi
  rw [wordAt, List.drop_left, List.take_left' (length_beBytes 32 n), beNat_beBytes]
  exact Nat.mod_eq_of_lt (hn.trans_eq (by norm_num))

/-- The hook's encoding passes every check of `send_to_l1_inner`, which finds the message in it. -/
theorem parseMessage_abiEncodeBytes {message : List UInt8} (h : (abiEncodeBytes message).length < 2 ^ 32) :
    parseMessage (abiEncodeBytes message) = some message := by
  have hlen := length_abiEncodeBytes message
  have hoffset : wordAt (abiEncodeBytes message) 0 = 32 := by
    have hw := @wordAt_append [] (beBytes 32 message.length ++ message ++
      List.replicate ((32 - message.length % 32) % 32) 0) 0 32 rfl (by norm_num)
    simpa only [abiEncodeBytes, List.nil_append, List.append_assoc] using hw
  have hlength : wordAt (abiEncodeBytes message) 32 = message.length := by
    have hw := @wordAt_append (beBytes 32 32) (message ++ List.replicate ((32 - message.length % 32) % 32) 0) 32
      message.length (length_beBytes 32 32) (by omega)
    simpa only [abiEncodeBytes, List.append_assoc] using hw
  unfold parseMessage
  simp only [hoffset, hlength]
  rw [if_neg (by omega), if_neg (by simp), if_neg (by omega), if_neg (by omega)]
  have hhead : (beBytes 32 32 ++ beBytes 32 message.length).length = 64 := by
    simp [length_beBytes]
  rw [abiEncodeBytes, List.take_left' (by rw [List.length_append, hhead]), List.drop_left' hhead]

/-! ## Calls that withdraw -/

/-- The message that announces the withdrawal which a call asks for, with its receiver and, for
`withdrawWithMessage`, its sender and the bytes that its second argument points to. -/
inductive Announces (q : ExternalCallRequest) : List UInt8 → Prop
  | withdraw (receiver rest : List UInt8) (hreceiver : receiver.length = 20)
      (hinput : q.input = withdrawSelector ++ List.replicate 12 0 ++ receiver ++ rest) :
      Announces q (finalizeEthWithdrawalSelector ++ receiver ++ wordBytes q.nominalTokenValue)
  | withdrawWithMessage (receiver data before after rest : List UInt8) (hreceiver : receiver.length = 20)
      (hinput : q.input =
        withdrawWithMessageSelector ++ List.replicate 12 0 ++ receiver ++ beBytes 32 before.length ++ rest)
      (hdata : q.input.drop 4 = before ++ beBytes 32 data.length ++ data ++ after) :
      Announces q (finalizeEthWithdrawalSelector ++ receiver ++ wordBytes q.nominalTokenValue ++
        beBytes 20 q.caller.low20.toNat ++ data)

/-- The input of a call is a slice of the caller's heap, or of the calldata of
a transaction, which is shorter. -/
def maxHeapBufferSize : Nat := 1 <<< 27

theorem Announces.length_lt {q : ExternalCallRequest} {payload : List UInt8} (h : Announces q payload)
    (hin : q.input.length ≤ maxHeapBufferSize) : (abiEncodeBytes payload).length < 2 ^ 32 := by
  rw [length_abiEncodeBytes]
  have hbound : maxHeapBufferSize = 134217728 := rfl
  cases h with
  | withdraw receiver rest hreceiver hinput =>
    simp only [List.length_append, hreceiver, wordBytes, length_beBytes]
    have : finalizeEthWithdrawalSelector.length = 4 := rfl
    omega
  | withdrawWithMessage receiver data before after rest hreceiver hinput hdata =>
    have hle := congrArg List.length hdata
    simp only [List.length_drop, List.length_append, length_beBytes] at hle
    simp only [List.length_append, hreceiver, wordBytes, length_beBytes]
    have : finalizeEthWithdrawalSelector.length = 4 := rfl
    omega

theorem input_receiver {input : List UInt8} (hlen : 36 ≤ input.length) (hzeros : addressArgumentOk input = true) :
    (receiverOf input).length = 20 ∧
      input = input.take 4 ++ List.replicate 12 0 ++ receiverOf input ++ input.drop 36 := by
  have hz : (input.drop 4).take 12 = List.replicate 12 0 := by
    refine List.eq_replicate_iff.mpr ⟨by simp only [List.length_take, List.length_drop]; omega, fun b hb => ?_⟩
    exact of_decide_eq_true (List.all_eq_true.mp hzeros b hb)
  refine ⟨by simp only [receiverOf, List.length_take, List.length_drop]; omega, ?_⟩
  rw [← hz, receiverOf]
  have h₁ : input.drop 16 = (input.drop 4).drop 12 := by rw [List.drop_drop]
  have h₂ : input.drop 36 = (input.drop 16).drop 20 := by rw [List.drop_drop]
  rw [h₂, List.append_assoc, List.take_append_drop, h₁, List.append_assoc, List.take_append_drop,
    List.take_append_drop]

theorem additionalData_spec {input data : List UInt8} (h : additionalData input = some data) :
    ∃ before after, before.length = wordAt input 36 ∧
      input.drop 4 = before ++ beBytes 32 data.length ++ data ++ after := by
  unfold additionalData at h
  simp only at h
  split at h
  · cases h
  · rename_i hoffset
    split at h
    · cases h
    · rename_i hend
      rw [Option.some.injEq] at h
      subst h
      generalize wordAt input 36 = offset at hoffset hend ⊢
      rw [show offset + 36 - 32 = offset + 4 by omega] at hend ⊢
      have hword : ((input.drop (offset + 4)).take 32).length = 32 := by
        simp only [List.length_take, List.length_drop]
        omega
      have hlength : ((input.take (offset + 36 + wordAt input (offset + 4))).drop (offset + 36)).length =
          wordAt input (offset + 4) := by
        simp only [List.length_take, List.length_drop]
        omega
      refine ⟨(input.drop 4).take offset, input.drop (offset + 36 + wordAt input (offset + 4)), ?_, ?_⟩
      · simp only [List.length_take, List.length_drop]
        omega
      · rw [hlength, wordAt, beBytes_beNat hword, ← wordAt]
        generalize wordAt input (offset + 4) = len at hend hlength ⊢
        have h₁ : input.drop (offset + 4) = (input.drop 4).drop offset := by
          rw [List.drop_drop, Nat.add_comm]
        have h₂ : input.drop (offset + 36) = (input.drop (offset + 4)).drop 32 := by rw [List.drop_drop]
        rw [List.drop_take, Nat.add_sub_cancel_left, List.append_assoc,
          show input.drop (offset + 36 + len) = (input.drop (offset + 36)).drop len by rw [List.drop_drop],
          List.take_append_drop, h₂, List.append_assoc, List.take_append_drop, h₁, List.take_append_drop]

/-! ## The hook -/

/-- The value is burned and the message appended to the logs. -/
structure Withdraws (env : Env) (value : U256) (payload : List UInt8) (io io' : Io) : Prop where
  burns : Io.Shifts env (Pi.single l2BaseTokenAddress (-(value.toNat : ℤ))) io io'
  logs : io'.logs = io.logs.push ⟨io.txNumber, .userMsg l2BaseTokenAddress payload (env.keccak payload)⟩
    (4 + payload.length + 88)

section Hook

variable {env : Env} {s s' : Sys} {q : ExternalCallRequest} {ret : List UInt8}

theorem txNumber_run {ε α : Type} {m : SysM ε α} {x : Except ε α} (h : m.run env s = (x, s')) :
    s'.io.txNumber = s.io.txNumber := by
  have hext := (Io.run_extends (m s.res) s.io : Io.Extends env _ _).txNumber
  rw [show ((m s.res).run (Io.handler env) s.io).2 = s'.io from congrArg (fun x => x.2.io) h] at hext
  exact hext

variable {a : B160} {data : List UInt8} {value : U256} {callerEe : ExecutionEnvironmentType}

theorem emitEvent_ok {ee : ExecutionEnvironmentType} {topics : List Bytes32}
    (h : (perform (.emitEvent ee a topics data)).run env s = (.ok (), s')) :
    ∃ events, s'.io = { s.io with events := events } := by
  obtain ⟨_, s₁, h₁, h⟩ := bind_ok.mp h
  obtain ⟨-, rfl⟩ := require_ok h₁
  obtain ⟨_, s₂, h₂, h⟩ := bind_ok.mp h
  cases h
  refine ⟨⟨s₂.io.txNumber, a, topics, data⟩ :: s₂.io.events, ?_⟩
  show ({ s₂.io with events := _ } : Io) = _
  rw [charge_ok h₂]

theorem emitL1Message_ok {hash : Bytes32} (h : (perform (.emitL1Message a data)).run env s = (.ok hash, s')) :
    hash = env.keccak data ∧ s'.io = { s.io with
      logs := s.io.logs.push ⟨s.io.txNumber, .userMsg a data (env.keccak data)⟩ (4 + data.length + 88) } := by
  obtain ⟨_, s₁, h₁, h⟩ := bind_ok.mp h
  obtain ⟨_, s₂, h₂, h⟩ := bind_ok.mp h
  obtain ⟨_, s₃, h₃, h⟩ := bind_ok.mp h
  cases h₃
  cases h
  have hio := (charge_ok h₂).trans (charge_ok h₁)
  refine ⟨rfl, ?_⟩
  show ({ s₂.io with logs := _ } : Io) = _
  rw [hio]

theorem sendToL1Inner_ok {abi message : List UInt8} {caller : B160} {sent : Option Bytes32}
    (hparse : parseMessage abi = some message) (h : (sendToL1Inner abi caller).run env s = (.ok sent, s')) :
    sent = some (env.keccak message) ∧ ∃ events, s'.io = { s.io with
      logs := s.io.logs.push ⟨s.io.txNumber, .userMsg caller message (env.keccak message)⟩ (4 + message.length + 88)
      events := events } := by
  unfold sendToL1Inner at h
  rw [hparse] at h
  obtain ⟨_, s₁, h₁, h⟩ := bind_run_ok h
  obtain ⟨_, s₂, h₂, h⟩ := bind_run_ok h
  obtain ⟨hash, s₃, h₃, h⟩ := bind_run_ok h
  obtain ⟨_, s₄, h₄, h⟩ := bind_run_ok h
  cases h
  rw [run_require] at h₁
  obtain ⟨-, rfl⟩ := require_ok h₁
  obtain ⟨rfl, hlog⟩ := emitL1Message_ok h₃
  obtain ⟨events, hevents⟩ := emitEvent_ok h₄
  refine ⟨rfl, events, ?_⟩
  show s₄.io = _
  rw [hevents, hlog, charge_ok h₂]

theorem burnNominalTokenValue_ok (h : (burnNominalTokenValue value).run env s = (.ok (), s')) :
    Io.Shifts env (Pi.single l2BaseTokenAddress (-(value.toNat : ℤ))) s.io s'.io ∧ s'.io.logs = s.io.logs := by
  obtain ⟨r, s₁, h₁, h⟩ := bind_run_ok h
  rw [run_attempt] at h₁
  rcases r with e | old
  · cases e <;> cases h
  · cases h
    have hdebit : updateNominalTokenValue env .evm l2BaseTokenAddress (subBalance value) false false s = (.ok old, s₁) :=
      Prod.ext (Except.ok.inj (congrArg (fun x => x.1) h₁)) (congrArg (fun x => x.2) h₁)
    exact debit_ok hdebit

theorem Withdraws.of_sent {payload : List UInt8} {io₁ io₂ : Io} {events events' : List Event}
    (hburn : Io.Shifts env (Pi.single l2BaseTokenAddress (-(value.toNat : ℤ))) s.io io₁ ∧ io₁.logs = s.io.logs)
    (htx : io₁.txNumber = s.io.txNumber) (hsent : io₂ = { io₁ with
      logs := io₁.logs.push ⟨io₁.txNumber, .userMsg l2BaseTokenAddress payload (env.keccak payload)⟩
        (4 + payload.length + 88)
      events := events }) (hevent : s'.io = { io₂ with events := events' })
    : Withdraws env value payload s.io s'.io := by
  subst hsent
  rw [hevent]
  refine ⟨hburn.1.of_logs _ _, ?_⟩
  show io₁.logs.push _ _ = _
  rw [hburn.2, htx]

theorem withdraw_ok (hsel : q.input.take 4 = withdrawSelector)
    (h : (withdraw q.input q.caller q.nominalTokenValue).run env s = (.ok (some ret), s')) :
    ret = [] ∧ ∃ payload, Announces q payload ∧ Withdraws env q.nominalTokenValue payload s.io s'.io := by
  unfold withdraw at h
  split at h
  · cases h
  rename_i hlen
  obtain ⟨_, s₁, h₁, h⟩ := bind_run_ok h
  split at h
  · cases h
  rename_i hzeros
  obtain ⟨sent, s₂, h₂, h⟩ := bind_run_ok h
  obtain ⟨_, s₃, h₃, h⟩ := bind_run_ok h
  obtain ⟨hreceiver, hinput⟩ := input_receiver (Nat.not_lt.mp hlen) (Bool.not_eq_false _ ▸ hzeros)
  rw [hsel] at hinput
  have hfits : (abiEncodeBytes (withdrawalMessage (receiverOf q.input) q.nominalTokenValue)).length < 2 ^ 32 := by
    have hselector : finalizeEthWithdrawalSelector.length = 4 := rfl
    simp only [length_abiEncodeBytes, withdrawalMessage, List.length_append, hreceiver, wordBytes, length_beBytes]
    omega
  obtain ⟨rfl, events, hsent⟩ := sendToL1Inner_ok (parseMessage_abiEncodeBytes hfits) h₂
  obtain ⟨events', hevent⟩ := emitEvent_ok h₃
  cases h
  exact ⟨rfl, _, .withdraw _ _ hreceiver hinput,
    .of_sent (burnNominalTokenValue_ok h₁) (txNumber_run h₁) hsent hevent⟩

theorem withdrawWithMessage_ok (hin : q.input.length ≤ maxHeapBufferSize)
    (hsel : q.input.take 4 = withdrawWithMessageSelector)
    (h : (withdrawWithMessage q.input q.caller q.nominalTokenValue).run env s = (.ok (some ret), s')) :
    ret = [] ∧ ∃ payload, Announces q payload ∧ Withdraws env q.nominalTokenValue payload s.io s'.io := by
  unfold withdrawWithMessage at h
  split at h
  · cases h
  rename_i hlen
  split at h
  · cases h
  rename_i data hdata
  split at h
  · cases h
  rename_i hzeros
  obtain ⟨_, s₁, h₁, h⟩ := bind_run_ok h
  obtain ⟨_, s₂, h₂, h⟩ := bind_run_ok h
  obtain ⟨sent, s₃, h₃, h⟩ := bind_run_ok h
  obtain ⟨_, s₄, h₄, h⟩ := bind_run_ok h
  obtain ⟨_, s₅, h₅, h⟩ := bind_run_ok h
  obtain ⟨hreceiver, hinput⟩ := input_receiver (by omega) (Bool.not_eq_false _ ▸ hzeros)
  obtain ⟨before, after, hbefore, hargument⟩ := additionalData_spec hdata
  have hann : Announces q (withdrawalMessage (receiverOf q.input) q.nominalTokenValue ++
      beBytes 20 q.caller.low20.toNat ++ data) := by
    refine .withdrawWithMessage _ data before after (q.input.drop 68) hreceiver ?_ hargument
    have hword : ((q.input.drop 36).take 32).length = 32 := by
      simp only [List.length_take, List.length_drop]
      omega
    rw [hbefore, wordAt, beBytes_beNat hword, ← hsel, List.append_assoc,
      show q.input.drop 68 = (q.input.drop 36).drop 32 by rw [List.drop_drop], List.take_append_drop]
    exact hinput
  obtain ⟨rfl, events, hsent⟩ := sendToL1Inner_ok (parseMessage_abiEncodeBytes (hann.length_lt hin)) h₃
  obtain ⟨events', hevent⟩ := emitEvent_ok h₅
  cases h
  rw [charge_ok h₄] at hevent
  rw [charge_ok h₂] at hsent
  exact ⟨rfl, _, hann, .of_sent (burnNominalTokenValue_ok h₁) (txNumber_run h₁) hsent hevent⟩

theorem l2BaseTokenHookInner_ok (hin : q.input.length ≤ maxHeapBufferSize) {isStatic : Bool}
    (h : (l2BaseTokenHookInner q.input q.caller q.nominalTokenValue isStatic).run env s = (.ok (some ret), s')) :
    ret = [] ∧ ∃ payload, Announces q payload ∧ Withdraws env q.nominalTokenValue payload s.io s'.io := by
  obtain ⟨_, s₁, h₁, h⟩ := bind_run_ok h
  obtain ⟨_, s₂, h₂, hrest⟩ := bind_run_ok h
  rw [run_require] at h₂
  obtain ⟨-, rfl⟩ := require_ok h₂
  rw [← charge_ok h₁]
  split at hrest
  · cases hrest
  · split at hrest
    · exact withdraw_ok ‹_› hrest
    · split at hrest
      · exact withdrawWithMessage_ok hin ‹_› hrest
      · cases hrest

theorem performTransferIfRequired_ok (hd : q.isDelegate = false) (hc : q.isCallcode = false)
    (h : (performTransferIfRequired callerEe q).run env s = (.ok true, s')) :
    Io.Shifts env (Pi.single q.caller (-(q.nominalTokenValue.toNat : ℤ)) +
        Pi.single q.callee (q.nominalTokenValue.toNat : ℤ)) s.io s'.io ∧
      s'.io.logs = s.io.logs ∧ s'.io.HasFunds q.callee q.nominalTokenValue := by
  unfold performTransferIfRequired at h
  split at h
  · rename_i hnone
    cases h
    have hzero : q.nominalTokenValue = 0 := hnone.resolve_right (by rw [hd]; exact Bool.false_ne_true)
    rw [hzero]
    refine ⟨?_, rfl, .inl rfl⟩
    have hsame := (Io.SameValues.refl s.io : Io.SameValues env s.io s.io).shifts
    rwa [show (0 : B160 → ℤ) = Pi.single q.caller (-(((0 : U256).toNat : ℤ))) +
      Pi.single q.callee (((0 : U256).toNat : ℤ)) by simp] at hsame
  · split at h
    · cases h
    · rw [hc] at h
      obtain ⟨r, s₁, h₁, h⟩ := bind_run_ok h
      rw [run_attempt, run_infiniteErgs] at h₁
      rcases r with e | u
      · cases e <;> first | cases h | (cases callerEe <;> cases h)
      · cases h
        obtain ⟨hx, hs⟩ := Prod.ext_iff.mp h₁
        subst hs
        have hok : (transferNominalTokenValue env .noEE q.caller q.callee q.nominalTokenValue false
          ⟨s.io, { s.res with ergs := BitVec.allOnes 64 }⟩).1 = .ok () := Except.ok.inj hx
        obtain ⟨hshift, hlogs, hfunds⟩ := transferNominalTokenValue_ok (Prod.ext hok rfl)
        exact ⟨hshift, hlogs, .inr hfunds⟩

theorem hookResult_ok {payable : Bool} {inner : SysM Err (Option (List UInt8))}
    (h : (hookResult q payable inner).run env s = (.ok (.successful ret), s')) :
    q.isDelegate = false ∧ q.isCallcode = false ∧ inner.run env s = (.ok (some ret), s') := by
  unfold hookResult at h
  split at h
  · cases h
  · rename_i hmod
    obtain ⟨r, s₁, h₁, h⟩ := bind_run_ok h
    rw [run_attempt] at h₁
    simp only [not_or, Bool.not_eq_true] at hmod
    refine ⟨hmod.1, hmod.2.1, ?_⟩
    rcases r with e | _ | ret₀
    · cases e <;> cases h
    · cases h
    · cases h
      exact Prod.ext (Except.ok.inj (congrArg (fun x => x.1) h₁)) (congrArg (fun x => x.2) h₁)

theorem hookFor_baseToken (machine : Machine) (hq : q.callee = l2BaseTokenAddress) : hookFor machine q =
    some (hookResult q true (l2BaseTokenHookInner q.input q.caller q.nominalTokenValue (q.modifier = .static))) := by
  unfold hookFor
  rw [hq]
  rfl

theorem frameBody_baseToken {machine : Machine} {handleCall : ExternalCallRequest → SysM Err CallResult}
    {p : LaunchParams} (hq : q.callee = l2BaseTokenAddress) (hin : q.input.length ≤ maxHeapBufferSize)
    (h : (frameBody machine handleCall callerEe p q).run env s = (.ok (.successful ret), s')) :
    ret = [] ∧ ∃ mid payload, Io.Shifts env (Pi.single q.caller (-(q.nominalTokenValue.toNat : ℤ)) +
        Pi.single l2BaseTokenAddress (q.nominalTokenValue.toNat : ℤ)) s.io mid ∧
      mid.logs = s.io.logs ∧ mid.txNumber = s.io.txNumber ∧
      Announces q payload ∧ Withdraws env q.nominalTokenValue payload mid s'.io := by
  obtain ⟨transferred, s₁, h₁, h⟩ := bind_run_ok h
  cases transferred with
  | false => cases h
  | true =>
    rw [if_neg Bool.noConfusion, hookFor_baseToken machine hq] at h
    simp only at h
    split at h
    · cases h
    · obtain ⟨hd, hc, hinner⟩ := hookResult_ok h
      obtain ⟨hshift, hlogs, -⟩ := performTransferIfRequired_ok hd hc h₁
      obtain ⟨hret, payload, hann, hwithdraws⟩ := l2BaseTokenHookInner_ok hin hinner
      rw [hq] at hshift
      exact ⟨hret, s₁.io, payload, hshift, hlogs, txNumber_run h₁, hann, hwithdraws⟩

end Hook

end ZkOs
