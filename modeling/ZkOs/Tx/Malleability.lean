import ZkOs.Tx.RlpProps

/-!
# Can the raw bytes of a signed transaction be changed?

The signature covers the payload fields, re-encoded with a fresh list header; the header of the
received list itself is not signed.  Two accepted buffers with the same type, signed hash and
signature differ at most in how many bytes that outer header spends on its length
(`buffer_eq_iff`), and since leading zero length bytes are accepted they can differ there
(`malleable_outer_header`).
-/

namespace ZkOs.Tx

open Digits InvalidTransaction Decoder

/-- Number of length bytes in the outer list header of a transaction. -/
def outerLengthBytes : List UInt8 → Nat
  | [] => 0
  | m :: rest => if m < 0xc0 then listLengthBytes rest else listLengthBytes (m :: rest)

/-! ## What was parsed -/

/-- The shape of a list of payload and signature fields. -/
structure ParsedList {P S : Type} (payloadBody : Rlp P) (signatureBody : Rlp S)
    (src : List UInt8) (payload : P) (sig : S) (slice : List UInt8) : Prop where
  shape : ∃ content sigBytes, Rlp.list.runAll invalidStructure src = .ok content ∧
    content = slice ++ sigBytes ∧ payloadBody.Reads slice payload ∧ signatureBody.Reads sigBytes sig

variable {P S : Type} {payloadBody : Rlp P} {signatureBody : Rlp S} {src slice : List UInt8} {payload : P} {sig : S}

theorem parsedList_of_ok (hp : payloadBody.Local) (hs : signatureBody.Local)
    (h : parsePayloadAndSignature payloadBody signatureBody src =
      .ok (payload, sig, slice)) : ParsedList payloadBody signatureBody src payload sig slice := by
  unfold parsePayloadAndSignature at h
  cases hlist : Rlp.list.runAll invalidStructure src with
  | error e => simp [hlist, bind, Except.bind] at h
  | ok content =>
    cases hpay : payloadBody content with
    | error e => simp [hlist, hpay, bind, Except.bind] at h
    | ok r =>
      obtain ⟨pl, rest⟩ := r
      cases hsig : signatureBody.runAll invalidStructure rest with
      | error e => simp [hlist, hpay, hsig, bind, Except.bind] at h
      | ok sg =>
        simp only [hlist, hpay, hsig, bind, Except.bind, pure, Except.pure,
          Except.ok.injEq, Prod.mk.injEq] at h
        obtain ⟨rfl, rfl, rfl⟩ := h
        obtain ⟨pre, rfl, hread⟩ := hp _ _ _ hpay
        obtain ⟨sb, he, hread'⟩ := hs _ _ _ (runAll_ok.mp hsig)
        obtain rfl : rest = sb := by simpa using he
        refine ⟨_, rest, hlist, ?_, ?_, hread'⟩
        · simp
        · simpa using hread

theorem ParsedList.src_eq (hs : signatureBody.Canonical) {src' : List UInt8} {payload' : P}
    (h : ParsedList payloadBody signatureBody src payload sig slice)
    (h' : ParsedList payloadBody signatureBody src' payload' sig slice)
    (hll : listLengthBytes src = listLengthBytes src') : src = src' := by
  obtain ⟨content, sb, hlist, rfl, -, hsig⟩ := h
  obtain ⟨content', sb', hlist', rfl, -, hsig'⟩ := h'
  rw [hs _ _ _ hsig hsig'] at hlist
  exact list_inj hlist hlist' hll

/-- A list starts with a byte from `0xc0` on. -/
theorem ParsedList.outerLengthBytes_eq (h : ParsedList payloadBody signatureBody src payload sig slice) :
    outerLengthBytes src = listLengthBytes src := by
  obtain ⟨content, sb, hlist, -⟩ := h
  obtain ⟨m, l, rfl, hm, -⟩ := list_runAll hlist
  rw [outerLengthBytes, if_neg]
  rw [UInt8.lt_iff_toNat_lt]
  exact Nat.not_lt.mpr hm

section
variable {D : Type} {keccak : List UInt8 → D}

structure TypedParse (keccak : List UInt8 → D) {P : Type} (txType : UInt8) (payloadBody : Rlp P)
    (mk : P → EIP2718SignatureData → RlpEncodedTxInner) (input : List UInt8)
    (inner : RlpEncodedTxInner) (sigHash : D) : Prop where
  shape : ∃ src tx sig slice, input = txType :: src ∧
    ParsedList payloadBody EIP2718SignatureData.decodeListBody src tx sig slice ∧
    sigHash = keccak (txType :: (listHeader (slice.length % 2 ^ 32) ++ slice)) ∧ inner = mk tx sig

/-- An accepted legacy transaction; `v` tells which preimage was signed. -/
structure LegacyParse (keccak : List UInt8 → D) (chainId : Nat) (input : List UInt8)
    (inner : RlpEncodedTxInner) (sigHash : D) : Prop where
  shape : ∃ tx sig slice,
    ParsedList LegacyTXInner.decodeListBody LegacySignatureData.decodeListBody input tx sig slice ∧
    ((inner = .legacy tx sig ∧ (sig.v = 27 ∨ sig.v = 28) ∧
        sigHash = keccak (legacyPreimage slice)) ∨
      (inner = .legacyWithEIP155 tx sig ∧ (sig.v = minV chainId ∨ sig.v = minV chainId + 1) ∧
        sigHash = keccak (eip155Preimage chainId slice)))

variable {P : Type} {payloadBody : Rlp P} {mk : P → EIP2718SignatureData → RlpEncodedTxInner}
    {input A B slice : List UInt8} {inner innerA innerB : RlpEncodedTxInner} {sigHash : D} {chainId : Nat}
    {tx : LegacyTXInner}

theorem typedParse_of_ok {txType : Nat} {chainId : P → Nat} {remaining : List UInt8} {expectedChainId : Nat}
    (hl : payloadBody.Local) (hu8 : Rlp.u8 input = .ok (txType, remaining)) (hpos : 0 < txType) (hlt : txType < 0x80)
    (h : parseTyped keccak (UInt8.ofNat txType) payloadBody chainId mk remaining expectedChainId =
      .ok (inner, sigHash)) :
    TypedParse keccak (UInt8.ofNat txType) payloadBody mk input inner sigHash := by
  unfold parseTyped parseEip2718 at h
  cases hp : parsePayloadAndSignature payloadBody EIP2718SignatureData.decodeListBody remaining with
  | error e => simp [hp, bind, Except.bind] at h
  | ok r =>
    obtain ⟨tx, sig, slice⟩ := r
    simp only [hp, bind, Except.bind, pure, Except.pure] at h
    split at h
    · obtain ⟨rfl, rfl⟩ := Prod.mk.inj (Except.ok.inj h)
      exact ⟨remaining, tx, sig, slice, u8_marker hu8 hpos hlt,
        parsedList_of_ok hl local_eip2718Signature hp, rfl, rfl⟩
    · cases h

theorem legacyParse_of_ok {sig : LegacySignatureData} (h : parseLegacy keccak input chainId = .ok (tx, sig, sigHash)) :
    LegacyParse keccak chainId input
      (if sig.isEip155 then .legacyWithEIP155 tx sig else .legacy tx sig) sigHash := by
  unfold parseLegacy at h
  cases hp : parsePayloadAndSignature LegacyTXInner.decodeListBody
      LegacySignatureData.decodeListBody input with
  | error e => simp [hp, bind, Except.bind] at h
  | ok r =>
    obtain ⟨tx', sig', slice⟩ := r
    simp only [hp, bind, Except.bind, pure, Except.pure] at h
    have hparsed := parsedList_of_ok local_legacyBody local_legacySignature hp
    split at h
    · rename_i h155
      split at h
      · rename_i hv
        simp only [Except.ok.injEq, Prod.mk.injEq] at h
        obtain ⟨rfl, rfl, rfl⟩ := h
        exact ⟨tx', sig', slice, hparsed, .inr ⟨if_pos h155, hv, rfl⟩⟩
      · cases h
    · rename_i h155
      simp only [Except.ok.injEq, Prod.mk.injEq] at h
      obtain ⟨rfl, rfl, rfl⟩ := h
      refine ⟨tx', sig', slice, hparsed, .inl ⟨if_neg h155, ?_, rfl⟩⟩
      by_contra hv
      exact h155 (by simpa [LegacySignatureData.isEip155, not_or] using hv)

theorem parse_cases (h : parseAndComputeSignedHash keccak input chainId = .ok (inner, sigHash)) :
    TypedParse keccak 1 EIP2930Tx.decodeListBody .eip2930 input inner sigHash ∨
    TypedParse keccak 2 EIP1559Tx.decodeListBody .eip1559 input inner sigHash ∨
    TypedParse keccak 4 EIP7702Tx.decodeListBody .eip7702 input inner sigHash ∨
    LegacyParse keccak chainId input inner sigHash := by
  unfold parseAndComputeSignedHash at h
  split at h
  · rename_i txType remaining hu8
    split at h
    · rename_i ht
      subst ht
      exact .inl (typedParse_of_ok local_eip2930Body hu8 (by decide) (by decide) h)
    split at h
    · rename_i ht
      subst ht
      exact .inr (.inl (typedParse_of_ok local_eip1559Body hu8 (by decide) (by decide) h))
    split at h
    · rename_i ht
      subst ht
      exact .inr (.inr (.inl (typedParse_of_ok local_eip7702Body hu8 (by decide) (by decide) h)))
    · cases h
  · cases hp : parseLegacy keccak input chainId with
    | error e => simp [hp, bind, Except.bind] at h
    | ok r =>
      obtain ⟨tx, sig, hash⟩ := r
      simp only [hp, bind, Except.bind, pure, Except.pure, Except.ok.injEq, Prod.mk.injEq] at h
      obtain ⟨rfl, rfl⟩ := h
      exact .inr (.inr (.inr (legacyParse_of_ok hp)))

/-! ## Same hash, same signature -/

theorem TypedParse.eq_of_lengthBytes {txType : UInt8} (hk : Function.Injective keccak) (htype : txType < 0xc0)
    (hA : TypedParse keccak txType payloadBody mk A innerA sigHash)
    (hB : TypedParse keccak txType payloadBody mk B innerB sigHash)
    (hsig : ∀ tx sig tx' sig', innerA = mk tx sig → innerB = mk tx' sig' → sig = sig')
    (hll : outerLengthBytes A = outerLengthBytes B) : A = B := by
  obtain ⟨src, tx, sig, slice, rfl, hparsed, hhash, hinner⟩ := hA
  obtain ⟨src', tx', sig', slice', rfl, hparsed', hhash', hinner'⟩ := hB
  have hpre := (List.cons.inj (hk (hhash.symm.trans hhash'))).2
  have hslice : slice = slice' :=
    listHeader_append_inj (Nat.mod_lt _ (by decide)) (Nat.mod_lt _ (by decide)) hpre
  subst hslice
  obtain rfl := hsig tx sig tx' sig' hinner hinner'
  rw [outerLengthBytes, if_pos htype, outerLengthBytes, if_pos htype] at hll
  rw [hparsed.src_eq eip2718Signature_canonical hparsed' hll]

/-- The six legacy fields cannot end both before and after the EIP-155 suffix. -/
theorem legacy_preimages_ne {slice' : List UInt8} {tx' : LegacyTXInner}
    (h : LegacyTXInner.decodeListBody.Reads slice tx) (h' : LegacyTXInner.decodeListBody.Reads slice' tx') :
    legacyPreimage slice ≠ eip155Preimage chainId slice' := by
  intro he
  have hslice : slice = slice' ++ (u64Encoding chainId ++ [0x80, 0x80]) :=
    listHeader_append_inj (Nat.mod_lt _ (by decide)) (Nat.mod_lt _ (by decide)) he
  have hsplit : slice ++ [] = slice' ++ (u64Encoding chainId ++ [0x80, 0x80]) := by
    rw [List.append_nil, hslice]
  have hpre := (h.pre_eq h' hsplit).1
  have hlen := congrArg List.length hslice
  rw [hpre] at hlen
  simp at hlen

theorem ParsedList.reads {S : Type} {signatureBody : Rlp S} {src : List UInt8} {payload : P} {sig : S}
    (h : ParsedList payloadBody signatureBody src payload sig slice) :
    payloadBody.Reads slice payload := by
  obtain ⟨_, _, _, _, hread, _⟩ := h
  exact hread

theorem LegacyParse.eq_of_lengthBytes (hk : Function.Injective keccak)
    (hA : LegacyParse keccak chainId A innerA sigHash) (hB : LegacyParse keccak chainId B innerB sigHash)
    (hsig : (RlpEncodedTransaction.mk A innerA chainId sigHash).sigParityRS =
      (RlpEncodedTransaction.mk B innerB chainId sigHash).sigParityRS) (hll : outerLengthBytes A = outerLengthBytes B)
    : A = B := by
  obtain ⟨tx, ⟨v, r, s⟩, slice, hparsed, hA⟩ := hA
  obtain ⟨tx', ⟨v', r', s'⟩, slice', hparsed', hB⟩ := hB
  rw [hparsed.outerLengthBytes_eq, hparsed'.outerLengthBytes_eq] at hll
  rcases hA with ⟨rfl, hv, hhash⟩ | ⟨rfl, hv, hhash⟩ <;>
    rcases hB with ⟨rfl, hv', hhash'⟩ | ⟨rfl, hv', hhash'⟩
  · have hslice : slice = slice' := listHeader_append_inj (Nat.mod_lt _ (by decide))
      (Nat.mod_lt _ (by decide)) (hk (hhash.symm.trans hhash'))
    simp only [RlpEncodedTransaction.sigParityRS, Prod.mk.injEq] at hsig
    obtain ⟨hpar, rfl, rfl⟩ := hsig
    obtain rfl : v = v' := by
      simp only at hv hv'
      rcases hv with rfl | rfl <;> rcases hv' with rfl | rfl <;> simp_all
    subst hslice
    exact hparsed.src_eq legacySignature_canonical hparsed' hll
  · exact absurd (hk (hhash.symm.trans hhash')) (legacy_preimages_ne hparsed.reads hparsed'.reads)
  · exact absurd (hk (hhash'.symm.trans hhash)) (legacy_preimages_ne hparsed'.reads hparsed.reads)
  · have hsuffix : slice ++ (u64Encoding chainId ++ [0x80, 0x80]) =
        slice' ++ (u64Encoding chainId ++ [0x80, 0x80]) :=
      listHeader_append_inj (Nat.mod_lt _ (by decide)) (Nat.mod_lt _ (by decide))
        (hk (hhash.symm.trans hhash'))
    have hslice : slice = slice' := List.append_cancel_right hsuffix
    simp only [RlpEncodedTransaction.sigParityRS, Prod.mk.injEq] at hsig
    obtain ⟨hpar, rfl, rfl⟩ := hsig
    obtain rfl : v = v' := by
      simp only [minV] at hv hv'
      have e₀ : 35 + chainId * 2 - 35 - chainId * 2 = 0 := by omega
      have e₁ : 35 + chainId * 2 + 1 - 35 - chainId * 2 = 1 := by omega
      rcases hv with rfl | rfl <;> rcases hv' with rfl | rfl <;> simp_all
    subst hslice
    exact hparsed.src_eq legacySignature_canonical hparsed' hll

theorem parseFromBuffer_ok {tx : RlpEncodedTransaction D}
    (h : RlpEncodedTransaction.parseFromBuffer keccak A chainId = .ok tx) :
    ∃ inner sigHash, parseAndComputeSignedHash keccak A chainId = .ok (inner, sigHash) ∧
      tx = ⟨A, inner, chainId, sigHash⟩ := by
  unfold RlpEncodedTransaction.parseFromBuffer at h
  cases hp : parseAndComputeSignedHash keccak A chainId with
  | error e => simp [hp, bind, Except.bind] at h
  | ok r =>
    obtain ⟨inner, sigHash⟩ := r
    simp only [hp, bind, Except.bind, pure, Except.pure, Except.ok.injEq] at h
    exact ⟨inner, sigHash, rfl, h.symm⟩

theorem parse_kinds (h : parseAndComputeSignedHash keccak A chainId = .ok (inner, sigHash)) :
    let type := (RlpEncodedTransaction.mk A inner chainId sigHash).txType
    type = 1 ∧ TypedParse keccak 1 EIP2930Tx.decodeListBody .eip2930 A inner sigHash ∨
    type = 2 ∧ TypedParse keccak 2 EIP1559Tx.decodeListBody .eip1559 A inner sigHash ∨
    type = 4 ∧ TypedParse keccak 4 EIP7702Tx.decodeListBody .eip7702 A inner sigHash ∨
    type = 0 ∧ LegacyParse keccak chainId A inner sigHash := by
  intro type
  rcases parse_cases h with h | h | h | h
  · obtain ⟨_, _, _, _, _, _, _, rfl⟩ := id h
    exact .inl ⟨rfl, h⟩
  · obtain ⟨_, _, _, _, _, _, _, rfl⟩ := id h
    exact .inr (.inl ⟨rfl, h⟩)
  · obtain ⟨_, _, _, _, _, _, _, rfl⟩ := id h
    exact .inr (.inr (.inl ⟨rfl, h⟩))
  · obtain ⟨_, _, _, _, ⟨rfl, -⟩ | ⟨rfl, -⟩⟩ := id h <;> exact .inr (.inr (.inr ⟨rfl, h⟩))

theorem sig_eq_of_sigParityRS {sig sig' : EIP2718SignatureData}
    (h : (sig.yParity, sig.r, sig.s) = (sig'.yParity, sig'.r, sig'.s)) : sig = sig' := by
  obtain ⟨h₁, h₂⟩ := Prod.mk.inj h
  obtain ⟨h₂, h₃⟩ := Prod.mk.inj h₂
  cases sig
  cases sig'
  simp_all

/-- Two accepted buffers of one type with the same signed hash and signature are equal exactly when
their outer headers spend the same number of bytes on the length. -/
theorem buffer_eq_iff (hk : Function.Injective keccak) {chainId : Nat} {A B : List UInt8}
    {txA txB : RlpEncodedTransaction D}
    (hA : RlpEncodedTransaction.parseFromBuffer keccak A chainId = .ok txA)
    (hB : RlpEncodedTransaction.parseFromBuffer keccak B chainId = .ok txB)
    (htype : txA.txType = txB.txType) (hhash : txA.sigHash = txB.sigHash)
    (hsig : txA.sigParityRS = txB.sigParityRS) :
    A = B ↔ outerLengthBytes A = outerLengthBytes B := by
  obtain ⟨innerA, hash, hpA, rfl⟩ := parseFromBuffer_ok hA
  obtain ⟨innerB, hash', hpB, rfl⟩ := parseFromBuffer_ok hB
  obtain rfl : hash = hash' := hhash
  refine ⟨fun h => congrArg _ h, fun hll => ?_⟩
  have hkA := parse_kinds hpA
  have hkB := parse_kinds hpB
  rcases hkA with ⟨hA, h⟩ | ⟨hA, h⟩ | ⟨hA, h⟩ | ⟨hA, h⟩ <;>
    rcases hkB with ⟨hB, h'⟩ | ⟨hB, h'⟩ | ⟨hB, h'⟩ | ⟨hB, h'⟩ <;>
    first
    | exact absurd (hA.symm.trans (htype.trans hB)) (by decide)
    | skip
  · refine h.eq_of_lengthBytes hk (by decide) h' ?_ hll
    rintro tx sig tx' sig' rfl rfl
    exact sig_eq_of_sigParityRS hsig
  · refine h.eq_of_lengthBytes hk (by decide) h' ?_ hll
    rintro tx sig tx' sig' rfl rfl
    exact sig_eq_of_sigParityRS hsig
  · refine h.eq_of_lengthBytes hk (by decide) h' ?_ hll
    rintro tx sig tx' sig' rfl rfl
    exact sig_eq_of_sigParityRS hsig
  · exact h.eq_of_lengthBytes hk h' hsig hll

end

/-- An EIP-1559 transaction of chain 1 with 60 bytes of calldata, under the given list header. -/
def eip1559WithHeader (header : List UInt8) : List UInt8 :=
  0x02 :: (header ++ ([0x01, 0x07, 0x01, 0x02, 0x03, 0x80, 0x80, 0xb8, 60] ++
    List.replicate 60 0 ++ [0xc0, 0x01, 0x05, 0x06]))

theorem eip1559_header_decides :
    ∃ txA txB : RlpEncodedTransaction (List UInt8),
      RlpEncodedTransaction.parseFromBuffer id (eip1559WithHeader [0xf8, 73]) 1 = .ok txA ∧
      RlpEncodedTransaction.parseFromBuffer id (eip1559WithHeader [0xf9, 0, 73]) 1 = .ok txB ∧
      (eip1559WithHeader [0xf8, 73] = eip1559WithHeader [0xf9, 0, 73] ↔
        outerLengthBytes (eip1559WithHeader [0xf8, 73]) =
          outerLengthBytes (eip1559WithHeader [0xf9, 0, 73])) := by
  have h : ∀ txA txB : RlpEncodedTransaction (List UInt8),
      RlpEncodedTransaction.parseFromBuffer id (eip1559WithHeader [0xf8, 73]) 1 = .ok txA →
      RlpEncodedTransaction.parseFromBuffer id (eip1559WithHeader [0xf9, 0, 73]) 1 = .ok txB →
      txA.txType = txB.txType → txA.sigHash = txB.sigHash → txA.sigParityRS = txB.sigParityRS →
      (eip1559WithHeader [0xf8, 73] = eip1559WithHeader [0xf9, 0, 73] ↔ _) :=
    fun _ _ hA hB => buffer_eq_iff Function.injective_id hA hB
  exact ⟨_, _, rfl, rfl, h _ _ rfl rfl rfl rfl rfl⟩

/-- An unprotected legacy transaction with 60 bytes of calldata, under the given list header. -/
def legacyWithHeader (header : List UInt8) : List UInt8 :=
  header ++ ([0x01, 0x02, 0x03, 0x80, 0x80, 0xb8, 60] ++ List.replicate 60 0 ++ [27, 5, 6])

/-- The length 70 of the outer list may be written in one byte or in two; both buffers are
accepted with the same signed hash and signature, and their transaction hashes differ. -/
theorem malleable_outer_header :
    ∃ txA txB : RlpEncodedTransaction (List UInt8),
      RlpEncodedTransaction.parseFromBuffer id (legacyWithHeader [0xf8, 70]) 1 = .ok txA ∧
      RlpEncodedTransaction.parseFromBuffer id (legacyWithHeader [0xf9, 0, 70]) 1 = .ok txB ∧
      txA.txType = txB.txType ∧ txA.sigHash = txB.sigHash ∧ txA.sigParityRS = txB.sigParityRS ∧
      legacyWithHeader [0xf8, 70] ≠ legacyWithHeader [0xf9, 0, 70] ∧
      txA.transactionHash id ≠ txB.transactionHash id :=
  ⟨_, _, rfl, rfl, rfl, rfl, rfl, by decide, by decide⟩

end ZkOs.Tx
