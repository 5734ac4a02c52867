import ZkOs.Tx.NoPanic

/-!
# Parsing a buffer, and reading the transaction later

* `listHeader_eq`, `u64Encoding_eq` : the encoders fed to the hasher do not panic;
* `parseFromBuffer_matches` : `Checked.parseFromBuffer` ends as `parseFromBuffer`;
* `parseFromBuffer_readable` : a buffer is rejected with an error, or every list of the transaction
  can be iterated over and its signature read.
-/

namespace ZkOs.Tx.Checked

open Digits InvalidTransaction Fallible CursorM

/-! ## Encoders -/

variable {n value : Nat}

theorem bits_eq (h : value < 2 ^ (8 * n)) :
    (sub (8 * n) (leadingZeros (8 * n) value) : Fallible InvalidTransaction Nat) = .ok value.size := by
  have hsize : value.size ≤ 8 * n := Nat.size_le.mpr h
  unfold leadingZeros
  rw [sub_of_le (Nat.sub_le _ _), Nat.sub_sub_self hsize]

theorem markedBytes_eq {base : Nat} (h : value < 2 ^ (8 * n)) (hbase : base + n < 2 ^ 8) :
    markedBytes n base value = .ok (UInt8.ofNat (base + byteLen value) :: beBytes (byteLen value) value) := by
  have hsize : value.size ≤ 8 * n := Nat.size_le.mpr h
  have hle : byteLen value ≤ n := by
    unfold byteLen
    omega
  have hsplit : beBytes n value = beBytes (n - byteLen value) (value / 256 ^ byteLen value) ++ beBytes (byteLen value) value := by
    rw [← beBytes_add, Nat.sub_add_cancel hle]
  have htail : (slice (beBytes n value) (n - byteLen value) n : Fallible InvalidTransaction _) =
      .ok (beBytes (byteLen value) value) := by
    rw [slice_of_le (Nat.sub_le _ _) (length_beBytes n value).ge, List.take_of_length_le (length_beBytes n value).le, hsplit,
      List.drop_left' (length_beBytes _ _)]
  unfold markedBytes
  rw [bits_eq h]
  show add 8 base (byteLen value) >>= _ = _
  rw [add_of_lt (by omega)]
  show sub n (byteLen value) >>= _ = _
  rw [sub_of_le hle]
  show slice (beBytes n value) (n - byteLen value) n >>= _ = _
  rw [htail]
  rfl

theorem listHeader_eq {length : Nat} (h : length < 2 ^ 32) : listHeader length = .ok (Tx.listHeader length) := by
  unfold listHeader Tx.listHeader
  by_cases hshort : length < 56
  · rw [if_pos hshort, if_pos hshort, add_of_lt (by omega)]
    rfl
  · rw [if_neg hshort, if_neg hshort]
    exact markedBytes_eq h (by decide)

theorem u64EncodingLen_eq (h : value < 2 ^ 64) : u64EncodingLen value = .ok (Tx.u64EncodingLen value) := by
  unfold u64EncodingLen Tx.u64EncodingLen
  by_cases hshort : value < 0x80
  · rw [if_pos hshort, if_pos hshort]
  · have hbits : (sub 64 (leadingZeros 64 value) : Fallible InvalidTransaction Nat) = .ok value.size := bits_eq (n := 8) h
    rw [if_neg hshort, if_neg hshort, hbits]
    rfl

theorem u64Encoding_eq (h : value < 2 ^ 64) : u64Encoding value = .ok (Tx.u64Encoding value) := by
  unfold u64Encoding Tx.u64Encoding
  by_cases hzero : value = 0
  · rw [if_pos hzero, if_pos hzero]
  · by_cases hshort : value < 0x80
    · rw [if_neg hzero, if_neg hzero, if_pos hshort, if_pos hshort]
    · rw [if_neg hzero, if_neg hzero, if_neg hshort, if_neg hshort]
      exact markedBytes_eq h (by decide)

theorem u64EncodingLen_le (h : value < 2 ^ 64) : Tx.u64EncodingLen value ≤ 9 := by
  have hsize : value.size ≤ 64 := Nat.size_le.mpr h
  unfold Tx.u64EncodingLen byteLen
  split <;> omega

/-! ## Payload and signature -/

section
variable {usizeBits n : Nat} (hn : n ≤ 2 ^ usizeBits)
include hn

variable {P : Type} {p : P → Prop} {payloadBody : Parse P} {d : Rlp P} {src : List UInt8}

theorem parsePayloadAndSignature_matches {S : Type} {q : S → Prop} {signatureBody : Parse S} {d' : Rlp S}
    (h : Follows n (fun a b => a = b ∧ p a) payloadBody d) (h' : Follows n (fun a b => a = b ∧ q a) signatureBody d')
    (hsrc : src.length < n) :
    Matches (fun a b => a = b ∧ p a.1 ∧ q a.2.1 ∧ a.2.2.length < n)
      (parsePayloadAndSignature usizeBits payloadBody signatureBody src) (Tx.parsePayloadAndSignature d d' src) := by
  unfold parsePayloadAndSignature Tx.parsePayloadAndSignature
  refine ((list_follows hn).runFull _ (Cursor.within_new hsrc)).bind fun inner content hc => ?_
  obtain ⟨rfl, hlt⟩ := hc
  refine (h _ (Cursor.within_new hlt)).bind fun r s hrs => ?_
  obtain ⟨payload, c⟩ := r
  obtain ⟨payload', rest⟩ := s
  obtain ⟨⟨rfl, hp⟩, hat⟩ := hrs
  have hslice : consumedSince c (Cursor.new content).pos = .ok (content.take (content.length - rest.length)) := by
    have hpos : c.pos = content.length - rest.length := hat.pos_eq
    have hbytes : c.bytes = content := hat.bytes_eq
    have hle : c.pos ≤ content.length := hat.pos_le
    show slice c.bytes 0 c.pos = _
    rw [hbytes, slice_of_le (Nat.zero_le _) hle, hpos]
    rfl
  show Matches _ (consumedSince c (Cursor.new content).pos >>= _) _
  rw [hslice]
  have hrest : c.bytes.drop c.pos = rest := by rw [hat.bytes_eq, hat.drop_eq]
  have hsig := h'.runFull invalidStructure (hat.within hlt)
  rw [hrest] at hsig
  refine hsig.bind fun sig sig' hs => ?_
  obtain ⟨rfl, hq⟩ := hs
  refine ⟨rfl, hp, hq, ?_⟩
  show (content.take _).length < n
  rw [List.length_take]
  omega

theorem parseEip2718_matches {D : Type} (keccak : List UInt8 → D) (txType : UInt8)
    (h : Follows n (fun a b => a = b ∧ p a) payloadBody d) (hsrc : src.length < n) :
    Matches (fun a b => a = b ∧ p a.1 ∧ SigFits a.2.1.r a.2.1.s) (parseEip2718 usizeBits keccak txType payloadBody src)
      (Tx.parseEip2718 keccak txType d src) := by
  unfold parseEip2718 Tx.parseEip2718
  refine (parsePayloadAndSignature_matches hn h (eip2718Signature_follows hn) hsrc).bind fun a b hab => ?_
  obtain ⟨payload, sig, innerSlice⟩ := a
  obtain ⟨rfl, hp, hsig, -⟩ := hab
  show Matches _ (listHeader (innerSlice.length % 2 ^ 32) >>= _) _
  rw [listHeader_eq (Nat.mod_lt _ (by decide))]
  exact ⟨rfl, hp, hsig⟩

/-- A legacy signature that is accepted has a `v` from which the parity can be computed. -/
def LegacyV (chainId : Nat) (sig : LegacySignatureData) : Prop :=
  if sig.isEip155 then 35 + chainId * 2 ≤ sig.v else 27 ≤ sig.v

end

theorem parseLegacy_matches {usizeBits : Nat} (hn : n + 11 ≤ 2 ^ usizeBits) {D : Type} (keccak : List UInt8 → D)
    {src : List UInt8} (hsrc : src.length < n) {chainId : Nat} (hchain : chainId < 2 ^ 64) :
    Matches (fun a b => a = b ∧ SigFits a.2.1.r a.2.1.s ∧ LegacyV chainId a.2.1) (parseLegacy usizeBits keccak src chainId)
      (Tx.parseLegacy keccak src chainId) := by
  have hn' : n ≤ 2 ^ usizeBits := by omega
  have hbody : Follows n (fun a b => a = b ∧ True) (LegacyTXInner.decodeListBody usizeBits)
      Tx.LegacyTXInner.decodeListBody := (legacyBody_follows hn').mono fun _ _ h => ⟨h, trivial⟩
  unfold parseLegacy Tx.parseLegacy
  refine (parsePayloadAndSignature_matches hn' hbody (legacySignature_follows hn') hsrc).bind fun a b hab => ?_
  obtain ⟨legacyInner, sig, innerSlice⟩ := a
  obtain ⟨rfl, -, hsig, hslice⟩ := hab
  replace hslice : innerSlice.length < n := hslice
  show Matches _ (if sig.isEip155 then _ else _) (if sig.isEip155 then _ else _)
  by_cases h155 : sig.isEip155 = true
  · rw [if_pos h155, if_pos h155, mul_of_lt (by omega)]
    show Matches _ (add 256 35 (chainId * 2) >>= _) _
    rw [add_of_lt (by omega)]
    show Matches _ (add 256 (minV chainId) 1 >>= _) _
    rw [add_of_lt (by unfold minV; omega)]
    show Matches _ (if sig.v = minV chainId ∨ sig.v = minV chainId + 1 then _ else _) _
    by_cases hv : sig.v = minV chainId ∨ sig.v = minV chainId + 1
    · have hlen := u64EncodingLen_le hchain
      rw [if_pos hv, if_pos hv, u64EncodingLen_eq hchain]
      show Matches _ (add usizeBits innerSlice.length _ >>= _) _
      rw [add_of_lt (by omega)]
      show Matches _ (add usizeBits _ 2 >>= _) _
      rw [add_of_lt (by omega)]
      show Matches _ (listHeader _ >>= _) _
      rw [listHeader_eq (Nat.mod_lt _ (by decide)), u64Encoding_eq hchain]
      refine ⟨rfl, hsig, ?_⟩
      unfold LegacyV
      rw [if_pos h155]
      show minV chainId ≤ sig.v
      omega
    · rw [if_neg hv, if_neg hv]
      rfl
  · rw [if_neg h155, if_neg h155, listHeader_eq (Nat.mod_lt _ (by decide))]
    refine ⟨rfl, hsig, ?_⟩
    unfold LegacyV
    rw [if_neg h155]
    have hv : sig.v = 27 ∨ sig.v = 28 := by
      unfold LegacySignatureData.isEip155 at h155
      simp at h155
      omega
    show 27 ≤ sig.v
    omega

/-! ## The transaction -/

structure Readable (usizeBits : Nat) {D : Type} (tx : RlpEncodedTransaction D) : Prop where
  accessList : ∀ l, accessListOf tx = some l → HomList.Lazy (accessListItem usizeBits) (KeysRead usizeBits) l
  authorizationList : ∀ l, authorizationListOf tx = some l →
    HomList.Lazy (authorizationItem usizeBits) (fun v => SigFits v.r v.s) l
  signature : ∃ parity r s, sigParityRS tx = .ok (parity, r, s) ∧ SigFits r s

section
variable {usizeBits : Nat} {D : Type} {buffer : List UInt8} {chainId : Nat} {sigHash : D}

theorem readable_legacy {tx : LegacyTXInner} {sig : LegacySignatureData} (hsig : SigFits sig.r sig.s)
    (hv : LegacyV chainId sig) (hchain : chainId < 2 ^ 64) :
    Readable usizeBits ⟨buffer, if sig.isEip155 then .legacyWithEIP155 tx sig else .legacy tx sig, chainId, sigHash⟩ := by
  unfold LegacyV at hv
  by_cases h155 : sig.isEip155 = true
  · rw [if_pos h155] at hv ⊢
    refine ⟨nofun, nofun, (sig.v - 35 - chainId * 2 == 1), sig.r, sig.s, ?_, hsig⟩
    unfold sigParityRS
    show sub sig.v 35 >>= _ = _
    rw [sub_of_le (by omega)]
    show mul 256 chainId 2 >>= _ = _
    rw [mul_of_lt (by omega)]
    show sub (sig.v - 35) (chainId * 2) >>= _ = _
    rw [sub_of_le (by omega)]
    rfl
  · rw [if_neg h155] at hv ⊢
    refine ⟨nofun, nofun, (sig.v - 27 == 1), sig.r, sig.s, ?_, hsig⟩
    unfold sigParityRS
    show sub sig.v 27 >>= _ = _
    rw [sub_of_le hv]
    rfl

end

section
variable {usizeBits n : Nat} (hn : n + 11 ≤ 2 ^ usizeBits) {D : Type} (keccak : List UInt8 → D) {chainId : Nat}
  (hchain : chainId < 2 ^ 64)
include hn

theorem parseTyped_matches {P : Type} {p : P → Prop} {q : RlpEncodedTxInner → Prop} (txType : UInt8)
    {payloadBody : Parse P} {d : Rlp P} (h : Follows n (fun a b => a = b ∧ p a) payloadBody d) (chainIdOf : P → Nat)
    {mk : P → EIP2718SignatureData → RlpEncodedTxInner} (hmk : ∀ tx sig, p tx → SigFits sig.r sig.s → q (mk tx sig))
    {src : List UInt8} (hsrc : src.length < n) :
    Matches (fun a b => a = b ∧ q a.1) (parseTyped usizeBits keccak txType payloadBody chainIdOf mk src chainId)
      (Tx.parseTyped keccak txType d chainIdOf mk src chainId) := by
  unfold parseTyped Tx.parseTyped
  refine (parseEip2718_matches (by omega) keccak txType h hsrc).bind fun a b hab => ?_
  obtain ⟨tx, sig, hash⟩ := a
  obtain ⟨rfl, hp, hsig⟩ := hab
  show Matches _ (if chainIdOf tx = chainId then _ else _) (if chainIdOf tx = chainId then _ else _)
  by_cases hid : chainIdOf tx = chainId
  · rw [if_pos hid, if_pos hid]
    exact ⟨rfl, hmk tx sig hp hsig⟩
  · rw [if_neg hid, if_neg hid]
    rfl

include hchain

variable {buffer : List UInt8}

theorem parseAndComputeSignedHash_matches (hlen : buffer.length < n) :
    Matches (fun a b => a = b ∧ ∀ hash : D, Readable usizeBits ⟨buffer, a.1, chainId, hash⟩)
      (parseAndComputeSignedHash usizeBits keccak buffer chainId)
      (Tx.parseAndComputeSignedHash keccak buffer chainId) := by
  have hn' : n ≤ 2 ^ usizeBits := by omega
  unfold parseAndComputeSignedHash Tx.parseAndComputeSignedHash
  let q : RlpEncodedTxInner → Prop := fun inner => ∀ hash : D, Readable usizeBits ⟨buffer, inner, chainId, hash⟩
  have hu8 := u8_follows hn' (.new buffer) (Cursor.within_new hlen)
  rcases hu8.cases with ⟨e, hm, hd⟩ | ⟨⟨txType, c⟩, ⟨txType', rest⟩, hm, hd, rfl, hat⟩
  · -- the legacy path
    rw [hm, show Rlp.u8 buffer = _ from hd]
    refine (parseLegacy_matches hn keccak hlen hchain).bind fun a b hab => ?_
    obtain ⟨tx, sig, hash⟩ := a
    obtain ⟨rfl, hsig, hv⟩ := hab
    exact ⟨rfl, fun _ => readable_legacy hsig hv hchain⟩
  · rw [hm, show Rlp.u8 buffer = _ from hd]
    have hrest : remaining c = .ok rest := by
      have hbytes : c.bytes = buffer := hat.bytes_eq
      have hle : c.pos ≤ buffer.length := hat.pos_le
      have hdrop : buffer.drop c.pos = rest := hat.drop_eq
      unfold remaining
      rw [hbytes, slice_to_end hle, hdrop]
    have hshort : rest.length < n := by
      have hdrop : buffer.drop c.pos = rest := hat.drop_eq
      rw [← hdrop, List.length_drop]
      omega
    show Matches _ (remaining c >>= _) _
    rw [hrest]
    show Matches _ (if txType = 1 then _ else if txType = 2 then _ else if txType = 4 then _ else _)
      (if txType = 1 then _ else if txType = 2 then _ else if txType = 4 then _ else _)
    by_cases h1 : txType = 1
    · rw [if_pos h1, if_pos h1]
      refine parseTyped_matches (q := q) hn keccak 1 (eip2930Body_follows hn') _ (fun tx sig hp hsig hash => ?_) hshort
      exact ⟨fun l hl => Option.some.inj hl ▸ hp, nofun, _, _, _, rfl, hsig⟩
    · rw [if_neg h1, if_neg h1]
      by_cases h2 : txType = 2
      · rw [if_pos h2, if_pos h2]
        refine parseTyped_matches (q := q) hn keccak 2 (eip1559Body_follows hn') _ (fun tx sig hp hsig hash => ?_) hshort
        exact ⟨fun l hl => Option.some.inj hl ▸ hp, nofun, _, _, _, rfl, hsig⟩
      · rw [if_neg h2, if_neg h2]
        by_cases h4 : txType = 4
        · rw [if_pos h4, if_pos h4]
          refine parseTyped_matches (q := q) hn keccak 4 (eip7702Body_follows hn') _ (fun tx sig hp hsig hash => ?_) hshort
          exact ⟨fun l hl => Option.some.inj hl ▸ hp.1, fun l hl => Option.some.inj hl ▸ hp.2, _, _, _, rfl, hsig⟩
        · rw [if_neg h4, if_neg h4]
          rfl

/-- With its panics, the parser does what it does without them. -/
theorem parseFromBuffer_matches (hlen : buffer.length < n) :
    Matches (fun a b => a = b ∧ Readable usizeBits a) (parseFromBuffer usizeBits keccak buffer chainId)
      (RlpEncodedTransaction.parseFromBuffer keccak buffer chainId) := by
  unfold parseFromBuffer RlpEncodedTransaction.parseFromBuffer
  refine (parseAndComputeSignedHash_matches hn keccak hchain hlen).bind fun a b hab => ?_
  obtain ⟨inner, sigHash⟩ := a
  obtain ⟨rfl, hread⟩ := hab
  exact ⟨rfl, hread sigHash⟩

end

/-- An EIP-2930 transaction with one storage key in its access list. -/
def oneKeyBuffer : List UInt8 :=
  [0x01, 0xf8, 0x44, 0x01, 0x80, 0x80, 0x80, 0x80, 0x80, 0x80, 0xf8, 0x38, 0xf7, 0x94] ++ List.replicate 20 0xaa ++
    [0xe1, 0xa0] ++ List.replicate 32 0xbb ++ [0x80, 0x01, 0x01]

end ZkOs.Tx.Checked
