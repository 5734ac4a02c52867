import ZkOs.Tx.Encoded

/-!
# Properties of the RLP parser

* every item is read as a prefix (`local_*`), so what is parsed does not depend on what follows;
* strings shorter than 56 bytes have one encoding (`bytes_reads_short`), hence so do integers of at
  most 32 bytes and signature words;
* `list_runAll` : the header of a list, and how far its payload determines it;
* `listHeader_append_inj` : the header fed to the hasher is prefix free.
-/

namespace ZkOs.Tx

open Digits InvalidTransaction Decoder

/-! ## Items are prefixes -/

theorem local_takeExact (n : Nat) : (Rlp.takeExact n).Local := by
  intro xs a rest h
  unfold Rlp.takeExact at h
  split at h
  · cases h
  · obtain ⟨rfl, rfl⟩ := Prod.mk.inj (Except.ok.inj h)
    refine ⟨xs.take n, (List.take_append_drop n xs).symm, fun rest' => ?_⟩
    have hlen : (xs.take n).length = n := by rw [List.length_take]; omega
    unfold Rlp.takeExact
    rw [if_neg (by simp [hlen]), List.take_left' hlen, List.drop_left' hlen]

theorem local_take1 : Rlp.take1.Local := by
  intro xs a rest h
  cases xs with
  | nil => cases h
  | cons b xs =>
    obtain ⟨rfl, rfl⟩ := Prod.mk.inj (Except.ok.inj h)
    exact ⟨[b], rfl, fun _ => rfl⟩

theorem local_longLength (ll : Nat) : (Rlp.longLength ll).Local :=
  (local_ensure _ _).bind fun _ => (local_takeExact _).bind fun _ =>
    (local_ensure _ _).bind fun _ => local_pure _

theorem local_bytes : Rlp.bytes.Local := by
  refine local_take1.bind fun m => ?_
  refine Local.ite (local_pure _) (Local.ite ?_ (Local.ite ?_ (local_fail _)))
  · exact (local_takeExact _).bind fun _ => (local_ensure _ _).bind fun _ => local_pure _
  · exact (local_longLength _).bind fun _ => local_takeExact _

theorem local_list : Rlp.list.Local := by
  refine local_take1.bind fun m => (local_ensure _ _).bind fun _ => ?_
  exact (Local.ite (local_pure _) (local_longLength _)).bind fun _ => local_takeExact _

theorem local_uint (n : Nat) : (Rlp.uint n).Local :=
  local_bytes.bind fun _ => (local_ensure _ _).bind fun _ => (local_ensure _ _).bind fun _ =>
    local_pure _

theorem local_u8 : Rlp.u8.Local :=
  local_bytes.bind fun _ => (local_ensure _ _).bind fun _ => local_pure _

theorem local_bool : Rlp.bool.Local :=
  local_u8.bind fun _ => (local_ensure _ _).bind fun _ => local_pure _

variable {α : Type} {n v : Nat} {xs rest ys pre src content : List UInt8} {e : InvalidTransaction} {m : UInt8}

theorem local_homList (item : Rlp α) : (Rlp.homList item).Local :=
  local_list.bind fun _ => (local_lift _).bind fun _ => local_pure _

theorem local_destination : destination.Local :=
  local_bytes.bind fun _ => (local_ensure _ _).bind fun _ => local_pure _

theorem local_address20 : address20.Local :=
  local_bytes.bind fun _ => (local_ensure _ _).bind fun _ => local_pure _

/-! ## Transaction bodies are prefixes -/

theorem local_legacyBody : LegacyTXInner.decodeListBody.Local :=
  (local_uint 8).bind fun _ => (local_uint 32).bind fun _ => (local_uint 8).bind fun _ =>
    local_destination.bind fun _ => (local_uint 32).bind fun _ => local_bytes.bind fun _ =>
      local_pure _

theorem local_eip2930Body : EIP2930Tx.decodeListBody.Local :=
  (local_uint 8).bind fun _ => (local_uint 8).bind fun _ => (local_uint 32).bind fun _ =>
    (local_uint 8).bind fun _ => local_destination.bind fun _ => (local_uint 32).bind fun _ =>
      local_bytes.bind fun _ => (local_homList _).bind fun _ => local_pure _

theorem local_eip1559Body : EIP1559Tx.decodeListBody.Local :=
  (local_uint 8).bind fun _ => (local_uint 8).bind fun _ => (local_uint 32).bind fun _ =>
    (local_uint 32).bind fun _ => (local_uint 8).bind fun _ => local_destination.bind fun _ =>
      (local_uint 32).bind fun _ => local_bytes.bind fun _ => (local_homList _).bind fun _ =>
        local_pure _

theorem local_eip7702Body : EIP7702Tx.decodeListBody.Local :=
  (local_uint 8).bind fun _ => (local_uint 8).bind fun _ => (local_uint 32).bind fun _ =>
    (local_uint 32).bind fun _ => (local_uint 8).bind fun _ => local_address20.bind fun _ =>
      (local_uint 32).bind fun _ => local_bytes.bind fun _ => (local_homList _).bind fun _ =>
        (local_homList _).bind fun _ => (local_ensure _ _).bind fun _ => local_pure _

theorem local_legacySignature : LegacySignatureData.decodeListBody.Local :=
  (local_uint 32).bind fun _ => local_bytes.bind fun _ => local_bytes.bind fun _ =>
    (local_ensure _ _).bind fun _ => local_pure _

theorem local_eip2718Signature : EIP2718SignatureData.decodeListBody.Local :=
  local_bool.bind fun _ => local_bytes.bind fun _ => local_bytes.bind fun _ =>
    (local_ensure _ _).bind fun _ => local_pure _

/-! ## Short strings have one encoding -/

/-- The only accepted encoding of a string shorter than 56 bytes. -/
def shortEncoding : List UInt8 → List UInt8
  | [b] => if b < 0x80 then [b] else [0x81, b]
  | s => UInt8.ofNat (0x80 + s.length) :: s

theorem takeExact_ok {a : List UInt8} (h : Rlp.takeExact n xs = .ok (a, rest)) : a.length = n ∧ xs = a ++ rest := by
  unfold Rlp.takeExact at h
  split at h
  · cases h
  · obtain ⟨rfl, rfl⟩ := Prod.mk.inj (Except.ok.inj h)
    exact ⟨by rw [List.length_take]; omega, (List.take_append_drop n xs).symm⟩

theorem ensure_ok {c : Prop} [Decidable c] {u : Unit} (h : (Decoder.ensure c e : Rlp Unit) xs = .ok (u, ys))
    : c ∧ xs = ys := by
  unfold Decoder.ensure at h
  split at h
  · exact ⟨‹_›, (Prod.mk.inj (Except.ok.inj h)).2⟩
  · cases h

theorem longLength_ok {ll len : Nat} (h : Rlp.longLength ll xs = .ok (len, rest)) :
    ∃ lenBytes, xs = lenBytes ++ rest ∧ lenBytes.length = ll ∧ beNat lenBytes = len ∧
      56 ≤ len := by
  obtain ⟨_, ys, h₁, h₂⟩ := bind_ok.mp h
  obtain ⟨lenBytes, zs, h₃, h₄⟩ := bind_ok.mp h₂
  obtain ⟨_, ws, h₅, h₆⟩ := bind_ok.mp h₄
  obtain ⟨-, rfl⟩ := ensure_ok h₁
  obtain ⟨hlen, hxs⟩ := takeExact_ok h₃
  obtain ⟨h56, rfl⟩ := ensure_ok h₅
  obtain ⟨rfl, rfl⟩ := Prod.mk.inj (Except.ok.inj h₆)
  exact ⟨lenBytes, hxs, hlen, rfl, h56⟩

theorem take1_ok (h : Rlp.take1 xs = .ok (m, ys)) :
    xs = m :: ys := by
  cases xs with
  | nil => cases h
  | cons b xs =>
    obtain ⟨rfl, rfl⟩ := Prod.mk.inj (Except.ok.inj h)
    rfl

theorem shortEncoding_of_payload {payload : List UInt8} (hm : 0x80 ≤ m.toNat) (hlen : payload.length = m.toNat - 0x80)
    (hcanon : ¬ (m.toNat - 0x80 = 1 ∧ payload.headD 0 < 0x80)) :
    shortEncoding payload = m :: payload := by
  have hmEq : m = UInt8.ofNat (0x80 + payload.length) := by
    apply UInt8.toNat_inj.mp
    rw [hlen, Nat.add_sub_cancel' hm]
    simp
  match payload, hlen, hcanon, hmEq with
  | [b], hlen, hcanon, hmEq =>
    have hb : ¬ b < 0x80 := fun hb => hcanon ⟨by simpa using hlen.symm, hb⟩
    rw [hmEq]
    simp [shortEncoding, hb]
  | [], _, _, hmEq => rw [hmEq]; rfl
  | _ :: _ :: _, _, _, hmEq => rw [hmEq]; rfl

theorem bytes_ok_short {s : List UInt8} (h : Rlp.bytes xs = .ok (s, rest)) (hs : s.length < 56)
    : xs = shortEncoding s ++ rest := by
  obtain ⟨m, ys, h₁, h₂⟩ := bind_ok.mp h
  rw [take1_ok h₁]
  split at h₂
  · rename_i hm
    obtain ⟨rfl, rfl⟩ := Prod.mk.inj (Except.ok.inj h₂)
    simp [shortEncoding, hm]
  split at h₂
  · rename_i hm _
    simp only [bind_ok] at h₂
    obtain ⟨payload, zs, h₃, _, ws, h₅, h₆⟩ := h₂
    obtain ⟨hlen, rfl⟩ := takeExact_ok h₃
    obtain ⟨hcanon, rfl⟩ := ensure_ok h₅
    obtain ⟨rfl, rfl⟩ := Prod.mk.inj (Except.ok.inj h₆)
    have hm80 : 0x80 ≤ m.toNat := by simpa [UInt8.lt_iff_toNat_lt] using hm
    rw [shortEncoding_of_payload hm80 hlen hcanon, List.cons_append]
  split at h₂
  · simp only [bind_ok] at h₂
    obtain ⟨len, zs, h₃, h₄⟩ := h₂
    obtain ⟨_, _, _, _, h56⟩ := longLength_ok h₃
    obtain ⟨hlen, -⟩ := takeExact_ok h₄
    omega
  · cases h₂

theorem uint_reads (hn : n < 56) (h : (Rlp.uint n).Reads pre v) :
    ∃ s, pre = shortEncoding s ∧ Rlp.NoLeadingZero s ∧ beNat s = v := by
  obtain ⟨s, ys, h₁, h₂⟩ := bind_ok.mp (h [])
  simp only [bind_ok] at h₂
  obtain ⟨_, zs, h₃, _, ws, h₄, h₅⟩ := h₂
  obtain ⟨hlen, rfl⟩ := ensure_ok h₃
  obtain ⟨hz, rfl⟩ := ensure_ok h₄
  obtain ⟨rfl, rfl⟩ := Prod.mk.inj (Except.ok.inj h₅)
  refine ⟨s, ?_, hz, rfl⟩
  simpa using bytes_ok_short h₁ (by omega)

theorem uint_canonical (hn : n < 56) : (Rlp.uint n).Canonical := by
  intro pre pre' v h h'
  obtain ⟨s, rfl, hz, hv⟩ := uint_reads hn h
  obtain ⟨s', rfl, hz', hv'⟩ := uint_reads hn h'
  rw [beNat_inj_of_head hz hz' (hv.trans hv'.symm)]

theorem u8_ok (h : Rlp.u8 xs = .ok (v, rest)) :
    ∃ s, xs = shortEncoding s ++ rest ∧ s.length ≤ 1 ∧ Rlp.NoLeadingZero s ∧ beNat s = v := by
  obtain ⟨s, ys, h₁, h₂⟩ := bind_ok.mp h
  simp only [bind_ok] at h₂
  obtain ⟨_, zs, h₃, h₄⟩ := h₂
  obtain ⟨⟨hlen, hz⟩, rfl⟩ := ensure_ok h₃
  obtain ⟨rfl, rfl⟩ := Prod.mk.inj (Except.ok.inj h₄)
  exact ⟨s, bytes_ok_short h₁ (by omega), hlen, hz, rfl⟩

theorem u8_marker (h : Rlp.u8 xs = .ok (v, rest)) (hpos : 0 < v) (hv : v < 0x80) : xs = UInt8.ofNat v :: rest := by
  obtain ⟨s, rfl, hlen, -, hval⟩ := u8_ok h
  cases s with
  | nil =>
    simp only [beNat, List.foldl_nil] at hval
    omega
  | cons b s =>
    obtain rfl : s = [] := by simpa using hlen
    have hb : b.toNat = v := by simpa [beNat] using hval
    have hlt : b < 0x80 := by rw [UInt8.lt_iff_toNat_lt, hb]; exact hv
    simp [shortEncoding, hlt, ← hb]

theorem bool_reads {v : Bool} (h : Rlp.bool.Reads pre v) :
    pre = shortEncoding (if v then [1] else []) := by
  obtain ⟨n, ys, h₁, h₂⟩ := bind_ok.mp (h [])
  simp only [bind_ok] at h₂
  obtain ⟨_, zs, h₃, h₄⟩ := h₂
  obtain ⟨hle, rfl⟩ := ensure_ok h₃
  obtain ⟨rfl, rfl⟩ := Prod.mk.inj (Except.ok.inj h₄)
  obtain ⟨s, hpre, hlen, hz, hval⟩ := u8_ok h₁
  simp only [List.append_nil] at hpre
  rw [hpre]
  congr 1
  apply beNat_inj_of_head hz
  · split <;> simp
  · rw [hval]
    interval_cases n <;> rfl

theorem sigWords_reads {f : List UInt8 → List UInt8 → α} {a : α} (h : Reads (do
      let r ← Rlp.bytes
      let s ← Rlp.bytes
      Decoder.ensure (SigWord r ∧ SigWord s) invalidStructure
      pure (f r s) : Rlp α) pre a) :
    ∃ r s, pre = shortEncoding r ++ shortEncoding s ∧ a = f r s := by
  have h0 := h []
  simp only [bind_ok] at h0
  obtain ⟨r, ys, h₁, s, zs, h₂, _, ws, h₃, h₄⟩ := h0
  obtain ⟨⟨hr, hs⟩, rfl⟩ := ensure_ok h₃
  obtain ⟨rfl, rfl⟩ := Prod.mk.inj (Except.ok.inj h₄)
  have e₁ := bytes_ok_short h₁ (by have := hr.1; omega)
  have e₂ := bytes_ok_short h₂ (by have := hs.1; omega)
  refine ⟨r, s, ?_, rfl⟩
  rw [e₂] at e₁
  simpa using e₁

theorem legacySignature_canonical : LegacySignatureData.decodeListBody.Canonical := by
  intro pre pre' sig h h'
  have hl : ∀ v, (do
      let r ← Rlp.bytes
      let s ← Rlp.bytes
      Decoder.ensure (SigWord r ∧ SigWord s) invalidStructure
      pure { v := v, r := r, s := s } : Rlp LegacySignatureData).Local := fun v =>
    local_bytes.bind fun _ => local_bytes.bind fun _ => (local_ensure _ _).bind fun _ =>
      local_pure _
  obtain ⟨v, x, y, rfl, hx, hy⟩ := h.of_bind (local_uint 32) hl
  obtain ⟨v', x', y', rfl, hx', hy'⟩ := h'.of_bind (local_uint 32) hl
  obtain ⟨r, s, rfl, rfl⟩ := sigWords_reads hy
  obtain ⟨r', s', rfl, he⟩ := sigWords_reads hy'
  obtain ⟨rfl, rfl, rfl⟩ := LegacySignatureData.mk.inj he
  rw [uint_canonical (by decide) _ _ _ hx hx']

theorem eip2718Signature_canonical : EIP2718SignatureData.decodeListBody.Canonical := by
  intro pre pre' sig h h'
  have hl : ∀ v, (do
      let r ← Rlp.bytes
      let s ← Rlp.bytes
      Decoder.ensure (SigWord r ∧ SigWord s) invalidStructure
      pure { yParity := v, r := r, s := s } : Rlp EIP2718SignatureData).Local := fun v =>
    local_bytes.bind fun _ => local_bytes.bind fun _ => (local_ensure _ _).bind fun _ =>
      local_pure _
  obtain ⟨v, x, y, rfl, hx, hy⟩ := h.of_bind local_bool hl
  obtain ⟨v', x', y', rfl, hx', hy'⟩ := h'.of_bind local_bool hl
  obtain ⟨r, s, rfl, rfl⟩ := sigWords_reads hy
  obtain ⟨r', s', rfl, he⟩ := sigWords_reads hy'
  obtain ⟨rfl, rfl, rfl⟩ := EIP2718SignatureData.mk.inj he
  rw [bool_reads hx, bool_reads hx']

/-! ## List headers -/

/-- Number of length bytes in a list header; none in the short form. -/
def listLengthBytes : List UInt8 → Nat
  | [] => 0
  | m :: _ => m.toNat - 0xf7

theorem listLengthBytes_cons (m : UInt8) (xs : List UInt8) :
    listLengthBytes (m :: xs) = m.toNat - 0xf7 := rfl

theorem list_runAll (h : Rlp.list.runAll e src = .ok content) :
    ∃ m lenBytes, src = m :: (lenBytes ++ content) ∧ 0xc0 ≤ m.toNat ∧
      lenBytes.length = m.toNat - 0xf7 ∧
      content.length = if m.toNat ≤ 0xf7 then m.toNat - 0xc0 else beNat lenBytes := by
  have h0 := runAll_ok.mp h
  obtain ⟨m, ys, h₁, h₂⟩ := bind_ok.mp h0
  obtain ⟨_, zs, h₃, h₄⟩ := bind_ok.mp h₂
  obtain ⟨hm, rfl⟩ := ensure_ok h₃
  obtain ⟨len, ws, h₅, h₆⟩ := bind_ok.mp h₄
  obtain ⟨hlen, hws⟩ := takeExact_ok h₆
  have hm' : 0xc0 ≤ m.toNat := by simpa [UInt8.le_iff_toNat_le] using hm
  rw [take1_ok h₁]
  split at h₅
  · rename_i hshort
    have hs : m.toNat ≤ 0xf7 := by simpa [UInt8.le_iff_toNat_le] using hshort
    obtain ⟨rfl, rfl⟩ := Prod.mk.inj (Except.ok.inj h₅)
    exact ⟨m, [], by simpa using hws, hm', by simp; omega, by rw [if_pos hs]; exact hlen⟩
  · rename_i hlong
    have hl : ¬ m.toNat ≤ 0xf7 := by simpa [UInt8.le_iff_toNat_le] using hlong
    obtain ⟨lenBytes, rfl, hll, hval, -⟩ := longLength_ok h₅
    exact ⟨m, lenBytes, by simp [hws], hm', hll, by rw [if_neg hl, hval, hlen]⟩

theorem list_inj {src' : List UInt8} (h : Rlp.list.runAll e src = .ok content)
    (h' : Rlp.list.runAll e src' = .ok content) (hll : listLengthBytes src = listLengthBytes src') : src = src' := by
  obtain ⟨m, l, rfl, hm, hlen, hcontent⟩ := list_runAll h
  obtain ⟨m', l', rfl, hm', hlen', hcontent'⟩ := list_runAll h'
  rw [listLengthBytes_cons, listLengthBytes_cons] at hll
  have hml : l.length = l'.length := by omega
  by_cases hs : m.toNat ≤ 0xf7
  · have hs' : m'.toNat ≤ 0xf7 := by omega
    rw [if_pos hs] at hcontent
    rw [if_pos hs'] at hcontent'
    have hmm : m = m' := UInt8.toNat_inj.mp (by omega)
    have hl : l = [] := List.length_eq_zero_iff.mp (by omega)
    have hl' : l' = [] := List.length_eq_zero_iff.mp (by omega)
    rw [hmm, hl, hl']
  · have hs' : ¬ m'.toNat ≤ 0xf7 := by omega
    rw [if_neg hs] at hcontent
    rw [if_neg hs'] at hcontent'
    have hmm : m = m' := UInt8.toNat_inj.mp (by omega)
    rw [hmm, beNat_inj_of_length hml (hcontent.symm.trans hcontent')]

theorem byteLen_le (h : n < 2 ^ 32) : byteLen n ≤ 4 := by
  have := Nat.size_le.mpr h
  unfold byteLen
  omega

theorem listHeader_shape (h : n < 2 ^ 32) :
    ∃ b tail, listHeader n = b :: tail ∧ tail.length = b.toNat - 0xf7 := by
  unfold listHeader
  split
  · refine ⟨_, [], rfl, ?_⟩
    rw [UInt8.toNat_ofNat']
    simp
    omega
  · have hlen := byteLen_le h
    refine ⟨_, _, rfl, ?_⟩
    rw [UInt8.toNat_ofNat']
    simp [beBytes]
    omega

theorem listHeader_append_inj {k : Nat} (hn : n < 2 ^ 32) (hk : k < 2 ^ 32)
    (h : listHeader n ++ xs = listHeader k ++ ys) : xs = ys := by
  obtain ⟨b, t, hb, hlen⟩ := listHeader_shape hn
  obtain ⟨b', t', hb', hlen'⟩ := listHeader_shape hk
  rw [hb, hb', List.cons_append, List.cons_append] at h
  obtain ⟨rfl, htail⟩ := List.cons.inj h
  exact (List.append_inj htail (hlen.trans hlen'.symm)).2

end ZkOs.Tx
