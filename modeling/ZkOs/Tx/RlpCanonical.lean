import ZkOs.Tx.RlpProps

/-!
# Which inputs the RLP parser accepts

* `stringEncoding`, `listEncoding` : the canonical RLP encodings of a string and of a list payload;
* `LongLength` : length bytes as the parser accepts them, possibly with leading zeros
  (`LongLength.eq_beBytes` without);
* `bytes_ok_iff`, `list_ok_iff` : what is accepted, in every header class;
* `canonical_iff` : an input is read exactly as its canonical encodings ask unless its length bytes start
  with a zero.
-/

namespace ZkOs.Tx

open Digits InvalidTransaction Decoder

/-! ## Encodings -/

/-- The canonical RLP encoding of a byte string. -/
def stringEncoding (s : List UInt8) : List UInt8 :=
  if s.length < 56 then shortEncoding s
  else UInt8.ofNat (0xb7 + byteLen s.length) :: (beBytes (byteLen s.length) s.length ++ s)

/-- The canonical RLP encoding of a list with the payload `content`. -/
def listEncoding (content : List UInt8) : List UInt8 := listHeader content.length ++ content

theorem lt_pow_byteLen (n : Nat) : n < 256 ^ byteLen n := by
  have hsize : n < 2 ^ n.size := Nat.lt_size_self n
  have hle : n.size ≤ 8 * byteLen n := by
    unfold byteLen
    omega
  calc n < 2 ^ n.size := hsize
    _ ≤ 2 ^ (8 * byteLen n) := Nat.pow_le_pow_right (by decide) hle
    _ = 256 ^ byteLen n := by rw [Nat.pow_mul]

variable {n base : Nat} {xs rest lenBytes s content : List UInt8}

theorem pow_byteLen_le (hn : 0 < n) : 256 ^ (byteLen n - 1) ≤ n := by
  have hsize : 0 < n.size := Nat.size_pos.mpr hn
  have hlt : 8 * (byteLen n - 1) < n.size := by
    unfold byteLen
    omega
  calc 256 ^ (byteLen n - 1) = 2 ^ (8 * (byteLen n - 1)) := by rw [Nat.pow_mul]
    _ ≤ n := Nat.lt_size.mp hlt

theorem byteLen_pos (hn : 0 < n) : 0 < byteLen n := by
  have hsize : 0 < n.size := Nat.size_pos.mpr hn
  unfold byteLen
  omega

theorem noLeadingZero_beBytes (hn : 0 < n) : Rlp.NoLeadingZero (beBytes (byteLen n) n) := by
  have hle := pow_byteLen_le hn
  have hlt := lt_pow_byteLen n
  obtain ⟨k, hk⟩ := Nat.exists_eq_succ_of_ne_zero (Nat.ne_of_gt (byteLen_pos hn))
  rw [hk] at hle hlt ⊢
  rw [Nat.succ_sub_one] at hle
  have hpos : 0 < n / 256 ^ k := Nat.div_pos hle (Nat.pow_pos (by decide))
  have hsmall : n / 256 ^ k < 256 := by
    rw [Nat.div_lt_iff_lt_mul (Nat.pow_pos (by decide)), Nat.mul_comm]
    exact hlt
  rw [beBytes_succ]
  intro hzero
  have hbyte := congrArg UInt8.toNat (Option.some.inj hzero)
  rw [UInt8.toNat_ofNat', Nat.mod_eq_of_lt hsmall] at hbyte
  exact Nat.ne_of_gt hpos hbyte

/-! ## Long lengths -/

theorem reads_takeExact (xs : List UInt8) : (Rlp.takeExact xs.length).Reads xs xs := by
  intro rest
  unfold Rlp.takeExact
  rw [if_neg (by simp), List.take_left' rfl, List.drop_left' rfl]

/-- Length bytes of the long form, as they are accepted. -/
structure LongLength (lenBytes : List UInt8) (n : Nat) : Prop where
  pos : 0 < lenBytes.length
  le : lenBytes.length ≤ 4
  value : beNat lenBytes = n
  long : 56 ≤ n

namespace LongLength

variable {lenBytes : List UInt8} {n : Nat}

theorem lt (h : LongLength lenBytes n) : n < 2 ^ 32 := by
  have hlt := beNat_lt lenBytes
  rw [h.value] at hlt
  exact hlt.trans_le (Nat.pow_le_pow_right (by decide) h.le)

theorem eq_beBytes (h : LongLength lenBytes n) (hz : Rlp.NoLeadingZero lenBytes) : lenBytes = beBytes (byteLen n) n := by
  have hn : 0 < n := Nat.lt_of_lt_of_le (by decide) h.long
  refine beNat_inj_of_head hz (noLeadingZero_beBytes hn) ?_
  rw [h.value, beNat_beBytes, Nat.mod_eq_of_lt (lt_pow_byteLen n)]

theorem beBytes (h : 56 ≤ n) (hn : n < 2 ^ 32) : LongLength (Digits.beBytes (byteLen n) n) n := by
  have hpos : 0 < n := Nat.lt_of_lt_of_le (by decide) h
  refine ⟨?_, ?_, ?_, h⟩
  · rw [length_beBytes]
    exact byteLen_pos hpos
  · rw [length_beBytes]
    exact byteLen_le hn
  · rw [beNat_beBytes, Nat.mod_eq_of_lt (lt_pow_byteLen n)]

theorem reads (h : LongLength lenBytes n) : (Rlp.longLength lenBytes.length).Reads lenBytes n := by
  intro rest
  have hvalue := h.value
  subst hvalue
  exact bind_ok.mpr ⟨(), _, reads_ensure h.le _ _, bind_ok.mpr ⟨lenBytes, rest, reads_takeExact lenBytes rest,
    bind_ok.mpr ⟨(), rest, reads_ensure h.long _ rest, rfl⟩⟩⟩

end LongLength

theorem longLength_inv {ll : Nat} (hll : 0 < ll) (h : Rlp.longLength ll xs = .ok (n, rest)) :
    ∃ lenBytes, LongLength lenBytes n ∧ lenBytes.length = ll ∧ xs = lenBytes ++ rest := by
  obtain ⟨_, ys, h₁, -⟩ := bind_ok.mp h
  obtain ⟨lenBytes, hxs, hlen, hvalue, hlong⟩ := longLength_ok h
  exact ⟨lenBytes, ⟨hlen ▸ hll, hlen ▸ (ensure_ok h₁).1, hvalue, hlong⟩, hlen, hxs⟩

/-- A payload of at least 56 bytes behind a marker and length bytes. -/
def longForm (base : Nat) (lenBytes payload : List UInt8) : List UInt8 :=
  UInt8.ofNat (base + lenBytes.length) :: (lenBytes ++ payload)

theorem LongLength.toNat_marker (h : LongLength lenBytes n) (hbase : base ≤ 0xf7)
    : (UInt8.ofNat (base + lenBytes.length)).toNat = base + lenBytes.length := by
  have hle := h.le
  rw [UInt8.toNat_ofNat', Nat.mod_eq_of_lt (by omega)]

/-! ## Strings -/

theorem reads_marked (hs : s.length < 56) (hbare : ¬(s.length = 1 ∧ s.headD 0 < 0x80)) :
    Rlp.bytes.Reads (UInt8.ofNat (0x80 + s.length) :: s) s := by
  intro rest
  have hm : (UInt8.ofNat (0x80 + s.length)).toNat = 0x80 + s.length := by
    rw [UInt8.toNat_ofNat', Nat.mod_eq_of_lt (by omega)]
  have h₁ : ¬UInt8.ofNat (0x80 + s.length) < 0x80 := by
    rw [UInt8.lt_iff_toNat_lt, hm]
    exact Nat.not_lt.mpr (Nat.le_add_right _ _)
  have h₂ : UInt8.ofNat (0x80 + s.length) ≤ 0xb7 := by
    rw [UInt8.le_iff_toNat_le, hm]
    show 0x80 + s.length ≤ 183
    omega
  refine bind_ok.mpr ⟨_, s ++ rest, rfl, ?_⟩
  rw [if_neg h₁, if_pos h₂, hm, Nat.add_sub_cancel_left]
  exact bind_ok.mpr ⟨s, rest, reads_takeExact s rest, bind_ok.mpr ⟨(), rest, reads_ensure hbare _ rest, rfl⟩⟩

theorem reads_shortEncoding (hs : s.length < 56) : Rlp.bytes.Reads (shortEncoding s) s := by
  rcases s with _ | ⟨b, _ | ⟨c, s⟩⟩
  · exact reads_marked hs (by decide)
  · by_cases hb : b < 0x80
    · intro rest
      simp only [shortEncoding, hb, if_true]
      exact bind_ok.mpr ⟨b, rest, rfl, by rw [if_pos hb]; rfl⟩
    · have hform : shortEncoding [b] = UInt8.ofNat (0x80 + [b].length) :: [b] := by
        simp only [shortEncoding, hb, if_false]
        rfl
      rw [hform]
      exact reads_marked hs fun h => hb h.2
  · exact reads_marked hs fun h => absurd h.1 (by simp)

theorem reads_longForm (h : LongLength lenBytes s.length) :
    Rlp.bytes.Reads (longForm 0xb7 lenBytes s) s := by
  intro rest
  have hpos := h.pos
  have hle := h.le
  have hm : (UInt8.ofNat (0xb7 + lenBytes.length)).toNat = 0xb7 + lenBytes.length := h.toNat_marker (by decide)
  have h₁ : ¬UInt8.ofNat (0xb7 + lenBytes.length) < 0x80 := by
    rw [UInt8.lt_iff_toNat_lt, hm]
    show ¬0xb7 + lenBytes.length < 128
    omega
  have h₂ : ¬UInt8.ofNat (0xb7 + lenBytes.length) ≤ 0xb7 := by
    rw [UInt8.le_iff_toNat_le, hm]
    show ¬0xb7 + lenBytes.length ≤ 183
    omega
  have h₃ : UInt8.ofNat (0xb7 + lenBytes.length) < 0xc0 := by
    rw [UInt8.lt_iff_toNat_lt, hm]
    show 0xb7 + lenBytes.length < 192
    omega
  refine bind_ok.mpr ⟨_, lenBytes ++ s ++ rest, rfl, ?_⟩
  rw [if_neg h₁, if_neg h₂, if_pos h₃, hm, Nat.add_sub_cancel_left, List.append_assoc]
  exact bind_ok.mpr ⟨s.length, s ++ rest, h.reads _, reads_takeExact s rest⟩

theorem bytes_ok_iff : Rlp.bytes xs = .ok (s, rest) ↔
    s.length < 56 ∧ xs = shortEncoding s ++ rest ∨
      ∃ lenBytes, LongLength lenBytes s.length ∧ xs = longForm 0xb7 lenBytes s ++ rest := by
  constructor
  · intro h
    by_cases hs : s.length < 56
    · exact .inl ⟨hs, bytes_ok_short h hs⟩
    · refine .inr ?_
      obtain ⟨m, ys, h₁, h₂⟩ := bind_ok.mp h
      rw [take1_ok h₁]
      split at h₂
      · obtain ⟨rfl, rfl⟩ := Prod.mk.inj (Except.ok.inj h₂)
        simp at hs
      split at h₂
      · -- a marker up to 0xb7 announces at most 55 bytes
        rename_i hm
        simp only [bind_ok] at h₂
        obtain ⟨payload, zs, h₃, _, ws, h₄, h₅⟩ := h₂
        obtain ⟨hlen, rfl⟩ := takeExact_ok h₃
        obtain ⟨rfl, rfl⟩ := Prod.mk.inj (Except.ok.inj h₅)
        have hle : m.toNat ≤ 183 := UInt8.le_iff_toNat_le.mp hm
        omega
      split at h₂
      · rename_i hm _
        have hlt : 183 < m.toNat := Nat.not_le.mp fun hle => hm (UInt8.le_iff_toNat_le.mpr hle)
        simp only [bind_ok] at h₂
        obtain ⟨len, zs, h₃, h₄⟩ := h₂
        obtain ⟨lenBytes, hlong, hll, rfl⟩ := longLength_inv (by omega) h₃
        obtain ⟨rfl, rfl⟩ := takeExact_ok h₄
        refine ⟨lenBytes, hlong, ?_⟩
        have hmarker : UInt8.ofNat (0xb7 + lenBytes.length) = m := by
          rw [hll, Nat.add_sub_cancel' (Nat.le_of_lt hlt)]
          exact UInt8.ofNat_toNat
        rw [longForm, hmarker, List.cons_append, List.append_assoc]
      · cases h₂
  · rintro (⟨hs, rfl⟩ | ⟨lenBytes, hlen, rfl⟩)
    · exact reads_shortEncoding hs rest
    · exact reads_longForm hlen rest

/-! ## Lists -/

theorem list_reads_short (hs : content.length < 56) :
    Rlp.list.Reads (UInt8.ofNat (0xc0 + content.length) :: content) content := by
  intro rest
  have hm : (UInt8.ofNat (0xc0 + content.length)).toNat = 0xc0 + content.length := by
    rw [UInt8.toNat_ofNat', Nat.mod_eq_of_lt (by omega)]
  have h₁ : 0xc0 ≤ UInt8.ofNat (0xc0 + content.length) := by
    rw [UInt8.le_iff_toNat_le, hm]
    exact Nat.le_add_right _ _
  have h₂ : UInt8.ofNat (0xc0 + content.length) ≤ 0xf7 := by
    rw [UInt8.le_iff_toNat_le, hm]
    show 0xc0 + content.length ≤ 247
    omega
  refine bind_ok.mpr ⟨_, content ++ rest, rfl, bind_ok.mpr ⟨(), content ++ rest, reads_ensure h₁ _ _, ?_⟩⟩
  rw [if_pos h₂, hm, Nat.add_sub_cancel_left]
  exact bind_ok.mpr ⟨content.length, content ++ rest, rfl, reads_takeExact content rest⟩

theorem list_reads_long (h : LongLength lenBytes content.length) :
    Rlp.list.Reads (longForm 0xf7 lenBytes content) content := by
  intro rest
  have hpos := h.pos
  have hm : (UInt8.ofNat (0xf7 + lenBytes.length)).toNat = 0xf7 + lenBytes.length := h.toNat_marker (by decide)
  have h₁ : 0xc0 ≤ UInt8.ofNat (0xf7 + lenBytes.length) := by
    rw [UInt8.le_iff_toNat_le, hm]
    show 192 ≤ 0xf7 + lenBytes.length
    omega
  have h₂ : ¬UInt8.ofNat (0xf7 + lenBytes.length) ≤ 0xf7 := by
    rw [UInt8.le_iff_toNat_le, hm]
    show ¬0xf7 + lenBytes.length ≤ 247
    omega
  refine bind_ok.mpr ⟨_, lenBytes ++ content ++ rest, rfl,
    bind_ok.mpr ⟨(), lenBytes ++ content ++ rest, reads_ensure h₁ _ _, ?_⟩⟩
  rw [if_neg h₂, hm, Nat.add_sub_cancel_left, List.append_assoc]
  exact bind_ok.mpr ⟨content.length, content ++ rest, h.reads _, reads_takeExact content rest⟩

theorem list_ok_iff : Rlp.list xs = .ok (content, rest) ↔
    content.length < 56 ∧ xs = UInt8.ofNat (0xc0 + content.length) :: content ++ rest ∨
      ∃ lenBytes, LongLength lenBytes content.length ∧ xs = longForm 0xf7 lenBytes content ++ rest := by
  constructor
  · intro h
    obtain ⟨m, ys, h₁, h₂⟩ := bind_ok.mp h
    obtain ⟨_, zs, h₃, h₄⟩ := bind_ok.mp h₂
    obtain ⟨hm, rfl⟩ := ensure_ok h₃
    obtain ⟨len, ws, h₅, h₆⟩ := bind_ok.mp h₄
    obtain ⟨rfl, rfl⟩ := takeExact_ok h₆
    have hge : 192 ≤ m.toNat := UInt8.le_iff_toNat_le.mp hm
    rw [take1_ok h₁]
    split at h₅
    · rename_i hshort
      have hle : m.toNat ≤ 247 := UInt8.le_iff_toNat_le.mp hshort
      obtain ⟨hlen, hys⟩ := Prod.mk.inj (Except.ok.inj h₅)
      refine .inl ⟨by omega, ?_⟩
      rw [← hlen, Nat.add_sub_cancel' hge, UInt8.ofNat_toNat, hys]
      rfl
    · rename_i hlong
      have hlt : 247 < m.toNat := Nat.not_le.mp fun hle => hlong (UInt8.le_iff_toNat_le.mpr hle)
      obtain ⟨lenBytes, hlen, hll, rfl⟩ := longLength_inv (by omega) h₅
      refine .inr ⟨lenBytes, hlen, ?_⟩
      have hmarker : UInt8.ofNat (0xf7 + lenBytes.length) = m := by
        rw [hll, Nat.add_sub_cancel' (Nat.le_of_lt hlt)]
        exact UInt8.ofNat_toNat
      rw [longForm, hmarker, List.cons_append, List.append_assoc]
  · rintro (⟨hs, rfl⟩ | ⟨lenBytes, hlen, rfl⟩)
    · exact list_reads_short hs rest
    · exact list_reads_long hlen rest

/-! ## Canonical inputs -/

theorem stringEncoding_of_long (hs : 56 ≤ s.length) :
    stringEncoding s = longForm 0xb7 (beBytes (byteLen s.length) s.length) s := by
  rw [stringEncoding, if_neg (Nat.not_lt.mpr hs), longForm, length_beBytes]

theorem listEncoding_of_short (hs : content.length < 56) :
    listEncoding content = UInt8.ofNat (0xc0 + content.length) :: content := by
  rw [listEncoding, listHeader, if_pos hs]
  rfl

theorem listEncoding_of_long (hs : 56 ≤ content.length) :
    listEncoding content = longForm 0xf7 (beBytes (byteLen content.length) content.length) content := by
  rw [listEncoding, listHeader, if_neg (Nat.not_lt.mpr hs), longForm, length_beBytes]
  rfl

theorem longForm_inj {lenBytes' payload rest' : List UInt8} (hbase : base ≤ 0xf7) (h : LongLength lenBytes n)
    (h' : LongLength lenBytes' n)
    (he : longForm base lenBytes payload ++ rest = longForm base lenBytes' payload ++ rest')
    : lenBytes = lenBytes' := by
  obtain ⟨hmarker, htail⟩ := List.cons.inj he
  have hlen := congrArg UInt8.toNat hmarker
  rw [h.toNat_marker hbase, h'.toNat_marker hbase] at hlen
  simp only [List.append_eq, List.append_assoc] at htail
  exact (List.append_inj htail (by omega)).1

/-- The input starts with a long form, of a string or of a list, whose length bytes start with a zero. -/
def PaddedLength (xs : List UInt8) : Prop :=
  ∃ base ∈ [0xb7, 0xf7], ∃ lenBytes payload rest, LongLength lenBytes payload.length ∧ ¬Rlp.NoLeadingZero lenBytes ∧
    xs = longForm base lenBytes payload ++ rest

/-- The input is read as a string, and as a list, exactly if it starts with the canonical encoding of one with
a payload below 4 GiB; the result is the payload and what follows the encoding. -/
def ReadCanonically (xs : List UInt8) : Prop :=
  (∀ s rest, Rlp.bytes xs = .ok (s, rest) ↔ s.length < 2 ^ 32 ∧ xs = stringEncoding s ++ rest) ∧
    ∀ content rest, Rlp.list xs = .ok (content, rest) ↔ content.length < 2 ^ 32 ∧ xs = listEncoding content ++ rest

theorem bytes_canonical (h : ¬PaddedLength xs) (s rest : List UInt8) :
    Rlp.bytes xs = .ok (s, rest) ↔ s.length < 2 ^ 32 ∧ xs = stringEncoding s ++ rest := by
  rw [bytes_ok_iff]
  constructor
  · rintro (⟨hs, rfl⟩ | ⟨lenBytes, hlen, rfl⟩)
    · refine ⟨by omega, ?_⟩
      rw [stringEncoding, if_pos hs]
    · have hz : Rlp.NoLeadingZero lenBytes := by
        by_contra hz
        exact h ⟨0xb7, by decide, lenBytes, s, rest, hlen, hz, rfl⟩
      rw [stringEncoding_of_long hlen.long, ← hlen.eq_beBytes hz]
      exact ⟨hlen.lt, rfl⟩
  · rintro ⟨hlt, rfl⟩
    by_cases hs : s.length < 56
    · exact .inl ⟨hs, by rw [stringEncoding, if_pos hs]⟩
    · refine .inr ⟨_, .beBytes (Nat.not_lt.mp hs) hlt, ?_⟩
      rw [stringEncoding_of_long (Nat.not_lt.mp hs)]

theorem list_canonical (h : ¬PaddedLength xs) (content rest : List UInt8) :
    Rlp.list xs = .ok (content, rest) ↔ content.length < 2 ^ 32 ∧ xs = listEncoding content ++ rest := by
  rw [list_ok_iff]
  constructor
  · rintro (⟨hs, rfl⟩ | ⟨lenBytes, hlen, rfl⟩)
    · refine ⟨by omega, ?_⟩
      rw [listEncoding_of_short hs]
    · have hz : Rlp.NoLeadingZero lenBytes := by
        by_contra hz
        exact h ⟨0xf7, by decide, lenBytes, content, rest, hlen, hz, rfl⟩
      rw [listEncoding_of_long hlen.long, ← hlen.eq_beBytes hz]
      exact ⟨hlen.lt, rfl⟩
  · rintro ⟨hlt, rfl⟩
    by_cases hs : content.length < 56
    · exact .inl ⟨hs, by rw [listEncoding_of_short hs]⟩
    · refine .inr ⟨_, .beBytes (Nat.not_lt.mp hs) hlt, ?_⟩
      rw [listEncoding_of_long (Nat.not_lt.mp hs)]

/-- Strings and lists are read canonically exactly on the inputs without padded length bytes. -/
theorem readCanonically_iff (xs : List UInt8) : ReadCanonically xs ↔ ¬PaddedLength xs := by
  constructor
  · rintro ⟨hbytes, hlist⟩ ⟨base, hbase, lenBytes, payload, rest, hlen, hz, rfl⟩
    -- the length bytes would be the shortest ones
    have hshort := LongLength.beBytes hlen.long hlen.lt
    have hpos : 0 < payload.length := Nat.lt_of_lt_of_le (by decide) hlen.long
    refine hz ?_
    suffices heq : lenBytes = beBytes (byteLen payload.length) payload.length by
      rw [heq]
      exact noLeadingZero_beBytes hpos
    rcases List.mem_pair.mp hbase with rfl | rfl
    · have henc := ((hbytes payload rest).mp (reads_longForm hlen rest)).2
      rw [stringEncoding_of_long hlen.long] at henc
      exact longForm_inj (by decide) hlen hshort henc
    · have henc := ((hlist payload rest).mp (list_reads_long hlen rest)).2
      rw [listEncoding_of_long hlen.long] at henc
      exact longForm_inj (by decide) hlen hshort henc
  · intro h
    exact ⟨bytes_canonical h, list_canonical h⟩

/-- A string and a list of 56 zero bytes with a length of two bytes, the first of them zero, are accepted. -/
theorem padded_length_accepted :
    (Rlp.bytes (0xb9 :: 0x00 :: 0x38 :: List.replicate 56 0) = .ok (List.replicate 56 0, []) ∧
        stringEncoding (List.replicate 56 0) ≠ 0xb9 :: 0x00 :: 0x38 :: List.replicate 56 0) ∧
      Rlp.list (0xf9 :: 0x00 :: 0x38 :: List.replicate 56 0) = .ok (List.replicate 56 0, []) ∧
        listEncoding (List.replicate 56 0) ≠ 0xf9 :: 0x00 :: 0x38 :: List.replicate 56 0 := by
  refine ⟨⟨by decide +kernel, by decide +kernel⟩, by decide +kernel, by decide +kernel⟩

end ZkOs.Tx
