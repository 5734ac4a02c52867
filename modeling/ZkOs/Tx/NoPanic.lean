import ZkOs.Tx.Checked
import ZkOs.Tx.RlpProps
import Mathlib.Tactic.Ring

/-!
# The parser does not panic

`Checked` reads through a cursor and can panic at every index, subtraction and `expect`; `Rlp` is a
total function on the bytes that remain.

* `*_follows` : each function of `Checked` ends as the one of `Rlp`, so it never panics;
* `HomList.Lazy` : a list validated by `homList` is iterated to the end, over the same items;
* `Regular.iterate` : the storage keys of an access list entry are read within their list.
-/

namespace ZkOs.Tx.Checked

open Digits InvalidTransaction Fallible CursorM

section
variable {usizeBits n : Nat} (hn : n ≤ 2 ^ usizeBits)
include hn

/-! ## Cursor -/

theorem takeExact_follows (k : Nat) :
    Follows n (fun a b => a = b ∧ a.length = k ∧ a.length < n) (takeExact usizeBits k) (Rlp.takeExact k) := by
  intro c hc
  obtain ⟨hpos, hlen⟩ := hc
  unfold takeExact Rlp.takeExact
  rw [List.length_drop]
  by_cases hk : c.bytes.length - c.pos < k
  · rw [if_pos hk]
    split
    · rfl
    · rw [if_pos (by omega)]
      rfl
  · rw [if_neg hk, if_neg (by omega), if_neg (by omega), slice_of_le (by omega) (by omega), List.drop_take,
      Nat.add_sub_cancel_left]
    have hout : (List.take k (c.bytes.drop c.pos)).length = k := by
      rw [List.length_take, List.length_drop]
      omega
    refine ⟨⟨rfl, hout, ?_⟩, rfl, ?_, ?_⟩
    · show (List.take k _).length < n
      omega
    · show c.pos + k ≤ _
      omega
    · show List.drop (c.pos + k) _ = _
      rw [List.drop_drop]

theorem take1_eq {c : Cursor UInt8} (hc : c.Within n) (hpos : c.pos < c.bytes.length) :
    take1 usizeBits c = .ok (c.bytes[c.pos], ⟨c.bytes, c.pos + 1⟩) := by
  have hlen := hc.length_lt
  unfold take1
  rw [if_neg (by omega), index_of_lt hpos, add_of_lt (by omega)]
  rfl

theorem take1_follows : Follows n Eq (take1 usizeBits) Rlp.take1 := by
  intro c hc
  by_cases hpos : c.pos < c.bytes.length
  · rw [take1_eq hn hc hpos, List.drop_eq_getElem_cons hpos]
    exact ⟨rfl, rfl, hpos, rfl⟩
  · have hnil : c.bytes.drop c.pos = [] := List.drop_eq_nil_of_le (by omega)
    unfold take1
    rw [if_pos (by omega), hnil]
    rfl

omit hn in
theorem foldl_shift (s : List UInt8) (v : Nat) (h : v * 256 ^ s.length + beNat s < 2 ^ 32) :
    s.foldl (fun v b => (v <<< 8) % 2 ^ 32 ||| b.toNat) v = v * 256 ^ s.length + beNat s := by
  induction s generalizing v with
  | nil => simp [beNat]
  | cons b s ih =>
    have hb : b.toNat < 2 ^ 8 := b.toNat_lt
    rw [beNat_cons, List.length_cons, pow_succ 256] at h ⊢
    have hsplit : v * (256 ^ s.length * 256) + (b.toNat * 256 ^ s.length + beNat s) =
        (v * 256 + b.toNat) * 256 ^ s.length + beNat s := by ring
    rw [hsplit] at h ⊢
    have hone : 1 ≤ 256 ^ s.length := Nat.one_le_pow _ _ (by decide)
    have hstep : v * 256 + b.toNat ≤ (v * 256 + b.toNat) * 256 ^ s.length := Nat.le_mul_of_pos_right _ hone
    have hshift : (v <<< 8) % 2 ^ 32 ||| b.toNat = v * 256 + b.toNat := by
      rw [Nat.shiftLeft_eq, Nat.mod_eq_of_lt (by omega), ← Nat.shiftLeft_eq,
        ← Nat.shiftLeft_add_eq_or_of_lt hb, Nat.shiftLeft_eq]
    rw [List.foldl_cons, hshift]
    exact ih _ h

omit hn in
theorem beU32_of_length {s : List UInt8} (h : s.length ≤ 4) : beU32 s = .ok (beNat s) := by
  have hlt : beNat s < 2 ^ 32 := by
    calc beNat s < 256 ^ s.length := beNat_lt s
      _ ≤ 256 ^ 4 := Nat.pow_le_pow_right (by decide) h
  unfold beU32
  rw [if_neg (by omega), foldl_shift s 0 (by omega), Nat.zero_mul, Nat.zero_add]

theorem longLength_follows (ll : Nat) : Follows n Eq (longLength usizeBits ll) (Rlp.longLength ll) := by
  refine (Follows.ensure Iff.rfl _).bind fun _ _ hll => ?_
  refine (takeExact_follows hn ll).bind fun s s' hs => ?_
  obtain ⟨rfl, hlen, -⟩ := hs
  rw [beU32_of_length (hlen.le.trans hll), lift_ok_bind]
  exact (Follows.ensure Iff.rfl _).bind fun _ _ _ => .pure rfl

theorem bytes_follows : Follows n Eq (bytes usizeBits) Rlp.bytes := by
  intro c hc
  by_cases hpos : c.pos < c.bytes.length
  · have hnext : (⟨c.bytes, c.pos + 1⟩ : Cursor UInt8).Within n := ⟨hpos, hc.length_lt⟩
    obtain ⟨m, hget⟩ : ∃ m, c.bytes[c.pos] = m := ⟨_, rfl⟩
    unfold bytes Rlp.bytes
    rw [List.drop_eq_getElem_cons hpos]
    show Matches _ (take1 usizeBits c >>= _) _
    rw [take1_eq hn hc hpos, hget]
    show Matches _ ((if m < 0x80 then _ else _ : Parse (List UInt8)) _) ((if m < 0x80 then _ else _ : Rlp (List UInt8)) _)
    by_cases hm : m < 0x80
    · -- the byte before the new position is the string
      have hone : (c.bytes.take (c.pos + 1)).drop c.pos = [m] := by
        rw [List.drop_take, Nat.add_sub_cancel_left, List.drop_eq_getElem_cons hpos, hget]
        rfl
      rw [if_pos hm, if_pos hm]
      show Matches _ ((lift (sub (c.pos + 1) 1) >>= fun start => lift (slice c.bytes start (c.pos + 1)) : Parse _) _) _
      rw [sub_of_le (by omega), lift_ok_bind, Nat.add_sub_cancel, slice_of_le (by omega) hpos, hone]
      exact ⟨rfl, rfl, hpos, rfl⟩
    · have hsub : 0x80 ≤ m.toNat := by
        by_contra h
        exact hm (UInt8.lt_iff_toNat_lt.mpr (show m.toNat < 128 by omega))
      rw [if_neg hm, if_neg hm]
      refine Follows.ite (fun _ => ?_) (fun hlong => Follows.ite (fun _ => ?_) fun _ => Follows.fail _) _ hnext
      · rw [sub_of_le hsub, lift_ok_bind]
        generalize m.toNat - 0x80 = len
        refine (takeExact_follows hn len).bind fun payload payload' hp => ?_
        obtain ⟨rfl, hlen, -⟩ := hp
        by_cases hone : len = 1
        · obtain ⟨b, rfl⟩ := List.length_eq_one_iff.mp (hlen.trans hone)
          rw [if_pos hone]
          have hiff : ¬b < 0x80 ↔ ¬(len = 1 ∧ [b].headD 0 < 0x80) := by
            rw [and_iff_right hone]
            rfl
          exact (Follows.ensure hiff _).bind fun _ _ _ => .pure rfl
        · rw [if_neg hone, Decoder.ensure, if_pos fun h => hone h.1]
          exact .pure rfl
      · have hsub' : 0xb7 ≤ m.toNat := by
          by_contra h
          exact hlong (UInt8.le_iff_toNat_le.mpr (show m.toNat ≤ 183 by omega))
        rw [sub_of_le hsub', lift_ok_bind]
        generalize m.toNat - 0xb7 = ll
        refine (longLength_follows hn ll).bind fun len len' hlen => ?_
        obtain rfl := hlen
        exact (takeExact_follows hn len).mono fun _ _ h => h.1
  · have hnil : c.bytes.drop c.pos = [] := List.drop_eq_nil_of_le (by omega)
    unfold bytes Rlp.bytes take1
    rw [hnil]
    show Matches _ ((if c.bytes.length ≤ c.pos then _ else _) >>= _) _
    rw [if_pos (by omega)]
    rfl

theorem list_follows : Follows n (fun c content => c = .new content ∧ content.length < n) (list usizeBits) Rlp.list := by
  refine (take1_follows hn).bind fun m m' hm => ?_
  obtain rfl := hm
  refine (Follows.ensure Iff.rfl _).bind fun _ _ hlist => ?_
  have hsub : 0xc0 ≤ m.toNat := UInt8.le_iff_toNat_le.mp hlist
  have hlen : Follows n Eq
      (if m ≤ 0xf7 then lift (sub m.toNat 0xc0) else lift (sub m.toNat 0xf7) >>= fun ll => longLength usizeBits ll)
      (if m ≤ 0xf7 then Pure.pure (m.toNat - 0xc0) else Rlp.longLength (m.toNat - 0xf7)) := by
    refine Follows.ite (fun _ => ?_) fun hlong => ?_
    · rw [sub_of_le hsub]
      exact Follows.pure rfl
    · have hsub' : 0xf7 ≤ m.toNat := by
        by_contra h
        exact hlong (UInt8.le_iff_toNat_le.mpr (show m.toNat ≤ 247 by omega))
      rw [sub_of_le hsub', lift_ok_bind]
      exact longLength_follows hn _
  refine hlen.bind fun len len' hl => ?_
  obtain rfl := hl
  refine (takeExact_follows hn len).map _ fun content content' hc => ?_
  obtain ⟨rfl, -, hlt⟩ := hc
  exact ⟨rfl, hlt⟩

/-! ## Scalars -/

theorem u8_follows : Follows n Eq (u8 usizeBits) Rlp.u8 := by
  refine (bytes_follows hn).bind fun s s' hs => ?_
  obtain rfl := hs
  rcases s with - | ⟨b, - | ⟨b', s⟩⟩
  · exact .pure rfl
  · have hiff : b ≠ 0 ↔ [b].length ≤ 1 ∧ Rlp.NoLeadingZero [b] := by simp [Rlp.NoLeadingZero]
    show Follows n Eq (CursorM.ensure (b ≠ 0) _ >>= fun _ => Pure.pure b.toNat) _
    refine (Follows.ensure hiff _).bind fun _ _ _ => .pure ?_
    simp [beNat]
  · exact .fail _

omit hn in
theorem ensureNoLeadingZero_follows (s : List UInt8) :
    Follows n (fun _ _ => True) (ensureNoLeadingZero s) (Decoder.ensure (Rlp.NoLeadingZero s) invalidStructure) := by
  rcases s with - | ⟨b, s⟩
  · exact .pure trivial
  · have hiff : b ≠ 0 ↔ Rlp.NoLeadingZero (b :: s) := by simp [Rlp.NoLeadingZero]
    exact (Follows.ensure hiff _).mono fun _ _ _ => trivial

theorem bool_follows : Follows n Eq (bool usizeBits) Rlp.bool := by
  refine (u8_follows hn).bind fun v v' hv => ?_
  obtain rfl := hv
  rcases v with - | - | v
  · exact .pure rfl
  · exact .pure rfl
  · exact .fail _

theorem u64_follows : Follows n Eq (u64 usizeBits) Rlp.u64 := by
  refine (bytes_follows hn).bind fun s s' hs => ?_
  obtain rfl := hs
  refine (Follows.ensure Iff.rfl _).bind fun _ _ hlen => ?_
  refine (ensureNoLeadingZero_follows s).bind fun _ _ _ => ?_
  have hcopy : copyFromSlice (List.replicate 8 0) (8 - s.length) s = .ok (List.replicate (8 - s.length) 0 ++ s) := by
    have htail : (List.replicate 8 (0 : UInt8)).drop (8 - s.length) = List.replicate s.length 0 := by
      rw [List.drop_replicate, Nat.sub_sub_self hlen]
    unfold copyFromSlice
    rw [slice_to_end (by simp), htail]
    show (if (List.replicate s.length (0 : UInt8)).length = s.length then _ else _) = _
    rw [if_pos List.length_replicate, List.take_replicate, Nat.min_eq_left (Nat.sub_le _ _)]
    rfl
  rw [sub_of_le hlen, lift_ok_bind, hcopy, lift_ok_bind, beNat_replicate_append]
  exact .pure rfl

theorem u256_follows : Follows n Eq (u256 usizeBits) Rlp.u256 := by
  refine (bytes_follows hn).bind fun s s' hs => ?_
  obtain rfl := hs
  rw [Decoder.ensure_comm]
  refine (ensureNoLeadingZero_follows s).bind fun _ _ _ => ?_
  exact (Follows.ensure Iff.rfl _).bind fun _ _ _ => .pure rfl

/-! ## Fields -/

theorem destination_follows : Follows n Eq (destination usizeBits) Tx.destination := by
  refine (bytes_follows hn).bind fun s s' hs => ?_
  obtain rfl := hs
  exact (Follows.ensure Iff.rfl _).bind fun _ _ _ => .pure rfl

theorem address20_follows : Follows n Eq (address20 usizeBits) Tx.address20 := by
  refine (bytes_follows hn).bind fun s s' hs => ?_
  obtain rfl := hs
  refine (Follows.ensure Iff.rfl _).bind fun _ _ hlen => ?_
  rw [unwrapArray_of_length hlen]
  exact .pure rfl

omit hn in
theorem badSigWord_eq (x : List UInt8) : badSigWord x = .ok (!decide (SigWord x)) := by
  unfold badSigWord
  by_cases hlen : 32 < x.length
  · have hnot : ¬SigWord x := fun h => absurd h.1 (by omega)
    rw [if_pos hlen, decide_eq_false hnot]
    rfl
  · rw [if_neg hlen]
    rcases x with - | ⟨b, x⟩
    · rfl
    · have hiff : SigWord (b :: x) ↔ b ≠ 0 := by
        have hle : (b :: x).length ≤ 32 := by omega
        unfold SigWord Rlp.NoLeadingZero
        rw [and_iff_right hle]
        simp
      rw [if_pos (List.cons_ne_nil _ _)]
      show Except.ok (b == 0) = _
      by_cases hb : b = 0
      · rw [decide_eq_false fun h => hiff.mp h hb, hb]
        rfl
      · rw [decide_eq_true (hiff.mpr hb), beq_false_of_ne hb]
        rfl

omit hn in
theorem badSignature_eq (r s : List UInt8) : badSignature r s = .ok (!decide (SigWord r ∧ SigWord s)) := by
  unfold badSignature
  by_cases hr : 32 < r.length
  · have hnot : ¬(SigWord r ∧ SigWord s) := fun h => absurd h.1.1 (by omega)
    rw [if_pos hr, decide_eq_false hnot]
    rfl
  · by_cases hs : 32 < s.length
    · have hnot : ¬(SigWord r ∧ SigWord s) := fun h => absurd h.2.1 (by omega)
      rw [if_neg hr, if_pos hs, decide_eq_false hnot]
      rfl
    · rw [if_neg hr, if_neg hs, badSigWord_eq, badSigWord_eq]
      by_cases hwr : SigWord r <;> simp [hwr] <;> rfl

/-! ## Lists -/

theorem decodeListFrom_follows {α : Type} {R : α → α → Prop} {body : Parse α} {d : Rlp α} (h : Follows n R body d) :
    Follows n R (decodeListFrom usizeBits body) (Rlp.decodeListFrom d) := by
  refine (list_follows hn).bind fun inner content hc => ?_
  obtain ⟨rfl, hlt⟩ := hc
  exact Follows.lift (h.runFull _ (Cursor.within_new hlt))

theorem takeExact_all {all : List UInt8} (h : all.length < n) :
    takeExact usizeBits all.length (.new all) = .ok (all, ⟨all, all.length⟩) := by
  have hlt : ¬2 ^ usizeBits ≤ (Cursor.new all).pos + all.length := by
    show ¬2 ^ usizeBits ≤ 0 + all.length
    omega
  have hle : ¬(Cursor.new all).bytes.length < (Cursor.new all).pos + all.length := by
    show ¬all.length < 0 + all.length
    omega
  unfold takeExact
  rw [if_neg hlt, if_neg hle, slice_of_le (Nat.le_add_right _ _) (Nat.le_of_not_lt hle)]
  show Except.ok ((all.take (0 + all.length)).drop 0, (⟨all, 0 + all.length⟩ : Cursor UInt8)) = _
  rw [Nat.zero_add, List.take_length, List.drop_zero]

omit hn in
theorem remaining_new (all : List UInt8) : remaining (.new all) = .ok all := slice_to_end (Nat.zero_le _)

/-- A list of storage keys has a whole number of them. -/
structure Regular (n : Nat) (l : Rlp.FixedList) : Prop where
  length_lt : l.payload.length < n
  length_eq : l.payload.length = l.count * 33

theorem fixedList_follows : Follows n (fun a b => a = b ∧ Regular n a) (fixedList usizeBits 33) (Rlp.fixedList 33) := by
  refine (list_follows hn).bind fun inner all hc => ?_
  obtain ⟨rfl, hlt⟩ := hc
  rw [remaining_new, lift_ok_bind]
  refine (Follows.ensure Iff.rfl _).bind fun _ _ hmod => ?_
  rw [takeExact_all hn hlt, lift_ok_bind]
  refine .pure ⟨rfl, hlt, ?_⟩
  show all.length = all.length / 33 * 33
  omega

/-! ## Iteration -/

end

/-- The items that the validating loop decodes, from the cursor to the end of the slice. -/
inductive Validated {α : Type} (item : Parse α) : Cursor UInt8 → List α → Prop where
  | done {c : Cursor UInt8} : c.isEmpty = true → Validated item c []
  | next {c c' : Cursor UInt8} {v : α} {vs : List α} : c.isEmpty = false → item c = .ok (v, c') →
      Validated item c' vs → Validated item c (v :: vs)

/-- Iterating over the list completes, over exactly the items validated when it was parsed, and each
of them has the property `P`. -/
def HomList.Lazy {α : Type} (item : Parse α) (P : α → Prop) (l : Rlp.HomList) : Prop :=
  ∃ items, Validated item (.new l.payload) items ∧ items.length = l.count ∧ HomList.iterate item l = .ok items ∧
    ∀ v ∈ items, P v

section
variable {n : Nat} {α : Type} {P : α → Prop} {item : Parse α} {d : Rlp α}

theorem countItems_of_isEmpty {c : Cursor UInt8} (h : c.isEmpty = true) (fuel : Nat) :
    countItems item (fuel + 1) c = .ok 0 := by
  rw [countItems, if_pos h]

theorem collect_of_isEmpty {c : Cursor UInt8} (h : c.isEmpty = true) (fuel : Nat) :
    HomListIter.collect item (fuel + 1) c = .ok [] := by
  rw [HomListIter.collect, HomListIter.next, if_pos h]
  rfl

theorem countItems_of_ok {c c' : Cursor UInt8} {v : α} (h : c.isEmpty = false) (hv : item c = .ok (v, c')) (fuel : Nat) :
    countItems item (fuel + 1) c = countItems item fuel c' >>= fun k => .ok (k + 1) := by
  rw [countItems, h, hv]
  rfl

theorem collect_of_ok {c c' : Cursor UInt8} {v : α} (h : c.isEmpty = false) (hv : item c = .ok (v, c')) (fuel : Nat) :
    HomListIter.collect item (fuel + 1) c = HomListIter.collect item fuel c' >>= fun vs => .ok (v :: vs) := by
  rw [HomListIter.collect, HomListIter.next, h, hv]
  rfl

/-- The loop of the validation decodes what the loop of the iterator decodes later. By induction on
the rounds; every item takes at least one byte, so the bytes that remain bound them. -/
theorem countItems_follows (h : Follows n (fun a b => a = b ∧ P a) item d)
    (hd : ∀ xs a rest, d xs = .ok (a, rest) → rest.length < xs.length) (fuel : Nat) (c : Cursor UInt8) (hc : c.Within n)
    (hfuel : (c.bytes.drop c.pos).length ≤ fuel) :
    Matches (fun k k' => k = k' ∧ ∃ vs, Validated item c vs ∧ vs.length = k ∧
        HomListIter.collect item (fuel + 1) c = .ok vs ∧ ∀ v ∈ vs, P v)
      (countItems item (fuel + 1) c) (Rlp.countItems d fuel (c.bytes.drop c.pos)) := by
  have hat : c.At c.bytes (c.bytes.drop c.pos) := ⟨rfl, hc.pos_le, rfl⟩
  induction fuel generalizing c with
  | zero =>
    have hnil : c.bytes.drop c.pos = [] := List.eq_nil_of_length_eq_zero (Nat.le_zero.mp hfuel)
    have hend : c.isEmpty = true := hat.isEmpty_iff.mpr hnil
    rw [countItems_of_isEmpty hend, hnil]
    exact ⟨rfl, [], .done hend, rfl, collect_of_isEmpty hend 0, by simp⟩
  | succ fuel ih =>
    by_cases hend : c.isEmpty = true
    · rw [countItems_of_isEmpty hend, hat.isEmpty_iff.mp hend]
      exact ⟨rfl, [], .done hend, rfl, collect_of_isEmpty hend _, by simp⟩
    · obtain ⟨x, xs, hxs⟩ := List.exists_cons_of_ne_nil fun hnil => hend (hat.isEmpty_iff.mpr hnil)
      have hgo : c.isEmpty = false := Bool.eq_false_of_not_eq_true hend
      have hrlp : Rlp.countItems d (fuel + 1) (c.bytes.drop c.pos) =
          d (c.bytes.drop c.pos) >>= fun r => Rlp.countItems d fuel r.2 >>= fun k => .ok (k + 1) := by
        rw [hxs, Rlp.countItems]
        · cases d (x :: xs) with
          | error e => rfl
          | ok r => rcases hr : Rlp.countItems d fuel r.2 with e | k <;> simp [hr, bind, Except.bind]
        · exact List.cons_ne_nil x xs
      rw [hrlp]
      rcases (h c hc).cases with ⟨e, hm, hdm⟩ | ⟨⟨v, c'⟩, ⟨b, rest⟩, hm, hdm, ⟨rfl, hP⟩, hat'⟩
      · rw [countItems, hgo, hm, hdm]
        rfl
      · have hlt := hd _ _ _ hdm
        have hrest : c'.bytes.drop c'.pos = rest := by rw [hat'.bytes_eq, hat'.drop_eq]
        have hc' := hat'.within hc.length_lt
        have hnext := ih c' hc' (by rw [hrest]; omega) ⟨rfl, hc'.pos_le, rfl⟩
        rw [countItems_of_ok hgo hm, hdm]
        rw [hrest] at hnext
        refine hnext.bind fun k k' hk => ?_
        obtain ⟨rfl, vs, hvs, rfl, hcollect, hPs⟩ := hk
        refine ⟨rfl, v :: vs, .next hgo hm hvs, rfl, ?_, ?_⟩
        · rw [collect_of_ok hgo hm, hcollect]
          rfl
        · intro w hw
          rcases List.mem_cons.mp hw with rfl | hw
          · exact hP
          · exact hPs w hw

theorem homList_follows {usizeBits : Nat} (hn : n ≤ 2 ^ usizeBits) (h : Follows n (fun a b => a = b ∧ P a) item d)
    (hd : ∀ xs a rest, d xs = .ok (a, rest) → rest.length < xs.length) :
    Follows n (fun a b => a = b ∧ HomList.Lazy item P a) (homList usizeBits item) (Rlp.homList d) := by
  refine (list_follows hn).bind fun inner all hc => ?_
  obtain ⟨rfl, hlt⟩ := hc
  rw [remaining_new, lift_ok_bind]
  refine (Follows.lift (countItems_follows h hd all.length (.new all) (Cursor.within_new hlt) le_rfl)).bind ?_
  rintro k k' ⟨rfl, vs, hvs, hlen, hcollect, hP⟩
  rw [takeExact_all hn hlt, lift_ok_bind]
  exact .pure ⟨rfl, vs, hvs, hlen, hcollect, hP⟩

end

/-- The `i`-th key of a list of storage keys, or the error of its iterator there. -/
def keyAt (payload : List UInt8) (i : Nat) : Except InvalidTransaction (List UInt8) :=
  match (payload.drop (i * 33)).take 33 with
  | b :: key => if b = 0xa0 then .ok key else .error invalidStructure
  | [] => .error invalidStructure

theorem decodeFromFixed_cons {b : UInt8} {key : List UInt8} (h : key.length = 32) :
    (attempt (decodeFromFixed (b :: key)) : Fallible InvalidTransaction _) =
      .ok (if b = 0xa0 then .ok key else .error invalidStructure) := by
  have hlen : (b :: key).length = 33 := congrArg Nat.succ h
  unfold decodeFromFixed
  rw [if_neg (not_not_intro hlen)]
  show attempt (if b ≠ 0xa0 then _ else _) = _
  by_cases hb : b = 0xa0
  · rw [if_neg (not_not_intro hb), if_pos hb]
    show attempt (slice (b :: key) 1 (b :: key).length >>= fun key => unwrapArray 32 key) = _
    rw [slice_to_end (by rw [hlen]; decide)]
    show attempt (unwrapArray 32 key) = _
    rw [unwrapArray_of_length h]
    rfl
  · rw [if_pos hb, if_neg hb]
    rfl

section
variable {usizeBits n : Nat} (hn : n ≤ 2 ^ usizeBits) {payload : List UInt8} {count : Nat} (hlt : payload.length < n)
  (hcount : payload.length = count * 33)
include hn hlt hcount

theorem next_key {i : Nat} (hi : i < count) : FixedListIter.next usizeBits ⟨payload, i, count⟩ =
    .ok (some (keyAt payload i, ⟨payload, i + 1, count⟩)) := by
  have hchunk : ((payload.take (i * 33 + 33)).drop (i * 33)) = (payload.drop (i * 33)).take 33 := by
    rw [List.drop_take, Nat.add_sub_cancel_left]
  have hlen : ((payload.drop (i * 33)).take 33).length = 33 := by
    rw [List.length_take, List.length_drop]
    omega
  unfold FixedListIter.next
  show (if count ≤ i then _ else mul usizeBits i 33 >>= _) = _
  rw [if_neg (Nat.not_le_of_lt hi), mul_of_lt (by omega)]
  show add usizeBits (i * 33) 33 >>= _ = _
  rw [add_of_lt (by omega)]
  show add usizeBits i 1 >>= _ = _
  rw [add_of_lt (by omega)]
  show slice payload (i * 33) (i * 33 + 33) >>= _ = _
  rw [slice_of_le (Nat.le_add_right _ _) (by omega), hchunk]
  show attempt (decodeFromFixed ((payload.drop (i * 33)).take 33)) >>= _ = _
  unfold keyAt
  rcases hkey : (payload.drop (i * 33)).take 33 with - | ⟨b, key⟩
  · rw [hkey] at hlen
    cases hlen
  · rw [hkey] at hlen
    rw [decodeFromFixed_cons (Nat.succ.inj hlen)]
    rfl

theorem collect_keys (i k : Nat) (hi : i + k = count) : FixedListIter.collect usizeBits (k + 1) ⟨payload, i, count⟩ =
    .ok ((List.range' i k).map (keyAt payload)) := by
  induction k generalizing i with
  | zero =>
    rw [FixedListIter.collect, FixedListIter.next, if_pos (by show count ≤ i; omega)]
    rfl
  | succ k ih =>
    rw [FixedListIter.collect, next_key hn hlt hcount (by omega)]
    show FixedListIter.collect usizeBits (k + 1) ⟨payload, i + 1, count⟩ >>= _ = _
    rw [ih (i + 1) (by omega)]
    rfl

end

theorem Regular.iterate {usizeBits n : Nat} (hn : n ≤ 2 ^ usizeBits) {l : Rlp.FixedList} (h : Regular n l) :
    FixedList.iterate usizeBits l = .ok ((List.range l.count).map (keyAt l.payload)) := by
  rw [List.range_eq_range']
  exact collect_keys hn h.length_lt h.length_eq 0 l.count (Nat.zero_add _)

/-! ## Transaction types -/

theorem decodeListFrom_consumes {α : Type} (body : Rlp α) (xs : List UInt8) (a : α) (rest : List UInt8)
    (h : Rlp.decodeListFrom body xs = .ok (a, rest)) : rest.length < xs.length := by
  obtain ⟨content, ys, hlist, hlift⟩ := Decoder.bind_ok.mp h
  obtain ⟨m, zs, htake, hrest⟩ := Decoder.bind_ok.mp hlist
  have hlocal : Decoder.Local (Decoder.ensure (0xc0 ≤ m) invalidStructure >>= fun _ =>
      (if m ≤ 0xf7 then Pure.pure (m.toNat - 0xc0) else Rlp.longLength (m.toNat - 0xf7)) >>= Rlp.takeExact : Rlp (List UInt8)) :=
    (Decoder.local_ensure _ _).bind fun _ =>
      (Decoder.Local.ite (Decoder.local_pure _) (local_longLength _)).bind fun _ => local_takeExact _
  obtain ⟨pre, rfl, -⟩ := hlocal _ _ _ hrest
  obtain ⟨pre', rfl, -⟩ := Decoder.local_lift _ _ _ _ hlift
  rw [take1_ok htake]
  simp only [List.length_cons, List.length_append]
  omega

def SigFits (r s : List UInt8) : Prop := r.length ≤ 32 ∧ s.length ≤ 32

/-- All storage keys of an access list entry can be read. -/
def KeysRead (usizeBits : Nat) (v : AccessListForAddress) : Prop :=
  FixedList.iterate usizeBits v.slotsList = .ok ((List.range v.slotsList.count).map (keyAt v.slotsList.payload))

section
variable {usizeBits n : Nat} (hn : n ≤ 2 ^ usizeBits)
include hn

theorem accessListItem_follows : Follows n (fun a b => a = b ∧ KeysRead usizeBits a) (accessListItem usizeBits)
    (Rlp.decodeListFrom Tx.AccessListForAddress.decodeListBody) := by
  refine decodeListFrom_follows hn ?_
  refine (address20_follows hn).bind_eq fun address => ?_
  refine (fixedList_follows hn).bind fun slots slots' hs => ?_
  obtain ⟨rfl, hreg⟩ := hs
  exact .pure ⟨rfl, hreg.iterate hn⟩

theorem accessList_follows : Follows n (fun a b => a = b ∧ HomList.Lazy (accessListItem usizeBits) (KeysRead usizeBits) a)
    (accessList usizeBits) Tx.accessList :=
  homList_follows hn (accessListItem_follows hn) (decodeListFrom_consumes _)

omit hn in
theorem ensure_flag {α : Type} {R : α → α → Prop} {p : Prop} [Decidable p] {m : Parse α} {d : Rlp α}
    (h : p → Follows n R m d) :
    Follows n R (lift (.ok (!decide p)) >>= fun bad => CursorM.ensure (bad = false) invalidStructure >>= fun _ => m)
      (Decoder.ensure p invalidStructure >>= fun _ => d) := by
  have hiff : (!decide p) = false ↔ p := by simp
  exact (Follows.ensure hiff _).bind fun _ _ hp => h (hiff.mp hp)

theorem authorizationItem_follows : Follows n (fun a b => a = b ∧ SigFits a.r a.s) (authorizationItem usizeBits)
    (Rlp.decodeListFrom Tx.AuthorizationEntry.decodeListBody) := by
  refine decodeListFrom_follows hn ?_
  refine (u256_follows hn).bind_eq fun chainId => (address20_follows hn).bind_eq fun address => ?_
  refine (u64_follows hn).bind_eq fun nonce => (u8_follows hn).bind_eq fun yParity => ?_
  refine (bytes_follows hn).bind_eq fun r => ?_
  rw [badSigWord_eq]
  refine ensure_flag fun hr => (bytes_follows hn).bind_eq fun s => ?_
  rw [badSigWord_eq]
  exact ensure_flag fun hs => .pure ⟨rfl, hr.1, hs.1⟩

theorem authorizationList_follows :
    Follows n (fun a b => a = b ∧ HomList.Lazy (authorizationItem usizeBits) (fun v => SigFits v.r v.s) a)
      (authorizationList usizeBits) Tx.authorizationList :=
  homList_follows hn (authorizationItem_follows hn) (decodeListFrom_consumes _)

theorem legacyBody_follows : Follows n Eq (LegacyTXInner.decodeListBody usizeBits) Tx.LegacyTXInner.decodeListBody :=
  (u64_follows hn).bind_eq fun _ => (u256_follows hn).bind_eq fun _ => (u64_follows hn).bind_eq fun _ =>
    (destination_follows hn).bind_eq fun _ => (u256_follows hn).bind_eq fun _ => (bytes_follows hn).bind_eq fun _ =>
      .pure rfl

theorem legacySignature_follows : Follows n (fun a b => a = b ∧ SigFits a.r a.s)
    (LegacySignatureData.decodeListBody usizeBits) Tx.LegacySignatureData.decodeListBody := by
  refine (u256_follows hn).bind_eq fun v => (bytes_follows hn).bind_eq fun r => (bytes_follows hn).bind_eq fun s => ?_
  rw [badSignature_eq]
  exact ensure_flag fun h => .pure ⟨rfl, h.1.1, h.2.1⟩

theorem eip2718Signature_follows : Follows n (fun a b => a = b ∧ SigFits a.r a.s)
    (EIP2718SignatureData.decodeListBody usizeBits) Tx.EIP2718SignatureData.decodeListBody := by
  refine (bool_follows hn).bind_eq fun v => (bytes_follows hn).bind_eq fun r => (bytes_follows hn).bind_eq fun s => ?_
  rw [badSignature_eq]
  exact ensure_flag fun h => .pure ⟨rfl, h.1.1, h.2.1⟩

theorem eip2930Body_follows :
    Follows n (fun a b => a = b ∧ HomList.Lazy (accessListItem usizeBits) (KeysRead usizeBits) a.accessList)
      (EIP2930Tx.decodeListBody usizeBits) Tx.EIP2930Tx.decodeListBody := by
  refine (u64_follows hn).bind_eq fun _ => (u64_follows hn).bind_eq fun _ => (u256_follows hn).bind_eq fun _ => ?_
  refine (u64_follows hn).bind_eq fun _ => (destination_follows hn).bind_eq fun _ => (u256_follows hn).bind_eq fun _ => ?_
  refine (bytes_follows hn).bind_eq fun _ => (accessList_follows hn).bind fun l l' hl => ?_
  obtain ⟨rfl, hlazy⟩ := hl
  exact .pure ⟨rfl, hlazy⟩

theorem eip1559Body_follows :
    Follows n (fun a b => a = b ∧ HomList.Lazy (accessListItem usizeBits) (KeysRead usizeBits) a.accessList)
      (EIP1559Tx.decodeListBody usizeBits) Tx.EIP1559Tx.decodeListBody := by
  refine (u64_follows hn).bind_eq fun _ => (u64_follows hn).bind_eq fun _ => (u256_follows hn).bind_eq fun _ => ?_
  refine (u256_follows hn).bind_eq fun _ => (u64_follows hn).bind_eq fun _ => (destination_follows hn).bind_eq fun _ => ?_
  refine (u256_follows hn).bind_eq fun _ => (bytes_follows hn).bind_eq fun _ => ?_
  refine (accessList_follows hn).bind fun l l' hl => ?_
  obtain ⟨rfl, hlazy⟩ := hl
  exact .pure ⟨rfl, hlazy⟩

theorem eip7702Body_follows :
    Follows n (fun a b => a = b ∧ HomList.Lazy (accessListItem usizeBits) (KeysRead usizeBits) a.accessList ∧
        HomList.Lazy (authorizationItem usizeBits) (fun v => SigFits v.r v.s) a.authorizationList)
      (EIP7702Tx.decodeListBody usizeBits) Tx.EIP7702Tx.decodeListBody := by
  refine (u64_follows hn).bind_eq fun _ => (u64_follows hn).bind_eq fun _ => (u256_follows hn).bind_eq fun _ => ?_
  refine (u256_follows hn).bind_eq fun _ => (u64_follows hn).bind_eq fun _ => (address20_follows hn).bind_eq fun _ => ?_
  refine (u256_follows hn).bind_eq fun _ => (bytes_follows hn).bind_eq fun _ => ?_
  refine (accessList_follows hn).bind fun l l' hl => (authorizationList_follows hn).bind fun k k' hk => ?_
  obtain ⟨rfl, hlazy⟩ := hl
  obtain ⟨rfl, hlazy'⟩ := hk
  exact (Follows.ensure Iff.rfl _).bind fun _ _ _ => .pure ⟨rfl, hlazy, hlazy'⟩

end

end ZkOs.Tx.Checked
