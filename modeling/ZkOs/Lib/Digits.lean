import Mathlib.Data.Nat.Digits.Lemmas
import Mathlib.Data.Nat.ModEq
import Mathlib.Data.List.DropRight

/-!
# Numbers as lists of machine words

Little-endian lists of `w`-bit words, read in base `2 ^ w`.

* `radix w`, `val ds` : the base and the number denoted by `ds`; `val_lt`, `val_append`, `val_set`;
* `mulLow`, `mulHigh`, `addLow`, `addCarry` : word operations with their exact values;
* `beNat bs` : a byte string read in big-endian order.
-/

namespace ZkOs.Digits

/-- The base of `w`-bit words. -/
def radix (w : Nat) : Nat := 2 ^ w

theorem radix_pos (w : Nat) : 0 < radix w := Nat.two_pow_pos w

theorem toNat_lt_radix {w : Nat} (x : BitVec w) : x.toNat < radix w := x.isLt

/-- The number denoted by a little-endian list of words. -/
def val {w : Nat} : List (BitVec w) → Nat
  | [] => 0
  | d :: ds => d.toNat + radix w * val ds

variable {w : Nat}

@[simp] theorem val_nil : val ([] : List (BitVec w)) = 0 := rfl

@[simp] theorem val_cons (d : BitVec w) (ds : List (BitVec w)) :
    val (d :: ds) = d.toNat + radix w * val ds := rfl

theorem val_eq_ofDigits (ds : List (BitVec w)) :
    val ds = Nat.ofDigits (radix w) (ds.map BitVec.toNat) := by
  induction ds with
  | nil => rfl
  | cons d ds ih => rw [val_cons, List.map_cons, Nat.ofDigits_cons, ih]

theorem val_append (xs ys : List (BitVec w)) :
    val (xs ++ ys) = val xs + radix w ^ xs.length * val ys := by
  simp [val_eq_ofDigits, Nat.ofDigits_append]

theorem val_concat (xs : List (BitVec w)) (d : BitVec w) :
    val (xs ++ [d]) = val xs + radix w ^ xs.length * d.toNat := by
  rw [val_append, val_cons, val_nil, mul_zero, add_zero]

theorem val_lt (ds : List (BitVec w)) : val ds < radix w ^ ds.length := by
  induction ds with
  | nil => simp
  | cons d ds ih =>
    have hd := toNat_lt_radix d
    rw [val_cons, List.length_cons, pow_succ']
    calc d.toNat + radix w * val ds < radix w + radix w * val ds := by omega
      _ = radix w * (val ds + 1) := by ring
      _ ≤ radix w * radix w ^ ds.length := Nat.mul_le_mul_left _ ih

theorem val_set (ds : List (BitVec w)) (i : Nat) (x : BitVec w) (hi : i < ds.length) :
    val (ds.set i x) + radix w ^ i * (ds[i]).toNat = val ds + radix w ^ i * x.toNat := by
  induction ds generalizing i with
  | nil => simp at hi
  | cons d ds ih =>
    cases i with
    | zero => simp; omega
    | succ i =>
      have hi' : i < ds.length := by simpa using hi
      have h := ih i hi'
      simp only [List.set_cons_succ, val_cons, List.getElem_cons_succ, pow_succ']
      calc d.toNat + radix w * val (ds.set i x) + radix w * radix w ^ i * (ds[i]).toNat
          = d.toNat + radix w * (val (ds.set i x) + radix w ^ i * (ds[i]).toNat) := by ring
        _ = d.toNat + radix w * val ds + radix w * radix w ^ i * x.toNat := by rw [h]; ring

theorem val_eq_zero_of_forall {ds : List (BitVec w)} (h : ∀ d ∈ ds, d = 0) : val ds = 0 := by
  induction ds with
  | nil => rfl
  | cons d ds ih =>
    rw [val_cons, h d (by simp), ih fun x hx => h x (by simp [hx])]
    simp

/-- A number whose top word is not zero needs all its words. -/
theorem le_val_of_getLast_ne_zero {ds : List (BitVec w)} (hne : ds ≠ [])
    (hlast : ds.getLast hne ≠ 0) : radix w ^ (ds.length - 1) ≤ val ds := by
  rw [← List.dropLast_append_getLast hne, val_concat]
  have hpos : 0 < (ds.getLast hne).toNat :=
    Nat.pos_of_ne_zero fun h => hlast (BitVec.eq_of_toNat_eq (by simpa using h))
  simp only [List.length_append, List.length_dropLast, List.length_singleton, Nat.add_sub_cancel]
  calc radix w ^ (ds.length - 1) ≤ radix w ^ (ds.length - 1) * (ds.getLast hne).toNat :=
        Nat.le_mul_of_pos_right _ hpos
    _ ≤ _ := Nat.le_add_left _ _

theorem val_rdropWhile_zero (ds : List (BitVec w)) :
    val (ds.rdropWhile (· == 0)) = val ds := by
  induction ds using List.reverseRecOn with
  | nil => simp
  | append_singleton ds d ih =>
    rw [List.rdropWhile_concat]
    split
    · rename_i hd
      rw [ih, val_concat, eq_of_beq hd]
      simp
    · rfl

/-! ## Word operations -/

def mulLow (x y : BitVec w) : BitVec w := BitVec.ofNat w (x.toNat * y.toNat)

def mulHigh (x y : BitVec w) : BitVec w := BitVec.ofNat w (x.toNat * y.toNat / radix w)

def addLow (x y : BitVec w) : BitVec w := x + y

def addCarry (x y : BitVec w) : Nat := if radix w ≤ x.toNat + y.toNat then 1 else 0

theorem addCarry_le_one (x y : BitVec w) : addCarry x y ≤ 1 := by
  unfold addCarry
  split <;> omega

theorem toNat_addLow (x y : BitVec w) :
    (addLow x y).toNat + radix w * addCarry x y = x.toNat + y.toNat := by
  have hx := toNat_lt_radix x
  have hy := toNat_lt_radix y
  unfold addLow addCarry
  rw [BitVec.toNat_add, ← radix]
  split
  · rename_i h
    rw [Nat.mod_eq_sub_mod h, Nat.mod_eq_of_lt (by omega)]
    omega
  · rw [Nat.mod_eq_of_lt (by omega)]
    omega

theorem toNat_addLow_of_lt {x y : BitVec w} (h : x.toNat + y.toNat < radix w) :
    (addLow x y).toNat = x.toNat + y.toNat := by
  unfold addLow
  rw [BitVec.toNat_add, ← radix, Nat.mod_eq_of_lt h]

theorem toNat_mulHigh (x y : BitVec w) :
    (mulHigh x y).toNat = x.toNat * y.toNat / radix w := by
  unfold mulHigh
  rw [BitVec.toNat_ofNat, ← radix]
  apply Nat.mod_eq_of_lt
  apply Nat.div_lt_of_lt_mul
  exact Nat.mul_lt_mul_of_lt_of_lt (toNat_lt_radix x) (toNat_lt_radix y)

theorem mulLow_add_mulHigh (x y : BitVec w) :
    (mulLow x y).toNat + radix w * (mulHigh x y).toNat = x.toNat * y.toNat := by
  rw [toNat_mulHigh, mulLow, BitVec.toNat_ofNat, ← radix, Nat.mod_add_div]

/-- The high word of `x * y` leaves room for two more words added to the product. -/
theorem mul_add_add_lt (x y u v : BitVec w) :
    x.toNat * y.toNat + u.toNat + v.toNat < radix w * radix w := by
  have hx := toNat_lt_radix x
  have hy := toNat_lt_radix y
  have hu := toNat_lt_radix u
  have hv := toNat_lt_radix v
  have hp : x.toNat * y.toNat ≤ (radix w - 1) * (radix w - 1) :=
    Nat.mul_le_mul (by omega) (by omega)
  obtain ⟨n, hn⟩ : ∃ n, radix w = n + 1 := ⟨radix w - 1, by omega⟩
  rw [hn] at hu hv hp ⊢
  simp only [Nat.add_sub_cancel] at hp
  nlinarith

/-! ## Big-endian bytes -/

/-- A byte string read as a big-endian number. -/
def beNat (bs : List UInt8) : Nat := bs.foldl (fun n b => n * 256 + b.toNat) 0

/-- The lowest `k` bytes of `n`, most significant first. -/
def beBytes (k n : Nat) : List UInt8 :=
  (List.range k).map fun i => UInt8.ofNat (n / 256 ^ (k - 1 - i))

theorem foldl_beNat (n : Nat) (bs : List UInt8) :
    bs.foldl (fun n b => n * 256 + b.toNat) n = n * 256 ^ bs.length + beNat bs := by
  induction bs generalizing n with
  | nil => simp [beNat]
  | cons b bs ih =>
    simp only [beNat, List.foldl_cons, List.length_cons]
    rw [ih, ih (0 * 256 + b.toNat), pow_succ']
    ring

theorem beNat_append (xs ys : List UInt8) :
    beNat (xs ++ ys) = beNat xs * 256 ^ ys.length + beNat ys := by
  rw [beNat, List.foldl_append, foldl_beNat]
  rfl

theorem beNat_lt (bs : List UInt8) : beNat bs < 256 ^ bs.length := by
  induction bs using List.reverseRecOn with
  | nil => simp [beNat]
  | append_singleton bs b ih =>
    have hb : b.toNat < 256 := b.toNat_lt
    rw [beNat_append, List.length_append, List.length_singleton, pow_succ]
    simp only [beNat, List.foldl_cons, List.foldl_nil]
    simp only [beNat] at ih
    omega

theorem beNat_cons (b : UInt8) (bs : List UInt8) :
    beNat (b :: bs) = b.toNat * 256 ^ bs.length + beNat bs := by
  rw [← List.singleton_append, beNat_append]
  simp [beNat]

theorem beNat_inj_of_length {xs ys : List UInt8} (hlen : xs.length = ys.length)
    (h : beNat xs = beNat ys) : xs = ys := by
  induction xs generalizing ys with
  | nil => exact (List.length_eq_zero_iff.mp hlen.symm).symm
  | cons x xs ih =>
    cases ys with
    | nil => simp at hlen
    | cons y ys =>
      have hlen' : xs.length = ys.length := by simpa using hlen
      rw [beNat_cons, beNat_cons, hlen'] at h
      have hx := beNat_lt xs
      have hy := beNat_lt ys
      rw [hlen'] at hx
      have hhead : x.toNat = y.toNat := by
        have hpos : 0 < 256 ^ ys.length := Nat.pow_pos (by decide)
        have h1 := congrArg (· / 256 ^ ys.length) h
        simpa only [Nat.add_comm (_ * _), Nat.add_mul_div_right _ _ hpos, Nat.div_eq_of_lt hx,
          Nat.div_eq_of_lt hy, Nat.zero_add] using h1
      have htail : beNat xs = beNat ys := by rw [hhead] at h; omega
      rw [UInt8.toNat_inj.mp hhead, ih hlen' htail]

/-- A string without a leading zero byte has the length its value needs. -/
theorem le_beNat_of_head {b : UInt8} (bs : List UInt8) (h : b ≠ 0) :
    256 ^ bs.length ≤ beNat (b :: bs) := by
  have hb : 0 < b.toNat := Nat.pos_of_ne_zero fun h0 => h (UInt8.toNat_inj.mp h0)
  rw [beNat_cons]
  exact (Nat.le_mul_of_pos_left _ hb).trans (Nat.le_add_right _ _)

theorem beNat_inj_of_head {xs ys : List UInt8} (hx : xs.head? ≠ some 0) (hy : ys.head? ≠ some 0)
    (h : beNat xs = beNat ys) : xs = ys := by
  have key : ∀ {us vs : List UInt8}, us.head? ≠ some 0 → beNat us = beNat vs →
      us.length ≤ vs.length := by
    intro us vs hu he
    cases us with
    | nil => exact Nat.zero_le _
    | cons b bs =>
      have h1 := le_beNat_of_head bs (b := b) (by simpa using hu)
      rw [he] at h1
      exact (Nat.pow_lt_pow_iff_right (by decide)).mp (h1.trans_lt (beNat_lt vs))
  exact beNat_inj_of_length (Nat.le_antisymm (key hx h) (key hy h.symm)) h

@[simp] theorem length_beBytes (k n : Nat) : (beBytes k n).length = k := by
  rw [beBytes, List.length_map, List.length_range]

theorem beBytes_succ (k n : Nat) : beBytes (k + 1) n = UInt8.ofNat (n / 256 ^ k) :: beBytes k n := by
  rw [beBytes, List.range_succ_eq_map, List.map_cons, List.map_map]
  refine congrArg (_ :: ·) (List.map_congr_left fun i _ => ?_)
  show UInt8.ofNat (n / 256 ^ (k + 1 - 1 - (i + 1))) = _
  rw [Nat.add_sub_cancel, Nat.sub_add_eq, Nat.sub_right_comm]

theorem beBytes_add (m k n : Nat) : beBytes (m + k) n = beBytes m (n / 256 ^ k) ++ beBytes k n := by
  induction m with
  | zero => rw [Nat.zero_add, show beBytes 0 (n / 256 ^ k) = [] from rfl, List.nil_append]
  | succ m ih =>
    rw [Nat.add_right_comm, beBytes_succ, ih, beBytes_succ, List.cons_append, Nat.div_div_eq_div_mul, ← pow_add,
      Nat.add_comm k m]

theorem beBytes_zero (k : Nat) : beBytes k 0 = List.replicate k 0 := by
  induction k with
  | zero => rfl
  | succ k ih =>
    rw [beBytes_succ, ih, Nat.zero_div]
    rfl

theorem beNat_beBytes (k n : Nat) : beNat (beBytes k n) = n % 256 ^ k := by
  induction k with
  | zero => rw [pow_zero, Nat.mod_one]; rfl
  | succ k ih =>
    have hbyte : (UInt8.ofNat (n / 256 ^ k)).toNat = n / 256 ^ k % 256 := UInt8.toNat_ofNat'
    rw [beBytes_succ, beNat_cons, ih, length_beBytes, hbyte, pow_succ, Nat.mod_mul, Nat.add_comm, Nat.mul_comm]

theorem beBytes_beNat {k : Nat} {word : List UInt8} (h : word.length = k) : beBytes k (beNat word) = word := by
  refine beNat_inj_of_length (by rw [length_beBytes, h]) ?_
  rw [beNat_beBytes, Nat.mod_eq_of_lt (h ▸ beNat_lt word)]

theorem beBytes_inj {k m n : Nat} (hm : m < 256 ^ k) (hn : n < 256 ^ k) (h : beBytes k m = beBytes k n) : m = n := by
  have hval := congrArg beNat h
  rwa [beNat_beBytes, beNat_beBytes, Nat.mod_eq_of_lt hm, Nat.mod_eq_of_lt hn] at hval

theorem beNat_replicate_append (n : Nat) (bs : List UInt8) : beNat (List.replicate n 0 ++ bs) = beNat bs := by
  have hzero : beNat (List.replicate n 0) = 0 := by
    rw [← beBytes_zero, beNat_beBytes, Nat.zero_mod]
  rw [beNat_append, hzero, Nat.zero_mul, Nat.zero_add]

theorem length_flatMap_beBytes (k : Nat) (ns : List Nat) : (ns.flatMap (beBytes k)).length = ns.length * k := by
  induction ns with
  | nil => simp
  | cons n ns ih =>
    rw [List.flatMap_cons, List.length_append, length_beBytes, ih, List.length_cons, Nat.succ_mul, Nat.add_comm]

theorem flatMap_injective {α β : Type*} {f : α → List β} {k : Nat} (hk : 0 < k) (hlen : ∀ a, (f a).length = k)
    (hf : Function.Injective f) : Function.Injective (List.flatMap f) := by
  intro xs
  induction xs with
  | nil =>
    intro ys h
    rcases ys with _ | ⟨y, ys⟩
    · rfl
    · have := congrArg List.length h
      simp only [List.flatMap_nil, List.length_nil, List.flatMap_cons, List.length_append, hlen] at this
      omega
  | cons x xs ih =>
    intro ys h
    rcases ys with _ | ⟨y, ys⟩
    · have := congrArg List.length h
      simp only [List.flatMap_nil, List.length_nil, List.flatMap_cons, List.length_append, hlen] at this
      omega
    · rw [List.flatMap_cons, List.flatMap_cons] at h
      obtain ⟨hhead, htail⟩ := List.append_inj h (by rw [hlen, hlen])
      rw [hf hhead, ih htail]

end ZkOs.Digits
