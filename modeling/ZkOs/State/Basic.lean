import Mathlib.Data.BitVec
import ZkOs.Lib.Action
import ZkOs.Lib.Digits

/-!
# Words, addresses, resources and errors

* `B160` : an address as ruint stores it, three 64-bit limbs in one 192-bit word; only values
  below `2 ^ 160` are addresses (`B160.Canonical`), and only the low 20 bytes are ever written out;
* `Resources` : ergs and native, both `u64` counters that count down;
* `Err` : the error classes that the callers tell apart.
-/

namespace ZkOs

abbrev U64 := BitVec 64
abbrev U256 := BitVec 256
abbrev Bytes32 := BitVec 256

/-- The limbs of a `ruint` 160-bit value, most significant limb first. Comparison of limbs
(`BitsOrd`) is comparison of this word. -/
abbrev B160 := BitVec 192

namespace B160

def fromLimbs (l₀ l₁ l₂ : U64) : B160 := l₂ ++ l₁ ++ l₀

/-- A value whose unused upper bits are zero. -/
def Canonical (a : B160) : Prop := a.toNat < 2 ^ 160

instance : DecidablePred Canonical := fun a => inferInstanceAs (Decidable (a.toNat < 2 ^ 160))

/-- `to_be_bytes::<20>`: the low 20 bytes, as a number. -/
def low20 (a : B160) : BitVec 160 := a.setWidth 160

def ofLow20 (a : BitVec 160) : B160 := a.setWidth 192

theorem ofLow20_canonical (a : BitVec 160) : (ofLow20 a).Canonical := by
  simp only [Canonical, ofLow20, BitVec.toNat_setWidth]
  have := a.isLt
  omega

theorem low20_inj {a b : B160} (ha : a.Canonical) (hb : b.Canonical) : a.low20 = b.low20 ↔ a = b := by
  constructor
  · intro h
    apply BitVec.eq_of_toNat_eq
    have := congrArg BitVec.toNat h
    simp only [low20, BitVec.toNat_setWidth] at this
    rwa [Nat.mod_eq_of_lt ha, Nat.mod_eq_of_lt hb] at this
  · rintro rfl; rfl

end B160

/-- The low 160 bits of a stack word (`u256_to_b160`). -/
def u256ToB160 (x : U256) : B160 := B160.ofLow20 (x.setWidth 160)

/-- `saturating_mul` and `saturating_add` results: capped at `u64::MAX`. -/
def saturate (n : Nat) : U64 := BitVec.ofNat 64 (min n (2 ^ 64 - 1))

inductive ExecutionEnvironmentType where
  | noEE
  | evm
  deriving DecidableEq, Repr

/-- `CallModifier`, without the modifiers of other execution environments. -/
inductive CallModifier where
  | noModifier
  | constructor
  | delegate
  | static
  | delegateStatic
  | evmCallcode
  | evmCallcodeStatic
  deriving DecidableEq, Repr

/-- Error classes. `defect` stands for internal errors and failed assertions, which end the block;
`fatal` is the fatal runtime error (out of native resources or return memory). -/
inductive Err where
  | outOfErgs
  | fatal
  | defect
  | insufficientBalance
  | balanceOverflow
  | nonceOverflow
  deriving DecidableEq, Repr

/-! ## Resources -/

@[ext] structure Resources where
  ergs : U64
  native : U64
  deriving DecidableEq, Repr

namespace Resources

def empty : Resources := ⟨0, 0⟩

def infinite : Resources := ⟨BitVec.allOnes 64, BitVec.allOnes 64⟩

def fromErgs (e : U64) : Resources := ⟨e, 0⟩
def fromNative (n : U64) : Resources := ⟨0, n⟩

def hasEnough (r c : Resources) : Bool := decide (c.ergs ≤ r.ergs) && decide (c.native ≤ r.native)

def isEmpty (r : Resources) : Bool := r.ergs == 0 && r.native == 0

/-- One counter charged: emptied when it is not sufficient. -/
def chargeOne (r c : U64) : U64 := if r < c then 0 else r - c

/-- Both counters are charged; running out of native takes precedence. -/
def charge (r c : Resources) : Except Err Unit × Resources :=
  let r' : Resources := ⟨chargeOne r.ergs c.ergs, chargeOne r.native c.native⟩
  if r.native < c.native then (.error .fatal, r')
  else if r.ergs < c.ergs then (.error .outOfErgs, r')
  else (.ok (), r')

/-- The subtraction wraps. -/
def chargeUnchecked (r c : Resources) : Resources := ⟨r.ergs - c.ergs, r.native - c.native⟩

/-- `reclaim`, apart from its assertion -/
def reclaim (r r' : Resources) : Resources := ⟨r.ergs + r'.ergs, r.native + r'.native⟩

def reclaimWithheld (r w : Resources) : Resources := ⟨r.ergs + w.ergs, r.native + w.native⟩

def absDiff (a b : U64) : U64 := if a < b then b - a else a - b

def diff (r r' : Resources) : Resources := ⟨absDiff r.ergs r'.ergs, absDiff r.native r'.native⟩

def exhaustErgs (r : Resources) : Resources := { r with ergs := 0 }

theorem chargeOne_le (r c : U64) : chargeOne r c ≤ r := by
  unfold chargeOne
  split
  · simp [BitVec.le_def]
  · rename_i h
    rw [BitVec.le_def, BitVec.toNat_sub_of_le (BitVec.not_lt.mp h)]
    omega

theorem charge_native_le (r c : Resources) : (charge r c).2.native ≤ r.native := by
  unfold charge
  split
  · exact chargeOne_le _ _
  · split <;> exact chargeOne_le _ _

theorem charge_ergs_le (r c : Resources) : (charge r c).2.ergs ≤ r.ergs := by
  unfold charge
  split
  · exact chargeOne_le _ _
  · split <;> exact chargeOne_le _ _

structure Le (r r' : Resources) : Prop where
  ergs : r.ergs ≤ r'.ergs
  native : r.native ≤ r'.native

theorem Le.refl (r : Resources) : r.Le r := ⟨BitVec.le_refl _, BitVec.le_refl _⟩

theorem Le.trans {r r' r'' : Resources} (h : r.Le r') (h' : r'.Le r'') : r.Le r'' :=
  ⟨BitVec.le_trans h.ergs h'.ergs, BitVec.le_trans h.native h'.native⟩

theorem charge_le (r c : Resources) : (charge r c).2.Le r := ⟨charge_ergs_le r c, charge_native_le r c⟩

theorem exhaustErgs_le (r : Resources) : r.exhaustErgs.Le r :=
  ⟨BitVec.le_def.mpr (Nat.zero_le _), BitVec.le_refl _⟩

theorem reclaim_native {r : Resources} (h : r.native = 0) (r' : Resources) : (r.reclaim r').native = r'.native := by
  rw [reclaim, h]
  exact BitVec.zero_add _

theorem empty_reclaim (r : Resources) : empty.reclaim r = r :=
  Resources.ext (BitVec.zero_add _) (BitVec.zero_add _)

theorem charge_ok {r c r' : Resources} (h : charge r c = (.ok (), r')) :
    c.ergs ≤ r.ergs ∧ c.native ≤ r.native ∧ r' = ⟨r.ergs - c.ergs, r.native - c.native⟩ := by
  unfold charge at h
  split at h
  · cases h
  · rename_i hn
    split at h
    · cases h
    · rename_i he
      cases h
      exact ⟨BitVec.not_lt.mp he, BitVec.not_lt.mp hn, by simp [chargeOne, hn, he]⟩

end Resources

/-! ## Costs -/

def ergsPerGas : Nat := 256

/-- Gas as ergs; the products of the source's constants fit in 64 bits. -/
def gas (n : Nat) : U64 := BitVec.ofNat 64 (n * ergsPerGas)

def nativeWithDelegations (raw bigint blake : Nat) : U64 := BitVec.ofNat 64 (raw + bigint * 4 + blake * 16)

def blake2sNativeCost (len : Nat) : U64 := saturate (min ((len + 63) / 64 * 340) (2 ^ 64 - 1) + 800)

def keccak256NativeCost (len : Nat) : U64 := BitVec.ofNat 64 (max 1 ((len + 135) / 136) * 17500 + 2500)

end ZkOs
