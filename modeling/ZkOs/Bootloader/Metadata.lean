import ZkOs.Bootloader.Transaction
import ZkOs.Lib.Decoder
import ZkOs.Oracle.Csr

/-!
# Block metadata from the oracle

The oracle answers with words of the pointer width; `from_iter` assembles them to limbs. For an address
the limbs are taken as they are, nothing checks that the last of them has its upper half zero.

* `fromIter_coinbase` : the words that make the coinbase;
* `coinbase_canonical_iff` : when they make an address;
* `metadata_agrees` : both targets read the same.
-/

namespace ZkOs.Bootloader

/-- The targets of the sequencer and of the prover. -/
inductive PointerWidth where
  | w32
  | w64
  deriving DecidableEq

def PointerWidth.bits : PointerWidth → Nat
  | w32 => 32
  | w64 => 64

abbrev Usize (p : PointerWidth) := BitVec p.bits

abbrev WordReader (p : PointerWidth) := Decoder (Usize p) Err

variable (p : PointerWidth)

def nextWord : WordReader p (Usize p)
  | [] => .error .defect
  | w :: ws => .ok (w, ws)

def u64FromIter : WordReader p U64 :=
  match p with
  | .w32 => do
    let low ← nextWord .w32
    let high ← nextWord .w32
    pure (high ++ low)
  | .w64 => nextWord .w64

def u256FromIter : WordReader p U256 := do
  let l₀ ← u64FromIter p
  let l₁ ← u64FromIter p
  let l₂ ← u64FromIter p
  let l₃ ← u64FromIter p
  pure (l₃ ++ l₂ ++ l₁ ++ l₀)

def b160UsizeLen : Nat :=
  match p with
  | .w32 => 6
  | .w64 => 3

def b160FromIter : WordReader p B160 := fun ws =>
  if ws.length < b160UsizeLen p then .error .defect
  else (do
    let l₀ ← u64FromIter p
    let l₁ ← u64FromIter p
    let l₂ ← u64FromIter p
    pure (B160.fromLimbs l₀ l₁ l₂) : WordReader p B160) ws

/-- `BlockHashes::from_iter`: a hash that cannot be read is zero; by then the stream is used up. -/
def blockHashesFromIter : Nat → WordReader p (List U256)
  | 0 => pure []
  | n + 1 => fun ws =>
    let x := (u256FromIter p ws).toOption.getD (0, [])
    match blockHashesFromIter n x.2 with
    | .error e => .error e
    | .ok (hs, rest) => .ok (x.1 :: hs, rest)

@[irreducible] def blockHashesWindowSize : Nat := 256

structure BlockMetadataFromOracle extends BlockMetadata where
  blockNumber : U64
  timestamp : U64
  blockHashes : List U256
  mixHash : U256

def BlockMetadataFromOracle.fromIter : WordReader p BlockMetadataFromOracle := do
  let eip1559Basefee ← u256FromIter p
  let pubdataPrice ← u256FromIter p
  let nativePrice ← u256FromIter p
  let blockNumber ← u64FromIter p
  let timestamp ← u64FromIter p
  let chainId ← u64FromIter p
  let gasLimit ← u64FromIter p
  let pubdataLimit ← u64FromIter p
  let coinbase ← b160FromIter p
  let blockHashes ← blockHashesFromIter p blockHashesWindowSize
  let mixHash ← u256FromIter p
  pure { eip1559Basefee, pubdataPrice, nativePrice, blockNumber, timestamp, chainId, gasLimit, pubdataLimit, coinbase
         blockHashes, mixHash }

/-! ## Addresses -/

theorem fromLimbs_canonical_iff (l₀ l₁ l₂ : U64) : (B160.fromLimbs l₀ l₁ l₂).Canonical ↔ l₂.toNat < 2 ^ 32 := by
  have h₀ := l₀.isLt
  have h₁ := l₁.isLt
  simp only [B160.Canonical, B160.fromLimbs, BitVec.toNat_append, Nat.shiftLeft_eq]
  rw [← Nat.shiftLeft_eq, ← Nat.shiftLeft_eq, ← Nat.shiftLeft_add_eq_or_of_lt h₁, ← Nat.shiftLeft_add_eq_or_of_lt h₀]
  simp only [Nat.shiftLeft_eq]
  omega

def limbAt (ws : List (Usize p)) (i : Nat) : U64 :=
  match p, ws with
  | .w32, ws => (ws.getD (2 * i + 1) 0 ++ ws.getD (2 * i) 0 : BitVec (32 + 32))
  | .w64, ws => ws.getD i 0

def dropLimbs (ws : List (Usize p)) (n : Nat) : List (Usize p) :=
  match p, ws with
  | .w32, ws => ws.drop (2 * n)
  | .w64, ws => ws.drop n

variable {p}

theorem limbAt_dropLimbs (ws : List (Usize p)) (n i : Nat) : limbAt p (dropLimbs p ws n) i = limbAt p ws (n + i) := by
  cases p with
  | w32 =>
    simp only [limbAt, dropLimbs, List.getD_eq_getElem?_getD, List.getElem?_drop]
    rw [show 2 * n + (2 * i + 1) = 2 * (n + i) + 1 by omega, show 2 * n + 2 * i = 2 * (n + i) by omega]
  | w64 =>
    simp only [limbAt, dropLimbs, List.getD_eq_getElem?_getD, List.getElem?_drop]
    rfl

theorem dropLimbs_dropLimbs (ws : List (Usize p)) (n k : Nat) :
    dropLimbs p (dropLimbs p ws n) k = dropLimbs p ws (n + k) := by
  cases p with
  | w32 =>
    simp only [dropLimbs, List.drop_drop]
    rw [show 2 * n + 2 * k = 2 * (n + k) by omega]
  | w64 => simp only [dropLimbs, List.drop_drop]

theorem u64FromIter_ok {ws rest : List (Usize p)} {v : U64} (h : u64FromIter p ws = .ok (v, rest)) :
    v = limbAt p ws 0 ∧ rest = dropLimbs p ws 1 := by
  cases p with
  | w32 =>
    rcases ws with _ | ⟨low, _ | ⟨high, ws⟩⟩ <;> cases h
    exact ⟨rfl, rfl⟩
  | w64 =>
    rcases ws with _ | ⟨w, ws⟩ <;> cases h
    exact ⟨rfl, rfl⟩

section Steps

variable {α : Type} {ws rest : List (Usize p)} {a : α}

theorem u64FromIter_bind {f : U64 → WordReader p α} (h : (u64FromIter p >>= f) ws = .ok (a, rest)) :
    f (limbAt p ws 0) (dropLimbs p ws 1) = .ok (a, rest) := by
  obtain ⟨v, ws₁, hv, h₁⟩ := Decoder.bind_ok.mp h
  obtain ⟨rfl, rfl⟩ := u64FromIter_ok hv
  exact h₁

theorem u256FromIter_bind {f : U256 → WordReader p α} (h : (u256FromIter p >>= f) ws = .ok (a, rest)) :
    ∃ v, f v (dropLimbs p ws 4) = .ok (a, rest) := by
  obtain ⟨v, ws₁, hv, h₁⟩ := Decoder.bind_ok.mp h
  have hlimbs := u64FromIter_bind (u64FromIter_bind (u64FromIter_bind (u64FromIter_bind hv)))
  simp only [dropLimbs_dropLimbs] at hlimbs
  cases hlimbs
  exact ⟨_, h₁⟩

end Steps

theorem b160FromIter_ok {ws rest : List (Usize p)} {a : B160} (h : b160FromIter p ws = .ok (a, rest)) :
    a = B160.fromLimbs (limbAt p ws 0) (limbAt p ws 1) (limbAt p ws 2) := by
  unfold b160FromIter at h
  split at h
  · cases h
  · have hlimbs := u64FromIter_bind (u64FromIter_bind (u64FromIter_bind h))
    simp only [limbAt_dropLimbs, dropLimbs_dropLimbs] at hlimbs
    cases hlimbs
    rfl

namespace BlockMetadataFromOracle

variable {ws rest : List (Usize p)} {m : BlockMetadataFromOracle}

/-- Three 256-bit and five 64-bit values come before the coinbase. -/
theorem fromIter_coinbase (h : fromIter p ws = .ok (m, rest)) :
    m.coinbase = B160.fromLimbs (limbAt p ws 17) (limbAt p ws 18) (limbAt p ws 19) := by
  obtain ⟨_, h₁⟩ := u256FromIter_bind h
  obtain ⟨_, h₂⟩ := u256FromIter_bind h₁
  obtain ⟨_, h₃⟩ := u256FromIter_bind h₂
  have h₄ := u64FromIter_bind (u64FromIter_bind (u64FromIter_bind (u64FromIter_bind (u64FromIter_bind h₃))))
  obtain ⟨coinbase, _, hcoinbase, h₅⟩ := Decoder.bind_ok.mp h₄
  obtain ⟨_, _, -, h₆⟩ := Decoder.bind_ok.mp h₅
  obtain ⟨_, _, -, h₇⟩ := Decoder.bind_ok.mp h₆
  cases h₇
  show coinbase = _
  rw [b160FromIter_ok hcoinbase]
  simp only [limbAt_dropLimbs, dropLimbs_dropLimbs]

theorem coinbase_canonical_iff (h : fromIter p ws = .ok (m, rest)) :
    m.coinbase.Canonical ↔ (limbAt p ws 19).toNat < 2 ^ 32 := by
  rw [fromIter_coinbase h]
  exact fromLimbs_canonical_iff _ _ _

end BlockMetadataFromOracle

/-! ## Both targets -/

/-- The stream that the prover gets for a stream of the sequencer. -/
def halves (ws : List (Usize .w64)) : List (Usize .w32) := Oracle.halves ws

/-- From the halves the prover reads what the sequencer reads. -/
def Agrees {α : Type} (r : WordReader .w32 α) (r' : WordReader .w64 α) : Prop :=
  ∀ ws, r (halves ws) = (r' ws).map fun x => (x.1, halves x.2)

namespace Agrees

variable {α β : Type}

theorem bind {r : WordReader .w32 α} {r' : WordReader .w64 α} {f : α → WordReader .w32 β} {f' : α → WordReader .w64 β}
    (hr : Agrees r r') (hf : ∀ a, Agrees (f a) (f' a)) : Agrees (r >>= f) (r' >>= f') := by
  intro ws
  rw [Decoder.bind_apply, Decoder.bind_apply, hr ws]
  rcases r' ws with e | ⟨a, rest⟩
  · rfl
  · exact hf a rest

theorem u64 : Agrees (u64FromIter .w32) (u64FromIter .w64) := by
  intro ws
  cases ws with
  | nil => rfl
  | cons x xs => exact congrArg (fun x => Except.ok (x, halves xs)) (Oracle.halves_append x)

theorem u256 : Agrees (u256FromIter .w32) (u256FromIter .w64) :=
  u64.bind fun _ => u64.bind fun _ => u64.bind fun _ => u64.bind fun _ _ => rfl

theorem b160 : Agrees (b160FromIter .w32) (b160FromIter .w64) := by
  intro ws
  have hlen : (halves ws).length = ws.length * 2 := Oracle.length_halves ws
  unfold b160FromIter
  by_cases h : ws.length < b160UsizeLen .w64
  · rw [if_pos h, if_pos (by rw [hlen]; exact Nat.mul_lt_mul_of_pos_right h Nat.two_pos)]
    rfl
  · rw [if_neg h, if_neg (by rw [hlen]; exact fun h' => h (Nat.lt_of_mul_lt_mul_right h'))]
    exact (u64.bind fun _ => u64.bind fun _ => u64.bind fun _ _ => rfl) ws

theorem blockHashes (n : Nat) : Agrees (blockHashesFromIter .w32 n) (blockHashesFromIter .w64 n) := by
  induction n with
  | zero => exact fun _ => rfl
  | succ n ih =>
    intro ws
    simp only [blockHashesFromIter, u256 ws]
    rcases u256FromIter .w64 ws with e | ⟨x, rest⟩
    · simp only [Except.map, Except.toOption, Option.getD_none]
      rw [show ([] : List (Usize .w32)) = halves [] from rfl, ih]
      rcases blockHashesFromIter .w64 n [] with e | y <;> rfl
    · simp only [Except.map, Except.toOption, Option.getD_some, ih rest]
      rcases blockHashesFromIter .w64 n rest with e | y <;> rfl

end Agrees

theorem metadata_agrees (ws : List (Usize .w64)) : BlockMetadataFromOracle.fromIter .w32 (halves ws) =
    (BlockMetadataFromOracle.fromIter .w64 ws).map fun x => (x.1, halves x.2) :=
  (Agrees.u256.bind fun _ => Agrees.u256.bind fun _ => Agrees.u256.bind fun _ => Agrees.u64.bind fun _ =>
    Agrees.u64.bind fun _ => Agrees.u64.bind fun _ => Agrees.u64.bind fun _ => Agrees.u64.bind fun _ =>
    Agrees.b160.bind fun _ => (Agrees.blockHashes _).bind fun _ => Agrees.u256.bind fun _ _ => rfl) ws

end ZkOs.Bootloader
