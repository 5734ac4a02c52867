import ZkOs.Mpt.Node

/-!
# Paths in nodes: writing and reading the hex-prefix encoding

* `writeNibbles` : the path of a leaf or an extension in bytes;
* `internNibblesInto` : the loop that reads it into a buffer of the interner, which may have no room;
* `hexPrefix` : the nibbles of the encoding, with a padding nibble for a path of even length;
* `internNibblesInto_iff` : what is accepted, and `internNibblesInto_writeNibbles` : the round trip.
-/

namespace ZkOs.Mpt

/-- The loop of `write_nibbles`, with `write_high` and `byte`. -/
def writeNibblesLoop : Bool → UInt8 → List UInt8 → List UInt8
  | writeHigh, byte, [] => if writeHigh then [byte] else []
  | true, byte, el :: path => byte :: writeNibblesLoop false (el <<< 4) path
  | false, byte, el :: path => writeNibblesLoop true (byte ||| el) path

def writeNibbles (isLeaf : Bool) (path : List UInt8) : List UInt8 :=
  if path.length % 2 = 1 then writeNibblesLoop false (if isLeaf then 0x30 else 0x10) path
  else writeNibblesLoop true (if isLeaf then 0x20 else 0x00) path

/-- The loop of `intern_nibbles`, with `process_next` and `nibbles_byte`; it must not read past the end. -/
def internNibblesLoop : Nat → Bool → UInt8 → List UInt8 → Option (List UInt8)
  | 0, _, _, _ => some []
  | _ + 1, true, _, [] => none
  | n + 1, true, _, byte :: it => (internNibblesLoop n false byte it).map (byte >>> 4 :: ·)
  | n + 1, false, byte, it => (internNibblesLoop n true byte it).map ((byte &&& 0x0f) :: ·)

/-- The first byte: whether its low nibble belongs to the path, and whether it is that of a leaf. -/
def firstByte (byte : UInt8) : Option (Bool × Bool) :=
  let t := byte >>> 4
  if t = 0 then if byte &&& 0x0f ≠ 0 then none else some (false, false)
  else if t = 1 then some (true, false)
  else if t = 2 then if byte &&& 0x0f ≠ 0 then none else some (false, true)
  else if t = 3 then some (true, true)
  else none

/-- `intern_nibbles`; `getBuffer` says whether the interner has room for that many bytes. -/
def internNibblesInto (getBuffer : Nat → Bool) (nibblesEncoding : List UInt8) : Option (List UInt8 × Bool) :=
  match nibblesEncoding with
  | [] => none
  | byte :: it => do
    let (skipSingleChar, isLeaf) ← firstByte byte
    let numNibbles := nibblesEncoding.length * 2 - 1
    let numNibbles := if skipSingleChar then numNibbles else numNibbles - 1
    guard (getBuffer numNibbles)
    let pathSegment ← internNibblesLoop numNibbles (!skipSingleChar) byte it
    return (pathSegment, isLeaf)

def hexPrefix (isLeaf : Bool) (path : List UInt8) : List UInt8 :=
  let flag := if isLeaf then 2 else 0
  if path.length % 2 = 0 then flag :: 0 :: path else (flag + 1) :: path

variable {path : List UInt8}

/-! ## Writing -/

theorem nibblesOf_shiftLeft_or {x y : UInt8} (hx : x < 16) (hy : y < 16) : nibblesOf (x <<< 4 ||| y) = [x, y] := by
  have key : ∀ a b : Fin 16, nibblesOf (UInt8.ofNat a <<< 4 ||| UInt8.ofNat b) = [UInt8.ofNat a, UInt8.ofNat b] := by
    decide
  simpa using key ⟨x.toNat, hx⟩ ⟨y.toNat, hy⟩

theorem nibblesOf_writeNibblesLoop (hpath : ∀ x ∈ path, x < 16) :
    (path.length % 2 = 0 → ∀ byte, (writeNibblesLoop true byte path).flatMap nibblesOf = nibblesOf byte ++ path) ∧
    (path.length % 2 = 1 → ∀ y : UInt8, y < 16 → (writeNibblesLoop false (y <<< 4) path).flatMap nibblesOf = y :: path) := by
  induction path with
  | nil => simp [writeNibblesLoop]
  | cons x path ih =>
    have hx := hpath x List.mem_cons_self
    have ih := ih fun y hy => hpath y (List.mem_cons_of_mem _ hy)
    rw [List.length_cons]
    refine ⟨fun hlen byte => ?_, fun hlen y hy => ?_⟩
    · rw [writeNibblesLoop, List.flatMap_cons, ih.2 (by omega) x hx]
    · rw [writeNibblesLoop, ih.1 (by omega), nibblesOf_shiftLeft_or hy hx]
      rfl

theorem nibblesOf_writeNibbles (hpath : ∀ x ∈ path, x < 16) (isLeaf : Bool) :
    (writeNibbles isLeaf path).flatMap nibblesOf = hexPrefix isLeaf path := by
  unfold writeNibbles hexPrefix
  by_cases h : path.length % 2 = 0
  · rw [if_neg (by omega), if_pos h, (nibblesOf_writeNibblesLoop hpath).1 h]
    cases isLeaf <;> rfl
  · rw [if_pos (by omega), if_neg h]
    have hodd := (nibblesOf_writeNibblesLoop hpath).2 (by omega)
    cases isLeaf
    · exact hodd 1 (by decide)
    · exact hodd 3 (by decide)

/-! ## Reading -/

theorem internNibblesLoop_eq (it : List UInt8) (byte : UInt8) :
    internNibblesLoop (it.length * 2) true byte it = some (it.flatMap nibblesOf) := by
  induction it generalizing byte with
  | nil => rfl
  | cons b it ih =>
    rw [List.length_cons, Nat.succ_mul, internNibblesLoop, internNibblesLoop, ih]
    rfl

theorem length_flatMap_nibblesOf (it : List UInt8) : (it.flatMap nibblesOf).length = it.length * 2 := by
  rw [List.length_flatMap]
  simp [nibblesOf]

theorem lt_of_mem_flatMap_nibblesOf {l : List UInt8} {x : UInt8} (hx : x ∈ l.flatMap nibblesOf) : x < 16 := by
  have key : ∀ a : Fin 256, ∀ y ∈ nibblesOf (UInt8.ofNat a), y < 16 := by decide +kernel
  obtain ⟨b, -, hb⟩ := List.mem_flatMap.mp hx
  have hlt := key ⟨b.toNat, b.toNat_lt⟩ x
  rw [UInt8.ofNat_toNat] at hlt
  exact hlt hb

variable {getBuffer : Nat → Bool} {isLeaf : Bool} {byte : UInt8}

theorem firstByte_even :
    firstByte byte = some (false, isLeaf) ↔ byte >>> 4 = (if isLeaf then 2 else 0) ∧ byte &&& 0x0f = 0 := by
  unfold firstByte
  cases isLeaf <;> simp <;> grind

theorem firstByte_odd : firstByte byte = some (true, isLeaf) ↔ byte >>> 4 = (if isLeaf then 2 else 0) + 1 := by
  unfold firstByte
  cases isLeaf <;> simp <;> grind

theorem internNibblesInto_cons {it : List UInt8} :
    internNibblesInto getBuffer (byte :: it) = some (path, isLeaf) ↔ getBuffer path.length = true ∧
      (firstByte byte = some (false, isLeaf) ∧ it.flatMap nibblesOf = path ∨
        firstByte byte = some (true, isLeaf) ∧ (byte &&& 0x0f) :: it.flatMap nibblesOf = path) := by
  have heven : (it.length + 1) * 2 - 1 - 1 = it.length * 2 := by omega
  have hodd : (it.length + 1) * 2 - 1 = it.length * 2 + 1 := by omega
  have hlen := length_flatMap_nibblesOf it
  rcases hfirst : firstByte byte with _ | ⟨_ | _, leaf⟩
  · simp [internNibblesInto, hfirst]
  · simp only [internNibblesInto, hfirst, heven, List.length_cons, Bool.not_false, Bool.false_eq_true, if_false,
      internNibblesLoop_eq, guard, Option.bind_eq_bind, Option.bind_some]
    grind
  · simp only [internNibblesInto, hfirst, hodd, List.length_cons, Bool.not_true, if_true, internNibblesLoop,
      internNibblesLoop_eq, guard, Option.bind_eq_bind, Option.bind_some, Option.map_some]
    grind

/-- An encoding is accepted when its nibbles are those of a hex-prefix encoding and there is room for the path. -/
theorem internNibblesInto_iff {enc : List UInt8} :
    internNibblesInto getBuffer enc = some (path, isLeaf) ↔
      getBuffer path.length = true ∧ enc.flatMap nibblesOf = hexPrefix isLeaf path := by
  rcases enc with _ | ⟨byte, it⟩
  · have hne : hexPrefix isLeaf path ≠ [] := by
      unfold hexPrefix
      split_ifs <;> exact List.cons_ne_nil _ _
    exact ⟨nofun, fun h => absurd h.2.symm hne⟩
  · have hlen := length_flatMap_nibblesOf it
    rw [internNibblesInto_cons, firstByte_even, firstByte_odd, List.flatMap_cons, nibblesOf, hexPrefix]
    grind

/-- With room for every path this is the reading of `parse_node_from_bytes`. -/
theorem internNibblesInto_eq (enc : List UInt8) : internNibblesInto (fun _ => true) enc = internNibbles enc := by
  rcases enc with _ | ⟨byte, it⟩
  · rfl
  · rcases h : firstByte byte with _ | ⟨_ | _, isLeaf⟩
    · have hnone : internNibbles (byte :: it) = none := by
        simp only [firstByte] at h
        split_ifs at h <;> simp [internNibbles, guard, *]
      rw [hnone]
      simp [internNibblesInto, h]
    · obtain ⟨hhigh, hlow⟩ := firstByte_even.mp h
      rw [internNibblesInto_cons.mpr ⟨rfl, .inl ⟨h, rfl⟩⟩]
      cases isLeaf <;> simp [internNibbles, hhigh, hlow]
    · have hhigh := firstByte_odd.mp h
      rw [internNibblesInto_cons.mpr ⟨rfl, .inr ⟨h, rfl⟩⟩]
      cases isLeaf <;> simp [internNibbles, hhigh]

theorem flatMap_nibblesOf_injective : Function.Injective (List.flatMap nibblesOf) := by
  have key : ∀ a : Fin 256, UInt8.ofNat a >>> 4 <<< 4 ||| UInt8.ofNat a &&& 0x0f = UInt8.ofNat a := by decide +kernel
  have hbyte : ∀ b : UInt8, b >>> 4 <<< 4 ||| b &&& 0x0f = b := fun b => by simpa using key ⟨b.toNat, b.toNat_lt⟩
  intro l
  induction l with
  | nil =>
    rintro (_ | ⟨b, l'⟩) h
    · rfl
    · cases h
  | cons b l ih =>
    rintro (_ | ⟨b', l'⟩) h
    · cases h
    · obtain ⟨hhigh, hlow, hrest⟩ : b >>> 4 = b' >>> 4 ∧ b &&& 0x0f = b' &&& 0x0f ∧ _ := by simpa [nibblesOf] using h
      rw [← hbyte b, ← hbyte b', hhigh, hlow, ih hrest]

/-- The nibbles and the kind that were written are read back when there is room for them, for a path of any
length; and every encoding that is accepted is the one that is written for the nibbles that it gives, with the
flag and the padding of the hex-prefix encoding. -/
theorem internNibblesInto_writeNibbles (getBuffer : Nat → Bool) :
    (∀ path isLeaf, (∀ x ∈ path, x < 16) → getBuffer path.length = true →
      internNibblesInto getBuffer (writeNibbles isLeaf path) = some (path, isLeaf)) ∧
    ∀ enc path isLeaf, internNibblesInto getBuffer enc = some (path, isLeaf) →
      (∀ x ∈ path, x < 16) ∧ enc = writeNibbles isLeaf path ∧ enc.flatMap nibblesOf = hexPrefix isLeaf path := by
  refine ⟨fun path isLeaf hpath hroom => ?_, fun enc path isLeaf h => ?_⟩
  · exact internNibblesInto_iff.mpr ⟨hroom, nibblesOf_writeNibbles hpath isLeaf⟩
  · have hnibbles := (internNibblesInto_iff.mp h).2
    have hpath : ∀ x ∈ path, x < 16 := by
      intro x hx
      refine lt_of_mem_flatMap_nibblesOf (l := enc) ?_
      rw [hnibbles, hexPrefix]
      split_ifs <;> simp [hx]
    exact ⟨hpath, flatMap_nibblesOf_injective (hnibbles.trans (nibblesOf_writeNibbles hpath isLeaf).symm), hnibbles⟩

theorem internNibblesInto_writeNibbles_leaf :
    internNibblesInto (fun _ => true) (writeNibbles true [1, 2, 3]) = some ([1, 2, 3], true) :=
  (internNibblesInto_writeNibbles _).1 _ _ (by simp) rfl

end ZkOs.Mpt
