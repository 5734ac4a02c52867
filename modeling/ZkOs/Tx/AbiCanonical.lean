import ZkOs.Tx.Abi

/-!
# Accepted ABI buffers are canonical

* `Took` : the bytes between two states of the parser; each parsing function determines them from what
  it returns (`*_inv`);
* `tryFromBuffer_eq_some_iff` : the accepted buffers, of any length, are the encodings with their offsets
  in `u32` of the transactions that pass `validate_structure` and whose lengths fit;
* `tryFromBuffer_canonical` : below 4 GiB these are the tight ABI encodings, and no two accepted buffers
  give the same transaction.
-/

namespace ZkOs.Tx.Abi

open Digits

/-! ## Words -/

theorem eq_replicate_of_all_zero {bs : List UInt8} (h : bs.all (· = 0) = true) : bs = List.replicate bs.length 0 :=
  List.eq_replicate_iff.mpr ⟨rfl, fun b hb => by simpa using List.all_eq_true.mp h b hb⟩

theorem validate_inv {k value : Nat} {word : List UInt8} (hlen : word.length = 32) (hk : k ≤ 32)
    (h : validate k word = some value) : value < 256 ^ k ∧ beBytes 32 value = word := by
  unfold validate at h
  split at h
  · rename_i hzero
    cases h
    have hlow : (word.drop (32 - k)).length = k := by
      rw [List.length_drop]
      omega
    have hlt := beNat_lt (word.drop (32 - k))
    refine ⟨by rwa [hlow] at hlt, ?_⟩
    have hword := List.take_append_drop (32 - k) word
    rw [eq_replicate_of_all_zero hzero] at hword
    rw [← beNat_replicate_append, hword]
    exact beBytes_beNat hlen
  · cases h

/-! ## The bytes that a function took -/

/-- Between `p` and `p'` the parser took `pre`. -/
structure Took (p : Parser) (pre : List UInt8) (p' : Parser) : Prop where
  slice : p.slice = pre ++ p'.slice
  offset : p'.offset = p.offset + pre.length

section Inversions

variable {α β : Type} {p p' p'' : Parser}

theorem Took.trans {pre pre' : List UInt8} (h : Took p pre p') (h' : Took p' pre' p'') : Took p (pre ++ pre') p'' := by
  refine ⟨?_, ?_⟩
  · rw [h.slice, h'.slice, List.append_assoc]
  · rw [h'.offset, h.offset, List.length_append, Nat.add_assoc]

variable {r : β × Parser} {f : Unit → Parse β} {n : Nat} {bytes : List UInt8}

theorem bind_eq_some {m : Parse α} {f : α → Parse β} (h : (m >>= f) p = some r) :
    ∃ a p', m p = some (a, p') ∧ f a p' = some r := by
  obtain ⟨⟨a, p'⟩, hm, hf⟩ := Option.bind_eq_some_iff.mp h
  exact ⟨a, p', hm, hf⟩

theorem ensure_bind {c : Prop} [Decidable c] (h : (ensure c >>= f) p = some r) : c ∧ f () p = some r := by
  obtain ⟨_, _, hc, h⟩ := bind_eq_some h
  unfold ensure at hc
  split at hc
  · cases hc
    exact ⟨‹c›, h⟩
  · cases hc

theorem expectOffset_bind {o : BitVec 32} (h : (expectOffset o >>= f) p = some r)
    : o.toNat = p.offset % 2 ^ 32 ∧ f () p = some r := by
  obtain ⟨_, _, ho, h⟩ := bind_eq_some h
  unfold expectOffset at ho
  split at ho
  · cases ho
    exact ⟨‹_›, h⟩
  · cases ho

theorem parseWord_inv {word : List UInt8} (h : parseWord p = some (word, p')) : word.length = 32 ∧ Took p word p' := by
  unfold parseWord at h
  split at h
  · cases h
  · rename_i hlen
    cases h
    have hword : (p.slice.take 32).length = 32 := by
      rw [List.length_take]
      omega
    refine ⟨hword, (List.take_append_drop 32 p.slice).symm, ?_⟩
    rw [hword]

theorem parseWith_inv {v : List UInt8 → Option Nat} {x : BitVec n} (h : parseWith n v p = some (x, p'))
    (hv : ∀ word value, word.length = 32 → v word = some value → value < 2 ^ n ∧ beBytes 32 value = word) :
    Took p (beBytes 32 x.toNat) p' := by
  obtain ⟨⟨word, p₁⟩, hword, h⟩ := Option.bind_eq_some_iff.mp h
  obtain ⟨value, hvalue, h⟩ := Option.bind_eq_some_iff.mp h
  obtain ⟨hlen, htook⟩ := parseWord_inv hword
  obtain ⟨hlt, hbytes⟩ := hv word value hlen hvalue
  cases h
  rwa [BitVec.toNat_ofNat, Nat.mod_eq_of_lt hlt, hbytes]

theorem parseU8_inv {x : BitVec 8} (h : parseU8 p = some (x, p')) : Took p (beBytes 32 x.toNat) p' :=
  parseWith_inv h fun _ _ hlen => validate_inv hlen (by decide)

theorem parseU32_inv {x : BitVec 32} (h : parseU32 p = some (x, p')) : Took p (beBytes 32 x.toNat) p' :=
  parseWith_inv h fun _ _ hlen => validate_inv hlen (by decide)

theorem parseU64_inv {x : BitVec 64} (h : parseU64 p = some (x, p')) : Took p (beBytes 32 x.toNat) p' :=
  parseWith_inv h fun _ _ hlen => validate_inv hlen (by decide)

theorem parseAddress_inv {x : BitVec 160} (h : parseAddress p = some (x, p')) : Took p (beBytes 32 x.toNat) p' :=
  parseWith_inv h fun _ _ hlen => validate_inv hlen (by decide)

theorem parseU256_inv {x : BitVec 256} (h : parseU256 p = some (x, p')) : Took p (beBytes 32 x.toNat) p' := by
  refine parseWith_inv h fun word value hlen hvalue => ?_
  cases hvalue
  refine ⟨?_, beBytes_beNat hlen⟩
  have hlt := beNat_lt word
  rwa [hlen] at hlt

theorem takeBytes_inv (h : takeBytes n p = some (bytes, p')) :
    bytes.length = n ∧ Took p bytes p' ∧ n ≤ (n + p'.slice.length) % 2 ^ 32 := by
  unfold takeBytes at h
  split at h
  · cases h
  · rename_i hle
    cases h
    have hn : n ≤ p.slice.length := Nat.le_trans (Nat.not_lt.mp hle) (Nat.mod_le _ _)
    have hlen : (p.slice.take n).length = n := List.length_take_of_le hn
    refine ⟨hlen, ⟨(List.take_append_drop n p.slice).symm, by rw [hlen]⟩, ?_⟩
    rw [List.length_drop, Nat.add_sub_cancel' hn]
    exact Nat.not_lt.mp hle

theorem parseBytes_inv (h : parseBytes p = some (bytes, p')) :
    Took p (encodeBytes bytes) p' ∧ Fits (padded bytes).length p'.slice.length := by
  obtain ⟨length, p₁, hlength, h⟩ := bind_eq_some h
  obtain ⟨hlt, h⟩ := ensure_bind h
  obtain ⟨all, p₃, htake, h⟩ := bind_eq_some h
  obtain ⟨hzero, h⟩ := ensure_bind h
  cases h
  obtain ⟨hall, htook, hle⟩ := takeBytes_inv htake
  have hlen : (all.take length.toNat).length = length.toNat := by
    rw [List.length_take, hall]
    omega
  -- the bytes after the first `length` ones are zeros
  have hpadded : padded (all.take length.toNat) = all := by
    have hsplit := List.take_append_drop length.toNat all
    rw [eq_replicate_of_all_zero hzero, List.length_drop, hall] at hsplit
    rw [padded, hlen]
    exact hsplit
  refine ⟨?_, ?_⟩
  · have hboth := (parseU32_inv hlength).trans htook
    rwa [encodeBytes, hlen, hpadded]
  · rw [hpadded, hall]
    exact ⟨hlt, hle⟩

theorem parseBytes32Vector_inv {words : List UInt8} (h : parseBytes32Vector p = some (words, p')) :
    32 ∣ words.length ∧ Took p (encodeBytes32Vector words) p' ∧ Fits words.length p'.slice.length := by
  obtain ⟨num, p₁, hnum, h⟩ := bind_eq_some h
  obtain ⟨hlt, h⟩ := ensure_bind h
  obtain ⟨hlen, htook, hle⟩ := takeBytes_inv h
  refine ⟨⟨num.toNat, by rw [hlen, Nat.mul_comm]⟩, ?_, ?_⟩
  · have hboth := (parseU32_inv hnum).trans htook
    rwa [encodeBytes32Vector, hlen, Nat.mul_div_cancel _ (by decide)]
  · rw [hlen]
    exact ⟨hlt, hle⟩

end Inversions

namespace AbiEncodedTransaction

variable {tx : AbiEncodedTransaction}

variable {buffer : List UInt8}

theorem parse_inv {p' : Parser} (h : parse ⟨buffer, 0⟩ = some (tx, p')) (hend : p'.slice = []) :
    buffer = tx.wrapped ∧ 32 ∣ tx.factoryDeps.length ∧ tx.Fitting := by
  obtain ⟨txType, p₁, h₁, h⟩ := bind_eq_some h
  obtain ⟨fromAddress, p₂, h₂, h⟩ := bind_eq_some h
  obtain ⟨toAddress, p₃, h₃, h⟩ := bind_eq_some h
  obtain ⟨gasLimit, p₄, h₄, h⟩ := bind_eq_some h
  obtain ⟨gasPerPubdataLimit, p₅, h₅, h⟩ := bind_eq_some h
  obtain ⟨maxFeePerGas, p₆, h₆, h⟩ := bind_eq_some h
  obtain ⟨maxPriorityFeePerGas, p₇, h₇, h⟩ := bind_eq_some h
  obtain ⟨paymaster, p₈, h₈, h⟩ := bind_eq_some h
  obtain ⟨nonce, p₉, h₉, h⟩ := bind_eq_some h
  obtain ⟨value, p₁₀, h₁₀, h⟩ := bind_eq_some h
  obtain ⟨reserved0, p₁₁, h₁₁, h⟩ := bind_eq_some h
  obtain ⟨reserved1, p₁₂, h₁₂, h⟩ := bind_eq_some h
  obtain ⟨reserved2, p₁₃, h₁₃, h⟩ := bind_eq_some h
  obtain ⟨reserved3, p₁₄, h₁₄, h⟩ := bind_eq_some h
  obtain ⟨dataOffset, p₁₅, h₁₅, h⟩ := bind_eq_some h
  obtain ⟨signatureOffset, p₁₆, h₁₆, h⟩ := bind_eq_some h
  obtain ⟨factoryDepsOffset, p₁₇, h₁₇, h⟩ := bind_eq_some h
  obtain ⟨paymasterInputOffset, p₁₈, h₁₈, h⟩ := bind_eq_some h
  obtain ⟨reservedDynamicOffset, p₁₉, h₁₉, h⟩ := bind_eq_some h
  obtain ⟨hdataOffset, h⟩ := ensure_bind h
  obtain ⟨-, h⟩ := expectOffset_bind h
  obtain ⟨data, p₂₀, hdata, h⟩ := bind_eq_some h
  obtain ⟨hsignatureOffset, h⟩ := expectOffset_bind h
  obtain ⟨signature, p₂₁, hsignature, h⟩ := bind_eq_some h
  obtain ⟨hfactoryDepsOffset, h⟩ := expectOffset_bind h
  obtain ⟨factoryDeps, p₂₂, hfactoryDeps, h⟩ := bind_eq_some h
  obtain ⟨hpaymasterInputOffset, h⟩ := expectOffset_bind h
  obtain ⟨paymasterInput, p₂₃, hpaymasterInput, h⟩ := bind_eq_some h
  obtain ⟨hreservedDynamicOffset, h⟩ := expectOffset_bind h
  obtain ⟨reservedDynamic, p₂₄, hreservedDynamic, h⟩ := bind_eq_some h
  cases h
  have hstatic := (parseU8_inv h₁).trans <| (parseAddress_inv h₂).trans <| (parseAddress_inv h₃).trans <|
    (parseU64_inv h₄).trans <| (parseU32_inv h₅).trans <| (parseU256_inv h₆).trans <| (parseU256_inv h₇).trans <|
    (parseAddress_inv h₈).trans <| (parseU256_inv h₉).trans <| (parseU256_inv h₁₀).trans <|
    (parseU256_inv h₁₁).trans <| (parseU256_inv h₁₂).trans <| (parseU256_inv h₁₃).trans <|
    (parseU256_inv h₁₄).trans <| (parseU32_inv h₁₅).trans <| (parseU32_inv h₁₆).trans <|
    (parseU32_inv h₁₇).trans <| (parseU32_inv h₁₈).trans (parseU32_inv h₁₉)
  obtain ⟨tdata, fdata⟩ := parseBytes_inv hdata
  obtain ⟨tsignature, fsignature⟩ := parseBytes_inv hsignature
  obtain ⟨hdvd, tfactoryDeps, ffactoryDeps⟩ := parseBytes32Vector_inv hfactoryDeps
  obtain ⟨tpaymasterInput, fpaymasterInput⟩ := parseBytes_inv hpaymasterInput
  obtain ⟨treservedDynamic, freservedDynamic⟩ := parseBytes_inv hreservedDynamic
  -- the parser's offsets are those of the encoding
  have o₁ : p₁₉.offset = dynamicPartExpectedOffset := by
    rw [hstatic.offset]
    simp only [List.length_append, length_beBytes]
    rfl
  have o₂ := tdata.offset
  have o₃ := tsignature.offset
  have o₄ := tfactoryDeps.offset
  have o₅ := tpaymasterInput.offset
  rw [o₁] at o₂
  rw [o₂] at o₃ hsignatureOffset
  rw [o₃] at o₄ hfactoryDepsOffset
  rw [o₄] at o₅ hpaymasterInputOffset
  rw [o₅] at hreservedDynamicOffset
  have s₅ := treservedDynamic.slice
  rw [hend, List.append_nil] at s₅
  have s₄ := tpaymasterInput.slice
  rw [s₅] at s₄
  have s₃ := tfactoryDeps.slice
  rw [s₄] at s₃
  have s₂ := tsignature.slice
  rw [s₃] at s₂
  refine ⟨?_, hdvd, ?_⟩
  · have hbuffer := hstatic.slice
    rw [tdata.slice, s₂, hdataOffset, hsignatureOffset, hfactoryDepsOffset, hpaymasterInputOffset,
      hreservedDynamicOffset] at hbuffer
    refine hbuffer.trans ?_
    simp only [wrapped, wrappedWords, List.flatMap_cons, List.flatMap_nil, List.append_assoc, List.append_nil]
    rfl
  · constructor
    · rwa [s₂] at fdata
    · rwa [s₃] at fsignature
    · rwa [s₄] at ffactoryDeps
    · rwa [s₅] at fpaymasterInput
    · rwa [hend] at freservedDynamic

theorem tryFromBuffer_eq_some_iff :
    tryFromBuffer buffer = some tx ↔
      tx.validateStructure = true ∧ 32 ∣ tx.factoryDeps.length ∧ tx.Fitting ∧ tx.wrapped = buffer := by
  constructor
  · intro h
    obtain ⟨⟨tx', p'⟩, hparse, h⟩ := Option.bind_eq_some_iff.mp h
    obtain ⟨hcond, h⟩ := Option.ite_none_right_eq_some.mp h
    cases h
    obtain ⟨hempty, hvalid⟩ := Bool.and_eq_true_iff.mp hcond
    obtain ⟨hbuffer, hdvd, hfit⟩ := parse_inv hparse (List.isEmpty_iff.mp hempty)
    exact ⟨hvalid, hdvd, hfit, hbuffer.symm⟩
  · rintro ⟨hvalid, hdvd, hfit, rfl⟩
    exact tryFromBuffer_wrapped hvalid hdvd hfit

theorem length_words : tx.words.length = 19 := rfl

theorem length_wrappedWords : tx.wrappedWords.length = 19 := rfl

theorem length_wrapped : tx.wrapped.length = tx.encode.length := by
  simp [wrapped, encode, afterData, afterSignature, afterFactoryDeps, afterPaymasterInput, length_words, length_wrappedWords]

/-- In a buffer below 4 GiB exactly the tight ABI encodings of the transactions that pass
`validate_structure` are accepted; no two accepted buffers, of any length, give the same transaction. -/
theorem tryFromBuffer_canonical (buffer : List UInt8) :
    (buffer.length < 2 ^ 32 → ∀ tx, tryFromBuffer buffer = some tx ↔
      tx.validateStructure = true ∧ 32 ∣ tx.factoryDeps.length ∧ tx.encode = buffer) ∧
    ∀ buffer' tx, tryFromBuffer buffer = some tx → tryFromBuffer buffer' = some tx → buffer' = buffer := by
  constructor
  · intro hlen tx
    rw [tryFromBuffer_eq_some_iff]
    constructor
    · rintro ⟨hvalid, hdvd, -, rfl⟩
      exact ⟨hvalid, hdvd, (wrapped_eq_encode (length_wrapped ▸ hlen)).symm⟩
    · rintro ⟨hvalid, hdvd, rfl⟩
      exact ⟨hvalid, hdvd, .of_length hlen, wrapped_eq_encode hlen⟩
  · intro buffer' tx h h'
    rw [← (tryFromBuffer_eq_some_iff.mp h).2.2.2, ← (tryFromBuffer_eq_some_iff.mp h').2.2.2]

/-- A transaction whose other fields are zero or empty. -/
def bare (txType : BitVec 8) (factoryDeps : List UInt8) : AbiEncodedTransaction where
  txType
  fromAddress := 0
  toAddress := 0
  gasLimit := 0
  gasPerPubdataLimit := 0
  maxFeePerGas := 0
  maxPriorityFeePerGas := 0
  paymaster := 0
  nonce := 0
  value := 0
  reserved0 := 0
  reserved1 := 0
  reserved2 := 0
  reserved3 := 0
  data := []
  signature := []
  factoryDeps
  paymasterInput := []
  reservedDynamic := []

/-- An L1 transaction in a buffer below 4 GiB is accepted. -/
theorem tryFromBuffer_bare : tryFromBuffer (bare l1L2TxType []).encode = some (bare l1L2TxType []) :=
  ((tryFromBuffer_canonical _).1 (by decide +kernel) _).mpr ⟨rfl, Nat.dvd_zero 32, rfl⟩

theorem length_encodeBytes_nil : (encodeBytes []).length = 32 := by
  rw [length_encodeBytes]
  rfl

section LongDeps

/-! ### So many dependencies that the bytes after the data are 4 GiB -/

variable {deps : List UInt8} (hdeps : deps.length = 2 ^ 32 - 128)

include hdeps

theorem fitting_longDeps : (bare l1L2TxType deps).Fitting := by
  have hempty : ∀ n, Fits (padded []).length n := fun n => ⟨by decide, Nat.zero_le _⟩
  have hafter : (bare l1L2TxType deps).afterFactoryDeps.length = 64 := by
    show (encodeBytes [] ++ encodeBytes []).length = 64
    rw [List.length_append, length_encodeBytes_nil]
  refine ⟨hempty _, hempty _, Fits.of_lt ?_, hempty _, hempty _⟩
  rw [hafter]
  show deps.length + 64 < _
  omega

theorem encode_longDeps_ne : (bare l1L2TxType deps).encode ≠ (bare l1L2TxType deps).wrapped := by
  intro h
  have hsignature : (bare l1L2TxType deps).signatureOffset = 640 := by
    show dynamicPartExpectedOffset + (encodeBytes []).length = 640
    rw [length_encodeBytes_nil]
    rfl
  have hfactoryDeps : (bare l1L2TxType deps).factoryDepsOffset = 672 := by
    show (bare l1L2TxType deps).signatureOffset + (encodeBytes []).length = 672
    rw [hsignature, length_encodeBytes_nil]
  have hpaymasterInput : (bare l1L2TxType deps).paymasterInputOffset = 2 ^ 32 + 576 := by
    have hlen := length_encodeBytes32Vector deps
    show (bare l1L2TxType deps).factoryDepsOffset + (encodeBytes32Vector deps).length = _
    omega
  have hstatic := List.append_inj_left h (by rw [length_flatMap_beBytes, length_flatMap_beBytes, length_words, length_wrappedWords])
  -- the words before the offset of the paymaster's input are the same
  have h₁ : 640 % 2 ^ 32 = 640 := rfl
  have h₂ : 672 % 2 ^ 32 = 672 := rfl
  simp only [words, wrappedWords, List.flatMap_cons, hsignature, hfactoryDeps, hpaymasterInput, h₁, h₂,
    List.append_cancel_left_eq] at hstatic
  have hword := List.append_inj_left hstatic (by rw [length_beBytes, length_beBytes])
  have hvalue := congrArg beNat hword
  rw [beNat_beBytes, beNat_beBytes] at hvalue
  exact absurd hvalue (by decide)

theorem exists_not_canonical : ∃ buffer tx, tryFromBuffer buffer = some tx ∧ tx.encode ≠ buffer := by
  have hdvd : 32 ∣ deps.length := by omega
  exact ⟨_, bare l1L2TxType deps, tryFromBuffer_wrapped rfl hdvd (fitting_longDeps hdeps), encode_longDeps_ne hdeps⟩

end LongDeps

/-- An encoding of a type that is not a type of L1 transactions is refused; a buffer above 4 GiB is accepted
though its offsets are not those of the encoding. -/
theorem tryFromBuffer_not_canonical :
    (∃ tx : AbiEncodedTransaction, 32 ∣ tx.factoryDeps.length ∧ tryFromBuffer tx.encode = none) ∧
      ∃ buffer tx, tryFromBuffer buffer = some tx ∧ tx.encode ≠ buffer :=
  ⟨⟨bare 0 [], Nat.dvd_zero 32, by decide +kernel⟩, exists_not_canonical (List.length_replicate (a := 0))⟩

end AbiEncodedTransaction

end ZkOs.Tx.Abi
