import ZkOs.Batch.PublicInput

/-!
# Blocks of a batch follow one another

`applyBlock` compares two hashes, and each block takes what is hashed from an oracle that nobody trusts.
If no two of the strings that the batch hashes collide, equality of the hashes gives every component
back, so a batch that is accepted is a chain.

* `Follows` : what it means that one block follows another;
* `Left` : the builder as a block left it;
* `Left.step` : a block that is accepted next follows, and leaves the builder in turn;
* `accepted_batch_is_chain` : all blocks of a batch.
-/

namespace ZkOs.Batch

open Digits BatchPublicInputBuilder

/-! ## Encodings are injective -/

theorem bytes32_injective : Function.Injective bytes32 := by
  intro a b h
  have hbound : ∀ w : Bytes32, w.toNat < 256 ^ 32 := fun w => w.isLt
  exact BitVec.eq_of_toNat_eq (beBytes_inj (hbound a) (hbound b) h)

theorem beBytes_toNat_injective : Function.Injective fun w : U64 => beBytes 8 w.toNat := by
  intro a b h
  have hbound : ∀ w : U64, w.toNat < 256 ^ 8 := fun w => w.isLt
  exact BitVec.eq_of_toNat_eq (beBytes_inj (hbound a) (hbound b) h)

theorem window_injective : Function.Injective (List.flatMap bytes32) :=
  flatMap_injective (by decide : 0 < 32) (fun _ => length_beBytes ..) bytes32_injective

theorem ChainStateCommitment.encoding_injective : Function.Injective ChainStateCommitment.encoding := by
  intro a b h
  unfold encoding at h
  obtain ⟨h, htimestamp⟩ := List.append_inj h (by simp [bytes32])
  obtain ⟨h, hblocks⟩ := List.append_inj h (by simp [bytes32])
  obtain ⟨h, hnumber⟩ := List.append_inj h (by simp [bytes32])
  obtain ⟨hroot, hslot⟩ := List.append_inj h (by simp [bytes32])
  rcases a with ⟨root, slot, number, blocks, timestamp⟩
  rcases b with ⟨root', slot', number', blocks', timestamp'⟩
  obtain rfl : root = root' := bytes32_injective hroot
  obtain rfl : slot = slot' := beBytes_toNat_injective hslot
  obtain rfl : number = number' := beBytes_toNat_injective hnumber
  obtain rfl : blocks = blocks' := bytes32_injective hblocks
  obtain rfl : timestamp = timestamp' := beBytes_toNat_injective htimestamp
  rfl

def NoCollision (hash : List UInt8 → Bytes32) (items : List (List UInt8)) : Prop :=
  ∀ x ∈ items, ∀ y ∈ items, hash x = hash y → x = y

instance (hash : List UInt8 → Bytes32) (items : List (List UInt8)) : Decidable (NoCollision hash items) :=
  inferInstanceAs (Decidable (∀ x ∈ items, ∀ y ∈ items, hash x = hash y → x = y))

theorem NoCollision.mono {hash : List UInt8 → Bytes32} {items items' : List (List UInt8)}
    (h : NoCollision hash items) (hsub : items' ⊆ items) : NoCollision hash items' :=
  fun x hx y hy => h x (hsub hx) y (hsub hy)

section Blocks

variable {O S : Type} (st : Setting O S)

/-! ## What a block starts from and ends in -/

/-- What the oracle says about the state before a block. -/
def startState (x : Block S × O) : Option ProofData := (st.getProofData x.2).map Prod.fst

/-- The commitment to the state after a block. -/
def finalState (x : Block S × O) : Option FlatStorageCommitment := do
  let (proofData, oracle) ← st.getProofData x.2
  let (stateCommitment, _) ← st.finishStorage x.1.io.storage oracle proofData.stateRootView
  some stateCommitment

def nextWindow (b : Block S) : List U256 := b.metadata.blockHashes.drop 1 ++ [b.currentBlockHash]

/-- All that `applyToBatch` hashes for the commitments to the chain state. -/
def blakeInputs (x : Block S × O) : List (List UInt8) :=
  [x.1.metadata.blockHashes.flatMap bytes32, (nextWindow x.1).flatMap bytes32] ++
    ((startState st x).map fun p => (stateBefore st x.1 p).encoding).toList ++
    ((finalState st x).map fun c => (stateAfter st x.1 c).encoding).toList

structure Follows (x y : Block S × O) : Prop where
  state : ∃ p, startState st y = some p ∧ finalState st x = some p.stateRootView
  number : y.1.metadata.blockNumber = x.1.metadata.blockNumber + 1
  timestamp : x.1.metadata.timestamp ≤ y.1.metadata.timestamp
  window : y.1.metadata.blockHashes = nextWindow x.1
  chainId : y.1.metadata.chainId = x.1.metadata.chainId
  scheme : y.1.io.daCommitmentScheme = x.1.io.daCommitmentScheme

/-- The builder as block `x` left it. -/
structure Left (builder : BatchPublicInputBuilder) (x : Block S × O) : Prop where
  started : builder.isFirstBlock = false
  generator : builder.daCommitmentGenerator.isSome
  scheme : builder.daCommitmentScheme = x.1.io.daCommitmentScheme
  chainId : builder.chainId = some (x.1.metadata.chainId.setWidth 256)
  state : builder.currentStateCommitment = (finalState st x).map fun c => (stateAfter st x.1 c).hash st.env
  final : (finalState st x).isSome

variable {st}

variable {x y : Block S × O} {builder builder' : BatchPublicInputBuilder} {oracle : O}

/-- What an accepted block did: it has states before and after, did not go back in time, and its logs
and its states were added to the builder. -/
theorem applyToBatch_ok (h : applyToBatch st x.1 x.2 builder = some (builder', oracle)) :
    ∃ p c scheme generator logs,
      startState st x = some p ∧ finalState st x = some c ∧ x.1.io.daCommitmentScheme = some scheme ∧
        (builder.generatorFor scheme).isSome ∧ p.lastBlockTimestamp ≤ x.1.metadata.timestamp ∧
        applyToArrayVec st.env x.1.io.logsStorage builder.logsStorage = some logs ∧
        BatchPublicInputBuilder.applyBlock
          { builder with
            daCommitmentScheme := some scheme
            daCommitmentGenerator := some generator
            logsStorage := logs
            numberOfLayer1Txs := (applyL1TxsToCommitment st.env x.1.io.logsStorage builder.numberOfLayer1Txs
              builder.l1TxsRollingHash).1
            l1TxsRollingHash := (applyL1TxsToCommitment st.env x.1.io.logsStorage builder.numberOfLayer1Txs
              builder.l1TxsRollingHash).2 }
          ((stateBefore st x.1 p).hash st.env) ((stateAfter st x.1 c).hash st.env) x.1.metadata.timestamp
          (x.1.metadata.chainId.setWidth 256) x.1.upgradeTxHash = some builder' := by
  unfold applyToBatch at h
  simp only [Option.bind_eq_bind, Option.bind_eq_some_iff, Option.guard_eq_some'] at h
  obtain ⟨⟨p, o₁⟩, hp, scheme, hscheme, g₀, hg₀, g₁, -, ⟨c, o₂, writes⟩, hc, g₂, -, g₃, -, logs, hlogs, -, htime, b', hb,
    hlast⟩ := h
  cases hlast
  refine ⟨p, c, scheme, g₃, logs, ?_, ?_, hscheme, ?_, htime, hlogs, hb⟩
  · rw [startState, hp]
    rfl
  · simp [finalState, hp, hc]
  · rw [hg₀]
    rfl

theorem applyToBatch_first (h : applyToBatch st x.1 x.2 .new = some (builder, oracle)) :
    Left st builder x ∧ (startState st x).isSome ∧ builder.initialStateCommitment =
      (startState st x).map fun p => (stateBefore st x.1 p).hash st.env := by
  obtain ⟨p, c, scheme, generator, logs, hp, hc, hscheme, -, -, -, hb⟩ := applyToBatch_ok h
  simp only [new, applyBlock, if_true, Option.some.injEq] at hb
  subst hb
  refine ⟨⟨rfl, rfl, hscheme.symm, rfl, ?_, ?_⟩, ?_, ?_⟩
  · simp [hc]
  · simp [hc]
  · simp [hp]
  · simp [hp]

/-- Equal hashes of the state after one block and the state before another mean that the states are equal,
and so are the windows of block hashes that they contain the hashes of. -/
theorem states_eq {p : ProofData} {c : FlatStorageCommitment} (hc : finalState st x = some c)
    (hp : startState st y = some p) (hfree : NoCollision st.env.blake (blakeInputs st x ++ blakeInputs st y))
    (h : (stateAfter st x.1 c).hash st.env = (stateBefore st y.1 p).hash st.env) :
    stateAfter st x.1 c = stateBefore st y.1 p ∧ nextWindow x.1 = y.1.metadata.blockHashes := by
  have hstate : stateAfter st x.1 c = stateBefore st y.1 p := by
    apply ChainStateCommitment.encoding_injective
    refine hfree _ ?_ _ ?_ h
    · simp [blakeInputs, hc]
    · simp [blakeInputs, hp]
  refine ⟨hstate, window_injective ?_⟩
  refine hfree _ ?_ _ ?_ (congrArg ChainStateCommitment.last256BlockHashesBlake hstate)
  · simp [blakeInputs]
  · simp [blakeInputs]

theorem Left.step (hx : Left st builder x) (h : applyToBatch st y.1 y.2 builder = some (builder', oracle))
    (hfree : NoCollision st.env.blake (blakeInputs st x ++ blakeInputs st y)) :
    Follows st x y ∧ y.1.upgradeTxHash = 0 ∧ Left st builder' y ∧
      builder'.initialStateCommitment = builder.initialStateCommitment := by
  obtain ⟨p, c, scheme, generator, logs, hp, hc, hscheme, hgen, htime, -, hb⟩ := applyToBatch_ok h
  obtain ⟨c₀, hc₀⟩ := Option.isSome_iff_exists.mp hx.final
  have hchosen : builder.daCommitmentScheme = some scheme := by
    obtain ⟨g, hg⟩ := Option.isSome_iff_exists.mp hx.generator
    obtain ⟨g', hg'⟩ := Option.isSome_iff_exists.mp hgen
    simp only [generatorFor, hg, Option.bind_eq_bind, Option.bind_eq_some_iff, Option.guard_eq_some'] at hg'
    obtain ⟨chosen, hchosen, _, rfl, _⟩ := hg'
    exact hchosen
  simp only [applyBlock, hx.started, hx.state, hx.chainId, hc₀, Option.map_some, Option.bind_eq_bind,
    Option.bind_some, Option.bind_eq_some_iff, Option.guard_eq_some', Bool.false_eq_true, if_false] at hb
  obtain ⟨_, hstate, _, hid, _, hupgrade, hb⟩ := hb
  obtain ⟨hcommitment, hwindow⟩ := states_eq hc₀ hp hfree hstate
  cases hb
  have hroot : finalState st x = some p.stateRootView := by
    rw [hc₀]
    have h₁ : c₀.root = p.stateRootView.root := congrArg ChainStateCommitment.stateRoot hcommitment
    have h₂ : c₀.nextFreeSlot = p.stateRootView.nextFreeSlot := congrArg ChainStateCommitment.nextFreeSlot hcommitment
    rcases c₀ with ⟨r, n⟩
    rcases hv : p.stateRootView with ⟨r', n'⟩
    rw [hv] at h₁ h₂
    obtain rfl : r = r' := h₁
    obtain rfl : n = n' := h₂
    rfl
  have hnumber : x.1.metadata.blockNumber = y.1.metadata.blockNumber - 1 :=
    congrArg ChainStateCommitment.blockNumber hcommitment
  have hlast : x.1.metadata.timestamp = p.lastBlockTimestamp :=
    congrArg ChainStateCommitment.lastBlockTimestamp hcommitment
  refine ⟨⟨⟨p, hp, hroot⟩, ?_, ?_, hwindow.symm, ?_, ?_⟩, hupgrade, ⟨rfl, rfl, hscheme.symm, ?_, ?_, ?_⟩, rfl⟩
  · rw [hnumber, BitVec.sub_add_cancel]
  · rw [hlast]
    exact htime
  · have := congrArg BitVec.toNat hid
    simp only [BitVec.toNat_setWidth] at this
    apply BitVec.eq_of_toNat_eq
    omega
  · rw [hscheme, ← hchosen, hx.scheme]
  · rw [hid]
  · simp [hc]
  · simp [hc]

/-- Blocks that are accepted after `x` form a chain with it, and the builder ends as the last of them left it. -/
theorem Left.blocks {blocks : List (Block S × O)} (hx : Left st builder x)
    (h : applyBlocks st builder blocks = some builder')
    (hfree : NoCollision st.env.blake ((x :: blocks).flatMap (blakeInputs st))) :
    (x :: blocks).IsChain (Follows st) ∧ (∀ y ∈ blocks, y.1.upgradeTxHash = 0) ∧
      Left st builder' ((x :: blocks).getLast (List.cons_ne_nil _ _)) ∧
      builder'.initialStateCommitment = builder.initialStateCommitment := by
  induction blocks generalizing x builder with
  | nil =>
    cases h
    exact ⟨.singleton _, by simp, hx, rfl⟩
  | cons y blocks ih =>
    simp only [applyBlocks, Option.bind_eq_bind, Option.bind_eq_some_iff] at h
    obtain ⟨⟨b₁, o₁⟩, hstep, hrest⟩ := h
    have hpair : blakeInputs st x ++ blakeInputs st y ⊆ (x :: y :: blocks).flatMap (blakeInputs st) := by
      simp only [List.flatMap_cons, ← List.append_assoc]
      exact List.subset_append_left ..
    have htail : (y :: blocks).flatMap (blakeInputs st) ⊆ (x :: y :: blocks).flatMap (blakeInputs st) := by
      rw [List.flatMap_cons (x := x)]
      exact List.subset_append_right ..
    obtain ⟨hfollows, hupgrade, hy, hinit⟩ := hx.step hstep (hfree.mono hpair)
    obtain ⟨hchain, hupgrades, hlast, hinits⟩ := ih hy hrest (hfree.mono htail)
    refine ⟨.cons_cons hfollows hchain, ?_, hlast, hinits.trans hinit⟩
    intro z hz
    rcases List.mem_cons.mp hz with rfl | hz
    · exact hupgrade
    · exact hupgrades z hz

theorem intoPublicInput_ok {oracle' : O} {publicInput : BatchPublicInput}
    (h : builder.intoPublicInput st oracle = some (publicInput, oracle')) :
    builder.initialStateCommitment = some publicInput.stateBefore ∧
      builder.currentStateCommitment = some publicInput.stateAfter := by
  simp only [intoPublicInput, Option.bind_eq_bind, Option.bind_eq_some_iff] at h
  obtain ⟨_, _, _, _, _, _, _, _, _, _, _, _, _, _, _, _, initial, hinitial, current, hcurrent, hlast⟩ := h
  cases hlast
  exact ⟨hinitial, hcurrent⟩

/-- A batch that the builder accepts is a chain of blocks, none but its first carries an upgrade
transaction, and its public input commits to the state before the first block and the state after the
last. -/
theorem accepted_batch_is_chain (x : Block S × O) (blocks : List (Block S × O)) (builder : BatchPublicInputBuilder)
    (h : applyBlocks st .new (x :: blocks) = some builder)
    (hfree : NoCollision st.env.blake ((x :: blocks).flatMap (blakeInputs st))) :
    (x :: blocks).IsChain (Follows st) ∧ (∀ y ∈ blocks, y.1.upgradeTxHash = 0) ∧
      ∀ oracle publicInput oracle', builder.intoPublicInput st oracle = some (publicInput, oracle') →
        (∃ p, startState st x = some p ∧ publicInput.stateBefore = (stateBefore st x.1 p).hash st.env) ∧
        ∃ c, finalState st ((x :: blocks).getLast (List.cons_ne_nil _ _)) = some c ∧
          publicInput.stateAfter =
            (stateAfter st ((x :: blocks).getLast (List.cons_ne_nil _ _)).1 c).hash st.env := by
  simp only [applyBlocks, Option.bind_eq_bind, Option.bind_eq_some_iff] at h
  obtain ⟨⟨b₁, o₁⟩, hfirst, hrest⟩ := h
  obtain ⟨hx, hstart, hinit⟩ := applyToBatch_first hfirst
  obtain ⟨hchain, hupgrades, hlast, hinits⟩ := hx.blocks hrest hfree
  refine ⟨hchain, hupgrades, ?_⟩
  intro oracle publicInput oracle' hpi
  obtain ⟨hbefore, hafter⟩ := intoPublicInput_ok hpi
  obtain ⟨p, hp⟩ := Option.isSome_iff_exists.mp hstart
  obtain ⟨c, hc⟩ := Option.isSome_iff_exists.mp hlast.final
  rw [hinits, hinit, hp] at hbefore
  rw [hlast.state, hc] at hafter
  exact ⟨⟨p, hp, (Option.some.inj hbefore).symm⟩, c, hc, (Option.some.inj hafter).symm⟩

end Blocks

/-- The first block of a chain, and what the oracle says about the state before it. -/
def idleFirst : Block Unit × ProofData := (idleBlock 1 100 (List.replicate 256 0) 7, ⟨⟨5, 3⟩, 90⟩)

/-- The block after it, at the same time. -/
def idleSecond : Block Unit × ProofData := (idleBlock 2 100 (List.replicate 255 0 ++ [7]) 8, ⟨⟨5, 3⟩, 100⟩)

set_option maxRecDepth 100000 in
theorem idle_blocks_chain :
    ∃ builder, applyBlocks idleSetting .new [idleFirst, idleSecond] = some builder ∧
      Follows idleSetting idleFirst idleSecond := by
  have hsome : (applyBlocks idleSetting .new [idleFirst, idleSecond]).isSome := by decide +kernel
  have hfree : NoCollision idleSetting.env.blake ([idleFirst, idleSecond].flatMap (blakeInputs idleSetting)) := by
    decide +kernel
  obtain ⟨builder, h⟩ := Option.isSome_iff_exists.mp hsome
  obtain ⟨hchain, -, -⟩ := accepted_batch_is_chain idleFirst [idleSecond] builder h hfree
  exact ⟨builder, h, List.isChain_pair.mp hchain⟩

end ZkOs.Batch
