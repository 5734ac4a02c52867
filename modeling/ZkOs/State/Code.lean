import ZkOs.Evm.Bytecode
import ZkOs.State.Access
import ZkOs.State.Lengths
import ZkOs.State.Versions

/-!
# The code of an account

The properties of an account describe its code by two hashes, three lengths and the flags in its versioning data.
`deploy_code`, `set_bytecode_details` and `set_delegation` write them, and whoever reads the code computes the length
of its preimage from them.

* `NoCode`, `HasCode` : an account without code, and one whose code is in the given preimage;
* `CodeInv` : the cached preimages have their hashes, and every version of every account that was loaded in one of
  these two forms is in one of them;
* `CodeRun` : any sequence of operations, frames, rollbacks and transactions;
* `code_invariant` : the invariant along such a sequence, and what it means for readers;
* `short_preimage_cached` : a sequence that breaks it where hashes of preimages are not checked.
-/

namespace ZkOs

open History ZkOs.Action Evm

/-! ## Flags -/

/-- Deployment status, EE version and code version. -/
def VersioningData.header (v : U64) : U64 := v >>> 40

namespace VersioningData

/-- What `set_delegation` makes of the versioning data. -/
def delegated (v : U64) : U64 := setCodeVersion (setEeVersion (setAsDelegated v) 1) 1

/-- What it makes of them when it clears a delegation. -/
def cleared (v : U64) : U64 := setCodeVersion (setEeVersion (unsetDeploymentStatus v) 0) 0

theorem header_deployed (v : U64) : header (deployedVersioning v) = 0x010101 := by
  unfold header deployedVersioning setCodeVersion setEeVersion setAsDeployed setStatus
  apply BitVec.eq_of_getLsbD_eq
  intro i hi
  simp only [BitVec.getLsbD_ushiftRight, BitVec.getLsbD_or, BitVec.getLsbD_and, BitVec.getLsbD_shiftLeft]
  interval_cases i <;> simp

theorem header_delegated (v : U64) : header (delegated v) = 0x020101 := by
  unfold header delegated setCodeVersion setEeVersion setAsDelegated setStatus
  apply BitVec.eq_of_getLsbD_eq
  intro i hi
  simp only [BitVec.getLsbD_ushiftRight, BitVec.getLsbD_or, BitVec.getLsbD_and, BitVec.getLsbD_shiftLeft]
  interval_cases i <;> simp

theorem header_cleared (v : U64) : header (cleared v) = 0 := by
  unfold header cleared setCodeVersion setEeVersion unsetDeploymentStatus
  apply BitVec.eq_of_getLsbD_eq
  intro i hi
  simp only [BitVec.getLsbD_ushiftRight, BitVec.getLsbD_or, BitVec.getLsbD_and, BitVec.getLsbD_shiftLeft]
  interval_cases i <;> simp

theorem isDelegated_iff (v : U64) : isDelegated v = true ↔ header v >>> 16 = 2 := by
  unfold isDelegated header
  rw [beq_iff_eq, ← BitVec.shiftRight_add]

theorem eeVersion_eq (v : U64) : eeVersion v = (header v >>> 8).setWidth 8 := by
  unfold eeVersion header
  rw [← BitVec.shiftRight_add]

end VersioningData

/-! ## Accounts with and without code -/

namespace AccountProperties

structure NoCode (p : AccountProperties) : Prop where
  bytecodeHash : p.bytecodeHash = 0
  observableBytecodeHash : p.observableBytecodeHash = 0
  unpaddedCodeLen : p.unpaddedCodeLen = 0
  artifactsLen : p.artifactsLen = 0
  observableBytecodeLen : p.observableBytecodeLen = 0
  header : VersioningData.header p.versioningData = 0

/-- The bytes that the account is observed to have as its code. -/
def codeIn (p : AccountProperties) (bytes : List UInt8) : List UInt8 := bytes.take p.unpaddedCodeLen.toNat

/-- The preimage `bytes` is the code of the account at `a`, with padding and artifacts. The observable hash is the one
of the code, or the one that a force deployment gave. -/
structure HasCode (env : Env) (given : B160 → Bytes32 → Prop) (a : B160) (p : AccountProperties) (bytes : List UInt8) :
    Prop where
  bytecodeHash : env.blake bytes = p.bytecodeHash
  length : bytes.length = p.fullBytecodeLen
  observableBytecodeLen : p.observableBytecodeLen = p.unpaddedCodeLen
  observableBytecodeHash : p.observableBytecodeHash = env.keccak (p.codeIn bytes) ∨ given a p.observableBytecodeHash
  flags : VersioningData.header p.versioningData = 0x010101 ∧
      bytes = paddedBytecode (p.codeIn bytes) (artifacts (p.codeIn bytes)) ∨
    VersioningData.header p.versioningData = 0x020101 ∧ bytes = paddedBytecode (p.codeIn bytes) [] ∧
      ∃ delegate, p.codeIn bytes = delegationCode delegate

variable {p q : AccountProperties}

theorem NoCode.congr (h : NoCode p) (hs : SameCode p q) : NoCode q := by
  rw [← hs]
  exact ⟨h.1, h.2, h.3, h.4, h.5, h.6⟩

theorem HasCode.congr {env : Env} {given : B160 → Bytes32 → Prop} {a : B160} {bytes : List UInt8}
    (h : HasCode env given a p bytes) (hs : SameCode p q) : HasCode env given a q bytes := by
  rw [← hs]
  exact ⟨h.1, h.2, h.3, h.4, h.5⟩

theorem noCode_trivial : NoCode trivial := ⟨rfl, rfl, rfl, rfl, rfl, by decide⟩

end AccountProperties

open AccountProperties

/-! ## The invariant -/

/-- The byte strings that occur as preimages in a block. No two of them have the same hash, and none has the hash
zero, which stands for the empty account. The proving environment checks what the oracle says. -/
structure HashSpace (env : Env) (S : Set (List UInt8)) : Prop where
  proofEnv : env.proofEnv = true
  injOn : Set.InjOn env.blake S
  ne_zero : ∀ bytes ∈ S, env.blake bytes ≠ 0
  oracle : ∀ n hash len, hash ≠ 0 → env.blake ((env.preimage n hash).take len) = hash →
    (env.preimage n hash).take len ∈ S

section Invariant

variable {env : Env} {given : B160 → Bytes32 → Prop} {S : Set (List UInt8)}

def Coded (env : Env) (given : B160 → Bytes32 → Prop) (S : Set (List UInt8)) (a : B160) (p : AccountProperties) : Prop :=
  NoCode p ∨ ∃ bytes ∈ S, HasCode env given a p bytes

variable {a : B160} {p : AccountProperties} {storage : Bytes32 → Option (List UInt8)} {i v : AccountRecord}
    {code arts : List UInt8} {hash : Bytes32} {len : Nat} {s s' : Sys} {io : Io}

theorem Coded.congr {q : AccountProperties} (h : Coded env given S a p) (hs : SameCode p q) :
    Coded env given S a q := by
  rcases h with h | ⟨bytes, hb, h⟩
  · exact .inl (h.congr hs)
  · exact .inr ⟨bytes, hb, h.congr hs⟩

/-- A version `v` of an account that was loaded as `i`: if the account was loaded in one of the two forms, it still is
in one. Code that it was not loaded with has been recorded. -/
def CodeVersion (env : Env) (given : B160 → Bytes32 → Prop) (S : Set (List UInt8))
    (storage : Bytes32 → Option (List UInt8)) (a : B160) (i v : AccountRecord) : Prop :=
  Coded env given S a i.value → Coded env given S a v.value ∧
    (NoCode v.value ∨ SameCode i.value v.value ∨ storage v.value.bytecodeHash ≠ none)

theorem CodeVersion.refl (storage : Bytes32 → Option (List UInt8)) (a : B160) (i : AccountRecord) :
    CodeVersion env given S storage a i i := fun h => ⟨h, .inr (.inl (.refl _))⟩

theorem CodeVersion.congr {w : AccountRecord} (h : CodeVersion env given S storage a i v)
    (hs : SameCode v.value w.value) :
    CodeVersion env given S storage a i w := by
  intro hi
  obtain ⟨hcoded, hcase⟩ := h hi
  refine ⟨hcoded.congr hs, ?_⟩
  rcases hcase with hno | hsame | hrec
  · exact .inl (hno.congr hs)
  · exact .inr (.inl (hsame.trans hs))
  · refine .inr (.inr ?_)
    have hhash : w.value.bytecodeHash = v.value.bytecodeHash := by rw [← hs]
    rwa [hhash]

theorem CodeVersion.finishDeconstruction (h : CodeVersion env given S storage a i v)
    : CodeVersion env given S storage a i (finishDeconstruction v) := by
  unfold ZkOs.finishDeconstruction
  split
  · intro _
    exact ⟨.inl noCode_trivial, .inl noCode_trivial⟩
  · exact h

structure CodeInv (env : Env) (given : B160 → Bytes32 → Prop) (S : Set (List UInt8)) (io : Io) : Prop where
  preimages : ∀ hash bytes, io.preimages.storage hash = some bytes → bytes ∈ S ∧ env.blake bytes = hash
  accounts : io.accounts.cache.Loyal (CodeVersion env given S io.preimages.storage)

namespace CodeInv

variable {io io' : Io}

theorem new : CodeInv env given S .new := by
  refine ⟨fun hash bytes h => ?_, .new⟩
  cases h

theorem of_eq (h : CodeInv env given S io) (hp : io'.preimages.storage = io.preimages.storage)
    (ha : io'.accounts.cache.elems = io.accounts.cache.elems) : CodeInv env given S io' := by
  refine ⟨fun hash bytes hb => ?_, ?_⟩
  · rw [hp] at hb
    exact h.preimages hash bytes hb
  · rw [hp]
    exact h.accounts.of_elems ha

theorem learn (h : CodeInv env given S io) {hash : Bytes32} {bytes : List UInt8} (hb : bytes ∈ S)
    (hhash : env.blake bytes = hash) (hp : io'.preimages.storage = Function.update io.preimages.storage hash (some bytes))
    (ha : io'.accounts.cache.elems = io.accounts.cache.elems) : CodeInv env given S io' := by
  refine ⟨fun hash' bytes' hb' => ?_, ?_⟩
  · rw [hp] at hb'
    by_cases hk : hash' = hash
    · subst hk
      rw [Function.update_self] at hb'
      cases hb'
      exact ⟨hb, hhash⟩
    · rw [Function.update_of_ne hk] at hb'
      exact h.preimages hash' bytes' hb'
  · rw [hp]
    refine (h.accounts.of_elems ha).mono fun a i v hv hi => ?_
    obtain ⟨hcoded, hcase⟩ := hv hi
    refine ⟨hcoded, hcase.imp_right fun hcase => hcase.imp_right fun hrec => ?_⟩
    by_cases hk : v.value.bytecodeHash = hash
    · rw [hk, Function.update_self]
      exact Option.some_ne_none bytes
    · rwa [Function.update_of_ne hk]

theorem updateAccount (h : CodeInv env given S io) {a : B160} {f : AccountRecord → AccountRecord}
    (hf : ∀ i v, CodeVersion env given S io.preimages.storage a i v → CodeVersion env given S io.preimages.storage a i (f v)) :
    CodeInv env given S (io.setAccounts (io.accounts.cache.update a f)) :=
  ⟨h.preimages, h.accounts.update fun _ _ he => hf _ _ he⟩

theorem insertAccount (h : CodeInv env given S io) (a : B160) (r : AccountRecord) :
    CodeInv env given S (io.setAccounts (io.accounts.cache.getOrInsert a r)) :=
  ⟨h.preimages, h.accounts.getOrInsert (.refl _ a r)⟩

theorem startFrame (h : CodeInv env given S io) : CodeInv env given S io.startFrame.2 := h.of_eq rfl rfl

theorem rollback (h : CodeInv env given S io) {handle : Io.Snapshot} (hr : io.rollback handle = some io') :
    CodeInv env given S io' := by
  unfold Io.rollback at hr
  simp only [Option.bind_eq_bind, Option.bind_eq_some_iff, Option.some.injEq] at hr
  obtain ⟨slots, -, publication, -, accounts, haccounts, transient, -, rfl⟩ := hr
  exact ⟨h.preimages, h.accounts.rollback haccounts⟩

theorem beginNextTx (h : CodeInv env given S io) : CodeInv env given S io.beginNextTx := ⟨h.preimages, h.accounts.commit⟩

theorem finishTx (h : CodeInv env given S io) : CodeInv env given S io.finishTx := by
  refine ⟨h.preimages, ?_⟩
  show HistoryMap.Loyal _ (io.accounts.cache.pending.foldl (fun st p => sweepAccount p.1 st.1 st.2)
    (io.accounts.cache, io.storage)).1
  have hmap := h.accounts
  generalize io.storage = c
  generalize io.accounts.cache.pending = l
  generalize io.accounts.cache = m at hmap ⊢
  induction l generalizing m c with
  | nil => exact hmap
  | cons p l ih =>
    rw [List.foldl_cons]
    refine ih _ _ ?_
    show HistoryMap.Loyal _ (sweepAccount p.1 m c).1
    unfold sweepAccount
    split
    · split
      · exact hmap.mutateHead fun _ _ he => he.finishDeconstruction
      · exact hmap
    · exact hmap

end CodeInv

/-! ## Operations that leave code alone -/

/-- The invariant is kept, whether the action succeeds or fails. -/
def KeepsCode (env : Env) (given : B160 → Bytes32 → Prop) (S : Set (List UInt8)) {α : Type} (m : IoM α) : Prop :=
  Respects (fun s s' => CodeInv env given S s.io → CodeInv env given S s'.io) m

theorem CodeInv.admits (hs : HashSpace env S) :
    Admits env (fun _ => True) (fun _ => True) (CodeInv env given S) fun _ => True where
  errors _ _ := trivial
  ask _ h := h.of_eq rfl rfl
  insertSlot _ _ _ _ h := h.of_eq rfl rfl
  touchSlot _ _ _ _ h := h.of_eq rfl rfl
  -- what the oracle says is checked before it is kept
  learn hash n len h0 hcheck _ h := h.learn (hs.oracle n hash len h0 (hcheck hs.proofEnv)) (hcheck hs.proofEnv) rfl rfl
  insertAccount a _ r _ _ _ _ h := h.insertAccount a r
  touchAccount _ _ _ _ h := h.updateAccount fun _ _ hv => hv.congr (.refl _)

theorem CodeInv.allowsPayments : AllowsPayments (CodeInv env given S) := by
  refine fun a g hg io h => h.updateAccount fun _ v hv => hv.congr ?_
  show SameCode v.value (g v.value v.metadata).1
  rw [(hg v.value v.metadata).1]
  rfl

/-! ## The writers of code -/

theorem length_paddedBytecode (code arts : List UInt8) :
    (paddedBytecode code arts).length = code.length + bytecodePaddingLen code.length + arts.length := by
  unfold paddedBytecode
  simp only [List.length_append, List.length_replicate]

theorem take_paddedBytecode (code arts : List UInt8) : (paddedBytecode code arts).take code.length = code := by
  unfold paddedBytecode
  rw [List.append_assoc, List.take_left]

theorem hasCode_setCode {len artsLen : BitVec 32} {observable : Bytes32} (hlen : len.toNat = code.length)
    (harts : artsLen.toNat = arts.length) (hobs : observable = env.keccak code ∨ given a observable)
    (v : AccountProperties) (flags : U64) (hflags : VersioningData.header flags = 0x010101 ∧ arts = artifacts code ∨
      VersioningData.header flags = 0x020101 ∧ arts = [] ∧ ∃ delegate, code = delegationCode delegate) :
    HasCode env given a (v.setCode ⟨observable, len, env.blake (paddedBytecode code arts), len, artsLen⟩ flags)
      (paddedBytecode code arts) := by
  have hin : codeIn (v.setCode ⟨observable, len, env.blake (paddedBytecode code arts), len, artsLen⟩ flags)
      (paddedBytecode code arts) = code := by
    show (paddedBytecode code arts).take len.toNat = code
    rw [hlen, take_paddedBytecode]
  refine ⟨rfl, ?_, rfl, ?_, ?_⟩
  · rw [length_paddedBytecode]
    show _ = len.toNat + bytecodePaddingLen len.toNat + artsLen.toNat
    rw [hlen, harts]
  · rw [hin]
    exact hobs
  · rw [hin]
    rcases hflags with ⟨hf, rfl⟩ | ⟨hf, rfl, hd⟩
    · exact .inl ⟨hf, rfl⟩
    · exact .inr ⟨hf, rfl, hd⟩

theorem recordPreimage_storage {type : PreimageType} {bytes : List UInt8}
    (h : recordPreimage type hash len bytes s = (.ok (), s')) :
    len = bytes.length ∧ s'.io.preimages.storage hash ≠ none := by
  unfold recordPreimage at h
  obtain ⟨_, s₁, -, h₁⟩ := bind_ok.mp h
  obtain ⟨_, s₂, hrequire, h₂⟩ := bind_ok.mp h₁
  obtain ⟨hlen, rfl⟩ := require_ok hrequire
  obtain ⟨_, s₃, hget, h₃⟩ := bind_ok.mp h₂
  cases hget
  obtain ⟨_, s₄, hknown, h₄⟩ := bind_ok.mp h₃
  obtain ⟨-, rfl⟩ := require_ok hknown
  cases h₄
  refine ⟨hlen, fun hnone => ?_⟩
  have hself := Function.update_self hash (some ((s₄.io.preimages.storage hash).getD bytes)) s₄.io.preimages.storage
  exact absurd (hself.symm.trans hnone) (Option.some_ne_none _)

theorem storeBytecode_ok (h : storeBytecode env len code arts s = (.ok hash, s')) :
    hash = env.blake (paddedBytecode code arts) ∧ len = code.length ∧ s'.io.preimages.storage hash ≠ none := by
  unfold storeBytecode at h
  obtain ⟨_, s₁, -, h₁⟩ := bind_ok.mp h
  obtain ⟨_, s₂, hrecord, h₂⟩ := bind_ok.mp h₁
  obtain ⟨hlen, hstored⟩ := recordPreimage_storage hrecord
  cases h₂
  rw [length_paddedBytecode] at hlen
  exact ⟨rfl, by omega, hstored⟩

namespace CodeInv

variable {hash : Bytes32} {code arts : List UInt8} (hs : HashSpace env S)

include hs

theorem storeBytecode (len : Nat) (hb : paddedBytecode code arts ∈ S) :
    Runs (CodeInv env given S) (fun _ => True) (ZkOs.storeBytecode env len code arts) := by
  have h := @CodeInv.admits env given S hs
  refine .bind (h.charge _) fun _ => .bind (.bind (h.charge _) fun _ => .bind (h.require _) fun _ => .bind .get fun _ =>
    .bind (h.require _) fun _ => .modifyIo fun io hio => ?_) fun _ => .pure _
  let hash := env.blake (paddedBytecode code arts)
  rcases hk : io.preimages.storage hash with _ | known
  · refine hio.learn hb rfl ?_ rfl
    show Function.update io.preimages.storage hash (some ((io.preimages.storage hash).getD _)) = _
    rw [hk, Option.getD_none]
  · refine hio.of_eq ?_ rfl
    show Function.update io.preimages.storage hash (some ((io.preimages.storage hash).getD _)) = _
    rw [hk, Option.getD_some, ← hk, Function.update_eq_self]

theorem storeAndSet {len : Nat} (hb : paddedBytecode code arts ∈ S) (c : Resources) (a : B160)
    {f : Bytes32 → AccountRecord → AccountRecord}
    (hf : len = code.length → ∀ r, HasCode env given a (f (env.blake (paddedBytecode code arts)) r).value (paddedBytecode code arts))
    :
    Runs (CodeInv env given S) (fun _ => True) (do
      let hash ← ZkOs.storeBytecode env len code arts
      ZkOs.charge c
      ZkOs.updateAccount a (f hash)) := by
  refine .bind_run (storeBytecode hs len hb) fun hash s s' hstore h => ?_
  obtain ⟨rfl, hlen, hstored⟩ := storeBytecode_ok hstore
  refine ((CodeInv.admits hs).charge c s' h).bind fun _ s'' hcharge h' => ⟨?_, .refl _, nofun⟩
  refine h'.updateAccount fun i v _ _ => ?_
  have hcode := hf hlen v
  refine ⟨.inr ⟨_, hb, hcode⟩, .inr (.inr ?_)⟩
  rwa [← hcode.bytecodeHash, charge_ok hcharge]

theorem deployCode (ee : ExecutionEnvironmentType) (a : B160) (hlen : code.length < 2 ^ 31)
    (hb : paddedBytecode code (artifacts code) ∈ S) :
    Runs (CodeInv env given S) (fun _ => True) (ZkOs.deployCode env ee a code) := by
  have h := @CodeInv.admits env given S hs
  refine .bind (by cases ee <;> first | exact .pure _ | exact h.charge _) fun _ => .bind .get fun s =>
    .bind (.withInfiniteErgs (h.materializeAccount ee ⟨trivial, trivial⟩ false false)) fun _ => ?_
  refine .bind (h.require _) fun _ => .bind (h.charge _) fun _ => .bind (h.charge _) fun _ => ?_
  refine storeAndSet hs hb _ a fun _ r => hasCode_setCode ?_ ?_ (.inl rfl) _ _ (.inl ⟨VersioningData.header_deployed _, rfl⟩)
  · rw [BitVec.toNat_ofNat, Nat.mod_eq_of_lt]
    omega
  · rw [BitVec.toNat_ofNat, Nat.mod_eq_of_lt]
    rw [length_artifacts]
    omega

theorem setBytecodeDetails (a : B160) {observable : Bytes32} {len : BitVec 32} (hlen : len.toNat < 2 ^ 31)
    (hgiven : given a observable) (hb : ∀ code, (hash = 0 ∧ code = [] ∨ hash ≠ 0 ∧ code ∈ S ∧ env.blake code = hash) →
      paddedBytecode code (artifacts code) ∈ S) :
    Runs (CodeInv env given S) (fun _ => True) (ZkOs.setBytecodeDetails env .evm a hash len 0 observable len) := by
  have h := @CodeInv.admits env given S hs
  refine .bind .get fun s => .bind (h.materializeAccount .evm ⟨trivial, trivial⟩ false false) fun _ => ?_
  refine .bind_run (h.getPreimage hash _) fun code s₁ s₂ hget hs₂ => ?_
  -- the code is in the cache, so its hash is the given one
  have hcode : hash = 0 ∧ code = [] ∨ hash ≠ 0 ∧ code ∈ S ∧ env.blake code = hash := by
    by_cases hzero : hash = 0
    · subst hzero
      cases hget
      exact .inl ⟨rfl, rfl⟩
    · obtain ⟨hmem, hhash⟩ := hs₂.preimages hash code (getPreimage_ok hzero hget).1
      exact .inr ⟨hzero, hmem, hhash⟩
  refine (Runs.bind (h.require _) fun _ => .bind (h.charge _) fun _ => ?_ : Runs (CodeInv env given S) _ _) s₂ hs₂
  refine storeAndSet hs (hb code hcode) _ a fun hl r =>
    hasCode_setCode hl ?_ (.inr hgiven) _ _ (.inl ⟨VersioningData.header_deployed _, rfl⟩)
  rw [BitVec.toNat_ofNat, Nat.mod_eq_of_lt]
  rw [length_artifacts]
  omega

theorem setDelegation (a : B160) {delegate : B160} (hb : delegate ≠ 0 → paddedBytecode (delegationCode delegate) [] ∈ S) :
    Runs (CodeInv env given S) (fun _ => True) (ZkOs.setDelegation env a delegate) := by
  have h := @CodeInv.admits env given S hs
  refine .bind (.withInfiniteErgs (h.materializeAccount .evm ⟨trivial, trivial⟩ false false)) fun _ => ?_
  split
  · refine .bind (h.charge _) fun _ => .modifyIo fun io h => h.updateAccount fun i v _ _ => ?_
    have hno : NoCode (v.value.setCode ⟨0, 0, 0, 0, 0⟩ (VersioningData.cleared v.value.versioningData)) :=
      ⟨rfl, rfl, rfl, rfl, rfl, VersioningData.header_cleared _⟩
    exact ⟨.inl hno, .inl hno⟩
  · next hne =>
    have hlen : (delegationCode delegate).length = 23 := by
      unfold delegationCode
      rw [List.length_append, Digits.length_beBytes]
      rfl
    refine .bind (h.charge _) fun _ => ?_
    exact storeAndSet hs (hb hne) _ a fun _ r => hasCode_setCode (by rw [hlen]; rfl) rfl (.inl rfl) _ _
      (.inr ⟨VersioningData.header_delegated _, rfl, delegate, rfl⟩)

end CodeInv

/-! ## Sequences of operations -/

/-- What the operations of a sequence may write: codes whose lengths fit in 32 bits and whose preimages are in `S`. Force
deployments are called as by the hook of the contract deployer. -/
def IoOp.WritesCode (env : Env) (given : B160 → Bytes32 → Prop) (S : Set (List UInt8)) : IoOp → Prop
  | .deployCode _ _ code => code.length < 2 ^ 31 ∧ paddedBytecode code (artifacts code) ∈ S
  | .setDelegation _ delegate => delegate ≠ 0 → paddedBytecode (delegationCode delegate) [] ∈ S
  | .setBytecodeDetails ee a codeHash len artifactsLen observable observableLen =>
    ee = .evm ∧ artifactsLen = 0 ∧ observableLen = len ∧ len.toNat ≤ 24576 ∧ given a observable ∧
      ∀ code, (codeHash = 0 ∧ code = [] ∨ codeHash ≠ 0 ∧ code ∈ S ∧ env.blake code = codeHash) →
        paddedBytecode code (artifacts code) ∈ S
  | _ => True

theorem IoOp.exec_keepsCode (hs : HashSpace env S) {o : IoOp} (ho : o.WritesCode env given S) :
    KeepsCode env given S (o.exec env) := by
  have h := @CodeInv.admits env given S hs
  suffices hruns : Runs (CodeInv env given S) (fun _ => True) (o.exec env) from fun s hs => (hruns s hs).io
  have elsewhere {f : Io → Io} (hp : ∀ io, (f io).preimages.storage = io.preimages.storage)
      (ha : ∀ io, (f io).accounts = io.accounts) : Runs (CodeInv env given S) (fun _ => True) (modifyIo f) :=
    .modifyIo fun io h => h.of_eq (hp io) (by rw [ha])
  cases o with
  | storageRead ee a k => exact h.applyRead ee trivial false
  | storageWrite ee a k v =>
    refine .bind (h.applyWrite ee trivial fun _ h => h.of_eq rfl rfl) fun _ => ?_
    exact .ite (elsewhere (fun _ => rfl) fun _ => rfl) (.pure _)
  | transientRead ee a k =>
    exact .bind (h.charge _) fun _ => .bind (elsewhere (fun _ => rfl) fun _ => rfl) fun _ => .bind .get fun _ => .pure _
  | transientWrite ee a k v => exact .bind (h.charge _) fun _ => elsewhere (fun _ => rfl) fun _ => rfl
  | storageTouch ee a k l => exact .bind (h.applyRead ee trivial l) fun _ => .pure _
  | touchAccount ee a l => exact h.materializeAccount ee ⟨trivial, trivial⟩ false l
  | emitEvent ee a ts d =>
    exact .bind (.ite (.pure _) (.throw trivial)) fun _ => .bind (h.charge _) fun _ => elsewhere (fun _ => rfl) fun _ => rfl
  | emitL1Message a d =>
    exact .bind (h.charge _) fun _ => .bind (h.charge _) fun _ => .bind (elsewhere (fun _ => rfl) fun _ => rfl) fun _ => .pure _
  | readAccount ee a b d => exact h.readAccountProperties ee ⟨trivial, trivial⟩ b d
  | selfBalance ee a =>
    refine .bind ?_ fun _ => .bind (h.accountItem a) fun _ => .pure _
    cases ee
    · exact .pure _
    · exact h.charge _
  | transfer ee a b v =>
    exact h.transferNominalTokenValue (fun _ => trivial) CodeInv.allowsPayments ee ⟨trivial, trivial⟩ ⟨trivial, trivial⟩ v false
  | deployCode ee a code => exact CodeInv.deployCode hs ee a ho.1 ho.2
  | setBytecodeDetails ee a codeHash len artifactsLen observable observableLen =>
    obtain ⟨rfl, rfl, rfl, hlen, hgiven, hb⟩ := ho
    exact CodeInv.setBytecodeDetails hs a (by omega) hgiven hb
  | setDelegation a delegate => exact CodeInv.setDelegation hs a ho
  | markForDeconstruction ee a b c =>
    refine h.markForDeconstruction (fun _ => trivial) CodeInv.allowsPayments ee ⟨trivial, trivial⟩ ⟨trivial, trivial⟩ c ?_
    exact fun _ h => h.updateAccount fun _ v hv => hv.congr (.refl _)
  | incrementNonce ee a n =>
    refine h.incrementNonce (fun _ => trivial) ee ⟨trivial, trivial⟩ n fun io e _ _ h => ?_
    exact h.updateAccount fun _ v hv => hv.congr rfl
  | updateBalance ee a d s f =>
    exact h.updateNominalTokenValue (fun _ => trivial) CodeInv.allowsPayments ee ⟨trivial, trivial⟩ _ false f
  | emitL1L2TxLog _ s p => exact fun _ h => ⟨h.of_eq rfl rfl, .refl _, nofun⟩
  | addEvmRefund n => exact fun _ h => ⟨h.of_eq rfl rfl, .refl _, nofun⟩
  | refundCounter | netPubdataUsed | logsLen => exact fun _ h => ⟨h, .refl _, fun _ _ => trivial⟩

/-- The states of the IO subsystem, from a block's start on, by operations in `P`, new frames, rollbacks with any handle
that is accepted, and the boundaries of transactions, in any order. -/
inductive CodeRun (env : Env) (P : IoOp → Prop) : Io → Prop where
  | new : CodeRun env P .new
  | op {io : Io} (h : CodeRun env P io) (q : IoQuery) (hq : P q.1) : CodeRun env P ((Io.handler env).exec q io).2
  | startFrame {io : Io} (h : CodeRun env P io) : CodeRun env P io.startFrame.2
  | rollback {io io' : Io} (h : CodeRun env P io) (handle : Io.Snapshot) (hr : io.rollback handle = some io') :
    CodeRun env P io'
  | beginNextTx {io : Io} (h : CodeRun env P io) : CodeRun env P io.beginNextTx
  | finishTx {io : Io} (h : CodeRun env P io) : CodeRun env P io.finishTx

theorem CodeRun.inv (hs : HashSpace env S) (h : CodeRun env (IoOp.WritesCode env given S) io) :
    CodeInv env given S io := by
  induction h with
  | new => exact .new
  | @op io _ q hq ih => exact IoOp.exec_keepsCode hs hq ⟨io, q.2⟩ ih
  | startFrame _ ih => exact ih.startFrame
  | rollback _ handle hr ih => exact ih.rollback hr
  | beginNextTx _ ih => exact ih.beginNextTx
  | finishTx _ ih => exact ih.finishTx

/-! ## What readers find -/

namespace CodeInv

variable {io : Io} {a : B160} {e : Element AccountRecord}

theorem form (hs : HashSpace env S) (h : CodeInv env given S io) (he : io.accounts.cache.elems a = some e)
    (hi : Coded env given S a e.initial.value) :
    NoCode e.current.value ∨ ∃ bytes, HasCode env given a e.current.value bytes ∧ e.current.value.bytecodeHash ≠ 0 ∧
      (∀ cached, io.preimages.storage e.current.value.bytecodeHash = some cached → cached = bytes) ∧
      (SameCode e.initial.value e.current.value ∨
        io.preimages.storage e.current.value.bytecodeHash = some bytes) := by
  obtain ⟨hcoded, hcase⟩ := (h.accounts a e he).current hi
  rcases hcoded with hno | ⟨bytes, hb, hcode⟩
  · exact .inl hno
  have hcached : ∀ cached, io.preimages.storage e.current.value.bytecodeHash = some cached → cached = bytes := by
    intro cached hc
    obtain ⟨hmem, hhash⟩ := h.preimages _ _ hc
    exact hs.injOn hmem hb (hhash.trans hcode.bytecodeHash.symm)
  have hne : e.current.value.bytecodeHash ≠ 0 := by
    rw [← hcode.bytecodeHash]
    exact hs.ne_zero bytes hb
  rcases hcase with hno | hsame | hrec
  · exact .inl hno
  · exact .inr ⟨bytes, hcode, hne, hcached, .inl hsame⟩
  · obtain ⟨cached, hc⟩ := Option.ne_none_iff_exists'.mp hrec
    refine .inr ⟨bytes, hcode, hne, hcached, .inr ?_⟩
    rw [hc, hcached cached hc]

theorem getPreimage_length {hash : Bytes32} {len : Nat} {bytes : List UInt8} {s s' : Sys} (h0 : hash ≠ 0)
    (hget : getPreimage env hash len s = (.ok bytes, s'))
    (hcached : ∀ cached, s.io.preimages.storage hash = some cached → cached.length = len) : bytes.length = len := by
  rcases getPreimage_cases h0 hget with ⟨hk, -⟩ | ⟨-, hlen, -⟩
  · exact hcached bytes hk
  · exact hlen

end CodeInv

theorem CodeInv.read (hs : HashSpace env S) (h : CodeInv env given S io) {e : Element AccountRecord}
    (he : io.accounts.cache.elems a = some e) (hi : Coded env given S a e.initial.value) {ee : ExecutionEnvironmentType}
    {d : Bool} {res : Resources} (hread : readAccountProperties env ee a true d ⟨io, res⟩ = (.ok (p, code), s')) :
    p = e.current.value ∧ code.length = p.fullBytecodeLen := by
  unfold readAccountProperties at hread
  obtain ⟨q, s₁, hprops, h₁⟩ := bind_ok.mp hread
  obtain ⟨bytes, s₂, hcode, h₂⟩ := bind_ok.mp h₁
  obtain ⟨_, s₃, -, h₃⟩ := bind_ok.mp h₂
  cases h₃
  unfold accountProperties at hprops
  obtain ⟨_, t, hmat, h₄⟩ := bind_ok.mp hprops
  obtain ⟨e₁, t', hitem, h₅⟩ := bind_ok.mp h₄
  obtain ⟨he₁, rfl⟩ := accountItem_ok hitem
  cases h₅
  obtain ⟨e', he', hinitial, hvalue⟩ := (materializeAccount_spends hmat).2 e he
  cases he₁.symm.trans he'
  have hinv : CodeInv env given S s₁.io :=
    ((CodeInv.admits hs).materializeAccount ee ⟨trivial, trivial⟩ false false |>.reached h hmat).1
  refine ⟨hvalue, ?_⟩
  have hform := hinv.form hs he₁ (by rw [hinitial]; exact hi)
  simp only [if_true] at hcode
  split at hcode
  · next hzero =>
    obtain ⟨_, s₄, -, h₆⟩ := bind_ok.mp hcode
    cases h₆
    rcases hform with hno | ⟨bytes, -, hne, -⟩
    · unfold fullBytecodeLen
      rw [hno.unpaddedCodeLen, hno.artifactsLen]
      rfl
    · exact absurd hzero hne
  · next hne =>
    refine CodeInv.getPreimage_length hne hcode fun cached hc => ?_
    rcases hform with hno | ⟨bytes, hhas, -, hcached, -⟩
    · exact absurd hno.bytecodeHash hne
    · rw [hcached cached hc]
      exact hhas.length

/-- After any sequence of operations, frames, rollbacks and transactions, for every account that was loaded without code
or with the code of a preimage:
* it has no code and all fields of the code are trivial, or it has the code of a preimage with the hash and the length
  that its fields name, and flags that match; the cache knows no other bytes for this hash, and it knows these if the
  code was changed since the account was loaded;
* the checks of readers hold, and what they read has the length that the fields name. -/
theorem code_invariant (hs : HashSpace env S) {io : Io} (h : CodeRun env (IoOp.WritesCode env given S) io) {a : B160}
    {e : Element AccountRecord} (he : io.accounts.cache.elems a = some e)
    (hi : Coded env given S a e.initial.value) :
    let p := e.current.value
    (NoCode p ∨ ∃ bytes, HasCode env given a p bytes ∧
      (∀ cached, io.preimages.storage p.bytecodeHash = some cached → cached = bytes) ∧
      (SameCode e.initial.value p ∨ io.preimages.storage p.bytecodeHash = some bytes)) ∧
    (p.bytecodeHash = 0 → p.observableBytecodeHash = 0 ∧ p.unpaddedCodeLen = 0 ∧ p.artifactsLen = 0 ∧
      p.observableBytecodeLen = 0) ∧
    (VersioningData.isDelegated p.versioningData = true → VersioningData.eeVersion p.versioningData = 1) ∧
    ∀ ee d res q code s', readAccountProperties env ee a true d ⟨io, res⟩ = (.ok (q, code), s') →
      q = p ∧ code.length = p.fullBytecodeLen := by
  intro p
  have hinv := h.inv hs
  have hform := hinv.form hs he hi
  refine ⟨?_, fun hzero => ?_, fun hd => ?_, fun ee d res q code s' hread => ?_⟩
  · rcases hform with hno | ⟨bytes, hcode, -, hcached, hstored⟩
    · exact .inl hno
    · exact .inr ⟨bytes, hcode, hcached, hstored⟩
  · rcases hform with hno | ⟨bytes, -, hne, -⟩
    · exact ⟨hno.2, hno.3, hno.4, hno.5⟩
    · exact absurd hzero hne
  · rw [VersioningData.isDelegated_iff] at hd
    rw [VersioningData.eeVersion_eq]
    rcases hform with hno | ⟨bytes, hcode, -⟩
    · rw [hno.header] at hd
      exact absurd hd (by decide)
    · rcases hcode.flags with ⟨hflags, -⟩ | ⟨hflags, -⟩
      · rw [hflags]
        rfl
      · rw [hflags]
        rfl
  · obtain ⟨rfl, hlen⟩ := hinv.read hs he hi hread
    exact ⟨rfl, hlen⟩

end Invariant

/-! ## Two sequences

The code `STOP` is stored as 16 bytes. -/

def stopBytes : List UInt8 := paddedBytecode [0] (artifacts [0])

/-- A chain without accounts, and a hash function for which only `stopBytes` matters. -/
def stopChain : Env where
  slot _ _ _ := (0, true)
  preimage _ _ := []
  blake bytes := if bytes = stopBytes then 17 else 0
  keccak _ := 5
  ecrecover _ _ _ _ := none
  proofEnv := true

theorem stopChain_hashSpace : HashSpace stopChain {stopBytes} where
  proofEnv := rfl
  injOn := Set.injOn_singleton _ _
  ne_zero bytes hb := by
    cases Set.mem_singleton_iff.mp hb
    show (if stopBytes = stopBytes then (17 : Bytes32) else 0) ≠ 0
    rw [if_pos rfl]
    decide
  oracle n hash len hne hhash := by
    by_contra hn
    refine hne (hhash.symm.trans ?_)
    exact if_neg hn

def ample : Resources := ⟨gas 1000000, 1000000000⟩

/-- The state after `STOP` was deployed at `0x1111`. -/
def stopDeployed : Io := ((Io.handler stopChain).exec (.deployCode .evm 0x1111 [0], ample) .new).2

theorem code_invariant_stopDeployed : ∃ e bytes, stopDeployed.accounts.cache.elems 0x1111 = some e ∧
    e.current.value.bytecodeHash = 17 ∧ HasCode stopChain (fun _ _ => False) 0x1111 e.current.value bytes := by
  have hrun : CodeRun stopChain (IoOp.WritesCode stopChain (fun _ _ => False) {stopBytes}) stopDeployed :=
    .op .new _ ⟨by decide, rfl⟩
  have hhash : ((stopDeployed.accounts.cache.elems 0x1111).map fun e => (e.initial.value, e.current.value.bytecodeHash)) =
      some (.trivial, 17) := by
    decide +kernel
  obtain ⟨e, he, heq⟩ := Option.map_eq_some_iff.mp hhash
  obtain ⟨hinitial, hcurrent⟩ := Prod.mk.inj heq
  have hcoded : Coded stopChain (fun _ _ => False) {stopBytes} 0x1111 e.initial.value := by
    rw [hinitial]
    exact .inl noCode_trivial
  rcases (code_invariant stopChain_hashSpace hrun he hcoded).1 with hno | ⟨bytes, hcode, -⟩
  · rw [hno.bytecodeHash] at hcurrent
    exact absurd hcurrent (by decide)
  · exact ⟨e, bytes, he, hcurrent, hcode⟩

/-- The sequencer's environment: nobody checks the hash of a preimage. The oracle knows the code `STOP` with padding and
artifacts, as some account has it. -/
def uncheckedChain : Env where
  slot _ _ _ := (0, true)
  preimage _ _ := stopBytes
  blake bytes := BitVec.ofNat 256 (Digits.beNat (1 :: bytes))
  keccak _ := 5
  ecrecover _ _ _ _ := none
  proofEnv := false

theorem uncheckedChain_injOn : Set.InjOn uncheckedChain.blake {bytes | bytes.length < 32} := by
  intro xs hx ys hy h
  have hbound : ∀ zs : List UInt8, zs.length < 32 → Digits.beNat (1 :: zs) < 2 ^ 256 := by
    intro zs hz
    refine lt_of_lt_of_le (Digits.beNat_lt _) ?_
    rw [List.length_cons]
    calc 256 ^ (zs.length + 1) ≤ 256 ^ 32 := Nat.pow_le_pow_right (by decide) hz
      _ = 2 ^ 256 := by decide +kernel
  have hnat := congrArg BitVec.toNat h
  show xs = ys
  simp only [uncheckedChain, BitVec.toNat_ofNat] at hnat
  rw [Nat.mod_eq_of_lt (hbound xs hx), Nat.mod_eq_of_lt (hbound ys hy)] at hnat
  have hcons := Digits.beNat_inj_of_head (by simp) (by simp) hnat
  exact (List.cons.inj hcons).2

/-- A force deployment that names one byte less than the preimage has. -/
def shortForce : IoOp := .setBytecodeDetails .evm 0x2222 (uncheckedChain.blake stopBytes) 15 0 5 15

/-- After it, the same code is deployed at `0x1111`. -/
def shortCached : Io :=
  ((Io.handler uncheckedChain).exec (.deployCode .evm 0x1111 [0], ample)
    ((Io.handler uncheckedChain).exec (shortForce, ample) .new).2).2

theorem shortForce_writesCode : shortForce.WritesCode uncheckedChain (fun _ _ => True) {bytes | bytes.length < 32} := by
  refine ⟨rfl, rfl, rfl, by decide, trivial, fun code hcode => ?_⟩
  rcases hcode with ⟨hzero, -⟩ | ⟨-, hmem, hhash⟩
  · exact absurd hzero (by decide +kernel)
  · have hstop : stopBytes ∈ {bytes : List UInt8 | bytes.length < 32} := by
      show stopBytes.length < 32
      decide +kernel
    cases uncheckedChain_injOn hmem hstop hhash
    show (paddedBytecode stopBytes (artifacts stopBytes)).length < 32
    decide +kernel

/-- Where hashes are not checked, the preimage of the account's code has not the length that its fields name. The oracle
is right about the hash that was asked for, and no two preimages have the same hash. -/
theorem short_preimage_cached : uncheckedChain.proofEnv = false ∧
    Set.InjOn uncheckedChain.blake {bytes | bytes.length < 32} ∧
    (∀ n, uncheckedChain.blake (uncheckedChain.preimage n (uncheckedChain.blake stopBytes)) =
      uncheckedChain.blake stopBytes) ∧
    CodeRun uncheckedChain (IoOp.WritesCode uncheckedChain (fun _ _ => True) {bytes | bytes.length < 32}) shortCached ∧
    ∃ e bytes, shortCached.accounts.cache.elems 0x1111 = some e ∧ e.initial.value = .trivial ∧
      shortCached.preimages.storage e.current.value.bytecodeHash = some bytes ∧ bytes.length = 15 ∧
      e.current.value.fullBytecodeLen = 16 := by
  have hdeploy : IoOp.WritesCode uncheckedChain (fun _ _ => True) {bytes | bytes.length < 32} (.deployCode .evm 0x1111 [0]) := by
    refine ⟨by decide, ?_⟩
    show stopBytes.length < 32
    decide +kernel
  refine ⟨rfl, uncheckedChain_injOn, fun _ => rfl, .op (.op .new _ shortForce_writesCode) _ hdeploy, ?_⟩
  have hstate : ((shortCached.accounts.cache.elems 0x1111).bind fun e =>
      (shortCached.preimages.storage e.current.value.bytecodeHash).map fun bytes =>
        (e.initial.value, bytes.length, e.current.value.fullBytecodeLen)) = some (.trivial, 15, 16) := by
    decide +kernel
  obtain ⟨e, he, hmap⟩ := Option.bind_eq_some_iff.mp hstate
  obtain ⟨bytes, hbytes, heq⟩ := Option.map_eq_some_iff.mp hmap
  obtain ⟨hinitial, hlens⟩ := Prod.mk.inj heq
  obtain ⟨hlen, hfull⟩ := Prod.mk.inj hlens
  exact ⟨e, bytes, he, hinitial, hbytes, hlen, hfull⟩

end ZkOs
