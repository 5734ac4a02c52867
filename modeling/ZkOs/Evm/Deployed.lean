import ZkOs.State.Code
import ZkOs.State.Deconstruction

/-!
# Code that was deployed and is parsed again

* `storedBytecode` : what `deploy_code` records, on a machine with the given `usize`;
* `deployCode_records` : what it writes;
* `deployed_code_parses` : the code and its jump destinations are found again, on any machine.
-/

namespace ZkOs.Evm

open Bootloader History ZkOs.Action BytecodePreprocessingData

/-- Code, padding and the bitmap of `analyze` as bytes. -/
def storedBytecode (p : PointerWidth) (code : List UInt8) : List UInt8 := paddedBytecode code (analyze p code).asSlice

theorem storedBytecode_eq (p : PointerWidth) (code : List UInt8) :
    storedBytecode p code = paddedBytecode code (artifacts code) := by
  unfold storedBytecode
  rw [asSlice_analyze]

theorem deployCode_records {env : Env} {ee : ExecutionEnvironmentType} {a : B160} {code : List UInt8} {s s' : Sys}
    (h : deployCode env ee a code s = (.ok (), s')) :
    (∃ t t', recordPreimage .bytecode (env.blake (paddedBytecode code (artifacts code)))
        (paddedBytecode code (artifacts code)).length (paddedBytecode code (artifacts code)) t = (.ok (), t') ∧
      s'.io.preimages = t'.io.preimages) ∧
    ∃ e, s'.io.accounts.cache.elems a = some e ∧
      e.current.value.bytecodeHash = env.blake (paddedBytecode code (artifacts code)) ∧
      e.current.value.unpaddedCodeLen = BitVec.ofNat 32 code.length ∧
      e.current.value.artifactsLen = BitVec.ofNat 32 (artifacts code).length := by
  unfold deployCode at h
  obtain ⟨_, s₁, -, h₁⟩ := bind_ok.mp h
  obtain ⟨_, s₂, -, h₂⟩ := bind_ok.mp h₁
  obtain ⟨_, s₃, hmat, h₃⟩ := bind_ok.mp h₂
  obtain ⟨_, s₄, hr, h₄⟩ := bind_ok.mp h₃
  obtain ⟨-, rfl⟩ := require_ok hr
  obtain ⟨_, s₅, hkeccak, h₅⟩ := bind_ok.mp h₄
  obtain ⟨_, s₆, hartifacts, h₆⟩ := bind_ok.mp h₅
  obtain ⟨hash, s₇, hstore, h₇⟩ := bind_ok.mp h₆
  obtain ⟨_, s₈, hcharge, hupdate⟩ := bind_ok.mp h₇
  unfold storeBytecode at hstore
  obtain ⟨_, t, ht, hstore⟩ := bind_ok.mp hstore
  obtain ⟨_, t', hrecord, hstore⟩ := bind_ok.mp hstore
  cases hstore
  rw [← length_paddedBytecode] at hrecord
  have hio := charge_ok hcharge
  have haccounts : s₈.io.accounts = s₄.io.accounts := by
    rw [hio, (recordPreimage_ok hrecord).1, charge_ok ht, charge_ok hartifacts, charge_ok hkeccak]
  -- the account was materialised before
  have hne : s₈.io.accounts.cache.elems a ≠ none := by
    rw [haccounts]
    obtain ⟨u, hu, hio'⟩ := withInfiniteErgs_ok hmat
    rw [hio']
    exact materializeAccount_ok hu
  obtain ⟨e, he⟩ := Option.ne_none_iff_exists'.mp hne
  obtain ⟨he', hpreimages, -⟩ := updateAccount_ok hupdate he
  refine ⟨⟨t, s₇, hrecord, hpreimages.trans (congrArg Io.preimages hio)⟩, _, he', ?_⟩
  rw [Element.current_update]
  exact ⟨rfl, rfl, rfl⟩

/-- For every code, a machine that deploys it and a machine that parses it:
* the stored bytes, and so their hash, are the same on both;
* parsing gives back the code, and a bitmap whose valid destinations are those of the analysis on the deploying machine,
  which are the real jump destinations;
* `deploy_code` records these bytes under their hash, and stores the lengths that the parser needs. -/
theorem deployed_code_parses (deployer reader : PointerWidth) (code : List UInt8) :
    storedBytecode deployer code = storedBytecode reader code ∧
    (∃ d, parseBytecode reader (storedBytecode deployer code) code.length (analyze deployer code).asSlice.length =
        some (code, d) ∧
      ∀ off, d.isValidJumpdest off = (BytecodePreprocessingData.createArtifacts deployer code).isValidJumpdest off ∧
        (d.isValidJumpdest off = some true ↔ RealJumpdest code off)) ∧
    ∀ (env : Env) (ee : ExecutionEnvironmentType) (a : B160) (s s' : Sys), deployCode env ee a code s = (.ok (), s') →
      (∃ t t', recordPreimage .bytecode (env.blake (storedBytecode deployer code)) (storedBytecode deployer code).length
          (storedBytecode deployer code) t = (.ok (), t') ∧ s'.io.preimages = t'.io.preimages) ∧
      ∃ e, s'.io.accounts.cache.elems a = some e ∧
        e.current.value.bytecodeHash = env.blake (storedBytecode deployer code) ∧
        (code.length < 2 ^ 32 → e.current.value.unpaddedCodeLen.toNat = code.length ∧
          e.current.value.artifactsLen.toNat = (analyze deployer code).asSlice.length) := by
  refine ⟨by rw [storedBytecode_eq, storedBytecode_eq], ?_, fun env ee a s s' h => ?_⟩
  · obtain ⟨d, hparse, hsound⟩ := parseBytecode_deployed reader code
    rw [storedBytecode_eq, asSlice_analyze]
    refine ⟨d, hparse, fun off => ?_⟩
    obtain ⟨valid, hvalid, hiff⟩ := hsound off
    obtain ⟨valid', hvalid', hiff'⟩ := BytecodePreprocessingData.createArtifacts_sound deployer code off
    have heq : valid = valid' := Bool.eq_iff_iff.mpr (hiff.trans hiff'.symm)
    refine ⟨by rw [hvalid, hvalid', heq], ?_⟩
    rw [hvalid, Option.some.injEq]
    exact hiff
  · rw [storedBytecode_eq, asSlice_analyze]
    obtain ⟨hrecord, e, he, hhash, hlen, harts⟩ := deployCode_records h
    refine ⟨hrecord, e, he, hhash, fun hlt => ?_⟩
    have hartsLen : (artifacts code).length < 2 ^ 32 := by
      rw [length_artifacts]
      omega
    rw [hlen, harts, BitVec.toNat_ofNat, BitVec.toNat_ofNat, Nat.mod_eq_of_lt hlt, Nat.mod_eq_of_lt hartsLen]
    exact ⟨rfl, rfl⟩

end ZkOs.Evm
