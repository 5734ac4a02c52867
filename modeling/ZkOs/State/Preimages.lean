import ZkOs.State.Persist
import ZkOs.State.Snapshots

/-!
# The preimages reported at the end of a block

A recorded preimage is kept for good; only the number of its uses follows the frames.

* `insertVerifiedPreimage`, `reportNewPreimages` : recording, and the report to the result keeper;
* `PreimageCall`, `PreimageSession` : recordings between frame starts, rollbacks and commits;
* `Ledger` : the recordings that were not rolled back;
* `PreimageSession.Holds` : the uses of a hash are its recordings in the ledger, kept by every call;
* `reportNewPreimages_exact_iff` : the report is that of the ledger when no hash was recorded only in frames
  that were rolled back.
-/

namespace ZkOs

open History HistoryNodes ZkOs.Action

structure Recording where
  preimageType : PreimageType
  hash : Bytes32
  preimage : List UInt8
  deriving DecidableEq

namespace PreimagesStorage

def new : PreimagesStorage := ⟨fun _ => none, .new⟩

/-- Counted in the publication storage, and stored unless the hash is known. An
element used more than once must have the same length. -/
def insertVerifiedPreimage (r : Recording) (p : PreimagesStorage) : Option PreimagesStorage :=
  if ∀ e ∈ p.publication.elems r.hash,
      1 < e.current.value.numUses → e.current.value.publicationNetBytes = r.preimage.length then
    let p := addPreimage r.preimageType r.hash r.preimage.length p
    some { p with storage := Function.update p.storage r.hash (some ((p.storage r.hash).getD r.preimage)) }
  else none

/-- What `report_new_preimages` says about one hash of the publication storage. -/
def reported (p : PreimagesStorage) (hash : Bytes32) : Option Recording := do
  let preimage ← p.storage hash
  let e ← p.publication.elems hash
  pure ⟨e.current.value.preimageType, hash, preimage⟩

/-- All elements of the publication storage, in the order of their hashes. -/
def reportNewPreimages (p : PreimagesStorage) : Option (List Recording) :=
  (p.publication.keys.insertionSort fun h h' => h.toNat ≤ h'.toNat).mapM p.reported

end PreimagesStorage

variable {hash : Bytes32}

theorem recordPreimage_preimages {type : PreimageType} {len : Nat} {bytes : List UInt8} {s s' : Sys}
    (h : recordPreimage type hash len bytes s = (.ok (), s')) :
    s.io.preimages.insertVerifiedPreimage ⟨type, hash, bytes⟩ = some s'.io.preimages := by
  obtain ⟨_, s₁, h₁, t₁⟩ := bind_ok.mp h
  obtain ⟨_, s₂, h₂, t₂⟩ := bind_ok.mp t₁
  obtain ⟨-, rfl⟩ := require_ok h₂
  obtain ⟨_, s₃, h₃, t₃⟩ := bind_ok.mp t₂
  cases h₃
  obtain ⟨_, s₄, h₄, t₄⟩ := bind_ok.mp t₃
  obtain ⟨hlen, rfl⟩ := require_ok h₄
  cases t₄
  have hio : s₄.io = s.io := charge_ok h₁
  rw [← hio]
  exact if_pos hlen

/-! ## Sessions -/

/-- A call on the preimage cache. A rollback names a live frame by its place, the innermost first; finishing
a frame without one does nothing. -/
inductive PreimageCall where
  | record (r : Recording)
  | startFrame
  | finishFrame (rollback : Option Nat)
  | beginNewTx
  deriving DecidableEq

def PreimageCall.recording : PreimageCall → Option Recording
  | .record r => some r
  | _ => none

/-- The preimage cache with the handles of the frames that can be rolled back, innermost first. -/
structure PreimageSession where
  cache : PreimagesStorage
  handles : List Nat

namespace PreimageSession

def new : PreimageSession := ⟨.new, []⟩

def step (s : PreimageSession) : PreimageCall → Option PreimageSession
  | .record r => do
    let cache ← s.cache.insertVerifiedPreimage r
    some { s with cache }
  | .startFrame =>
    let (handle, publication) := s.cache.publication.snapshot
    some ⟨{ s.cache with publication }, handle :: s.handles⟩
  | .finishFrame none => some s
  | .finishFrame (some i) => do
    let handle ← s.handles[i]?
    let publication ← s.cache.publication.rollback handle
    some ⟨{ s.cache with publication }, s.handles.drop i⟩
  | .beginNewTx => some ⟨{ s.cache with publication := s.cache.publication.commit }, []⟩

def run (s : PreimageSession) : List PreimageCall → Option PreimageSession
  | [] => some s
  | c :: cs => do
    let s ← s.step c
    s.run cs

end PreimageSession

/-- The recordings that were not rolled back, and those of the starts of the frames. -/
structure Ledger where
  live : List Recording
  stack : List (List Recording)
  deriving DecidableEq

namespace Ledger

def new : Ledger := ⟨[], []⟩

def step (l : Ledger) : PreimageCall → Option Ledger
  | .record r => some { l with live := r :: l.live }
  | .startFrame => some { l with stack := l.live :: l.stack }
  | .finishFrame none => some l
  | .finishFrame (some i) => do
    let live ← l.stack[i]?
    some ⟨live, l.stack.drop i⟩
  | .beginNewTx => some { l with stack := [] }

def run (l : Ledger) : List PreimageCall → Option Ledger
  | [] => some l
  | c :: cs => do
    let l ← l.step c
    l.run cs

end Ledger

/-- No two recordings of one hash have different bytes. -/
def CollisionFree (rs : List Recording) : Prop :=
  ∀ r ∈ rs, ∀ r' ∈ rs, r.hash = r'.hash → r.preimage = r'.preimage

instance (rs : List Recording) : Decidable (CollisionFree rs) :=
  inferInstanceAs (Decidable (∀ r ∈ rs, ∀ r' ∈ rs, r.hash = r'.hash → r.preimage = r'.preimage))

theorem CollisionFree.mono {rs rs' : List Recording} (h : CollisionFree rs) (hsub : rs' ⊆ rs) : CollisionFree rs' :=
  fun r hr r' hr' => h r (hsub hr) r' (hsub hr')

/-- Each recorded preimage is reported, once and with its bytes, and nothing else. -/
def ReportsExactly (report live : List Recording) : Prop :=
  (report.map Recording.hash).Nodup ∧
    ∀ hash preimage, (∃ r ∈ report, r.hash = hash ∧ r.preimage = preimage) ↔
      ∃ r ∈ live, r.hash = hash ∧ r.preimage = preimage

/-! ## The uses of a hash -/

def recordings (hash : Bytes32) (l : List Recording) : Nat := l.countP fun r => r.hash = hash

abbrev PublicationRecord := CacheRecord PublicationElem Unit

/-- A copy of the publication storage counts the recordings of `l`; the length of an element is that of a
recording made so far. -/
def Counts (ever : List Recording) (copy : Bytes32 → Option PublicationRecord) (l : List Recording) : Prop :=
  ∀ hash, match copy hash with
    | none => recordings hash l = 0
    | some v => v.value.numUses = recordings hash l ∧
        ∃ r ∈ ever, r.hash = hash ∧ v.value.publicationNetBytes = r.preimage.length

namespace Counts

variable {ever l : List Recording} {copy : Bytes32 → Option PublicationRecord}

variable {hash : Bytes32} {v : PublicationRecord}

theorem of_none (h : Counts ever copy l) (hc : copy hash = none) : recordings hash l = 0 := by
  have := h hash
  rwa [hc] at this

theorem of_some (h : Counts ever copy l) (hc : copy hash = some v) :
    v.value.numUses = recordings hash l ∧ ∃ r ∈ ever, r.hash = hash ∧ v.value.publicationNetBytes = r.preimage.length := by
  have := h hash
  rwa [hc] at this

theorem mono {ever' : List Recording} (h : Counts ever copy l) (hsub : ever ⊆ ever') : Counts ever' copy l := by
  intro hash
  have := h hash
  rcases hc : copy hash with _ | v
  · rwa [hc] at this
  · rw [hc] at this
    obtain ⟨huses, r, hr, hh⟩ := this
    exact ⟨huses, r, hsub hr, hh⟩

theorem restore {snaps : Snapshots Bytes32 PublicationRecord} (h : Counts ever copy l)
    (hinitial : Counts ever snaps.initial []) : Counts ever (snaps.restore copy) l := by
  intro hash
  unfold Snapshots.restore
  rcases hc : copy hash with _ | v
  · rw [Option.none_or]
    rcases hi : snaps.initial hash with _ | v
    · exact h.of_none hc
    · obtain ⟨huses, hlen⟩ := hinitial.of_some hi
      exact ⟨huses.trans (h.of_none hc).symm, hlen⟩
  · exact h.of_some hc

theorem update {r : Recording} {l' : List Recording} (h : Counts ever copy l)
    (hother : ∀ hash, hash ≠ r.hash → recordings hash l' = recordings hash l)
    (huses : v.value.numUses = recordings r.hash l') (hlen : v.value.publicationNetBytes = r.preimage.length) :
    Counts (r :: ever) (Function.update copy r.hash (some v)) l' := by
  intro hash
  by_cases hh : hash = r.hash
  · subst hh
    rw [Function.update_self]
    exact ⟨huses, r, List.mem_cons_self, rfl, hlen⟩
  · have hold := h.mono (List.subset_cons_self r ever) hash
    rw [Function.update_of_ne hh]
    rwa [← hother hash hh] at hold

end Counts

theorem recordings_cons_self (r : Recording) (l : List Recording) :
    recordings r.hash (r :: l) = recordings r.hash l + 1 := List.countP_cons_of_pos (by simp)

theorem recordings_cons_ne {r : Recording} (h : hash ≠ r.hash) (l : List Recording) :
    recordings hash (r :: l) = recordings hash l := List.countP_cons_of_neg (by simpa using h.symm)


/-! ## Sessions keep count -/

section
variable {K V : Type} [DecidableEq K] {m : History.HistoryMap K V} {k : K} {e : Element V}

theorem History.HistoryMap.getOrInsert_of_some (he : m.elems k = some e) (v : V) : m.getOrInsert k v = m := by
  unfold History.HistoryMap.getOrInsert
  split
  · rfl
  · rename_i h
    rw [he] at h
    cases h

/-- Only the value at the current one matters of an update. -/
theorem History.HistoryMap.update_const (he : m.elems k = some e) (f : V → V) :
    m.update k f = m.update k fun _ => f e.current := by
  have hupdate : e.update m.next f = e.update m.next fun _ => f e.current := by
    rcases e with ⟨i, c, _ | ⟨r, rs⟩⟩ <;> rfl
  unfold History.HistoryMap.update
  split
  · rfl
  · rename_i e' h
    rw [he] at h
    cases h
    simp only [hupdate]

end

/-- What recording does to an element. -/
def useOnce (v : PublicationRecord) : PublicationRecord :=
  v.update fun elem u => ({ elem with numUses := elem.numUses + 1 }, u)

def unusedElem (r : Recording) : PublicationRecord := ⟨.unset, ⟨r.preimageType, 0, r.preimage.length⟩, ()⟩

section
variable {p : PreimagesStorage} {handles : List Nat} {snaps : Snapshots Bytes32 PublicationRecord} {r : Recording}

theorem addPreimage_publication (r : Recording) (p : PreimagesStorage) :
    (addPreimage r.preimageType r.hash r.preimage.length p).publication =
      (p.publication.getOrInsert r.hash (unusedElem r)).update r.hash useOnce := rfl

theorem addPreimage_elems_ne_none (r : Recording) (p : PreimagesStorage) (hash : Bytes32) :
    (addPreimage r.preimageType r.hash r.preimage.length p).publication.elems hash ≠ none ↔
      hash = r.hash ∨ p.publication.elems hash ≠ none := by
  rw [addPreimage_publication, History.HistoryMap.elems_update, History.HistoryMap.elems_getOrInsert]
  by_cases hh : hash = r.hash
  · subst hh
    simp
  · rw [Function.update_of_ne hh, Function.update_of_ne hh, or_iff_right hh]

/-- A hash recorded for the first time is inserted without a use, then used. -/
theorem addPreimage_tracks_new (h : Tracks p.publication handles snaps) (hnone : p.publication.elems r.hash = none) :
    Tracks (addPreimage r.preimageType r.hash r.preimage.length p).publication handles
      { snaps.insert r.hash (unusedElem r) with
        current := Function.update snaps.current r.hash (some (useOnce (unusedElem r))) } := by
  have hnew : (p.publication.getOrInsert r.hash (unusedElem r)).elems r.hash = some (Element.new (unusedElem r)) := by
    rw [History.HistoryMap.elems_getOrInsert, Function.update_self, hnone, Option.getD_none]
  have htracks := (h.insert hnone (unusedElem r)).update hnew (useOnce (unusedElem r))
  rw [addPreimage_publication, History.HistoryMap.update_const hnew]
  rwa [Snapshots.insert, Function.update_idem] at htracks

theorem addPreimage_tracks_known (h : Tracks p.publication handles snaps) {e : Element PublicationRecord}
    (he : p.publication.elems r.hash = some e) :
    Tracks (addPreimage r.preimageType r.hash r.preimage.length p).publication handles
      { snaps with current := Function.update snaps.current r.hash (some (useOnce e.current)) } := by
  rw [addPreimage_publication, History.HistoryMap.getOrInsert_of_some he, History.HistoryMap.update_const he]
  exact h.update he _

end

namespace PreimageSession

/-- The publication storage counts the recordings of the ledger, now and at the start of every frame, has an
element for every hash recorded so far, and the bytes of each are those of a recording. -/
structure Holds (s : PreimageSession) (ever : List Recording) (l : Ledger) : Prop where
  tracks : ∃ snaps, Tracks s.cache.publication s.handles snaps ∧ Counts ever snaps.current l.live ∧
    Counts ever snaps.initial [] ∧ List.Forall₂ (Counts ever) snaps.stack l.stack
  known : ∀ hash, s.cache.publication.elems hash ≠ none ↔ ∃ r ∈ ever, r.hash = hash
  stored : ∀ hash, s.cache.publication.elems hash ≠ none → s.cache.storage hash ≠ none
  bytes : ∀ hash preimage, s.cache.storage hash = some preimage → ∃ r ∈ ever, r.hash = hash ∧ r.preimage = preimage
  live : l.live ⊆ ever
  stack : ∀ l' ∈ l.stack, l' ⊆ ever

namespace Holds

variable {s : PreimageSession} {ever : List Recording} {l : Ledger}

theorem new : PreimageSession.new.Holds [] .new := by
  refine ⟨⟨_, .new, fun _ => rfl, fun _ => rfl, .nil⟩, ?_, ?_, nofun, List.Subset.refl _, nofun⟩
  · intro hash
    simp [PreimageSession.new, PreimagesStorage.new, History.HistoryMap.new]
  · intro hash h
    exact absurd rfl h

theorem startFrame (h : s.Holds ever l) : ∃ s', s.step .startFrame = some s' ∧
    s'.Holds ever { l with stack := l.live :: l.stack } := by
  obtain ⟨snaps, htracks, hcur, hinit, hstack⟩ := h.tracks
  refine ⟨_, rfl, ⟨_, htracks.snapshot, hcur, hinit, .cons hcur hstack⟩, h.known, h.stored, h.bytes, h.live, ?_⟩
  intro l' hl'
  rcases List.mem_cons.mp hl' with rfl | hl'
  · exact h.live
  · exact h.stack l' hl'

theorem beginNewTx (h : s.Holds ever l) : ∃ s', s.step .beginNewTx = some s' ∧
    s'.Holds ever { l with stack := [] } := by
  obtain ⟨snaps, htracks, hcur, hinit, -⟩ := h.tracks
  have helems : ∀ hash, s.cache.publication.commit.elems hash ≠ none ↔ s.cache.publication.elems hash ≠ none := by
    intro hash
    rw [History.HistoryMap.commit_elems, ne_eq, Option.map_eq_none_iff]
  refine ⟨_, rfl, ⟨_, htracks.commit, hcur, hinit, .nil⟩, ?_, ?_, h.bytes, h.live, nofun⟩
  · intro hash
    rw [← h.known hash]
    exact helems hash
  · intro hash hne
    exact h.stored hash ((helems hash).mp hne)

theorem rollback (h : s.Holds ever l) {i : Nat} {live : List Recording} (hl : l.stack[i]? = some live) :
    ∃ s', s.step (.finishFrame (some i)) = some s' ∧ s'.Holds ever ⟨live, l.stack.drop i⟩ := by
  obtain ⟨snaps, htracks, hcur, hinit, hstack⟩ := h.tracks
  rw [← List.head?_drop] at hl
  rcases hdrop : l.stack.drop i with _ | ⟨live', lists⟩
  · rw [hdrop] at hl
    cases hl
  · rw [hdrop] at hl
    cases hl
    have hcounts := List.forall₂_drop i hstack
    have hcopies := List.forall₂_drop i htracks.copies
    rw [hdrop] at hcounts
    obtain ⟨copy, stack, hcopy, hrest, hsnaps⟩ := List.forall₂_cons_right_iff.mp hcounts
    rw [hsnaps] at hcopies
    obtain ⟨handle, handles, hhandle, -, hlive⟩ := List.forall₂_cons_right_iff.mp hcopies
    obtain ⟨m, hm⟩ := History.HistoryMap.rollback_isSome (Nat.le_of_lt hhandle.1.1) hhandle.1.2
    obtain ⟨-, helems, -, -, -⟩ := History.HistoryMap.rollback_eq_some hm
    have hnone : ∀ hash, m.elems hash ≠ none ↔ s.cache.publication.elems hash ≠ none := by
      intro hash
      rw [helems, ne_eq, Option.map_eq_none_iff]
    refine ⟨⟨{ s.cache with publication := m }, s.handles.drop i⟩, ?_, ⟨_, htracks.rollback hlive hsnaps hm, ?_, hinit, ?_⟩,
      ?_, ?_, h.bytes, ?_, ?_⟩
    · simp [PreimageSession.step, ← List.head?_drop, hlive, hm]
    · exact hcopy.restore hinit
    · rw [hsnaps]
      exact .cons hcopy hrest
    · intro hash
      rw [← h.known hash]
      exact hnone hash
    · intro hash hne
      exact h.stored hash ((hnone hash).mp hne)
    · exact h.stack live (List.mem_of_mem_drop (hdrop ▸ List.mem_cons_self))
    · intro l' hl'
      exact h.stack l' (List.mem_of_mem_drop (hdrop ▸ hl'))

theorem record (h : s.Holds ever l) (r : Recording) (hfree : CollisionFree (r :: ever)) :
    ∃ s', s.step (.record r) = some s' ∧ s'.Holds (r :: ever) { l with live := r :: l.live } := by
  obtain ⟨snaps, htracks, hcur, hinit, hstack⟩ := h.tracks
  have hsub := List.subset_cons_self r ever
  have hlen : ∀ e ∈ s.cache.publication.elems r.hash,
      e.current.value.publicationNetBytes = r.preimage.length := by
    intro e he
    have hc : snaps.current r.hash = some e.current := by rw [htracks.current, he, Option.map_some]
    obtain ⟨-, r', hr', hh, hb⟩ := hcur.of_some hc
    rw [hb, hfree r' (hsub hr') r List.mem_cons_self hh]
  have hstep : s.step (.record r) = some ⟨{ addPreimage r.preimageType r.hash r.preimage.length s.cache with
      storage := Function.update s.cache.storage r.hash (some ((s.cache.storage r.hash).getD r.preimage)) },
      s.handles⟩ := by
    simp only [PreimageSession.step, PreimagesStorage.insertVerifiedPreimage]
    rw [if_pos fun e he _ => hlen e he]
    rfl
  refine ⟨_, hstep, ?_, ?_, ?_, ?_, ?_, ?_⟩
  · have hother : ∀ hash, hash ≠ r.hash → recordings hash (r :: l.live) = recordings hash l.live := fun _ hh =>
      recordings_cons_ne hh _
    have hstack' := hstack.imp fun _ _ (hcopy : Counts ever _ _) => hcopy.mono hsub
    rcases he : s.cache.publication.elems r.hash with _ | e
    · have hc : snaps.current r.hash = none := by rw [htracks.current, he, Option.map_none]
      refine ⟨_, addPreimage_tracks_new htracks he, hcur.update hother ?_ rfl, hinit.update (fun _ _ => rfl) rfl rfl, hstack'⟩
      rw [recordings_cons_self, hcur.of_none hc]
      rfl
    · have hc : snaps.current r.hash = some e.current := by rw [htracks.current, he, Option.map_some]
      refine ⟨_, addPreimage_tracks_known htracks he, hcur.update hother ?_ (hlen e he), hinit.mono hsub, hstack'⟩
      rw [recordings_cons_self, ← (hcur.of_some hc).1]
      rfl
  · intro hash
    rw [addPreimage_elems_ne_none, h.known hash]
    constructor
    · rintro (rfl | ⟨r', hr', rfl⟩)
      · exact ⟨r, List.mem_cons_self, rfl⟩
      · exact ⟨r', hsub hr', rfl⟩
    · rintro ⟨r', hr', rfl⟩
      rcases List.mem_cons.mp hr' with rfl | hr'
      · exact .inl rfl
      · exact .inr ⟨r', hr', rfl⟩
  · intro hash hne
    show Function.update s.cache.storage r.hash _ hash ≠ none
    by_cases hh : hash = r.hash
    · rw [hh, Function.update_self]
      exact Option.some_ne_none _
    · rw [Function.update_of_ne hh]
      exact h.stored hash (((addPreimage_elems_ne_none r s.cache hash).mp hne).resolve_left hh)
  · intro hash preimage hb
    replace hb : Function.update s.cache.storage r.hash _ hash = some preimage := hb
    by_cases hh : hash = r.hash
    · rw [hh, Function.update_self] at hb
      rcases hs : s.cache.storage r.hash with _ | old
      · rw [hs] at hb
        exact ⟨r, List.mem_cons_self, hh.symm, Option.some.inj hb⟩
      · rw [hs] at hb
        obtain ⟨r', hr', hh', rfl⟩ := h.bytes _ _ hs
        exact ⟨r', hsub hr', hh'.trans hh.symm, Option.some.inj hb⟩
    · rw [Function.update_of_ne hh] at hb
      obtain ⟨r', hr', hr⟩ := h.bytes _ _ hb
      exact ⟨r', hsub hr', hr⟩
  · exact List.cons_subset_cons r h.live
  · intro l' hl'
    exact List.Subset.trans (h.stack l' hl') hsub

variable {l' : Ledger} {ks : List Bytes32}

theorem step (h : s.Holds ever l) {c : PreimageCall} (hl : l.step c = some l')
    (hfree : CollisionFree (c.recording.toList ++ ever)) :
    ∃ s', s.step c = some s' ∧ s'.Holds (c.recording.toList ++ ever) l' := by
  rcases c with r | _ | (_ | i) | _
  · cases hl
    exact h.record r hfree
  · cases hl
    exact h.startFrame
  · cases hl
    exact ⟨s, rfl, h⟩
  · rcases hi : l.stack[i]? with _ | live
    · simp only [Ledger.step, hi, Option.bind_eq_bind, Option.bind_none] at hl
      cases hl
    · simp only [Ledger.step, hi, Option.bind_eq_bind, Option.bind_some] at hl
      cases hl
      exact h.rollback hi
  · cases hl
    exact h.beginNewTx

theorem run (h : s.Holds ever l) (cs : List PreimageCall) (hl : l.run cs = some l')
    (hfree : CollisionFree ((cs.filterMap PreimageCall.recording).reverse ++ ever)) :
    ∃ s', s.run cs = some s' ∧ s'.Holds ((cs.filterMap PreimageCall.recording).reverse ++ ever) l' := by
  induction cs generalizing s ever l with
  | nil =>
    cases hl
    exact ⟨s, rfl, h⟩
  | cons c cs ih =>
    have hsplit : ((c :: cs).filterMap PreimageCall.recording).reverse ++ ever =
        (cs.filterMap PreimageCall.recording).reverse ++ (c.recording.toList ++ ever) := by
      rw [List.filterMap_cons]
      rcases c.recording with _ | r <;> simp
    rw [hsplit] at hfree ⊢
    rcases hstep : l.step c with _ | l₁
    · simp only [Ledger.run, hstep, Option.bind_eq_bind, Option.bind_none] at hl
      cases hl
    · simp only [Ledger.run, hstep, Option.bind_eq_bind, Option.bind_some] at hl
      obtain ⟨s₁, hs₁, h₁⟩ := h.step hstep (hfree.mono (List.subset_append_right _ _))
      simp only [PreimageSession.run, hs₁, Option.bind_eq_bind, Option.bind_some]
      exact ih h₁ hl hfree

/-! ## The report -/

theorem mapM_reported (h : s.Holds ever l) (hks : ∀ hash ∈ ks, s.cache.publication.elems hash ≠ none) :
    ∃ report, ks.mapM s.cache.reported = some report ∧ report.map Recording.hash = ks ∧
      ∀ r ∈ report, s.cache.storage r.hash = some r.preimage := by
  induction ks with
  | nil => exact ⟨[], rfl, rfl, nofun⟩
  | cons hash ks ih =>
    obtain ⟨report, hreport, hmap, hbytes⟩ := ih fun x hx => hks x (List.mem_cons_of_mem _ hx)
    have hne := hks hash List.mem_cons_self
    obtain ⟨e, he⟩ := Option.ne_none_iff_exists'.mp hne
    obtain ⟨preimage, hp⟩ := Option.ne_none_iff_exists'.mp (h.stored hash hne)
    refine ⟨⟨e.current.value.preimageType, hash, preimage⟩ :: report, ?_, congrArg (hash :: ·) hmap, ?_⟩
    · simp [List.mapM_cons, PreimagesStorage.reported, hp, he, hreport]
    · intro r hr
      rcases List.mem_cons.mp hr with rfl | hr
      · exact hp
      · exact hbytes r hr

theorem reportsExactly_iff (h : s.Holds ever l) (hfree : CollisionFree ever) (hnodup : ks.Nodup)
    {report : List Recording} (hmap : report.map Recording.hash = ks)
    (hbytes : ∀ r ∈ report, s.cache.storage r.hash = some r.preimage) :
    ReportsExactly report l.live ↔ ∀ hash, hash ∈ ks ↔ ∃ r ∈ l.live, r.hash = hash := by
  have hmem : ∀ hash, hash ∈ ks ↔ ∃ r ∈ report, r.hash = hash := by
    intro hash
    rw [← hmap, List.mem_map]
  -- the bytes reported for a hash are those of every recording of it
  have hsame : ∀ r ∈ report, ∀ r' ∈ l.live, r'.hash = r.hash → r'.preimage = r.preimage := by
    intro r hr r' hr' hh
    obtain ⟨r₀, hr₀, hh₀, hp₀⟩ := h.bytes _ _ (hbytes r hr)
    rw [← hp₀]
    exact hfree r' (h.live hr') r₀ hr₀ (hh.trans hh₀.symm)
  constructor
  · rintro ⟨-, hexact⟩ hash
    rw [hmem]
    constructor
    · rintro ⟨r, hr, hh⟩
      obtain ⟨r', hr', hh', -⟩ := (hexact hash r.preimage).mp ⟨r, hr, hh, rfl⟩
      exact ⟨r', hr', hh'⟩
    · rintro ⟨r, hr, hh⟩
      obtain ⟨r', hr', hh', -⟩ := (hexact hash r.preimage).mpr ⟨r, hr, hh, rfl⟩
      exact ⟨r', hr', hh'⟩
  · intro hkeys
    refine ⟨hmap ▸ hnodup, fun hash preimage => ?_⟩
    constructor
    · rintro ⟨r, hr, rfl, rfl⟩
      obtain ⟨r', hr', hh⟩ := (hkeys r.hash).mp ((hmem _).mpr ⟨r, hr, rfl⟩)
      exact ⟨r', hr', hh, hsame r hr r' hr' hh⟩
    · rintro ⟨r', hr', rfl, rfl⟩
      obtain ⟨r, hr, hh⟩ := (hmem _).mp ((hkeys r'.hash).mpr ⟨r', hr', rfl⟩)
      exact ⟨r, hr, hh, (hsame r hr r' hr' hh.symm).symm⟩

end Holds

end PreimageSession

theorem mem_sortedKeys {m : History.HistoryMap Bytes32 PublicationRecord} :
    hash ∈ m.keys.insertionSort (fun h h' => h.toNat ≤ h'.toNat) ↔ m.elems hash ≠ none := by
  rw [List.mem_insertionSort, m.mem_keys]

theorem nodup_sortedKeys (m : History.HistoryMap Bytes32 PublicationRecord) :
    (m.keys.insertionSort fun h h' => h.toNat ≤ h'.toNat).Nodup :=
  (List.perm_insertionSort _ _).nodup_iff.mpr m.keys_nodup

section
variable (cs : List PreimageCall) (hfree : CollisionFree (cs.filterMap PreimageCall.recording)) (l : Ledger)
  (hl : Ledger.new.run cs = some l)
include hfree hl

/-- Every sequence of calls runs, and leaves the recordings of the sequence counted. -/
theorem run_holds : ∃ s, PreimageSession.new.run cs = some s ∧ s.Holds (cs.filterMap PreimageCall.recording).reverse l := by
  have hrev : CollisionFree ((cs.filterMap PreimageCall.recording).reverse ++ []) := by
    rw [List.append_nil]
    exact hfree.mono (List.reverse_subset.mpr (List.Subset.refl _))
  have hrun := PreimageSession.Holds.new.run cs hl hrev
  rwa [List.append_nil] at hrun

/-- The report is exact when every hash was recorded at least once outside the frames that were rolled back. -/
theorem reportNewPreimages_exact_iff : ∃ s report, PreimageSession.new.run cs = some s ∧
    s.cache.reportNewPreimages = some report ∧
    (ReportsExactly report l.live ↔ ∀ r ∈ cs.filterMap PreimageCall.recording, ∃ r' ∈ l.live, r'.hash = r.hash) := by
  obtain ⟨s, hrun, h⟩ := run_holds cs hfree l hl
  have hfree' : CollisionFree (cs.filterMap PreimageCall.recording).reverse :=
    hfree.mono (List.reverse_subset.mpr (List.Subset.refl _))
  obtain ⟨report, hreport, hmap, hbytes⟩ := h.mapM_reported fun hash hh => mem_sortedKeys.mp hh
  refine ⟨s, report, hrun, hreport, ?_⟩
  rw [h.reportsExactly_iff hfree' (nodup_sortedKeys _) hmap hbytes]
  constructor
  · intro hkeys r hr
    exact (hkeys r.hash).mp (mem_sortedKeys.mpr ((h.known r.hash).mpr ⟨r, List.mem_reverse.mpr hr, rfl⟩))
  · intro hall hash
    rw [mem_sortedKeys, h.known hash]
    constructor
    · rintro ⟨r, hr, rfl⟩
      exact hall r (List.mem_reverse.mp hr)
    · rintro ⟨r, hr, rfl⟩
      exact ⟨r, h.live hr, rfl⟩

end

/-- Recorded before a frame that records it again and is rolled back. -/
def recordedTwice : List PreimageCall :=
  [.record ⟨.bytecode, 7, [0x60]⟩, .startFrame, .record ⟨.bytecode, 7, [0x60]⟩, .finishFrame (some 0)]

theorem recordedTwice_reported : ∃ s report, PreimageSession.new.run recordedTwice = some s ∧
    s.cache.reportNewPreimages = some report ∧ ReportsExactly report [⟨.bytecode, 7, [0x60]⟩] := by
  obtain ⟨s, report, hrun, hreport, hiff⟩ := reportNewPreimages_exact_iff recordedTwice (by decide)
    ⟨[⟨.bytecode, 7, [0x60]⟩], [[⟨.bytecode, 7, [0x60]⟩]]⟩ (by decide)
  exact ⟨s, report, hrun, hreport, hiff.mpr (by decide)⟩

/-- Recorded only in a frame that is rolled back. -/
def abandonedRecording : List PreimageCall :=
  [.startFrame, .record ⟨.bytecode, 7, [0x60]⟩, .finishFrame (some 0)]

/-- It is reported, although no recording is left. -/
theorem abandonedRecording_reported : Ledger.new.run abandonedRecording = some ⟨[], [[]]⟩ ∧
    (PreimageSession.new.run abandonedRecording).bind (fun s => s.cache.reportNewPreimages) =
      some [⟨.bytecode, 7, [0x60]⟩] ∧
    ¬ReportsExactly [⟨.bytecode, 7, [0x60]⟩] [] := by
  refine ⟨by decide, by decide, ?_⟩
  rintro ⟨-, hexact⟩
  obtain ⟨r, hr, -⟩ := (hexact 7 [0x60]).mp ⟨_, List.mem_singleton_self _, rfl, rfl⟩
  cases hr

end ZkOs
