import ZkOs.State.Publication

/-!
# The pubdata counter of the logs

Every log is kept with the pubdata of all logs up to it, in 32 bits. A rollback cuts the list, and the
start of a transaction saves the counter.

* `LogList` : the storage of logs with its counters, `LogSession` : with the frames that were started;
* `LogLedger` : which logs are live, and which of them were pushed in the current transaction;
* `LogSession.Holds` : the counters say what the ledger says;
* `log_counters` : for every sequence of calls that rolls a frame back in the transaction it was started in.
-/

namespace ZkOs

/-- `LogsStorage`: the logs, newest first, each with the pubdata of all logs up to it. -/
structure LogList where
  list : List (LogContent × BitVec 32)
  pubdataUsedByCommittedLogs : BitVec 32

namespace LogList

def newFromParts : LogList := ⟨[], 0⟩

def top (l : LogList) : BitVec 32 := l.list.head?.elim 0 Prod.snd

def beginNewTx (l : LogList) : LogList := { l with pubdataUsedByCommittedLogs := l.top }

def startFrame (l : LogList) : Nat := l.list.length

def push (l : LogList) (c : LogContent) (totalPubdata : BitVec 32) : LogList :=
  { l with list := (c, l.top + totalPubdata) :: l.list }

def pushMessage (l : LogList) (txNumber : BitVec 32) (address : B160) (data : List UInt8) (dataHash : Bytes32) : LogList :=
  l.push ⟨txNumber.toNat, .userMsg address data dataHash⟩ (BitVec.ofNat 32 (4 + data.length + 88))

def pushL1L2TxLog (l : LogList) (txNumber : BitVec 32) (txHash : Bytes32) (success isPriority : Bool) : LogList :=
  l.push ⟨txNumber.toNat, .l1TxLog txHash success isPriority⟩ 88

/-- `finish_frame` with a handle: the oldest logs are kept. -/
def rollback (l : LogList) (handle : Nat) : LogList := { l with list := l.list.drop (l.list.length - handle) }

/-- `calculate_pubdata_used_by_tx`; an error if the counter decreased. -/
def calculatePubdataUsedByTx (l : LogList) : Option (BitVec 32) :=
  if l.top < l.pubdataUsedByCommittedLogs then none else some (l.top - l.pubdataUsedByCommittedLogs)

/-- `apply_pubdata` does not read the counters. -/
def applyPubdata (l : LogList) : List UInt8 := LogsStorage.applyPubdata ⟨l.list.map fun x => (x.1, x.2.toNat), 0⟩

end LogList

/-! ## Sessions -/

inductive LogCall where
  | pushMessage (txNumber : BitVec 32) (address : B160) (data : List UInt8) (dataHash : Bytes32)
  | pushL1L2TxLog (txNumber : BitVec 32) (txHash : Bytes32) (success isPriority : Bool)
  | startFrame
  /-- The end of a frame without a rollback. -/
  | finishFrame
  /-- Back to the start of the frame that is the `i`th from the last one. -/
  | rollback (i : Nat)
  | beginNewTx

/-- The storage and the handles that were given out, the newest first. -/
structure LogSession where
  logs : LogList
  handles : List Nat

namespace LogSession

def new : LogSession := ⟨.newFromParts, []⟩

def step (s : LogSession) : LogCall → Option LogSession
  | .pushMessage txNumber address data dataHash => some { s with logs := s.logs.pushMessage txNumber address data dataHash }
  | .pushL1L2TxLog txNumber txHash success isPriority =>
    some { s with logs := s.logs.pushL1L2TxLog txNumber txHash success isPriority }
  | .startFrame => some { s with handles := s.logs.startFrame :: s.handles }
  | .finishFrame => some s
  | .rollback i => do
    let handle ← s.handles[i]?
    some ⟨s.logs.rollback handle, s.handles.drop i⟩
  | .beginNewTx => some { s with logs := s.logs.beginNewTx }

def run (s : LogSession) : List LogCall → Option LogSession
  | [] => some s
  | c :: cs => do
    let s ← s.step c
    s.run cs

end LogSession

/-- The live logs, newest first: those of the current transaction and those from before it. Frames that
were started in the current transaction can be rolled back. -/
structure LogLedger where
  current : List LogContent
  before : List LogContent
  frames : List (List LogContent)

namespace LogLedger

def new : LogLedger := ⟨[], [], []⟩

def live (l : LogLedger) : List LogContent := l.current ++ l.before

def step (l : LogLedger) : LogCall → Option LogLedger
  | .pushMessage txNumber address data dataHash =>
    some { l with current := ⟨txNumber.toNat, .userMsg address data dataHash⟩ :: l.current }
  | .pushL1L2TxLog txNumber txHash success isPriority =>
    some { l with current := ⟨txNumber.toNat, .l1TxLog txHash success isPriority⟩ :: l.current }
  | .startFrame => some { l with frames := l.current :: l.frames }
  | .finishFrame => some l
  | .rollback i => do
    let current ← l.frames[i]?
    some ⟨current, l.before, l.frames.drop i⟩
  | .beginNewTx => some ⟨[], l.live, []⟩

def run (l : LogLedger) : List LogCall → Option LogLedger
  | [] => some l
  | c :: cs => do
    let l ← l.step c
    l.run cs

end LogLedger

/-- The pubdata of a list of logs: 88 bytes for each, and a length and the data for a message. -/
def logPubdata (l : List LogContent) : Nat := (l.map LogContent.pubdata).sum

theorem logPubdata_cons (c : LogContent) (l : List LogContent) : logPubdata (c :: l) = c.pubdata + logPubdata l := by
  simp [logPubdata]

theorem logPubdata_append (l l' : List LogContent) : logPubdata (l ++ l') = logPubdata l + logPubdata l' := by
  simp [logPubdata]

/-! ## The invariant -/

/-- Every counter is the pubdata of the logs up to it. -/
def CountersOf : List (LogContent × BitVec 32) → Prop
  | [] => True
  | x :: l => x.2 = BitVec.ofNat 32 (logPubdata ((x :: l).map Prod.fst)) ∧ CountersOf l

theorem CountersOf.top {l : LogList} (h : CountersOf l.list) :
    l.top = BitVec.ofNat 32 (logPubdata (l.list.map Prod.fst)) := by
  rcases l with ⟨_ | ⟨x, l⟩, n⟩
  · rfl
  · exact h.1

theorem CountersOf.push {l : LogList} (h : CountersOf l.list) (c : LogContent) {n : BitVec 32}
    (hn : n = BitVec.ofNat 32 c.pubdata) : CountersOf (l.push c n).list := by
  refine ⟨?_, h⟩
  show l.top + n = _
  rw [h.top, hn, List.map_cons, logPubdata_cons, Nat.add_comm, BitVec.ofNat_add]

theorem CountersOf.drop {l : List (LogContent × BitVec 32)} (h : CountersOf l) (n : Nat) : CountersOf (l.drop n) := by
  induction n generalizing l with
  | zero => exact h
  | succ n ih =>
    rcases l with _ | ⟨x, l⟩
    · exact h
    · exact ih h.2

namespace LogSession

/-- The counters of the session are those of the live logs. -/
structure Holds (s : LogSession) (l : LogLedger) : Prop where
  live : s.logs.list.map Prod.fst = l.live
  counters : CountersOf s.logs.list
  committed : s.logs.pubdataUsedByCommittedLogs = BitVec.ofNat 32 (logPubdata l.before)
  handles : l.frames.map (fun f => (f ++ l.before).length) <+: s.handles
  frames : (l.current :: l.frames).Pairwise fun f g => g <:+ f

namespace Holds

variable {s : LogSession} {l l' : LogLedger} {c : LogCall}

theorem new : LogSession.new.Holds .new := ⟨rfl, trivial, rfl, List.prefix_rfl, List.pairwise_singleton _ _⟩

theorem push (h : s.Holds l) (c : LogContent) {n : BitVec 32} (hn : n = BitVec.ofNat 32 c.pubdata) :
    Holds { s with logs := s.logs.push c n } { l with current := c :: l.current } where
  live := congrArg (c :: ·) h.live
  counters := h.counters.push c hn
  committed := h.committed
  handles := h.handles
  frames := by
    obtain ⟨hcurrent, hrest⟩ := List.pairwise_cons.mp h.frames
    exact List.pairwise_cons.mpr ⟨fun f hf => (hcurrent f hf).trans (List.suffix_cons c l.current), hrest⟩

theorem startFrame (h : s.Holds l) :
    Holds { s with handles := s.logs.startFrame :: s.handles } { l with frames := l.current :: l.frames } where
  live := h.live
  counters := h.counters
  committed := h.committed
  handles := by
    have hlen : s.logs.startFrame = (l.current ++ l.before).length := by
      rw [LogList.startFrame, ← List.length_map, h.live]
      rfl
    rw [hlen, List.map_cons]
    exact (List.prefix_cons_inj _).mpr h.handles
  frames := by
    obtain ⟨hcurrent, -⟩ := List.pairwise_cons.mp h.frames
    exact List.pairwise_cons.mpr ⟨List.forall_mem_cons.mpr ⟨List.suffix_rfl, hcurrent⟩, h.frames⟩

theorem beginNewTx (h : s.Holds l) : Holds { s with logs := s.logs.beginNewTx } ⟨[], l.live, []⟩ where
  live := h.live
  counters := h.counters
  committed := by
    show s.logs.top = _
    rw [h.counters.top, h.live]
  handles := List.nil_prefix
  frames := List.pairwise_singleton _ _

theorem rollback (h : s.Holds l) {i : Nat} {f : List LogContent} (hf : l.frames[i]? = some f) :
    s.handles[i]? = some (f ++ l.before).length ∧
      Holds ⟨s.logs.rollback (f ++ l.before).length, s.handles.drop i⟩ ⟨f, l.before, l.frames.drop i⟩ := by
  obtain ⟨hcurrent, hnested⟩ := List.pairwise_cons.mp h.frames
  have hlt : i < l.frames.length := (List.getElem?_eq_some_iff.mp hf).1
  have hsuffix : f ++ l.before <:+ l.live := by
    obtain ⟨pre, hpre⟩ := hcurrent f (List.mem_of_getElem? hf)
    exact ⟨pre, by rw [← List.append_assoc, hpre, LogLedger.live]⟩
  have hhandle : s.handles[i]? = some (f ++ l.before).length := by
    obtain ⟨rest, hrest⟩ := h.handles
    rw [← hrest, List.getElem?_append_left (by rw [List.length_map]; exact hlt), List.getElem?_map, hf]
    rfl
  have hdrop : l.frames.drop i = f :: l.frames.drop (i + 1) := by
    rw [List.drop_eq_getElem_cons hlt, (List.getElem?_eq_some_iff.mp hf).2]
  refine ⟨hhandle, ?_, h.counters.drop _, h.committed, ?_, ?_⟩
  · show (s.logs.list.drop _).map Prod.fst = f ++ l.before
    rw [List.map_drop, ← List.length_map (f := Prod.fst), h.live]
    exact (List.suffix_iff_eq_drop.mp hsuffix).symm
  · rw [List.map_drop]
    exact h.handles.drop i
  · -- frames that are older than `f` started with fewer logs
    have hpairs := hnested.drop (i := i)
    rw [hdrop] at hpairs ⊢
    exact List.pairwise_cons.mpr
      ⟨List.forall_mem_cons.mpr ⟨List.suffix_rfl, (List.pairwise_cons.mp hpairs).1⟩, hpairs⟩

theorem step (h : s.Holds l) (hl : l.step c = some l') : ∃ s', s.step c = some s' ∧ s'.Holds l' := by
  cases c with
  | pushMessage txNumber address data dataHash =>
    cases hl
    exact ⟨_, rfl, h.push ⟨txNumber.toNat, .userMsg address data dataHash⟩ rfl⟩
  | pushL1L2TxLog txNumber txHash success isPriority =>
    cases hl
    exact ⟨_, rfl, h.push ⟨txNumber.toNat, .l1TxLog txHash success isPriority⟩ rfl⟩
  | startFrame =>
    cases hl
    exact ⟨_, rfl, h.startFrame⟩
  | finishFrame =>
    cases hl
    exact ⟨s, rfl, h⟩
  | rollback i =>
    simp only [LogLedger.step, Option.bind_eq_bind, Option.bind_eq_some_iff] at hl
    obtain ⟨f, hf, hlast⟩ := hl
    cases hlast
    obtain ⟨hhandle, hholds⟩ := h.rollback hf
    refine ⟨_, ?_, hholds⟩
    simp [LogSession.step, hhandle]
  | beginNewTx =>
    cases hl
    exact ⟨_, rfl, h.beginNewTx⟩

theorem run {cs : List LogCall} (h : s.Holds l) (hl : l.run cs = some l') : ∃ s', s.run cs = some s' ∧ s'.Holds l' := by
  induction cs generalizing s l with
  | nil =>
    cases hl
    exact ⟨s, rfl, h⟩
  | cons c cs ih =>
    simp only [LogLedger.run, Option.bind_eq_bind, Option.bind_eq_some_iff] at hl
    obtain ⟨l₁, hstep, hrest⟩ := hl
    obtain ⟨s₁, hs₁, h₁⟩ := h.step hstep
    obtain ⟨s', hs', h'⟩ := ih h₁ hrest
    refine ⟨s', ?_, h'⟩
    simp only [LogSession.run, hs₁, Option.bind_eq_bind, Option.bind_some]
    exact hs'

end Holds

end LogSession

/-! ## The counters -/

theorem LogList.length_applyPubdata (l : LogList) :
    l.applyPubdata.length = logPubdata (l.list.map Prod.fst) + 8 := by
  unfold applyPubdata
  rw [LogsStorage.length_applyPubdata, LogsStorage.published, logPubdata, List.map_map, List.map_map, Nat.add_comm]
  rfl

/-- After any calls that roll a frame back only in the transaction it was started in, the session has the
live logs. As long as 32 bits hold their pubdata, the counter of the last log is this pubdata, and the
pubdata used by the transaction is that of its own live logs. What is published has 8 more bytes. -/
theorem log_counters (calls : List LogCall) (l : LogLedger) (hl : LogLedger.new.run calls = some l) :
    ∃ s, LogSession.new.run calls = some s ∧ s.logs.list.map Prod.fst = l.live ∧
      s.logs.applyPubdata.length = logPubdata l.live + 8 ∧
      (logPubdata l.live < 2 ^ 32 → s.logs.top.toNat = logPubdata l.live ∧
        ∃ n, s.logs.calculatePubdataUsedByTx = some n ∧ n.toNat = logPubdata l.current) := by
  obtain ⟨s, hs, h⟩ := LogSession.Holds.new.run hl
  refine ⟨s, hs, h.live, ?_, ?_⟩
  · rw [LogList.length_applyPubdata, h.live]
  · intro hfits
    have hsum : logPubdata l.live = logPubdata l.current + logPubdata l.before := logPubdata_append ..
    have htop : s.logs.top.toNat = logPubdata l.live := by
      rw [h.counters.top, h.live, BitVec.toNat_ofNat, Nat.mod_eq_of_lt hfits]
    have hcommitted : s.logs.pubdataUsedByCommittedLogs.toNat = logPubdata l.before := by
      rw [h.committed, BitVec.toNat_ofNat, Nat.mod_eq_of_lt (by omega)]
    have hle : s.logs.pubdataUsedByCommittedLogs ≤ s.logs.top := by
      rw [BitVec.le_def, htop, hcommitted]
      omega
    refine ⟨htop, s.logs.top - s.logs.pubdataUsedByCommittedLogs, if_neg (BitVec.not_lt.mpr hle), ?_⟩
    rw [BitVec.toNat_sub_of_le hle, htop, hcommitted]
    omega

/-- Two transactions, of which the second undoes a part of what it logged. -/
def twoTransactions : List LogCall :=
  [.pushMessage 0 0x1111 [1, 2, 3] 5, .beginNewTx, .pushL1L2TxLog 1 7 true true, .startFrame,
    .pushMessage 1 0x1111 [] 6, .rollback 0]

theorem log_counters_twoTransactions : ∃ s, LogSession.new.run twoTransactions = some s ∧ s.logs.top.toNat = 183 ∧
    ∃ n, s.logs.calculatePubdataUsedByTx = some n ∧ n.toNat = 88 := by
  obtain ⟨s, hs, -, -, hcounters⟩ := log_counters twoTransactions _ rfl
  obtain ⟨htop, n, hn, hused⟩ := hcounters (by decide)
  exact ⟨s, hs, htop, n, hn, hused⟩

/-- A frame that is rolled back after a transaction was started in it: the counter is then below the one that
was saved, and the pubdata of the transaction cannot be calculated. -/
theorem rollback_across_transactions : ∃ s,
    LogSession.new.run [.startFrame, .pushL1L2TxLog 0 7 true true, .beginNewTx, .rollback 0] = some s ∧
      s.logs.calculatePubdataUsedByTx = none :=
  ⟨_, rfl, rfl⟩

end ZkOs
