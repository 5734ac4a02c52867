import ZkOs.State.RecordPool

/-!
# The history map as a plain map with full copies

* `Snapshots` : what a history map is for, a map with a stack of copies of itself;
* `Op` : the operations of a session, run on the linked map (`Session.step`) and on the copies
  (`Snapshots.step`);
* `HistoryMap.Refines` : the linked map holds a `History.HistoryMap`, kept by every operation;
* `Tracks` : a `History.HistoryMap` shows the values of the copies, kept by every operation;
* `session_refines_snapshots` : the two give the same values after every sequence of operations.
-/

namespace ZkOs.HistoryNodes

open History LinkedHeap

variable {K V : Type}

/-! ## The specification -/

/-- A map with a stack of copies, newest first. `initial` are the values first inserted, `committed` those
at the last commit (for a key inserted since then, its initial value). -/
structure Snapshots (K V : Type) where
  current : K → Option V
  initial : K → Option V
  committed : K → Option V
  stack : List (K → Option V)

/-- An operation on the map. A rollback names a live snapshot by its place, the newest first. -/
inductive Op (K V : Type) where
  | getOrInsert (k : K) (spawn : Option V)
  | update (k : K) (f : V → Option V)
  | snapshot
  | rollback (i : Nat)
  | commit

variable [DecidableEq K]

namespace Snapshots

def new : Snapshots K V := ⟨fun _ => none, fun _ => none, fun _ => none, []⟩

def insert (k : K) (v : V) (s : Snapshots K V) : Snapshots K V :=
  { s with
    current := Function.update s.current k (some v)
    initial := Function.update s.initial k (some v)
    committed := Function.update s.committed k (some v) }

/-- Back to a copy; keys inserted since then keep their initial value. -/
def restore (copy : K → Option V) (s : Snapshots K V) (k : K) : Option V := (copy k).or (s.initial k)

/-- An operation is refused when its key is not in the map or its snapshot is not live. -/
def step (s : Snapshots K V) : Op K V → Option (Snapshots K V)
  | .getOrInsert k spawn =>
    match s.current k, spawn with
    | none, some v => some (s.insert k v)
    | _, _ => some s
  | .update k f => do
    let v ← s.current k
    match f v with
    | none => some s
    | some w => some { s with current := Function.update s.current k (some w) }
  | .snapshot => some { s with stack := s.current :: s.stack }
  | .rollback i => do
    let copy ← s.stack[i]?
    some { s with current := s.restore copy, stack := s.stack.drop i }
  | .commit => some { s with committed := s.current, stack := [] }

def run (s : Snapshots K V) : List (Op K V) → Option (Snapshots K V)
  | [] => some s
  | op :: ops => do
    let s ← s.step op
    s.run ops

end Snapshots

/-! ## Sessions -/

/-- The linked map with the ids of its live snapshots, newest first: those taken since the last commit and
not undone by a rollback to an older one. -/
structure Session (K V : Type) where
  map : HistoryMap K V
  live : List Nat

namespace Session

def new : Session K V := ⟨.new, []⟩

def step (s : Session K V) : Op K V → Option (Session K V)
  | .getOrInsert k spawn => do
    let map ← s.map.getOrInsert k spawn
    some { s with map }
  | .update k f => do
    let map ← s.map.update k f
    some { s with map }
  | .snapshot =>
    let (id, map) := s.map.snapshot
    some ⟨map, id :: s.live⟩
  | .rollback i => do
    let id ← s.live[i]?
    let map ← s.map.rollback id
    some ⟨map, s.live.drop i⟩
  | .commit => do
    let map ← s.map.commit
    some ⟨map, []⟩

def run (s : Session K V) : List (Op K V) → Option (Session K V)
  | [] => some s
  | op :: ops => do
    let s ← s.step op
    s.run ops

end Session

/-! ## The linked map holds a history map -/

/-- The links hold the elements of `m`. -/
structure HistoryMap.Refines (n : HistoryMap K V) (m : History.HistoryMap K V) : Prop where
  holds : ∃ nodes free, Holds m.frozen n.btree n.records m.elems nodes free
  next : n.next = m.next
  frozen : n.frozen = m.frozen
  pending : n.pending = m.pending

namespace HistoryMap.Refines

variable {n : HistoryMap K V} {m : History.HistoryMap K V}

theorem new : (HistoryMap.new : HistoryMap K V).Refines History.HistoryMap.new := by
  refine ⟨⟨fun _ => [], [], ?_⟩, rfl, rfl, rfl⟩
  exact ⟨fun _ _ => ⟨rfl, rfl⟩, nofun, ⟨rfl, rfl⟩, fun _ => List.nodup_nil, fun _ _ _ _ ha => nomatch ha⟩

theorem current (h : n.Refines m) (k : K) : n.current k = (m.elems k).map Element.current := by
  obtain ⟨nodes, free, hh⟩ := h.holds
  rcases hp : n.btree k with _ | p
  · rw [(hh.absent k hp).1]
    simp only [HistoryMap.current, hp]
    rfl
  · obtain ⟨e, he, hrep⟩ := hh.present k p hp
    obtain ⟨r, hr, hv, -⟩ := hrep.head_node
    simp [HistoryMap.current, hp, hr, he, hv]

theorem initial (h : n.Refines m) (k : K) : n.initial k = (m.elems k).map Element.initial := by
  obtain ⟨nodes, free, hh⟩ := h.holds
  rcases hp : n.btree k with _ | p
  · rw [(hh.absent k hp).1]
    simp only [HistoryMap.initial, hp]
    rfl
  · obtain ⟨e, he, hrep⟩ := hh.present k p hp
    obtain ⟨r, hr, hv⟩ := hrep.initial_node
    simp [HistoryMap.initial, hp, hr, he, hv]

theorem committed (h : n.Refines m) (k : K) : n.committed k = (m.elems k).map Element.base := by
  obtain ⟨nodes, free, hh⟩ := h.holds
  rcases hp : n.btree k with _ | p
  · rw [(hh.absent k hp).1]
    simp only [HistoryMap.committed, hp]
    rfl
  · obtain ⟨e, he, hrep⟩ := hh.present k p hp
    obtain ⟨r, hr, hv⟩ := hrep.committed_node
    simp [HistoryMap.committed, hp, hr, he, hv]

variable {k : K} {e : Element V} {p : ElementWithHistory} {elems : K → Option (Element V)} {pending : List (K × Nat)}
    {bound s : Nat} {btree : K → Option ElementWithHistory} {st : Records V} {nodes : K → List (Nat × HistoryRecord V)}
    {free : List (Nat × HistoryRecord V)}

theorem btree_eq_none (h : n.Refines m) (hk : m.elems k = none) : n.btree k = none := by
  obtain ⟨nodes, free, hh⟩ := h.holds
  rcases hp : n.btree k with _ | p
  · rfl
  · obtain ⟨e, he, -⟩ := hh.present k p hp
    rw [hk] at he
    cases he

theorem getOrInsert_some (h : n.Refines m) (he : m.elems k = some e) (spawn : Option V) :
    n.getOrInsert k spawn = some n := by
  obtain ⟨nodes, free, hh⟩ := h.holds
  obtain ⟨p, hp, -⟩ := hh.exists_local he
  simp only [HistoryMap.getOrInsert, hp]

theorem getOrInsert_none (k : K) : n.getOrInsert k none = some n := by
  unfold HistoryMap.getOrInsert
  split <;> rfl

theorem update_none (h : n.Refines m) (hk : m.elems k = none) (f : V → Option V) : n.update k f = none := by
  simp [HistoryMap.update, h.btree_eq_none hk]

theorem insert (h : n.Refines m) (hk : m.elems k = none) (v : V) :
    ∃ n', n.getOrInsert k (some v) = some n' ∧ n'.Refines (m.getOrInsert k v) := by
  obtain ⟨nodes, free, hh⟩ := h.holds
  have hp := h.btree_eq_none hk
  have hnodes := (hh.absent k hp).2
  have hd := hh.nodup k
  rw [hnodes] at hd
  obtain ⟨p, records, nodes', free', hnew, hlocal, hmoves⟩ := Local.new m.frozen hh.frees hd v
  refine ⟨{ n with btree := Function.update n.btree k (some p), records }, ?_, ⟨Function.update nodes k nodes', free', ?_⟩,
    ?_, ?_, ?_⟩
  · simp [HistoryMap.getOrInsert, hp, hnew]
  · rw [History.HistoryMap.getOrInsert_frozen, History.HistoryMap.elems_getOrInsert, hk]
    refine hh.set hlocal ?_
    rwa [hnodes]
  · rw [History.HistoryMap.getOrInsert_next, ← h.next]
  · rw [History.HistoryMap.getOrInsert_frozen, ← h.frozen]
  · rw [History.HistoryMap.getOrInsert_pending, ← h.pending]

variable {r : HistoryRecord V} {rs : List (HistoryRecord V)}

theorem modifyHead (h : n.Refines m) (he : m.elems k = some e) (hr : e.recent = r :: rs) (hp : n.btree k = some p) (v : V)
    {m' : History.HistoryMap K V}
    (helems : m'.elems = Function.update m.elems k (some { e with recent := ⟨r.touch, v⟩ :: rs }))
    (hnext : m'.next = m.next) (hfrozen : m'.frozen = m.frozen) (hpending : m'.pending = m.pending) :
    HistoryMap.Refines { n with records.heap := n.records.heap.modify p.head fun n => { n with item.value := v } } m' := by
  obtain ⟨nodes, free, hh⟩ := h.holds
  obtain ⟨p', hp', hlocal⟩ := hh.exists_local he
  rw [hp] at hp'
  cases hp'
  obtain ⟨nodes', hlocal', hmoves⟩ := hlocal.modifyHead hr v
  have hset := hh.set hlocal' hmoves
  refine ⟨⟨Function.update nodes k nodes', free, ?_⟩, h.next.trans hnext.symm, h.frozen.trans hfrozen.symm,
    h.pending.trans hpending.symm⟩
  rw [hfrozen, helems]
  rwa [← hp, Function.update_eq_self] at hset

theorem update_inPlace (h : n.Refines m) (he : m.elems k = some e) (hr : e.recent = r :: rs) (ht : r.touch = m.next)
    (hp : n.btree k = some p) (v : V) :
    HistoryMap.Refines { n with records.heap := n.records.heap.modify p.head fun n => { n with item.value := v } }
      (m.update k fun _ => v) := by
  have hupdate : e.update m.next (fun _ => v) = { e with recent := ⟨r.touch, v⟩ :: rs } := by
    unfold Element.update
    rw [hr]
    simp [ht]
  have hhead : History.HistoryMap.headIs m.next e = true := by
    unfold History.HistoryMap.headIs
    rw [hr]
    simp [ht]
  refine h.modifyHead he hr hp v ?_ (History.HistoryMap.update_next _ _ _) (History.HistoryMap.update_frozen _ _ _) ?_
  · rw [History.HistoryMap.elems_update, he, Option.map_some, hupdate]
  · rw [History.HistoryMap.update_pending_of_some he, if_pos hhead]

theorem update_push (h : n.Refines m) (he : m.elems k = some e) (hr : ∀ r rs, e.recent = r :: rs → r.touch ≠ m.next)
    (hp : n.btree k = some p) :
    ∃ a records, n.records.createElement e.current (some p.head) n.next = some (a, records) ∧
      HistoryMap.Refines { n with records } m ∧
      ∀ v, HistoryMap.Refines
        { n with
          btree := Function.update n.btree k (some (p.addNewRecord a))
          records := { records with heap := records.heap.modify a fun n => { n with item.value := v } }
          pending := (k, n.next) :: n.pending }
        (m.update k fun _ => v) := by
  obtain ⟨nodes, free, hh⟩ := h.holds
  obtain ⟨p', hp', hlocal⟩ := hh.exists_local he
  rw [hp] at hp'
  cases hp'
  obtain ⟨a, records, free', hcreate, hsame, hmoves, hpush⟩ := hlocal.createElement e.current n.next
  refine ⟨a, records, hcreate, ⟨⟨Function.update nodes k (nodes k), free', ?_⟩, h.next, h.frozen, h.pending⟩, fun v => ?_⟩
  · have hset := hh.set hsame hmoves
    rwa [← hp, ← he, Function.update_eq_self, Function.update_eq_self] at hset
  · obtain ⟨hlocal', hmoves'⟩ := hpush v
    have hupdate : e.update m.next (fun _ => v) = { e with recent := ⟨n.next, v⟩ :: e.recent } := by
      rw [h.next]
      unfold Element.update
      split
      · rename_i hnil
        rw [hnil]
      · rename_i r rs hcons
        rw [if_neg (hr r rs hcons), hcons]
    have hhead : ¬History.HistoryMap.headIs m.next e = true := by
      unfold History.HistoryMap.headIs
      rcases hcons : e.recent with _ | ⟨r, rs⟩
      · simp
      · simpa using hr r rs hcons
    refine ⟨⟨Function.update nodes k ((a, ⟨n.next, v⟩) :: nodes k), free', ?_⟩, ?_, ?_, ?_⟩
    · rw [History.HistoryMap.update_frozen, History.HistoryMap.elems_update, he, Option.map_some, hupdate]
      exact hh.set hlocal' hmoves'
    · rw [History.HistoryMap.update_next, ← h.next]
    · rw [History.HistoryMap.update_frozen, ← h.frozen]
    · rw [History.HistoryMap.update_pending_of_some he, if_neg hhead, ← h.pending, ← h.next]

theorem update (h : n.Refines m) (he : m.elems k = some e) (f : V → Option V) :
    ∃ n', n.update k f = some n' ∧
      n'.Refines ((f e.current).elim m fun v => m.update k fun _ => v) := by
  obtain ⟨nodes, free, hh⟩ := h.holds
  obtain ⟨p, hp, hlocal⟩ := hh.exists_local he
  obtain ⟨x, hx, hv, hbase, hrec⟩ := hlocal.element.head_node
  by_cases ht : x.item.touch = n.next
  · rcases hr : e.recent with _ | ⟨r, rs⟩
    · -- the committed and the initial record are older than any write that may be changed
      have hle := hbase hr
      have hlt := m.frozen_lt
      rw [ht, h.next] at hle
      omega
    · have hxr := hrec r rs hr
      rcases hf : f e.current with _ | v
      · refine ⟨n, ?_, h⟩
        simp [HistoryMap.update, hp, hx, ht, hv, hf]
      · refine ⟨_, ?_, h.update_inPlace he hr (by rw [← hxr, ht, h.next]) hp v⟩
        simp [HistoryMap.update, hp, hx, ht, hv, hf]
  · have hne : ∀ r rs, e.recent = r :: rs → r.touch ≠ m.next := by
      intro r rs hr
      rw [← hrec r rs hr, ← h.next]
      exact ht
    obtain ⟨a, records, hcreate, hleft, hpush⟩ := h.update_push he hne hp
    rcases hf : f e.current with _ | v
    · refine ⟨{ n with records }, ?_, hleft⟩
      simp [HistoryMap.update, hp, hx, ht, hv, hf, hcreate]
    · refine ⟨_, ?_, hpush v⟩
      simp [HistoryMap.update, hp, hx, ht, hv, hf, hcreate]

theorem snapshot (h : n.Refines m) : n.snapshot.2.Refines m.snapshot.2 :=
  ⟨h.holds, congrArg (· + 1) h.next, h.frozen, h.pending⟩

theorem pending_ne_none (m : History.HistoryMap K V) : ∀ x ∈ m.pending, m.elems x.1 ≠ none := by
  intro x hx hnone
  obtain ⟨e, he, -⟩ := m.wf.pending_recent x hx
  rw [hnone] at he
  cases he

theorem update_ne_none (e : Element V) (h : ∀ x ∈ pending, elems x.1 ≠ none)
    : ∀ x ∈ pending, Function.update elems k (some e) x.1 ≠ none := by
  intro x hx
  by_cases hk : x.1 = k
  · rw [hk, Function.update_self]
    exact Option.some_ne_none e
  · rw [Function.update_of_ne hk]
    exact h x hx

theorem rollbackLoop (hs : bound ≤ s) (hpending : ∀ x ∈ pending, elems x.1 ≠ none)
    (hh : Holds bound btree st elems nodes free) :
    ∃ btree' st' nodes' free',
      HistoryMap.rollbackLoop s pending btree st =
        some ((History.HistoryMap.rollbackLoop s pending elems).1, btree', st') ∧
      Holds bound btree' st' (History.HistoryMap.rollbackLoop s pending elems).2 nodes' free' := by
  induction pending generalizing btree st elems nodes free with
  | nil => exact ⟨btree, st, nodes, free, rfl, hh⟩
  | cons x rest ih =>
    by_cases ht : x.2 ≤ s
    · simp only [HistoryMap.rollbackLoop, History.HistoryMap.rollbackLoop, ht, if_true]
      exact ⟨btree, st, nodes, free, rfl, hh⟩
    · obtain ⟨e, he⟩ := Option.ne_none_iff_exists'.mp (hpending x List.mem_cons_self)
      obtain ⟨p, hp, hlocal⟩ := hh.exists_local he
      obtain ⟨p', st', nodes', free', hrollback, hlocal', hmoves⟩ := hlocal.rollback hs
      simp only [HistoryMap.rollbackLoop, History.HistoryMap.rollbackLoop, ht, hp, hrollback, he, if_false,
        Option.bind_eq_bind, Option.bind_some, Option.map_some]
      exact ih (update_ne_none _ fun y hy => hpending y (List.mem_cons_of_mem _ hy))
        (hh.set hlocal' hmoves)

theorem rollback (h : n.Refines m) (h₁ : m.frozen ≤ s) (h₂ : s < m.next) :
    ∃ n' m', n.rollback s = some n' ∧ m.rollback s = some m' ∧ n'.Refines m' := by
  obtain ⟨nodes, free, hh⟩ := h.holds
  obtain ⟨btree, records, nodes', free', hloop, hh'⟩ := rollbackLoop h₁ (pending_ne_none m) hh
  obtain ⟨m', hm'⟩ := History.HistoryMap.rollback_isSome h₁ h₂
  obtain ⟨-, helems, hnext, hfrozen, hpending⟩ := History.HistoryMap.rollback_eq_some hm'
  have hguard : ¬(s < n.frozen ∨ n.next ≤ s) := by
    rw [h.frozen, h.next]
    omega
  rw [History.HistoryMap.rollbackLoop_eq] at hloop hh'
  refine ⟨{ n with pending := m'.pending, btree, records }, m', ?_, hm', ⟨nodes', free', ?_⟩, ?_, ?_, rfl⟩
  · simp [HistoryMap.rollback, hguard, h.pending, hloop, hpending]
  · rw [hfrozen, helems]
    exact hh'
  · rw [hnext, ← h.next]
  · rw [hfrozen, ← h.frozen]

theorem commitLoop (hpending : ∀ x ∈ pending, elems x.1 ≠ none)
    (htouch : ∀ k e, elems k = some e → ∀ r ∈ e.recent, r.touch ≤ bound) (hh : Holds bound btree st elems nodes free) :
    ∃ btree' st' nodes' free', HistoryMap.commitLoop pending btree st = some (btree', st') ∧
      Holds bound btree' st' (History.HistoryMap.commitLoop pending elems) nodes' free' := by
  induction pending generalizing btree st elems nodes free with
  | nil => exact ⟨btree, st, nodes, free, rfl, hh⟩
  | cons x rest ih =>
    obtain ⟨e, he⟩ := Option.ne_none_iff_exists'.mp (hpending x List.mem_cons_self)
    obtain ⟨p, hp, hlocal⟩ := hh.exists_local he
    obtain ⟨p', st', nodes', free', hcommit, hlocal', hmoves⟩ := hlocal.commit (htouch x.1 e he)
    simp only [HistoryMap.commitLoop, History.HistoryMap.commitLoop, hp, hcommit, he, Option.bind_eq_bind,
      Option.bind_some, Option.map_some]
    refine ih (update_ne_none _ fun y hy => hpending y (List.mem_cons_of_mem _ hy)) ?_
      (hh.set hlocal' hmoves)
    intro k e' he' r hr
    by_cases hk : k = x.1
    · rw [hk, Function.update_self] at he'
      cases he'
      rw [Element.commit_recent] at hr
      cases hr
    · rw [Function.update_of_ne hk] at he'
      exact htouch k e' he' r hr

theorem commit (h : n.Refines m) : ∃ n', n.commit = some n' ∧ n'.Refines m.commit := by
  obtain ⟨nodes, free, hh⟩ := h.holds
  have hh' := hh.mono (Nat.le_of_lt m.frozen_lt)
  obtain ⟨btree, records, nodes', free', hloop, hheld⟩ :=
    commitLoop (pending_ne_none m) (fun k e he r hr => m.wf.touch_le he hr) hh'
  refine ⟨⟨btree, records, n.next + 1, n.next, []⟩, ?_, ⟨nodes', free', ?_⟩, congrArg (· + 1) h.next, h.next, rfl⟩
  · simp [HistoryMap.commit, h.pending, hloop]
  · exact hheld

end HistoryMap.Refines

/-! ## A history map shows the values of the copies -/

/-- `m` shows the values of `s`; rolled back to a live snapshot it shows those of its copy. -/
structure Tracks (m : History.HistoryMap K V) (live : List Nat) (s : Snapshots K V) : Prop where
  current : ∀ k, s.current k = (m.elems k).map Element.current
  initial : ∀ k, s.initial k = (m.elems k).map Element.initial
  committed : ∀ k, s.committed k = (m.elems k).map Element.base
  copies : List.Forall₂ (fun id copy => (m.frozen < id ∧ id < m.next) ∧
    ∀ k, s.restore copy k = (m.elems k).map (Element.valueAt id)) live s.stack
  sorted : live.Pairwise fun id id' => id' < id

namespace Tracks

variable {m : History.HistoryMap K V} {live : List Nat} {s : Snapshots K V}

theorem live_bounds (h : Tracks m live s) : ∀ id ∈ live, m.frozen < id ∧ id < m.next := by
  have hcopies := h.copies
  generalize s.stack = stack at hcopies
  clear h
  intro id hid
  induction hcopies with
  | nil => cases hid
  | cons hcopy _ ih =>
    rcases List.mem_cons.mp hid with rfl | hid
    · exact hcopy.1
    · exact ih hid

theorem new : Tracks (History.HistoryMap.new : History.HistoryMap K V) [] Snapshots.new :=
  ⟨fun _ => rfl, fun _ => rfl, fun _ => rfl, .nil, .nil⟩

theorem insert (h : Tracks m live s) {k : K} (hk : m.elems k = none) (v : V) :
    Tracks (m.getOrInsert k v) live (s.insert k v) := by
  have helems : (m.getOrInsert k v).elems = Function.update m.elems k (some (Element.new v)) := by
    rw [History.HistoryMap.elems_getOrInsert, hk, Option.getD_none]
  have hview : ∀ {g : Element V → V} {w : K → Option V}, g (Element.new v) = v →
      (∀ k', w k' = (m.elems k').map g) →
      ∀ k', Function.update w k (some v) k' = ((m.getOrInsert k v).elems k').map g := by
    intro g w hg hw k'
    rw [helems]
    by_cases hkk : k' = k
    · rw [hkk, Function.update_self, Function.update_self, Option.map_some, hg]
    · rw [Function.update_of_ne hkk, Function.update_of_ne hkk, hw]
  refine ⟨hview rfl h.current, hview rfl h.initial, hview rfl h.committed, ?_, h.sorted⟩
  refine h.copies.imp fun id copy hcopy => ⟨?_, fun k' => ?_⟩
  · rw [History.HistoryMap.getOrInsert_frozen, History.HistoryMap.getOrInsert_next]
    exact hcopy.1
  · -- the key is in no copy, so every snapshot goes back to its initial value
    have hold := hcopy.2 k'
    rw [helems]
    by_cases hkk : k' = k
    · subst hkk
      rw [hk, Option.map_none, Snapshots.restore, Option.or_eq_none_iff] at hold
      rw [Snapshots.restore, hold.1, Function.update_self]
      exact Function.update_self _ _ _
    · rw [Function.update_of_ne hkk, ← hold]
      exact congrArg _ (Function.update_of_ne hkk _ _)

theorem update (h : Tracks m live s) {k : K} {e : Element V} (he : m.elems k = some e) (v : V) :
    Tracks (m.update k fun _ => v) live { s with current := Function.update s.current k (some v) } := by
  have helems : (m.update k fun _ => v).elems = Function.update m.elems k (some (e.update m.next fun _ => v)) := by
    rw [History.HistoryMap.elems_update, he, Option.map_some]
  have hview : ∀ {g : Element V → V}, g (e.update m.next fun _ => v) = g e →
      ∀ k', ((m.update k fun _ => v).elems k').map g = (m.elems k').map g := by
    intro g hg k'
    rw [helems]
    by_cases hkk : k' = k
    · rw [hkk, Function.update_self, he, Option.map_some, Option.map_some, hg]
    · rw [Function.update_of_ne hkk]
  refine ⟨fun k' => ?_, fun k' => ?_, fun k' => ?_, ?_, h.sorted⟩
  · rw [helems]
    by_cases hkk : k' = k
    · rw [hkk, Function.update_self, Option.map_some, Element.current_update]
      exact Function.update_self _ _ _
    · rw [Function.update_of_ne hkk, ← h.current]
      exact Function.update_of_ne hkk _ _
  · rw [hview (Element.update_initial _ _ _)]
    exact h.initial k'
  · rw [hview (Element.update_base _ _ _)]
    exact h.committed k'
  · refine h.copies.imp fun id copy hcopy => ⟨?_, fun k' => ?_⟩
    · rw [History.HistoryMap.update_frozen, History.HistoryMap.update_next]
      exact hcopy.1
    · rw [hview]
      · exact hcopy.2 k'
      · exact congrArg Element.current (Element.rollback_update hcopy.1.2 _ _)

theorem snapshot (h : Tracks m live s) :
    Tracks m.snapshot.2 (m.next :: live) { s with stack := s.current :: s.stack } := by
  refine ⟨h.current, h.initial, h.committed, .cons ⟨⟨m.frozen_lt, Nat.lt_succ_self _⟩, fun k => ?_⟩ ?_, ?_⟩
  · show (s.current k).or (s.initial k) = (m.elems k).map _
    rw [h.current, h.initial]
    rcases he : m.elems k with _ | e
    · rfl
    · refine congrArg some ?_
      rw [Element.valueAt, Element.rollback_of_le fun r hr => m.wf.touch_le he hr]
  · exact h.copies.imp fun id copy hcopy => ⟨⟨hcopy.1.1, Nat.lt_succ_of_lt hcopy.1.2⟩, hcopy.2⟩
  · exact List.pairwise_cons.mpr ⟨fun id hid => (h.live_bounds id hid).2, h.sorted⟩

theorem rollback (h : Tracks m live s) {i id : Nat} {copy : K → Option V} {rest : List Nat} {stack : List (K → Option V)}
    (hlive : live.drop i = id :: rest) (hstack : s.stack.drop i = copy :: stack) {m' : History.HistoryMap K V}
    (hm : m.rollback id = some m') :
    Tracks m' (live.drop i) { s with current := s.restore copy, stack := s.stack.drop i } := by
  obtain ⟨-, helems, hnext, hfrozen, -⟩ := History.HistoryMap.rollback_eq_some hm
  have hcopies := List.forall₂_drop i h.copies
  have hsorted := h.sorted.drop (i := i)
  rw [hlive] at hsorted hcopies
  rw [hstack] at hcopies
  have hle : ∀ id' ∈ id :: rest, id' ≤ id := by
    intro id' hid
    rcases List.mem_cons.mp hid with rfl | hid
    · exact Nat.le_refl _
    · exact Nat.le_of_lt ((List.pairwise_cons.mp hsorted).1 id' hid)
  have hview : ∀ {g : Element V → V}, (∀ e, g (e.rollback id) = g e) →
      ∀ k, (m'.elems k).map g = (m.elems k).map g := by
    intro g hg k
    rw [helems, Option.map_map]
    exact congrFun (congrArg Option.map (funext hg)) _
  refine ⟨fun k => ?_, fun k => ?_, fun k => ?_, ?_, ?_⟩
  · rw [helems, Option.map_map]
    exact (List.forall₂_cons.mp hcopies).1.2 k
  · rw [hview fun _ => rfl]
    exact h.initial k
  · rw [hview fun _ => rfl]
    exact h.committed k
  · rw [hlive, hstack]
    refine ((List.forall₂_and_left _ _).mpr ⟨hle, hcopies⟩).imp fun id' copy' hcopy => ⟨?_, fun k => ?_⟩
    · rw [hfrozen, hnext]
      exact hcopy.2.1
    · have hvalue : ∀ e : Element V, (e.rollback id).valueAt id' = e.valueAt id' := fun e =>
        congrArg Element.current (Element.rollback_rollback hcopy.1 e)
      rw [hview hvalue]
      exact hcopy.2.2 k
  · rw [hlive]
    exact hsorted

theorem commit (h : Tracks m live s) : Tracks m.commit [] { s with committed := s.current, stack := [] } := by
  have hview : ∀ {g g' : Element V → V}, (∀ e, g e.commit = g' e) →
      ∀ k, (m.commit.elems k).map g = (m.elems k).map g' := by
    intro g g' hg k
    simp only [History.HistoryMap.commit_elems, Option.map_map]
    exact congrFun (congrArg Option.map (funext hg)) _
  refine ⟨fun k => ?_, fun k => ?_, fun k => ?_, .nil, .nil⟩
  · rw [hview Element.commit_current]
    exact h.current k
  · rw [hview Element.commit_initial]
    exact h.initial k
  · rw [hview Element.commit_base]
    exact h.current k

end Tracks

/-! ## Sessions -/

/-- The linked map of a session shows the values of the copies; its live snapshots are newer than the
last commit. -/
def Session.Shows (x : Session K V) (s : Snapshots K V) : Prop :=
  ∃ m, x.map.Refines m ∧ Tracks m x.live s

/-- What a caller sees of a map: the current, the committed and the initial values. -/
def Session.view (x : Session K V) : (K → Option V) × (K → Option V) × (K → Option V) :=
  (x.map.current, x.map.committed, x.map.initial)

def Snapshots.view (s : Snapshots K V) : (K → Option V) × (K → Option V) × (K → Option V) :=
  (s.current, s.committed, s.initial)

namespace Session.Shows

variable {x : Session K V} {s : Snapshots K V}

theorem new : (Session.new : Session K V).Shows Snapshots.new := ⟨_, .new, .new⟩

theorem view (h : x.Shows s) : x.view = s.view := by
  obtain ⟨m, href, htracks⟩ := h
  simp only [Session.view, Snapshots.view, Prod.mk.injEq]
  refine ⟨funext fun k => ?_, funext fun k => ?_, funext fun k => ?_⟩
  · rw [href.current, htracks.current]
  · rw [href.committed, htracks.committed]
  · rw [href.initial, htracks.initial]

/-- An operation is refused on both sides, or gives the same values again. -/
theorem step (h : x.Shows s) (op : Op K V) :
    x.step op = none ∧ s.step op = none ∨
      ∃ x' s', x.step op = some x' ∧ s.step op = some s' ∧ x'.Shows s' := by
  obtain ⟨m, href, htracks⟩ := h
  cases op with
  | getOrInsert k spawn =>
    refine .inr ?_
    rcases he : m.elems k with _ | e
    · have hcur : s.current k = none := by rw [htracks.current, he, Option.map_none]
      rcases spawn with _ | v
      · refine ⟨x, s, ?_, ?_, m, href, htracks⟩
        · simp [Session.step, HistoryMap.Refines.getOrInsert_none]
        · simp only [Snapshots.step, hcur]
      · obtain ⟨n, hn, href'⟩ := href.insert he v
        refine ⟨⟨n, x.live⟩, s.insert k v, ?_, ?_, _, href', htracks.insert he v⟩
        · simp [Session.step, hn]
        · simp only [Snapshots.step, hcur]
    · have hcur : s.current k = some e.current := by rw [htracks.current, he, Option.map_some]
      refine ⟨x, s, ?_, ?_, m, href, htracks⟩
      · simp [Session.step, href.getOrInsert_some he]
      · simp only [Snapshots.step, hcur]
  | update k f =>
    rcases he : m.elems k with _ | e
    · refine .inl ⟨?_, ?_⟩
      · simp [Session.step, href.update_none he]
      · simp [Snapshots.step, htracks.current, he]
    · obtain ⟨n, hn, href'⟩ := href.update he f
      have hcur : s.current k = some e.current := by rw [htracks.current, he, Option.map_some]
      refine .inr ?_
      rcases hf : f e.current with _ | v
      · rw [hf] at href'
        refine ⟨⟨n, x.live⟩, s, ?_, ?_, m, href', htracks⟩
        · simp [Session.step, hn]
        · simp [Snapshots.step, hcur, hf]
      · rw [hf] at href'
        refine ⟨⟨n, x.live⟩, _, ?_, ?_, _, href', htracks.update he v⟩
        · simp [Session.step, hn]
        · simp [Snapshots.step, hcur, hf]
  | snapshot =>
    refine .inr ⟨_, _, rfl, rfl, m.snapshot.2, href.snapshot, ?_⟩
    show Tracks _ (x.map.next :: x.live) _
    rw [href.next]
    exact htracks.snapshot
  | rollback i =>
    have hcopies := List.forall₂_drop i htracks.copies
    rcases hlive : x.live.drop i with _ | ⟨id, rest⟩
    · rw [hlive, List.forall₂_nil_left_iff] at hcopies
      refine .inl ⟨?_, ?_⟩
      · simp [Session.step, ← List.head?_drop, hlive]
      · simp [Snapshots.step, ← List.head?_drop, hcopies]
    · rw [hlive] at hcopies
      obtain ⟨copy, stack, -, -, hstack⟩ := List.forall₂_cons_left_iff.mp hcopies
      have hid : id ∈ x.live := List.mem_of_mem_drop (hlive ▸ List.mem_cons_self)
      obtain ⟨hlow, hhigh⟩ := htracks.live_bounds id hid
      obtain ⟨n, m', hn, hm, href'⟩ := href.rollback (Nat.le_of_lt hlow) hhigh
      refine .inr ⟨⟨n, x.live.drop i⟩, _, ?_, ?_, m', href', htracks.rollback hlive hstack hm⟩
      · simp [Session.step, ← List.head?_drop, hlive, hn]
      · simp [Snapshots.step, ← List.head?_drop, hstack]
  | commit =>
    obtain ⟨n, hn, href'⟩ := href.commit
    refine .inr ⟨⟨n, []⟩, _, ?_, rfl, _, href', htracks.commit⟩
    simp [Session.step, hn]

theorem run (h : x.Shows s) (ops : List (Op K V)) :
    x.run ops = none ∧ s.run ops = none ∨
      ∃ x' s', x.run ops = some x' ∧ s.run ops = some s' ∧ x'.Shows s' := by
  induction ops generalizing x s with
  | nil => exact .inr ⟨x, s, rfl, rfl, h⟩
  | cons op ops ih =>
    rcases h.step op with ⟨hx, hs⟩ | ⟨x', s', hx, hs, h'⟩
    · refine .inl ⟨?_, ?_⟩
      · simp [Session.run, hx]
      · simp [Snapshots.run, hs]
    · simp only [Session.run, Snapshots.run, hx, hs, Option.bind_eq_bind, Option.bind_some]
      exact ih h'

end Session.Shows

/-- Every sequence of operations shows the same current, committed and initial values on the linked map
and on the map with full copies, an operation is refused on the linked map only where it names no key of
the map or no live snapshot, and the live snapshots are newer than the last commit. -/
theorem session_refines_snapshots (ops : List (Op K V)) :
    ((Session.new : Session K V).run ops).map Session.view =
        ((Snapshots.new : Snapshots K V).run ops).map Snapshots.view ∧
      ∀ x ∈ (Session.new : Session K V).run ops, ∀ id ∈ x.live, x.map.frozen < id := by
  rcases Session.Shows.new.run ops with ⟨hx, hs⟩ | ⟨x', s', hx, hs, h⟩
  · rw [hx, hs]
    exact ⟨rfl, fun x hx => by cases hx⟩
  · rw [hx, hs]
    refine ⟨congrArg some h.view, fun x hx id hid => ?_⟩
    cases hx
    obtain ⟨m, href, htracks⟩ := h
    rw [href.frozen]
    exact (htracks.live_bounds id hid).1

end ZkOs.HistoryNodes
