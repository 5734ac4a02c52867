import ZkOs.Lib.LinkedHeap
import ZkOs.State.HistoryMap

/-!
# The history map down to its linked records

The history of a key is a chain of records linked from the newest to the initial one; records cut off
by a rollback or a commit go to a pool and are reused for later writes.

* `ElementPool`, `ElementWithHistory`, `HistoryMap` : the structures with their links, as in the source;
* `ElementWithHistory.Represents` : the links of one key hold an `Element`;
* `Holds` : all keys do, over disjoint nodes, and the pool holds the rest;
* `HistoryMap.Refines` : the linked map holds a `History.HistoryMap`, and every operation keeps it so
  (`getOrInsert_refines`, `update_refines`, `snapshot_refines`, `rollback_refines`, `commit_refines`).
-/

namespace ZkOs.HistoryNodes

open History LinkedHeap

variable {K V : Type}

/-! ## The pool -/

structure ElementPool where
  head : Option Nat
  last : Option Nat

/-- The nodes of all histories, and the links of those that can be reused. -/
structure Records (V : Type) where
  heap : Heap (HistoryRecord V)
  pool : ElementPool

namespace Records

def new : Records V := ⟨.empty, none, none⟩

/-- A record in a node of the pool, or in a new one when the pool is empty. -/
def createElement (value : V) (previous : Option Nat) (touch : Nat) (st : Records V) : Option (Nat × Records V) :=
  match st.pool.head with
  | none => some (st.heap.size, { st with heap := st.heap.alloc ⟨⟨touch, value⟩, previous⟩ })
  | some a => do
    let node ← st.heap.node a
    let last := if node.previous.isNone then none else st.pool.last
    some (a, ⟨st.heap.modify a fun _ => ⟨⟨touch, value⟩, previous⟩, node.previous, last⟩)

/-- A chain of records is appended to the pool. -/
def reuseMemory (chainHead chainTail : Nat) (st : Records V) : Records V :=
  let st := match st.pool.last with
    | none => { st with pool.head := some chainHead }
    | some last => { st with heap := st.heap.modify last fun n => { n with previous := some chainHead } }
  -- the tail still points to the history it was taken from
  ⟨st.heap.modify chainTail fun n => { n with previous := none }, st.pool.head, some chainTail⟩

end Records

/-! ## One element -/

/-- The links of one key: the initial record, the first one after it, the newest one and the
committed one. -/
structure ElementWithHistory where
  initial : Nat
  first : Nat
  head : Nat
  committed : Nat

/-- The loop of `rollback`: from the record `a` on, the oldest record newer than `s`. -/
def firstRemoved (h : Heap (HistoryRecord V)) (s : Nat) : Nat → Nat → Option Nat
  | 0, _ => none
  | fuel + 1, a => do
    let node ← h.node a
    -- every history is terminated with a record of snapshot 0
    let p ← node.previous
    let prev ← h.node p
    if prev.item.touch ≤ s then some a else firstRemoved h s fuel p

namespace ElementWithHistory

def new (value : V) (st : Records V) : Option (ElementWithHistory × Records V) := do
  let (a, st) ← st.createElement value none 0
  some (⟨a, a, a, a⟩, st)

def addNewRecord (a : Nat) (p : ElementWithHistory) : ElementWithHistory :=
  { p with head := a, first := if p.initial = p.first then a else p.first }

def rollback (s : Nat) (p : ElementWithHistory) (st : Records V) : Option (ElementWithHistory × Records V) := do
  let head ← st.heap.node p.head
  if head.item.touch ≤ s then some (p, st)
  else
    let a ← firstRemoved st.heap s st.heap.size p.head
    let node ← st.heap.node a
    let newHead ← node.previous
    let st := { st with heap := st.heap.modify a fun n => { n with previous := none } }
    some ({ p with first := if a = p.first then newHead else p.first, head := newHead }, st.reuseMemory p.head a)

def commit (p : ElementWithHistory) (st : Records V) : Option (ElementWithHistory × Records V) :=
  let p := { p with committed := p.head }
  if p.head = p.initial then some (p, st)
  else if p.head = p.first then some (p, st)
  else do
    let node ← st.heap.node p.head
    let lastRemoved ← node.previous
    let st := { st with heap := st.heap.modify p.head fun n => { n with previous := some p.initial } }
    some ({ p with first := p.head }, st.reuseMemory lastRemoved p.first)

end ElementWithHistory

/-! ## The map -/

structure HistoryMap (K V : Type) where
  btree : K → Option ElementWithHistory
  records : Records V
  next : Nat
  frozen : Nat
  pending : List (K × Nat)

namespace HistoryMap

def new : HistoryMap K V := ⟨fun _ => none, .new, 1, 0, []⟩

def current (m : HistoryMap K V) (k : K) : Option V := do
  let p ← m.btree k
  let n ← m.records.heap.node p.head
  some n.item.value

def initial (m : HistoryMap K V) (k : K) : Option V := do
  let p ← m.btree k
  let n ← m.records.heap.node p.initial
  some n.item.value

def committed (m : HistoryMap K V) (k : K) : Option V := do
  let p ← m.btree k
  let n ← m.records.heap.node p.committed
  some n.item.value

def snapshot (m : HistoryMap K V) : Nat × HistoryMap K V := (m.next, { m with next := m.next + 1 })

variable [DecidableEq K]

/-- `get_or_insert`; `spawn` is the result of the callback, which is used for a new key only. -/
def getOrInsert (k : K) (spawn : Option V) (m : HistoryMap K V) : Option (HistoryMap K V) :=
  match m.btree k with
  | some _ => some m
  | none =>
    match spawn with
    | none => some m
    | some v => do
      let (p, records) ← ElementWithHistory.new v m.records
      some { m with btree := Function.update m.btree k (some p), records }

/-- `update` on the item of a key that is in the map; the callback may fail, which leaves the value. -/
def update (k : K) (f : V → Option V) (m : HistoryMap K V) : Option (HistoryMap K V) := do
  let p ← m.btree k
  let last ← m.records.heap.node p.head
  if last.item.touch = m.next then
    match f last.item.value with
    | none => some m
    | some v =>
      let heap := m.records.heap.modify p.head fun n => { n with item.value := v }
      some { m with records := { m.records with heap } }
  else
    let (a, records) ← m.records.createElement last.item.value (some p.head) m.next
    match f last.item.value with
    -- the new record is neither linked nor given back to the pool
    | none => some { m with records }
    | some v =>
      let heap := records.heap.modify a fun n => { n with item.value := v }
      some { m with
        btree := Function.update m.btree k (some (p.addNewRecord a))
        records := { records with heap }
        pending := (k, m.next) :: m.pending }

def rollbackLoop (s : Nat) : List (K × Nat) → (K → Option ElementWithHistory) → Records V →
    Option (List (K × Nat) × (K → Option ElementWithHistory) × Records V)
  | [], btree, st => some ([], btree, st)
  | (k, t) :: rest, btree, st =>
    if t ≤ s then some ((k, t) :: rest, btree, st)
    else do
      let p ← btree k
      let (p, st) ← p.rollback s st
      rollbackLoop s rest (Function.update btree k (some p)) st

def rollback (s : Nat) (m : HistoryMap K V) : Option (HistoryMap K V) :=
  if s < m.frozen ∨ m.next ≤ s then none
  else do
    let (pending, btree, records) ← rollbackLoop s m.pending m.btree m.records
    some { m with pending, btree, records }

def commitLoop : List (K × Nat) → (K → Option ElementWithHistory) → Records V →
    Option ((K → Option ElementWithHistory) × Records V)
  | [], btree, st => some (btree, st)
  | (k, _) :: rest, btree, st => do
    let p ← btree k
    let (p, st) ← p.commit st
    commitLoop rest (Function.update btree k (some p)) st

def commit (m : HistoryMap K V) : Option (HistoryMap K V) := do
  let (btree, records) ← commitLoop m.pending m.btree m.records
  some { btree, records, next := m.next + 1, frozen := m.next, pending := [] }

end HistoryMap

/-! ## The pool holds a list of nodes -/

/-- The pool's links hold the nodes `free`. -/
structure Records.Frees (st : Records V) (free : List (Nat × HistoryRecord V)) : Prop where
  seg : Seg st.heap st.pool.head free none
  last : st.pool.last = lastAddress? free

namespace Records

variable {st : Records V} {free chain : List (Nat × HistoryRecord V)}

theorem Frees.createElement (hf : st.Frees free) (hd : (addresses free).Nodup) (v : V) (previous : Option Nat)
    (t : Nat) : ∃ a st' free', st.createElement v previous t = some (a, st') ∧
      st'.heap.node a = some ⟨⟨t, v⟩, previous⟩ ∧ st'.Frees free' ∧ (a :: addresses free').Nodup ∧
      Moves st.heap st'.heap (addresses free) (a :: addresses free') := by
  rcases free with _ | ⟨⟨a, r⟩, free⟩
  · have hhead : st.pool.head = none := hf.seg
    refine ⟨st.heap.size, { st with heap := st.heap.alloc ⟨⟨t, v⟩, previous⟩ }, [], ?_, Heap.alloc_self _ _,
      ⟨hf.seg.alloc _, hf.last⟩, List.nodup_singleton _, Moves.alloc _ _ _⟩
    unfold Records.createElement
    rw [hhead]
  · obtain ⟨hhead, next, hnode, hrest⟩ := hf.seg
    obtain ⟨ha, hd'⟩ := List.nodup_cons.mp hd
    let last := if next.isNone then none else st.pool.last
    refine ⟨a, ⟨st.heap.modify a fun _ => ⟨⟨t, v⟩, previous⟩, next, last⟩, free, ?_, Heap.modify_self hnode _,
      ⟨hrest.modify_of_not_mem ha _, ?_⟩, hd, Moves.modify List.mem_cons_self _⟩
    · unfold Records.createElement
      rw [hhead]
      simp only [hnode, Option.bind_eq_bind, Option.bind_some]
      rfl
    · show last = _
      rcases free with _ | ⟨x, free⟩
      · have hnext : next = none := hrest
        simp only [last, hnext, Option.isNone_none, if_true]
        rfl
      · have hnext : next = some x.1 := hrest.start_eq
        simp only [last, hnext, hf.last, Option.isNone_some, Bool.false_eq_true, if_false]
        rfl

theorem Frees.reuseMemory (hf : st.Frees free) {x : Nat × HistoryRecord V} {t : Option Nat}
    (hc : Seg st.heap (some x.1) (x :: chain) t) (hd : (addresses (free ++ x :: chain)).Nodup) :
    (st.reuseMemory x.1 (lastAddress x.1 chain)).Frees (free ++ x :: chain) ∧
      Moves st.heap (st.reuseMemory x.1 (lastAddress x.1 chain)).heap (addresses (free ++ x :: chain))
        (addresses (free ++ x :: chain)) := by
  have htail := lastAddress_mem 0 (List.cons_ne_nil x chain)
  have hown : lastAddress x.1 chain ∈ addresses (free ++ x :: chain) := by
    rw [addresses_append]
    exact List.mem_append_right _ htail
  obtain ⟨hdf, hdc, hdisj⟩ := List.nodup_append.mp (addresses_append free _ ▸ hd)
  rcases free with _ | ⟨y, free⟩
  · have hlast : st.pool.last = none := hf.last
    simp only [Records.reuseMemory, hlast]
    exact ⟨⟨hc.relink hdc none, rfl⟩, Moves.modify hown _⟩
  · -- the pool's last node is linked to the chain, then the chain's last node is cut off
    have hlast : st.pool.last = some (lastAddress y.1 free) := hf.last
    have hend := lastAddress_mem 0 (List.cons_ne_nil y free)
    have hpool := hf.seg.relink hdf (some x.1)
    have hchain := hc.modify_of_not_mem (fun hmem => hdisj _ hend _ hmem rfl)
      fun n => { n with previous := some x.1 }
    have hall := Seg.append_iff.mpr ⟨_, hpool, hchain⟩
    have hlastAll : lastAddress y.1 (free ++ x :: chain) = lastAddress x.1 chain := lastAddress_append y.1 free _
    simp only [Records.reuseMemory, hlast]
    refine ⟨⟨?_, congrArg some hlastAll.symm⟩, (Moves.modify ?_ _).trans (Moves.modify hown _)⟩
    · rw [← hlastAll]
      exact hall.relink hd none
    · rw [addresses_append]
      exact List.mem_append_left _ hend

end Records

/-! ## An element holds its history -/

/-- The links `p` hold the history `e` in the nodes `nodes`: the records since the last commit, the
committed one (written under an id up to `bound`) and the initial one. -/
structure ElementWithHistory.Represents (p : ElementWithHistory) (bound : Nat) (h : Heap (HistoryRecord V))
    (e : Element V) (nodes : List (Nat × HistoryRecord V)) : Prop where
  seg : Seg h (some p.head) nodes none
  parts : ∃ recent commits, nodes = recent ++ commits ++ [(p.initial, ⟨0, e.initial⟩)] ∧
    recent.map Prod.snd = e.recent ∧ p.first = lastAddress p.initial (recent ++ commits) ∧
    (e.committed = none ∧ commits = [] ∧ p.committed = p.initial ∨
      ∃ v t, e.committed = some v ∧ commits = [(p.committed, ⟨t, v⟩)] ∧ t ≤ bound)

/-- An element and the pool, over different nodes. -/
structure Local (bound : Nat) (st : Records V) (p : ElementWithHistory) (e : Element V)
    (nodes free : List (Nat × HistoryRecord V)) : Prop where
  element : p.Represents bound st.heap e nodes
  frees : st.Frees free
  nodup : (addresses (nodes ++ free)).Nodup

namespace ElementWithHistory.Represents

variable {p : ElementWithHistory} {bound : Nat} {h h' : Heap (HistoryRecord V)} {e : Element V}
  {nodes : List (Nat × HistoryRecord V)}

theorem mono (hp : p.Represents bound h e nodes) {bound' : Nat} (hb : bound ≤ bound') :
    p.Represents bound' h e nodes := by
  obtain ⟨recent, commits, hnodes, hrecent, hfirst, hcommits⟩ := hp.parts
  refine ⟨hp.seg, recent, commits, hnodes, hrecent, hfirst, ?_⟩
  rcases hcommits with hcommits | ⟨v, t, hv, hc, ht⟩
  · exact .inl hcommits
  · exact .inr ⟨v, t, hv, hc, ht.trans hb⟩

theorem congr (hp : p.Represents bound h e nodes) (hh : ∀ a ∈ addresses nodes, h'.node a = h.node a) :
    p.Represents bound h' e nodes :=
  ⟨hp.seg.congr hh, hp.parts⟩

/-- The three values that a reader of the element sees. -/
theorem head_node (hp : p.Represents bound h e nodes) :
    ∃ n, h.node p.head = some n ∧ n.item.value = e.current ∧
      (e.recent = [] → n.item.touch ≤ bound) ∧ ∀ r rs, e.recent = r :: rs → n.item = r := by
  obtain ⟨recent, commits, hnodes, hrecent, -, hcommits⟩ := hp.parts
  have hseg := hp.seg
  rw [hnodes] at hseg
  rcases recent with _ | ⟨x, recent⟩
  · have hnil : e.recent = [] := hrecent.symm
    have hcur : e.current = e.base := by rw [Element.current, hnil]; rfl
    rcases hcommits with ⟨hnone, rfl, -⟩ | ⟨v, t, hv, rfl, ht⟩
    · obtain ⟨hhead, q, hq, -⟩ := hseg
      rw [← Option.some.inj hhead] at hq
      refine ⟨_, hq, ?_, fun _ => Nat.zero_le _, fun r rs hr => by rw [hnil] at hr; cases hr⟩
      rw [hcur, Element.base, hnone, Option.getD_none]
    · obtain ⟨hhead, q, hq, -⟩ := hseg
      rw [← Option.some.inj hhead] at hq
      refine ⟨_, hq, ?_, fun _ => ht, fun r rs hr => by rw [hnil] at hr; cases hr⟩
      rw [hcur, Element.base, hv, Option.getD_some]
  · obtain ⟨hhead, q, hq, -⟩ := hseg
    rw [← Option.some.inj hhead] at hq
    have hcons : e.recent = x.2 :: recent.map Prod.snd := hrecent.symm
    refine ⟨_, hq, ?_, fun hnil => ?_, fun r rs hr => ?_⟩
    · rw [Element.current, hcons]
      rfl
    · rw [hcons] at hnil
      cases hnil
    · rw [hcons] at hr
      cases hr
      rfl

theorem initial_node (hp : p.Represents bound h e nodes) :
    ∃ n, h.node p.initial = some n ∧ n.item.value = e.initial := by
  obtain ⟨recent, commits, hnodes, -⟩ := hp.parts
  obtain ⟨q, hq⟩ := hp.seg.node_of_mem (x := (p.initial, ⟨0, e.initial⟩)) (by simp [hnodes])
  exact ⟨_, hq, rfl⟩

theorem committed_node (hp : p.Represents bound h e nodes) :
    ∃ n, h.node p.committed = some n ∧ n.item.value = e.base := by
  obtain ⟨recent, commits, hnodes, -, -, hcommits⟩ := hp.parts
  rcases hcommits with ⟨hnone, -, hcommitted⟩ | ⟨v, t, hv, rfl, -⟩
  · rw [hcommitted, Element.base, hnone]
    exact hp.initial_node
  · obtain ⟨q, hq⟩ := hp.seg.node_of_mem (x := (p.committed, ⟨t, v⟩)) (by simp [hnodes])
    exact ⟨_, hq, by rw [Element.base, hv, Option.getD_some]⟩

end ElementWithHistory.Represents

/-! ### What the operations on an element do -/

namespace Local

variable {p : ElementWithHistory} {bound s : Nat} {st : Records V} {e : Element V}
  {nodes free : List (Nat × HistoryRecord V)}

variable {x y : Nat × HistoryRecord V} {removed rest : List (Nat × HistoryRecord V)} {r : HistoryRecord V}
    {rs : List (HistoryRecord V)}

/-- The walk of `rollback` ends at the last of the records newer than `s`. -/
theorem firstRemoved_eq {h : Heap (HistoryRecord V)} {t : Option Nat}
    (hseg : Seg h (some x.1) (x :: removed ++ y :: rest) t) (hremoved : ∀ z ∈ removed, s < z.2.touch)
    (hy : y.2.touch ≤ s) {fuel : Nat} (hfuel : removed.length < fuel) :
    firstRemoved h s fuel x.1 = some (lastAddress x.1 removed) := by
  induction removed generalizing x fuel with
  | nil =>
    obtain ⟨fuel, rfl⟩ := Nat.exists_eq_succ_of_ne_zero (Nat.ne_of_gt hfuel)
    obtain ⟨-, q, hq, hq', q', hy', -⟩ := hseg
    simp only [firstRemoved, hq, hq', hy', Option.bind_eq_bind, Option.bind_some, hy, if_true]
    rfl
  | cons z removed ih =>
    obtain ⟨fuel, rfl⟩ := Nat.exists_eq_succ_of_ne_zero (Nat.ne_of_gt (Nat.lt_of_le_of_lt (Nat.zero_le _) hfuel))
    obtain ⟨-, q, hq, hq', q', hz, hrest⟩ := hseg
    have hnot : ¬z.2.touch ≤ s := Nat.not_le.mpr (hremoved z List.mem_cons_self)
    simp only [firstRemoved, hq, hq', hz, Option.bind_eq_bind, Option.bind_some, hnot, if_false]
    refine ih ⟨rfl, q', hz, hrest⟩ (fun w hw => hremoved w (List.mem_cons_of_mem _ hw)) ?_
    exact Nat.lt_of_succ_lt_succ hfuel

theorem kept_eq_cons (hs : bound ≤ s) {kept commits : List (Nat × HistoryRecord V)}
    (hkept : ∀ y l, kept = y :: l → y.2.touch ≤ s)
    (hcommits : e.committed = none ∧ commits = [] ∧ p.committed = p.initial ∨
      ∃ v t, e.committed = some v ∧ commits = [(p.committed, ⟨t, v⟩)] ∧ t ≤ bound) :
    ∃ y rest, kept ++ commits ++ [(p.initial, ⟨0, e.initial⟩)] = y :: rest ∧ y.2.touch ≤ s := by
  rcases kept with _ | ⟨y, kept⟩
  · rcases hcommits with ⟨-, rfl, -⟩ | ⟨v, t, -, rfl, ht⟩
    · exact ⟨(p.initial, ⟨0, e.initial⟩), [], rfl, Nat.zero_le _⟩
    · exact ⟨(p.committed, ⟨t, v⟩), [(p.initial, ⟨0, e.initial⟩)], rfl, ht.trans hs⟩
  · exact ⟨y, kept ++ commits ++ [(p.initial, ⟨0, e.initial⟩)], by simp, hkept y kept rfl⟩

/-- The link to the first record after the initial one, when the records `x :: removed` are cut off. -/
theorem first_eq {i : Nat} {older : List (Nat × HistoryRecord V)} (hrest : older ++ [(i, r)] = y :: rest)
    (hd : (addresses (x :: removed ++ older)).Nodup) :
    (if lastAddress x.1 removed = lastAddress i (x :: removed ++ older) then y.1
      else lastAddress i (x :: removed ++ older)) = lastAddress i older := by
  rcases older with _ | ⟨z, older⟩
  · cases hrest
    rw [List.append_nil]
    exact if_pos rfl
  · rw [lastAddress_append]
    refine if_neg fun heq => ?_
    rw [addresses_append] at hd
    refine (List.nodup_append.mp hd).2.2 _ (lastAddress_mem 0 (List.cons_ne_nil x removed)) _ ?_ heq
    exact lastAddress_mem 0 (List.cons_ne_nil z older)

theorem exists_newer_kept {recent : List (Nat × HistoryRecord V)} (hrecent : recent.map Prod.snd = e.recent) :
    ∃ newer kept, recent = newer ++ kept ∧ (∀ z ∈ newer, s < z.2.touch) ∧
      (∀ y l, kept = y :: l → y.2.touch ≤ s) ∧ kept.map Prod.snd = (e.rollback s).recent := by
  refine ⟨recent.takeWhile fun x => decide (s < x.2.touch), recent.dropWhile fun x => decide (s < x.2.touch),
    List.takeWhile_append_dropWhile.symm, ?_, ?_, ?_⟩
  · intro z hz
    simpa using List.mem_takeWhile_imp hz
  · intro y l hyl
    have hhead := List.head?_dropWhile_not (fun x : Nat × HistoryRecord V => decide (s < x.2.touch)) recent
    rw [hyl] at hhead
    simpa using hhead
  · show _ = e.recent.dropWhile _
    rw [← hrecent, List.dropWhile_map]
    rfl

theorem rollback (hl : Local bound st p e nodes free) (hs : bound ≤ s) :
    ∃ p' st' nodes' free', p.rollback s st = some (p', st') ∧
      Local bound st' p' (e.rollback s) nodes' free' ∧
      Moves st.heap st'.heap (addresses (nodes ++ free)) (addresses (nodes' ++ free')) := by
  obtain ⟨recent, commits, hnodes, hrecent, hfirst, hcommits⟩ := hl.element.parts
  obtain ⟨newer, kept, rfl, hnewer, hkept, hback⟩ := exists_newer_kept (s := s) hrecent
  obtain ⟨y, rest, hrest, hy⟩ := kept_eq_cons (e := e) (p := p) hs hkept hcommits
  have hseg := hl.element.seg
  have hd := hl.nodup
  rcases newer with _ | ⟨x, removed⟩
  · -- the head record is old enough
    rw [List.nil_append] at hnodes hfirst
    rw [hnodes, hrest] at hseg
    obtain ⟨hhead, q, hq, -⟩ := hseg
    rw [← Option.some.inj hhead] at hq
    refine ⟨p, st, nodes, free, ?_, ⟨⟨hl.element.seg, kept, commits, hnodes, hback, hfirst, hcommits⟩,
      hl.frees, hd⟩, Moves.refl _ _⟩
    simp [ElementWithHistory.rollback, hq, hy]
  · rw [List.append_assoc] at hfirst
    rw [List.append_assoc, List.append_assoc, ← List.append_assoc _ commits, hrest] at hnodes
    subst hnodes
    have hhead : p.head = x.1 := Option.some.inj hseg.1
    rw [hhead] at hseg
    obtain ⟨hdn, -, hdisj⟩ := List.nodup_append.mp (addresses_append _ free ▸ hd)
    have hlen := hseg.length_le hdn
    rw [List.length_append, List.length_cons] at hlen
    have hwalk : firstRemoved st.heap s st.heap.size x.1 = some (lastAddress x.1 removed) :=
      firstRemoved_eq hseg (fun z hz => hnewer z (List.mem_cons_of_mem _ hz)) hy (by omega)
    obtain ⟨m, hcut, hkeep⟩ := Seg.append_iff.mp hseg
    obtain rfl : m = some y.1 := hkeep.start_eq
    obtain ⟨q, hq, -⟩ := hcut.2
    obtain ⟨r, hr⟩ := hcut.last_node
    -- the removed records are cut off, then appended to the pool
    obtain ⟨hdc, -, -⟩ := List.nodup_append.mp (addresses_append (x :: removed) _ ▸ hdn)
    have htail := lastAddress_mem 0 (List.cons_ne_nil x removed)
    have hfrees : Records.Frees
        ⟨st.heap.modify (lastAddress x.1 removed) fun n => { n with previous := none }, st.pool⟩ free := by
      refine ⟨hl.frees.seg.modify_of_not_mem (fun hmem => hdisj _ ?_ _ hmem rfl) _, hl.frees.last⟩
      rw [addresses_append]
      exact List.mem_append_left _ htail
    have hperm : (addresses (y :: rest ++ (free ++ x :: removed))).Perm
        (addresses (x :: removed ++ y :: rest ++ free)) := by
      refine List.perm_iff_count.mpr fun a => ?_
      simp only [addresses_append, List.count_append]
      omega
    have hd' := hperm.nodup_iff.mpr hd
    obtain ⟨-, hdpool, hdisj'⟩ := List.nodup_append.mp (addresses_append (y :: rest) _ ▸ hd')
    obtain ⟨hfrees', hmoves⟩ := hfrees.reuseMemory (hcut.relink hdc none) hdpool
    have hown : lastAddress x.1 removed ∈ addresses (free ++ x :: removed) := by
      rw [addresses_append]
      exact List.mem_append_right _ htail
    have hmoves' := (Moves.modify hown _).trans hmoves
    refine ⟨{ p with first := if lastAddress x.1 removed = p.first then y.1 else p.first, head := y.1 }, _,
      y :: rest, free ++ x :: removed, ?_, ⟨⟨hmoves'.seg hkeep fun a ha hown => hdisj' a ha a hown rfl,
      kept, commits, hrest.symm, hback, ?_, hcommits⟩, hfrees', hd'⟩, hmoves'.mono ?_ ?_⟩
    · have hnot : ¬x.2.touch ≤ s := Nat.not_le.mpr (hnewer x List.mem_cons_self)
      simp [ElementWithHistory.rollback, hhead, hq, hwalk, hr, hnot]
    · show (if _ = p.first then y.1 else p.first) = _
      rw [hfirst]
      refine first_eq hrest ?_
      rw [← hrest, ← List.append_assoc, addresses_append] at hdn
      exact (List.nodup_append.mp hdn).1
    · intro a ha
      refine hperm.subset ?_
      rw [addresses_append]
      exact List.mem_append_right _ ha
    · intro a ha
      exact .inr (hperm.subset ha)

theorem commit_eq_of_cons (h : e.recent = r :: rs) :
    e.commit = { e with committed := some r.value, recent := [] } := by
  unfold Element.commit
  rw [h]

theorem commit_short (h : p.head = p.initial ∨ p.head = p.first) :
    p.commit st = some ({ p with committed := p.head }, st) := by
  simp only [ElementWithHistory.commit]
  split
  · rfl
  · rename_i hinitial
    exact if_pos (h.resolve_left hinitial)

theorem commit (hl : Local bound st p e nodes free) (htouch : ∀ r ∈ e.recent, r.touch ≤ bound) :
    ∃ p' st' nodes' free', p.commit st = some (p', st') ∧ Local bound st' p' e.commit nodes' free' ∧
      Moves st.heap st'.heap (addresses (nodes ++ free)) (addresses (nodes' ++ free')) := by
  obtain ⟨recent, commits, rfl, hrecent, hfirst, hcommits⟩ := hl.element.parts
  have hseg := hl.element.seg
  have hd := hl.nodup
  rcases recent with _ | ⟨x, recent⟩
  · -- nothing was written since the last commit
    have hcommit : e.commit = e := Element.commit_of_recent_nil hrecent.symm
    have hsame : p.head = p.committed ∧ (p.head = p.initial ∨ p.head = p.first) := by
      rcases hcommits with ⟨-, rfl, hcommitted⟩ | ⟨v, t, -, rfl, -⟩
      · have hhead := Option.some.inj hseg.1
        exact ⟨hhead.trans hcommitted.symm, .inl hhead⟩
      · have hhead := Option.some.inj hseg.1
        exact ⟨hhead, .inr (hhead.trans hfirst.symm)⟩
    have hp : { p with committed := p.head } = p := congrArg (fun a => { p with committed := a }) hsame.1
    refine ⟨_, st, _, free, commit_short hsame.2, ⟨?_, hl.frees, hd⟩, Moves.refl _ _⟩
    rw [hcommit, hp]
    exact hl.element
  · have hcons : e.recent = x.2 :: recent.map Prod.snd := hrecent.symm
    have hx := htouch x.2 (hcons ▸ List.mem_cons_self)
    have hhead : p.head = x.1 := Option.some.inj hseg.1
    rw [commit_eq_of_cons hcons]
    rcases hmid : recent ++ commits with _ | ⟨z, mid⟩
    · obtain ⟨rfl, rfl⟩ := List.append_eq_nil_iff.mp hmid
      refine ⟨_, st, _, free, commit_short (.inr (hhead.trans hfirst.symm)), ⟨⟨hseg, [], [x], rfl, rfl, hfirst, ?_⟩,
        hl.frees, hd⟩, Moves.refl _ _⟩
      exact .inr ⟨x.2.value, x.2.touch, rfl, by rw [hhead], hx⟩
    · -- the records between the head and the initial one are cut off
      rw [List.cons_append, hmid] at hfirst hseg hd ⊢
      have hperm : (addresses ([x] ++ [(p.initial, ⟨0, e.initial⟩)] ++ (free ++ z :: mid))).Perm
          (addresses (x :: z :: mid ++ [(p.initial, ⟨0, e.initial⟩)] ++ free)) := by
        refine List.perm_iff_count.mpr fun a => ?_
        simp only [addresses_append, addresses_cons, addresses_nil, List.count_append, List.count_cons, List.count_nil]
        omega
      have hd' := hperm.nodup_iff.mpr hd
      obtain ⟨hdkeep, hdpool, hdisj⟩ := List.nodup_append.mp (addresses_append _ (free ++ z :: mid) ▸ hd')
      have hxpool : x.1 ∉ addresses (free ++ z :: mid) := fun hmem => hdisj x.1 (by simp) _ hmem rfl
      rw [addresses_append] at hxpool
      have hxinitial : x.1 ≠ p.initial := by
        rintro heq
        exact (List.nodup_append.mp (addresses_append [x] _ ▸ hdkeep)).2.2 x.1 (by simp) p.initial (by simp) heq
      obtain ⟨-, q, hq, hrest⟩ := hseg
      obtain rfl : q = some z.1 := hrest.start_eq
      obtain ⟨m, hcut, hm, q', hinitial, hend⟩ := Seg.append_iff.mp hrest
      subst hm
      have hlast := lastAddress_mem 0 (List.cons_ne_nil z mid)
      have hxfirst : x.1 ≠ p.first := by
        rw [hfirst]
        rintro heq
        exact hxpool (List.mem_append_right _ (heq ▸ hlast))
      have hchain := hcut.modify_of_not_mem (fun hmem => hxpool (List.mem_append_right _ hmem))
        fun n => { n with previous := some p.initial }
      have hfrees : Records.Frees ⟨st.heap.modify x.1 fun n => { n with previous := some p.initial }, st.pool⟩ free :=
        ⟨hl.frees.seg.modify_of_not_mem (fun hmem => hxpool (List.mem_append_left _ hmem)) _, hl.frees.last⟩
      obtain ⟨hfrees', hmoves⟩ := hfrees.reuseMemory hchain hdpool
      have hkeep : Seg (st.heap.modify x.1 fun n => { n with previous := some p.initial }) (some x.1)
          ([x] ++ [(p.initial, ⟨0, e.initial⟩)]) none :=
        ⟨rfl, some p.initial, Heap.modify_self hq _, rfl, q',
          (Heap.modify_of_ne (Ne.symm hxinitial) _).trans hinitial, hend⟩
      refine ⟨{ p with committed := p.head, first := p.head }, _, [x] ++ [(p.initial, ⟨0, e.initial⟩)], free ++ z :: mid,
        ?_, ⟨⟨?_, [], [x], rfl, rfl, hhead, .inr ⟨x.2.value, x.2.touch, rfl, by rw [hhead], hx⟩⟩, hfrees', hd'⟩, ?_⟩
      · simp only [ElementWithHistory.commit, hhead, hxinitial, hxfirst, hq, if_false, Option.bind_eq_bind,
          Option.bind_some]
        rw [hfirst]
        rfl
      · show Seg _ (some p.head) _ _
        rw [hhead]
        exact hmoves.seg hkeep fun a ha hown => hdisj a ha a hown rfl
      · refine (Moves.modify ?_ _).trans (hmoves.mono ?_ ?_)
        · simp
        · intro a ha
          refine hperm.subset ?_
          rw [addresses_append]
          exact List.mem_append_right _ ha
        · intro a ha
          exact .inr (hperm.subset ha)

theorem new (bound : Nat) (hf : st.Frees free) (hd : (addresses free).Nodup) (v : V) :
    ∃ p' st' nodes' free', ElementWithHistory.new v st = some (p', st') ∧
      Local bound st' p' (Element.new v) nodes' free' ∧
      Moves st.heap st'.heap (addresses free) (addresses (nodes' ++ free')) := by
  obtain ⟨a, st', free', hcreate, hnode, hfrees, hnodup, hmoves⟩ := hf.createElement hd v none 0
  refine ⟨⟨a, a, a, a⟩, st', [(a, ⟨0, v⟩)], free', ?_, ⟨⟨⟨rfl, none, hnode, rfl⟩, [], [], rfl, rfl, rfl,
    .inl ⟨rfl, rfl, rfl⟩⟩, hfrees, hnodup⟩, hmoves⟩
  simp [ElementWithHistory.new, hcreate]

theorem modifyHead (hl : Local bound st p e nodes free) (hr : e.recent = r :: rs) (v : V) :
    ∃ nodes', Local bound { st with heap := st.heap.modify p.head fun n => { n with item.value := v } } p
        { e with recent := ⟨r.touch, v⟩ :: rs } nodes' free ∧
      Moves st.heap (st.heap.modify p.head fun n => { n with item.value := v }) (addresses (nodes ++ free))
        (addresses (nodes' ++ free)) := by
  obtain ⟨recent, commits, rfl, hrecent, hfirst, hcommits⟩ := hl.element.parts
  rcases recent with _ | ⟨x, recent⟩
  · rw [hr] at hrecent
    cases hrecent
  · rw [hr, List.map_cons] at hrecent
    obtain ⟨rfl, hrest⟩ := List.cons.inj hrecent
    obtain ⟨hhead, q, hq, htail⟩ := hl.element.seg
    have hhead := Option.some.inj hhead
    have hd := hl.nodup
    have hx : x.1 ∉ addresses (recent ++ commits ++ [(p.initial, ⟨0, e.initial⟩)]) ++ addresses free := by
      rw [← addresses_append]
      exact (List.nodup_cons.mp hd).1
    rw [hhead]
    refine ⟨(x.1, ⟨x.2.touch, v⟩) :: recent ++ commits ++ [(p.initial, ⟨0, e.initial⟩)], ⟨⟨?_,
      (x.1, ⟨x.2.touch, v⟩) :: recent, commits, rfl, ?_, hfirst, hcommits⟩, ⟨?_, hl.frees.last⟩, hd⟩,
      Moves.modify List.mem_cons_self _⟩
    · exact ⟨congrArg some hhead, q, Heap.modify_self hq _,
        htail.modify_of_not_mem (fun hmem => hx (List.mem_append_left _ hmem)) _⟩
    · rw [List.map_cons, hrest]
    · exact hl.frees.seg.modify_of_not_mem (fun hmem => hx (List.mem_append_right _ hmem)) _

theorem addNewRecord_first {updates : List (Nat × HistoryRecord V)} (hfirst : p.first = lastAddress p.initial updates)
    (hinitial : p.initial ∉ addresses updates) (x : Nat × HistoryRecord V) :
    (p.addNewRecord x.1).first = lastAddress p.initial (x :: updates) := by
  unfold ElementWithHistory.addNewRecord
  rcases updates with _ | ⟨y, updates⟩
  · exact if_pos hfirst.symm
  · rw [hfirst]
    refine if_neg fun heq => hinitial ?_
    rw [heq]
    exact lastAddress_mem _ (List.cons_ne_nil y updates)

/-- A new record takes a node of its own; without being linked it changes nothing. -/
theorem createElement (hl : Local bound st p e nodes free) (w : V) (t : Nat) :
    ∃ a st' free', st.createElement w (some p.head) t = some (a, st') ∧
      Local bound st' p e nodes free' ∧
      Moves st.heap st'.heap (addresses (nodes ++ free)) (addresses (nodes ++ free')) ∧
      ∀ v, Local bound { st' with heap := st'.heap.modify a fun n => { n with item.value := v } } (p.addNewRecord a)
          { e with recent := ⟨t, v⟩ :: e.recent } ((a, ⟨t, v⟩) :: nodes) free' ∧
        Moves st.heap (st'.heap.modify a fun n => { n with item.value := v }) (addresses (nodes ++ free))
          (addresses ((a, ⟨t, v⟩) :: nodes ++ free')) := by
  obtain ⟨hdn, hdf, hdisj⟩ := List.nodup_append.mp (addresses_append nodes free ▸ hl.nodup)
  obtain ⟨a, st', free', hcreate, hnode, hfrees, hnodup, hmoves⟩ := hl.frees.createElement hdf w (some p.head) t
  obtain ⟨recent, commits, hnodes, hrecent, hfirst, hcommits⟩ := hl.element.parts
  have hout : ∀ b ∈ addresses nodes, b ∉ a :: addresses free' := by
    intro b hb hmem
    rcases hmoves.owned b hmem with hfree | hnew
    · exact hdisj b hb b hfree rfl
    · exact Nat.not_lt.mpr hnew (hl.element.seg.lt_size hb)
  have hseg := hmoves.seg hl.element.seg fun b hb hfree => hdisj b hb b hfree rfl
  obtain ⟨ha, hnodup'⟩ := List.nodup_cons.mp hnodup
  have hd : (addresses nodes ++ addresses free').Nodup :=
    List.nodup_append.mpr ⟨hdn, hnodup', fun b hb c hc hbc => hout b hb (List.mem_cons_of_mem _ (hbc ▸ hc))⟩
  have ha' : a ∉ addresses nodes := fun hmem => hout a hmem List.mem_cons_self
  have hmoves' : Moves st.heap st'.heap (addresses nodes ++ addresses free) (a :: (addresses nodes ++ addresses free')) := by
    refine hmoves.mono (fun b hb => List.mem_append_right _ hb) fun b hb => ?_
    rcases List.mem_cons.mp hb with rfl | hb
    · exact .inl List.mem_cons_self
    · exact (List.mem_append.mp hb).symm.imp (List.mem_cons_of_mem _) (List.mem_append_left _)
  simp only [addresses_append, addresses_cons, List.cons_append]
  refine ⟨a, st', free', hcreate, ⟨⟨hseg, hl.element.parts⟩, hfrees, addresses_append nodes free' ▸ hd⟩,
    hmoves'.mono (fun _ hb => hb) (fun b hb => .inl (List.mem_cons_of_mem _ hb)), fun v => ⟨⟨⟨⟨rfl, some p.head, ?_, ?_⟩,
      (a, ⟨t, v⟩) :: recent, commits, ?_, ?_, ?_, hcommits⟩, ⟨?_, hfrees.last⟩, ?_⟩, ?_⟩⟩
  · exact Heap.modify_self hnode _
  · exact hseg.modify_of_not_mem ha' _
  · rw [hnodes]
    rfl
  · rw [List.map_cons, hrecent]
  · refine addNewRecord_first hfirst ?_ (a, ⟨t, v⟩)
    rw [hnodes] at hdn
    exact not_mem_of_nodup_concat hdn
  · exact hfrees.seg.modify_of_not_mem ha _
  · rw [List.cons_append, addresses_cons, addresses_append]
    exact List.nodup_cons.mpr ⟨fun hmem => (List.mem_append.mp hmem).elim ha' ha, hd⟩
  · exact hmoves'.trans (Moves.modify List.mem_cons_self _)

end Local

/-! ## All elements and the pool -/

/-- The links of every key hold its element in the nodes `nodes k`, the pool holds the nodes `free`, and
no node is used twice. -/
structure Holds (bound : Nat) (btree : K → Option ElementWithHistory) (st : Records V)
    (elems : K → Option (Element V)) (nodes : K → List (Nat × HistoryRecord V))
    (free : List (Nat × HistoryRecord V)) : Prop where
  absent : ∀ k, btree k = none → elems k = none ∧ nodes k = []
  present : ∀ k p, btree k = some p → ∃ e, elems k = some e ∧ p.Represents bound st.heap e (nodes k)
  frees : st.Frees free
  nodup : ∀ k, (addresses (nodes k ++ free)).Nodup
  disjoint : ∀ k k', k ≠ k' → ∀ a ∈ addresses (nodes k), a ∉ addresses (nodes k')

namespace Holds

variable {bound : Nat} {btree : K → Option ElementWithHistory} {st : Records V} {elems : K → Option (Element V)}
  {nodes : K → List (Nat × HistoryRecord V)} {free : List (Nat × HistoryRecord V)}

variable {k : K} {e : Element V}

theorem exists_local (h : Holds bound btree st elems nodes free) (he : elems k = some e) :
    ∃ p, btree k = some p ∧ Local bound st p e (nodes k) free := by
  rcases hp : btree k with _ | p
  · rw [(h.absent k hp).1] at he
    cases he
  · obtain ⟨e', he', hrep⟩ := h.present k p hp
    rw [he] at he'
    cases he'
    exact ⟨p, rfl, hrep, h.frees, h.nodup k⟩

theorem lt_size (h : Holds bound btree st elems nodes free) {a : Nat} (ha : a ∈ addresses (nodes k)) :
    a < st.heap.size := by
  rcases hp : btree k with _ | p
  · rw [(h.absent k hp).2] at ha
    cases ha
  · obtain ⟨e, -, hrep⟩ := h.present k p hp
    exact hrep.seg.lt_size ha

theorem mono (h : Holds bound btree st elems nodes free) {bound' : Nat} (hb : bound ≤ bound') :
    Holds bound' btree st elems nodes free := by
  refine ⟨h.absent, fun k p hp => ?_, h.frees, h.nodup, h.disjoint⟩
  obtain ⟨e, he, hrep⟩ := h.present k p hp
  exact ⟨e, he, hrep.mono hb⟩

theorem set [DecidableEq K] (h : Holds bound btree st elems nodes free) {st' : Records V} {p : ElementWithHistory}
    {nodes' free' : List (Nat × HistoryRecord V)} (hl : Local bound st' p e nodes' free')
    (hm : Moves st.heap st'.heap (addresses (nodes k ++ free)) (addresses (nodes' ++ free'))) :
    Holds bound (Function.update btree k (some p)) st' (Function.update elems k (some e))
      (Function.update nodes k nodes') free' := by
  have hkeep : ∀ k' ≠ k, ∀ a ∈ addresses (nodes k'), a ∉ addresses (nodes k ++ free) := by
    intro k' hk a ha hmem
    rw [addresses_append] at hmem
    rcases List.mem_append.mp hmem with hmem | hmem
    · exact h.disjoint k' k hk a ha hmem
    · exact (List.nodup_append.mp (addresses_append _ free ▸ h.nodup k')).2.2 a ha a hmem rfl
  have hout : ∀ k' ≠ k, ∀ a ∈ addresses (nodes k'), a ∉ addresses nodes' ++ addresses free' := by
    intro k' hk a ha hmem
    rw [← addresses_append] at hmem
    rcases hm.owned a hmem with hold | hnew
    · exact hkeep k' hk a ha hold
    · exact Nat.not_lt.mpr hnew (h.lt_size ha)
  refine ⟨?_, ?_, hl.frees, ?_, ?_⟩
  · intro k' hk'
    by_cases hk : k' = k
    · rw [hk, Function.update_self] at hk'
      cases hk'
    · rw [Function.update_of_ne hk] at hk' ⊢
      rw [Function.update_of_ne hk]
      exact h.absent k' hk'
  · intro k' p' hk'
    by_cases hk : k' = k
    · rw [hk, Function.update_self] at hk' ⊢
      cases hk'
      exact ⟨e, rfl, by rw [Function.update_self]; exact hl.element⟩
    · rw [Function.update_of_ne hk] at hk' ⊢
      rw [Function.update_of_ne hk]
      obtain ⟨e', he', hrep⟩ := h.present k' p' hk'
      refine ⟨e', he', hrep.congr fun a ha => ?_⟩
      exact hm.unchanged a (h.lt_size ha) (hkeep k' hk a ha)
  · intro k'
    by_cases hk : k' = k
    · rw [hk, Function.update_self]
      exact hl.nodup
    · rw [Function.update_of_ne hk, addresses_append]
      have hd := List.nodup_append.mp (addresses_append _ free ▸ h.nodup k')
      have hd' := List.nodup_append.mp (addresses_append _ free' ▸ hl.nodup)
      refine List.nodup_append.mpr ⟨hd.1, hd'.2.1, fun a ha b hbm hab => ?_⟩
      exact hout k' hk a ha (List.mem_append_right _ (hab ▸ hbm))
  · intro k₁ k₂ hne a ha hmem
    by_cases h₁ : k₁ = k
    · have h₂ : k₂ ≠ k := fun h₂ => hne (h₁.trans h₂.symm)
      rw [h₁, Function.update_self] at ha
      rw [Function.update_of_ne h₂] at hmem
      exact hout k₂ h₂ a hmem (List.mem_append_left _ ha)
    · rw [Function.update_of_ne h₁] at ha
      by_cases h₂ : k₂ = k
      · rw [h₂, Function.update_self] at hmem
        exact hout k₁ h₁ a ha (List.mem_append_left _ hmem)
      · rw [Function.update_of_ne h₂] at hmem
        exact h.disjoint k₁ k₂ hne a ha hmem

end Holds

end ZkOs.HistoryNodes
