import Mathlib.Data.List.DropRight
import Mathlib.Data.List.Pairwise
import Mathlib.Logic.Function.Basic

/-!
# The history map: a key-value map whose elements can be rolled back to snapshots

* `Element` : the records of one key, `initial` ← `committed` ← `recent` (newest first);
* `HistoryMap` : the map with its snapshot ids and the list of pending updates; its invariant
  `Wf` is a field, so the early stop of `rollback` is justified by construction;
* `elems_rollback`, `elems_commit` : the loops over the pending list act on every element;
* `current`, `base` : the current and the committed values, with a default for keys not cached;
* `Extends` : what every run inside a frame guarantees to the frame's rollback handle.
-/

namespace ZkOs.History

/-- A value together with the snapshot id under which it was written. -/
structure HistoryRecord (V : Type*) where
  touch : Nat
  value : V

/-- The history of one key. `committed` is the record of the last commit (none while that is
the initial one), `recent` are the records since then. -/
structure Element (V : Type*) where
  initial : V
  committed : Option V
  recent : List (HistoryRecord V)

namespace Element

variable {V : Type*}

def new (v : V) : Element V := ⟨v, none, []⟩

/-- The committed value (`committed` in the source points to `initial` before any commit). -/
def base (e : Element V) : V := e.committed.getD e.initial

/-- The newest of a list of records, or the committed value. -/
def top (e : Element V) : List (HistoryRecord V) → V
  | [] => e.base
  | r :: _ => r.value

def current (e : Element V) : V := e.top e.recent

/-- Records written after snapshot `s` are dropped. The initial and the committed record are
never newer than a snapshot that may still be rolled back to. -/
def rollback (s : Nat) (e : Element V) : Element V :=
  { e with recent := e.recent.dropWhile fun r => decide (s < r.touch) }

/-- The value that a rollback to `s` brings back. -/
def valueAt (s : Nat) (e : Element V) : V := (e.rollback s).current

def commit (e : Element V) : Element V :=
  match e.recent with
  | [] => e
  | r :: _ => { e with committed := some r.value, recent := [] }

/-- A write under snapshot id `next`: in place when the head record is of this id. -/
def update (next : Nat) (f : V → V) (e : Element V) : Element V :=
  match e.recent with
  | [] => { e with recent := [⟨next, f e.base⟩] }
  | r :: rs =>
    if r.touch = next then { e with recent := ⟨next, f r.value⟩ :: rs }
    else { e with recent := ⟨next, f r.value⟩ :: r :: rs }

def mutateHead (f : V → V) (e : Element V) : Element V :=
  match e.recent with
  | [] => e
  | r :: rs => { e with recent := ⟨r.touch, f r.value⟩ :: rs }

/-- Initial and current value, if there is any record besides the initial one. -/
def initialAndLast (e : Element V) : Option (V × V) :=
  if e.recent.isEmpty && e.committed.isNone then none else some (e.initial, e.current)

@[simp] theorem new_recent (v : V) : (new v).recent = [] := rfl
@[simp] theorem new_initial (v : V) : (new v).initial = v := rfl
@[simp] theorem new_base (v : V) : (new v).base = v := rfl
@[simp] theorem new_current (v : V) : (new v).current = v := rfl
@[simp] theorem rollback_base (s : Nat) (e : Element V) : (e.rollback s).base = e.base := rfl
@[simp] theorem rollback_initial (s : Nat) (e : Element V) : (e.rollback s).initial = e.initial := rfl

theorem current_update (n : Nat) (f : V → V) (e : Element V) :
    (e.update n f).current = f e.current := by
  rcases e with ⟨i, c, _ | ⟨r, rs⟩⟩
  · rfl
  · by_cases h : r.touch = n <;> simp [update, current, top, h]

@[simp] theorem update_base (n : Nat) (f : V → V) (e : Element V) : (e.update n f).base = e.base := by
  rcases e with ⟨i, c, _ | ⟨r, rs⟩⟩
  · rfl
  · by_cases h : r.touch = n <;> simp [update, base, h]

@[simp] theorem update_initial (n : Nat) (f : V → V) (e : Element V) :
    (e.update n f).initial = e.initial := by
  rcases e with ⟨i, c, _ | ⟨r, rs⟩⟩
  · rfl
  · by_cases h : r.touch = n <;> simp [update, h]

variable {s n : Nat} {f : V → V} {e : Element V}

theorem rollback_update (h : s < n) (f : V → V) (e : Element V) :
    (e.update n f).rollback s = e.rollback s := by
  rcases e with ⟨i, c, _ | ⟨r, rs⟩⟩
  · simp [update, rollback, h]
  · by_cases hr : r.touch = n
    · simp [update, rollback, hr, h]
    · simp [update, rollback, hr, h]

/-- The snapshot ids of the records since the last commit. -/
def touches (e : Element V) : List Nat := e.recent.map (·.touch)

theorem mem_touches_update {t : Nat} : t ∈ (e.update n f).touches ↔ t = n ∨ t ∈ e.touches := by
  rcases e with ⟨i, c, _ | ⟨r, rs⟩⟩
  · simp [update, touches]
  · by_cases h : r.touch = n <;> simp [update, touches, h]

theorem touches_update_sorted (hs : e.touches.Pairwise fun t t' => t' < t) (hn : ∀ t ∈ e.touches, t ≤ n) :
    (e.update n f).touches.Pairwise fun t t' => t' < t := by
  rcases e with ⟨i, c, _ | ⟨r, rs⟩⟩
  · simp [update, touches]
  · by_cases h : r.touch = n
    · simpa [update, touches, h] using hs
    · -- the new id is above the head and the head is above the others
      have hlt : r.touch < n := Nat.lt_of_le_of_ne (hn r.touch List.mem_cons_self) h
      simp only [update, if_neg h]
      refine List.pairwise_cons.mpr ⟨fun t ht => ?_, hs⟩
      rcases List.mem_cons.mp ht with rfl | ht
      · exact hlt
      · exact Nat.lt_trans ((List.pairwise_cons.mp hs).1 t ht) hlt

theorem touches_mutateHead (f : V → V) (e : Element V) : (e.mutateHead f).touches = e.touches := by
  rcases e with ⟨i, c, _ | ⟨r, rs⟩⟩ <;> rfl

theorem commit_recent (e : Element V) : e.commit.recent = [] := by
  rcases e with ⟨i, c, _ | ⟨r, rs⟩⟩ <;> rfl

@[simp] theorem commit_current (e : Element V) : e.commit.current = e.current := by
  rcases e with ⟨i, c, _ | ⟨r, rs⟩⟩ <;> rfl

@[simp] theorem commit_initial (e : Element V) : e.commit.initial = e.initial := by
  rcases e with ⟨i, c, _ | ⟨r, rs⟩⟩ <;> rfl

theorem commit_base (e : Element V) : e.commit.base = e.current := by
  rcases e with ⟨i, c, _ | ⟨r, rs⟩⟩ <;> rfl

theorem commit_of_recent_nil (h : e.recent = []) : e.commit = e := by
  rcases e with ⟨i, c, _ | ⟨r, rs⟩⟩
  · rfl
  · cases h

theorem rollback_of_le (h : ∀ r ∈ e.recent, r.touch ≤ s) :
    e.rollback s = e := by
  rcases e with ⟨i, c, _ | ⟨r, rs⟩⟩
  · rfl
  · have hr := h r List.mem_cons_self
    simp [rollback, Nat.not_lt.mpr hr]

theorem rollback_rollback {s' : Nat} (h : s' ≤ s) (e : Element V) :
    (e.rollback s).rollback s' = e.rollback s' := by
  simp only [rollback, Element.mk.injEq, true_and]
  induction e.recent with
  | nil => rfl
  | cons r rs ih =>
    by_cases hr : s < r.touch
    · rw [List.dropWhile_cons_of_pos (by simpa using hr), ih,
        List.dropWhile_cons_of_pos (by simpa using Nat.lt_of_le_of_lt h hr)]
    · rw [List.dropWhile_cons_of_neg (by simpa using hr)]

end Element

/-! ## Lists sorted by their snapshot ids, newest first -/

section Sorted

variable {α : Type*} {t : α → Nat} {s : Nat} {l : List α} {a : α}

/-- A rollback stops early at the first id that is at most the snapshot's; so are all after it. -/
theorem mem_dropWhile_iff (hl : l.Pairwise fun a b => t b ≤ t a) :
    a ∈ l.dropWhile (fun b => decide (s < t b)) ↔ a ∈ l ∧ t a ≤ s := by
  induction l with
  | nil => simp
  | cons b l ih =>
    have hcons := List.pairwise_cons.mp hl
    by_cases hb : s < t b
    · rw [List.dropWhile_cons_of_pos (by simpa using hb), ih hcons.2, List.mem_cons]
      constructor
      · exact fun h => ⟨.inr h.1, h.2⟩
      · rintro ⟨rfl | ha, hs⟩
        · omega
        · exact ⟨ha, hs⟩
    · rw [List.dropWhile_cons_of_neg (by simpa using hb)]
      refine ⟨fun ha => ⟨ha, ?_⟩, And.left⟩
      rcases List.mem_cons.mp ha with rfl | ha
      · exact Nat.not_lt.mp hb
      · exact (hcons.1 a ha).trans (Nat.not_lt.mp hb)

end Sorted

/-! ## The map -/

section Map

variable {K V : Type*}

/-- What the source relies on when it stops early in `rollback` and when it collapses the
histories in `commit`: the pending list names exactly the records since the last commit, newest
first. -/
structure Wf (elems : K → Option (Element V)) (pending : List (K × Nat)) (next : Nat) : Prop where
  recent_pending : ∀ k e, elems k = some e → ∀ r ∈ e.recent, (k, r.touch) ∈ pending
  pending_recent : ∀ p ∈ pending, ∃ e, elems p.1 = some e ∧ ∃ r ∈ e.recent, r.touch = p.2
  pending_sorted : pending.Pairwise fun p q => q.2 ≤ p.2
  recent_sorted : ∀ k e, elems k = some e → e.recent.Pairwise fun r r' => r'.touch < r.touch
  pending_le : ∀ p ∈ pending, p.2 ≤ next

/-- The snapshot ids that an element, if there is one, contributes to the pending list. -/
def touchesAt (o : Option (Element V)) : List Nat := o.elim [] Element.touches

theorem touchesAt_rollback (s : Nat) (o : Option (Element V)) :
    touchesAt (o.map (Element.rollback s)) = (touchesAt o).dropWhile fun t => decide (s < t) := by
  rcases o with _ | e
  · rfl
  · show List.map _ (List.dropWhile _ e.recent) = List.dropWhile _ (List.map _ e.recent)
    rw [List.dropWhile_map]
    rfl

theorem touchesAt_commit (o : Option (Element V)) : touchesAt (o.map Element.commit) = [] := by
  rcases o with _ | ⟨i, c, _ | ⟨r, rs⟩⟩ <;> rfl

namespace Wf

variable {elems : K → Option (Element V)} {pending : List (K × Nat)} {next : Nat}

variable {k : K} {e : Element V}

theorem touch_le (h : Wf elems pending next) (he : elems k = some e) {r : HistoryRecord V} (hr : r ∈ e.recent)
    : r.touch ≤ next :=
  h.pending_le _ (h.recent_pending k e he r hr)

theorem mono (h : Wf elems pending next) {n : Nat} (hn : next ≤ n) : Wf elems pending n :=
  ⟨h.recent_pending, h.pending_recent, h.pending_sorted, h.recent_sorted,
    fun p hp => Nat.le_trans (h.pending_le p hp) hn⟩

theorem mem_pending (h : Wf elems pending next) (p : K × Nat) : p ∈ pending ↔ p.2 ∈ touchesAt (elems p.1) := by
  constructor
  · intro hp
    obtain ⟨e, he, r, hr, ht⟩ := h.pending_recent p hp
    rw [he, ← ht]
    exact List.mem_map_of_mem hr
  · intro hp
    rcases he : elems p.1 with _ | e <;> rw [he] at hp
    · cases hp
    · obtain ⟨r, hr, ht⟩ := List.mem_map.mp hp
      have hmem := h.recent_pending p.1 e he r hr
      rwa [ht] at hmem

theorem touches_sorted (h : Wf elems pending next) (k : K) : (touchesAt (elems k)).Pairwise fun t t' => t' < t := by
  rcases he : elems k with _ | e
  · exact .nil
  · exact List.pairwise_map.mpr (h.recent_sorted k e he)

theorem of_touches (hmem : ∀ p, p ∈ pending ↔ p.2 ∈ touchesAt (elems p.1))
    (hpending : pending.Pairwise fun p q => q.2 ≤ p.2)
    (hsorted : ∀ k, (touchesAt (elems k)).Pairwise fun t t' => t' < t) (hle : ∀ p ∈ pending, p.2 ≤ next) :
    Wf elems pending next where
  recent_pending k e he r hr := (hmem (k, r.touch)).mpr (by rw [he]; exact List.mem_map_of_mem hr)
  pending_recent p hp := by
    have ht := (hmem p).mp hp
    rcases he : elems p.1 with _ | e <;> rw [he] at ht
    · cases ht
    · exact ⟨e, rfl, List.mem_map.mp ht⟩
  pending_sorted := hpending
  recent_sorted k e he := by
    have hk := hsorted k
    rw [he] at hk
    exact List.pairwise_map.mp hk
  pending_le := hle

theorem rollback (h : Wf elems pending next) (s : Nat) :
    Wf (fun k => (elems k).map (Element.rollback s)) (pending.dropWhile fun p => decide (s < p.2))
      next := by
  have hsub := List.dropWhile_sublist (l := pending) fun p => decide (s < p.2)
  refine of_touches (fun p => ?_) (h.pending_sorted.sublist hsub) (fun k => ?_) fun p hp => h.pending_le p (hsub.mem hp)
  · rw [mem_dropWhile_iff h.pending_sorted, h.mem_pending, touchesAt_rollback]
    exact (mem_dropWhile_iff (t := id) ((h.touches_sorted p.1).imp Nat.le_of_lt)).symm
  · rw [touchesAt_rollback]
    exact (h.touches_sorted k).sublist (List.dropWhile_sublist _)

theorem commit (elems : K → Option (Element V)) (n : Nat) : Wf (fun k => (elems k).map Element.commit) [] n := by
  refine of_touches ?_ .nil (fun k => ?_) nofun
  · simp [touchesAt_commit]
  · rw [touchesAt_commit]
    exact .nil

variable [DecidableEq K]

theorem set (h : Wf elems pending next) {o : Option (Element V)} (ho : touchesAt o = touchesAt (elems k)) :
    Wf (Function.update elems k o) pending next := by
  have heq : ∀ k', touchesAt (Function.update elems k o k') = touchesAt (elems k') :=
    (Function.forall_update_iff elems fun k' o => touchesAt o = touchesAt (elems k')).mpr ⟨ho, fun _ _ => rfl⟩
  refine of_touches (fun p => ?_) h.pending_sorted (fun k' => ?_) h.pending_le
  · rw [heq]
    exact h.mem_pending p
  · rw [heq]
    exact h.touches_sorted k'

theorem insert (h : Wf elems pending next) (hk : elems k = none) (v : V) :
    Wf (Function.update elems k (some (Element.new v))) pending next :=
  h.set (by rw [hk]; rfl)

theorem update (h : Wf elems pending next) (he : elems k = some e) (f : V → V) {pending' : List (K × Nat)}
    (hp : pending' = (k, next) :: pending ∨ pending' = pending ∧ (k, next) ∈ pending) :
    Wf (Function.update elems k (some (e.update next f))) pending' next := by
  have hmem : ∀ p, p ∈ pending' ↔ p = (k, next) ∨ p ∈ pending := by
    intro p
    rcases hp with rfl | ⟨rfl, hk⟩
    · exact List.mem_cons
    · exact ⟨.inr, fun h' => h'.elim (fun h'' => h'' ▸ hk) id⟩
  have hsorted := h.touches_sorted k
  rw [he] at hsorted
  refine of_touches (fun p => ?_) ?_ ?_ fun p hp' => ?_
  · rw [hmem, h.mem_pending, Prod.ext_iff]
    by_cases hk : p.1 = k
    · rw [hk, Function.update_self, he]
      simp [touchesAt, Element.mem_touches_update]
    · simp [hk]
  · rcases hp with rfl | ⟨rfl, -⟩
    · exact List.pairwise_cons.mpr ⟨h.pending_le, h.pending_sorted⟩
    · exact h.pending_sorted
  · refine (Function.forall_update_iff elems fun _ o => (touchesAt o).Pairwise _).mpr ⟨?_, fun k' _ => h.touches_sorted k'⟩
    refine Element.touches_update_sorted hsorted fun t ht => ?_
    obtain ⟨r, hr, rfl⟩ := List.mem_map.mp ht
    exact h.touch_le he hr
  · rcases (hmem p).mp hp' with rfl | hp'
    · exact Nat.le_refl _
    · exact h.pending_le p hp'

theorem mutateHead (h : Wf elems pending next) (he : elems k = some e) (f : V → V)
    : Wf (Function.update elems k (some (e.mutateHead f))) pending next :=
  h.set (by rw [he]; exact Element.touches_mutateHead f e)

end Wf

/-- The keys in the order in which they were first inserted are kept for the iterations. -/
structure HistoryMap (K V : Type*) where
  elems : K → Option (Element V)
  keys : List K
  next : Nat
  frozen : Nat
  pending : List (K × Nat)
  wf : Wf elems pending next
  mem_keys : ∀ k, k ∈ keys ↔ elems k ≠ none
  keys_nodup : keys.Nodup
  frozen_lt : frozen < next

namespace HistoryMap

/-- Initial values belong to snapshot 0, so the first id handed out is 1. -/
def new : HistoryMap K V where
  elems _ := none
  keys := []
  next := 1
  frozen := 0
  pending := []
  wf := ⟨by simp, by simp, by simp, by simp, by simp⟩
  mem_keys := by simp
  keys_nodup := List.nodup_nil
  frozen_lt := Nat.one_pos

/-- The current state is saved under the returned id. -/
def snapshot (m : HistoryMap K V) : Nat × HistoryMap K V :=
  (m.next,
    { m with
      next := m.next + 1
      wf := m.wf.mono (Nat.le_succ _)
      frozen_lt := Nat.lt_succ_of_lt m.frozen_lt })

@[simp] theorem snapshot_fst (m : HistoryMap K V) : m.snapshot.1 = m.next := rfl
@[simp] theorem snapshot_next (m : HistoryMap K V) : m.snapshot.2.next = m.next + 1 := rfl
@[simp] theorem snapshot_frozen (m : HistoryMap K V) : m.snapshot.2.frozen = m.frozen := rfl
@[simp] theorem snapshot_elems (m : HistoryMap K V) : m.snapshot.2.elems = m.elems := rfl

/-- Whether the head record of an element was written under the id `n`. -/
def headIs (n : Nat) (e : Element V) : Bool := e.recent.head?.any (·.touch == n)

variable {m : HistoryMap K V} {k : K} {e : Element V} {s : Nat}

theorem mem_pending_of_headIs (he : m.elems k = some e) (h : headIs m.next e = true) : (k, m.next) ∈ m.pending := by
  rcases e with ⟨i, c, _ | ⟨r, rs⟩⟩
  · cases h
  · have hr : r.touch = m.next := by simpa [headIs] using h
    exact hr ▸ m.wf.recent_pending k _ he r List.mem_cons_self

/-! ### Values and extensions -/

section View

variable (d : K → V)

/-- The current value of every key; a key that is not cached has the value `d` that its insertion
will give it. -/
def current (m : HistoryMap K V) (k : K) : V := (m.elems k).elim (d k) Element.current

end View

/-- What a run inside a frame guarantees to every snapshot older than the frame: rolled back to it,
the old elements are what they were, new elements have their initial record only (a value allowed by
`P`), and the pending list is what it was. -/
structure Extends (P : K → V → Prop) (m m' : HistoryMap K V) : Prop where
  next_le : m.next ≤ m'.next
  frozen_eq : m'.frozen = m.frozen
  elems_some : ∀ k e, m.elems k = some e →
    ∃ e', m'.elems k = some e' ∧ ∀ s < m.next, e'.rollback s = e.rollback s
  elems_none : ∀ k e', m.elems k = none → m'.elems k = some e' →
    ∃ v, P k v ∧ ∀ s < m.next, e'.rollback s = Element.new v
  pending_eq : ∀ s < m.next,
    m'.pending.dropWhile (fun p => decide (s < p.2)) = m.pending.dropWhile fun p => decide (s < p.2)

/-- `m'` is `m` with more elements, each of which has only its initial record. -/
structure Loads (P : K → V → Prop) (m m' : HistoryMap K V) : Prop where
  next_le : m.next ≤ m'.next
  frozen_eq : m'.frozen = m.frozen
  elems_some : ∀ k e, m.elems k = some e → m'.elems k = some e
  elems_none : ∀ k e', m.elems k = none → m'.elems k = some e' → ∃ v, P k v ∧ e' = Element.new v
  pending_eq : m'.pending = m.pending

namespace Loads

variable {P : K → V → Prop} {m m' : HistoryMap K V}

theorem toExtends (h : Loads P m m') : Extends P m m' where
  next_le := h.next_le
  frozen_eq := h.frozen_eq
  elems_some k e he := ⟨e, h.elems_some k e he, fun _ _ => rfl⟩
  elems_none := by
    intro k e hk he
    obtain ⟨v, hv, rfl⟩ := h.elems_none k e hk he
    exact ⟨v, hv, fun _ _ => rfl⟩
  pending_eq s _ := by rw [h.pending_eq]

theorem current_eq {d : K → V} (h : Loads (fun k v => v = d k) m m') : m'.current d = m.current d := by
  funext k
  simp only [current]
  rcases hk : m.elems k with _ | e
  · rcases hk' : m'.elems k with _ | e
    · rfl
    · obtain ⟨v, rfl, rfl⟩ := h.elems_none k e hk hk'
      rfl
  · rw [h.elems_some k e hk]

end Loads

namespace Extends

variable {P : K → V → Prop} {m m' m'' : HistoryMap K V}

theorem refl (m : HistoryMap K V) : Extends P m m :=
  ⟨Nat.le_refl _, rfl, fun _ e he => ⟨e, he, fun _ _ => rfl⟩, fun _ _ h h' => by simp [h] at h',
    fun _ _ => rfl⟩

theorem trans (h : Extends P m m') (h' : Extends P m' m'') : Extends P m m'' := by
  have hlt : ∀ {s}, s < m.next → s < m'.next := fun hs => Nat.lt_of_lt_of_le hs h.next_le
  refine ⟨h.next_le.trans h'.next_le, h'.frozen_eq.trans h.frozen_eq, ?_, ?_,
    fun s hs => (h'.pending_eq s (hlt hs)).trans (h.pending_eq s hs)⟩
  · intro k e he
    obtain ⟨e', he', hr'⟩ := h.elems_some k e he
    obtain ⟨e'', he'', hr''⟩ := h'.elems_some k e' he'
    exact ⟨e'', he'', fun s hs => (hr'' s (hlt hs)).trans (hr' s hs)⟩
  · intro k e'' hk he''
    rcases hk' : m'.elems k with _ | e'
    · obtain ⟨v, hv, hr⟩ := h'.elems_none k e'' hk' he''
      exact ⟨v, hv, fun s hs => hr s (hlt hs)⟩
    · obtain ⟨v, hv, hr⟩ := h.elems_none k e' hk hk'
      obtain ⟨e₂, he₂, hr₂⟩ := h'.elems_some k e' hk'
      rw [he''] at he₂
      cases he₂
      exact ⟨v, hv, fun s hs => (hr₂ s (hlt hs)).trans (hr s hs)⟩

theorem snapshot (m : HistoryMap K V) : Extends P m m.snapshot.2 :=
  ⟨Nat.le_succ _, rfl, fun _ e he => ⟨e, he, fun _ _ => rfl⟩, fun _ _ h h' => by simp [h] at h',
    fun _ _ => rfl⟩

end Extends

variable [DecidableEq K]

/-- `get_or_insert` with the value that the callback produced. -/
def getOrInsert (m : HistoryMap K V) (k : K) (v : V) : HistoryMap K V :=
  match h : m.elems k with
  | some _ => m
  | none =>
    { m with
      elems := Function.update m.elems k (some (Element.new v))
      keys := k :: m.keys
      wf := m.wf.insert h v
      mem_keys := fun k' => by
        by_cases hk : k' = k
        · simp [hk]
        · simp [hk, m.mem_keys]
      keys_nodup := List.nodup_cons.mpr ⟨fun hk => (m.mem_keys k).mp hk h, m.keys_nodup⟩ }

/-- A record under the current snapshot id for a key that is in the map; a second write under
the same id overwrites the head record and is not pushed to the pending list again. -/
def update (m : HistoryMap K V) (k : K) (f : V → V) : HistoryMap K V :=
  match h : m.elems k with
  | none => m
  | some e =>
    { m with
      elems := Function.update m.elems k (some (e.update m.next f))
      pending := if headIs m.next e then m.pending else (k, m.next) :: m.pending
      wf := by
        refine m.wf.update h f ?_
        by_cases hh : headIs m.next e = true
        · exact .inr ⟨if_pos hh, mem_pending_of_headIs h hh⟩
        · exact .inl (if_neg hh)
      mem_keys := fun k' => by
        by_cases hk : k' = k
        · simp [hk, m.mem_keys, h]
        · simp [hk, m.mem_keys] }

/-- The head record of a key changed in place. -/
def mutateHead (m : HistoryMap K V) (k : K) (f : V → V) : HistoryMap K V :=
  match h : m.elems k with
  | none => m
  | some e =>
    { m with
      elems := Function.update m.elems k (some (e.mutateHead f))
      wf := m.wf.mutateHead h f
      mem_keys := fun k' => by
        by_cases hk : k' = k
        · simp [hk, m.mem_keys, h]
        · simp [hk, m.mem_keys] }

/-- The loop of `rollback`: pending updates newer than `s` are popped and their elements rolled
back, up to the first one that is old enough. -/
def rollbackLoop (s : Nat) :
    List (K × Nat) → (K → Option (Element V)) → List (K × Nat) × (K → Option (Element V))
  | [], elems => ([], elems)
  | (k, t) :: rest, elems =>
    if t ≤ s then ((k, t) :: rest, elems)
    else rollbackLoop s rest (Function.update elems k ((elems k).map (Element.rollback s)))

theorem rollbackLoop_fst (s : Nat) (pending : List (K × Nat)) (elems : K → Option (Element V)) :
    (rollbackLoop s pending elems).1 = pending.dropWhile fun p => decide (s < p.2) := by
  induction pending generalizing elems with
  | nil => rfl
  | cons p rest ih =>
    by_cases h : p.2 ≤ s
    · simp [rollbackLoop, h, Nat.not_lt.mpr h]
    · rw [rollbackLoop, if_neg h, ih, List.dropWhile_cons_of_pos (by simpa using h)]

theorem rollbackLoop_snd (s : Nat) (pending : List (K × Nat)) (elems : K → Option (Element V)) (k : K) :
    (rollbackLoop s pending elems).2 k =
      if k ∈ (pending.takeWhile fun p => decide (s < p.2)).map Prod.fst then
        (elems k).map (Element.rollback s) else elems k := by
  induction pending generalizing elems with
  | nil => rfl
  | cons p rest ih =>
    by_cases h : p.2 ≤ s
    · simp [rollbackLoop, h, Nat.not_lt.mpr h]
    · rw [rollbackLoop, if_neg h, ih, List.takeWhile_cons_of_pos (by simpa using h), List.map_cons]
      by_cases hk : k = p.1
      · subst hk
        simp only [Function.update_self, Option.map_map, List.mem_cons, true_or, if_true]
        have hid : Element.rollback s ∘ Element.rollback s = (Element.rollback s : Element V → _) :=
          funext (Element.rollback_rollback (Nat.le_refl s))
        rw [hid, ite_self]
      · simp only [Function.update_of_ne hk, List.mem_cons, hk, false_or]

/-- The early stop skips nothing: the loop rolls every element back. -/
theorem rollbackLoop_eq (m : HistoryMap K V) (s : Nat) :
    rollbackLoop s m.pending m.elems =
      (m.pending.dropWhile fun p => decide (s < p.2), fun k => (m.elems k).map (Element.rollback s)) := by
  refine Prod.ext (rollbackLoop_fst s _ _) (funext fun k => ?_)
  rw [rollbackLoop_snd]
  show _ = (m.elems k).map (Element.rollback s)
  split
  · rfl
  · rename_i hk
    rcases he : m.elems k with _ | e
    · rfl
    · -- a record newer than `s` would be named in the popped part of the pending list
      refine congrArg some (Element.rollback_of_le fun r hr => ?_).symm
      have hmem := m.wf.recent_pending k e he r hr
      rw [← List.takeWhile_append_dropWhile (p := fun p : K × Nat => decide (s < p.2)) (l := m.pending)]
        at hmem
      rcases List.mem_append.mp hmem with htake | hdrop
      · exact absurd (List.mem_map_of_mem htake) hk
      · exact ((mem_dropWhile_iff (t := Prod.snd) m.wf.pending_sorted).mp hdrop).2

/-- Back to the state saved under `s`; fails below the last commit and for ids not handed out. -/
def rollback (m : HistoryMap K V) (s : Nat) : Option (HistoryMap K V) :=
  if s < m.frozen ∨ m.next ≤ s then none
  else
    let r := rollbackLoop s m.pending m.elems
    some
      { m with
        elems := r.2
        pending := r.1
        wf := by
          simp only [r, rollbackLoop_eq]
          exact m.wf.rollback s
        mem_keys := fun k => by
          simp only [r, rollbackLoop_eq, m.mem_keys, ne_eq, Option.map_eq_none_iff] }

def commitLoop : List (K × Nat) → (K → Option (Element V)) → (K → Option (Element V))
  | [], elems => elems
  | (k, _) :: rest, elems => commitLoop rest (Function.update elems k ((elems k).map Element.commit))

theorem commitLoop_apply (pending : List (K × Nat)) (elems : K → Option (Element V)) (k : K) :
    commitLoop pending elems k =
      if k ∈ pending.map Prod.fst then (elems k).map Element.commit else elems k := by
  induction pending generalizing elems with
  | nil => rfl
  | cons p rest ih =>
    rw [commitLoop, ih]
    by_cases hk : k = p.1
    · subst hk
      simp only [Function.update_self, Option.map_map, List.map_cons, List.mem_cons, true_or, if_true]
      have hid : Element.commit ∘ Element.commit = (Element.commit : Element V → _) :=
        funext fun e => Element.commit_of_recent_nil e.commit_recent
      rw [hid, ite_self]
    · simp only [Function.update_of_ne hk, List.map_cons, List.mem_cons, hk, false_or]

theorem commitLoop_eq (m : HistoryMap K V) :
    commitLoop m.pending m.elems = fun k => (m.elems k).map Element.commit := by
  funext k
  rw [commitLoop_apply]
  split
  · rfl
  · rename_i hk
    rcases he : m.elems k with _ | e
    · rfl
    · -- an element that is not pending has no record since the last commit
      refine congrArg some (Element.commit_of_recent_nil ?_).symm
      refine List.eq_nil_iff_forall_not_mem.mpr fun r hr => hk ?_
      exact List.mem_map_of_mem (m.wf.recent_pending k e he r hr)

/-- Freezes the changes made so far. -/
def commit (m : HistoryMap K V) : HistoryMap K V where
  elems := commitLoop m.pending m.elems
  keys := m.keys
  next := m.next + 1
  frozen := m.next
  pending := []
  wf := by rw [commitLoop_eq]; exact Wf.commit _ _
  mem_keys := fun k => by simp [commitLoop_eq, m.mem_keys]
  keys_nodup := m.keys_nodup
  frozen_lt := Nat.lt_succ_self _

/-! ### What the operations do to the elements -/

theorem elems_getOrInsert (m : HistoryMap K V) (k : K) (v : V) :
    (m.getOrInsert k v).elems = Function.update m.elems k (some ((m.elems k).getD (Element.new v))) := by
  unfold getOrInsert
  split
  · rename_i e h
    rw [h, Option.getD_some, ← h, Function.update_eq_self]
  · rename_i h
    simp [h]

@[simp] theorem getOrInsert_next (m : HistoryMap K V) (k : K) (v : V) :
    (m.getOrInsert k v).next = m.next := by
  unfold getOrInsert; split <;> rfl

@[simp] theorem getOrInsert_frozen (m : HistoryMap K V) (k : K) (v : V) :
    (m.getOrInsert k v).frozen = m.frozen := by
  unfold getOrInsert; split <;> rfl

theorem elems_update (m : HistoryMap K V) (k : K) (f : V → V) :
    (m.update k f).elems = Function.update m.elems k ((m.elems k).map (Element.update m.next f)) := by
  unfold update
  split
  · rename_i h
    rw [h, Option.map_none, ← h, Function.update_eq_self]
  · rename_i e h
    simp [h]

@[simp] theorem update_next (m : HistoryMap K V) (k : K) (f : V → V) : (m.update k f).next = m.next := by
  unfold update; split <;> rfl

@[simp] theorem update_frozen (m : HistoryMap K V) (k : K) (f : V → V) :
    (m.update k f).frozen = m.frozen := by
  unfold update; split <;> rfl

theorem getOrInsert_pending (m : HistoryMap K V) (k : K) (v : V) :
    (m.getOrInsert k v).pending = m.pending := by
  unfold getOrInsert; split <;> rfl

theorem update_pending (m : HistoryMap K V) (k : K) (f : V → V) :
    (m.update k f).pending = m.pending ∨ (m.update k f).pending = (k, m.next) :: m.pending := by
  unfold update
  split
  · exact .inl rfl
  · rename_i e _
    by_cases h : headIs m.next e = true
    · exact .inl (if_pos h)
    · exact .inr (if_neg h)

theorem update_pending_of_some (he : m.elems k = some e) (f : V → V) :
    (m.update k f).pending = if headIs m.next e then m.pending else (k, m.next) :: m.pending := by
  unfold update
  split
  · rename_i h
    rw [he] at h
    cases h
  · rename_i e' h
    rw [he] at h
    cases h
    rfl

theorem elems_mutateHead (m : HistoryMap K V) (k : K) (f : V → V) :
    (m.mutateHead k f).elems = Function.update m.elems k ((m.elems k).map (Element.mutateHead f)) := by
  unfold mutateHead
  split
  · rename_i h
    rw [h, Option.map_none, ← h, Function.update_eq_self]
  · rename_i e h
    simp [h]

@[simp] theorem commit_elems (m : HistoryMap K V) :
    m.commit.elems = fun k => (m.elems k).map Element.commit := commitLoop_eq m

theorem rollback_eq_some {m' : HistoryMap K V} (h : m.rollback s = some m') :
    (m.frozen ≤ s ∧ s < m.next) ∧ m'.elems = (fun k => (m.elems k).map (Element.rollback s)) ∧
      m'.next = m.next ∧ m'.frozen = m.frozen ∧
      m'.pending = m.pending.dropWhile fun p => decide (s < p.2) := by
  unfold rollback at h
  split at h
  · cases h
  · rename_i hs
    cases h
    simp only [rollbackLoop_eq, and_self, and_true]
    omega

theorem rollback_isSome (h₁ : m.frozen ≤ s) (h₂ : s < m.next) :
    ∃ m', m.rollback s = some m' := by
  unfold rollback
  rw [if_neg (by omega)]
  exact ⟨_, rfl⟩

/-! ### What the operations do to the values -/

section Values

variable (d : K → V)

theorem current_getOrInsert (m : HistoryMap K V) (k : K) : (m.getOrInsert k (d k)).current d = m.current d := by
  funext k'
  simp only [current, elems_getOrInsert]
  by_cases hk : k' = k
  · subst hk
    rcases m.elems k' with _ | e <;> simp
  · rw [Function.update_of_ne hk]

end Values

namespace Extends

variable {P : K → V → Prop} {m m' m'' : HistoryMap K V}

theorem getOrInsert (m : HistoryMap K V) {k : K} {v : V} (hv : m.elems k = none → P k v) :
    Extends P m (m.getOrInsert k v) := by
  refine ⟨by simp, by simp, ?_, ?_, ?_⟩
  · intro k' e he
    refine ⟨e, ?_, fun _ _ => rfl⟩
    rw [elems_getOrInsert]
    by_cases hk : k' = k
    · subst hk
      rw [Function.update_self, he, Option.getD_some]
    · rw [Function.update_of_ne hk, he]
  · intro k' e hk' he
    rw [elems_getOrInsert] at he
    by_cases hk : k' = k
    · subst hk
      rw [Function.update_self, hk', Option.getD_none] at he
      cases he
      exact ⟨v, hv hk', fun _ _ => rfl⟩
    · rw [Function.update_of_ne hk, hk'] at he
      cases he
  · intro s _
    rw [getOrInsert_pending]

theorem update (m : HistoryMap K V) (k : K) (f : V → V) : Extends P m (m.update k f) := by
  refine ⟨by simp, by simp, ?_, ?_, ?_⟩
  · intro k' e he
    rw [elems_update]
    by_cases hk : k' = k
    · subst hk
      exact ⟨e.update m.next f, by rw [Function.update_self, he]; rfl, fun s hs => Element.rollback_update hs f e⟩
    · exact ⟨e, by rw [Function.update_of_ne hk, he], fun _ _ => rfl⟩
  · intro k' e hk' he
    rw [elems_update] at he
    by_cases hk : k' = k
    · subst hk
      rw [Function.update_self, hk'] at he
      cases he
    · rw [Function.update_of_ne hk, hk'] at he
      cases he
  · intro s hs
    rcases update_pending m k f with h | h
    · rw [h]
    · rw [h, List.dropWhile_cons_of_pos (by simpa using hs)]

/-- Whatever ran in a frame, a rollback to the frame's own snapshot restores every old element and
the pending list. -/
theorem rollback_loads (h : Extends P m.snapshot.2 m') (hr : m'.rollback m.next = some m'') :
    Loads P m m'' := by
  obtain ⟨-, helems, hnext, hfrozen, hpending⟩ := rollback_eq_some hr
  have hlt : m.next < m.snapshot.2.next := Nat.lt_succ_self _
  refine ⟨?_, ?_, ?_, ?_, ?_⟩
  · rw [hnext]
    exact (Nat.le_succ _).trans h.next_le
  · rw [hfrozen, h.frozen_eq, snapshot_frozen]
  · intro k e he
    obtain ⟨e', he', hre⟩ := h.elems_some k e he
    simp only [helems, he', Option.map_some, hre m.next hlt]
    rw [Element.rollback_of_le fun r hr => m.wf.touch_le he hr]
  · intro k e hk he
    rw [helems] at he
    obtain ⟨e', he', rfl⟩ := Option.map_eq_some_iff.mp he
    obtain ⟨v, hv, hre⟩ := h.elems_none k e' hk he'
    exact ⟨v, hv, hre m.next hlt⟩
  · rw [hpending, h.pending_eq m.next hlt]
    refine List.dropWhile_eq_self_iff.mpr fun hl => ?_
    have hle := m.wf.pending_le _ (List.getElem_mem hl)
    simpa using hle

theorem rollback_isSome (h : Extends P m.snapshot.2 m') : ∃ m'', m'.rollback m.next = some m'' := by
  refine HistoryMap.rollback_isSome ?_ h.next_le
  rw [h.frozen_eq, snapshot_frozen]
  exact Nat.le_of_lt m.frozen_lt

end Extends

end HistoryMap

end Map

end ZkOs.History
