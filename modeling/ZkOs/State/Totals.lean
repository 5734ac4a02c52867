import Mathlib.Algebra.BigOperators.Group.Finset.Basic
import Mathlib.Algebra.Order.BigOperators.Group.Finset
import ZkOs.State.HistoryMap

/-!
# Weights of the elements of a history map

* `HistoryMap.SinceCommit` : only records newer than the last commit differ;
* `HistoryMap.SinceCommit.entry_le` : one key grows at most by what is charged for it.
-/

namespace ZkOs.History

variable {K V : Type}

/-- An element as it was at the last commit. -/
def Element.atCommit (e : Element V) : Element V := { e with recent := [] }

theorem Element.atCommit_eq {e e' : Element V} {s : Nat} (h : e'.rollback s = e.rollback s) (he : e.recent = []) :
    e'.atCommit = e := by
  have hi : (e'.rollback s).initial = (e.rollback s).initial := by rw [h]
  have hc : (e'.rollback s).committed = (e.rollback s).committed := by rw [h]
  rcases e with ⟨i, c, r⟩
  cases he
  exact congrArg₂ (Element.mk · · []) hi hc

theorem Element.atCommit_update (n : Nat) (f : V → V) (e : Element V) : (e.update n f).atCommit = e.atCommit := by
  rcases e with ⟨i, c, _ | ⟨r, rs⟩⟩
  · rfl
  · unfold update
    simp only
    split <;> rfl

theorem Element.atCommit_mutateHead (f : V → V) (e : Element V) : (e.mutateHead f).atCommit = e.atCommit := by
  rcases e with ⟨i, c, _ | ⟨r, rs⟩⟩ <;> rfl

namespace HistoryMap

/-- The weight of one key, nothing if it is not in the map. -/
def entry (w : K → Element V → Nat) (m : HistoryMap K V) (k : K) : Nat := (m.elems k).elim 0 (w k)

variable {w : K → Element V → Nat} {m m' : HistoryMap K V}

theorem entry_of_some {k : K} {e : Element V} (h : m.elems k = some e) : m.entry w k = w k e := by
  unfold entry
  rw [h]
  rfl

theorem entry_of_none {k : K} (h : m.elems k = none) : m.entry w k = 0 := by
  unfold entry
  rw [h]
  rfl

/-- From the last commit of `m` on, elements only got records that the next commit of `m'` is about. -/
structure SinceCommit (m m' : HistoryMap K V) : Prop where
  elems_some : ∀ k e, m.elems k = some e → ∃ e', m'.elems k = some e' ∧ e'.atCommit = e.commit
  elems_none : ∀ k e', m.elems k = none → m'.elems k = some e' → ∃ v, e'.atCommit = Element.new v

theorem SinceCommit.of_atCommit (h : SinceCommit m m') {m'' : HistoryMap K V}
    (heq : ∀ k, (m''.elems k).map Element.atCommit = (m'.elems k).map Element.atCommit) : SinceCommit m m'' := by
  refine ⟨fun k e he => ?_, fun k e'' he he'' => ?_⟩
  · obtain ⟨e', he', hcommit⟩ := h.elems_some k e he
    have hk := heq k
    rw [he', Option.map_some] at hk
    obtain ⟨e'', he'', hcommit'⟩ := Option.map_eq_some_iff.mp hk
    exact ⟨e'', he'', hcommit'.trans hcommit⟩
  · have hk := heq k
    rw [he'', Option.map_some] at hk
    obtain ⟨e', he', hcommit⟩ := Option.map_eq_some_iff.mp hk.symm
    obtain ⟨v, hv⟩ := h.elems_none k e' he he'
    exact ⟨v, hcommit ▸ hv⟩

/-- The weight of a key grows at most by its charge, if the charge covers the growth of the element and new
elements weigh nothing. -/
theorem SinceCommit.entry_le (h : SinceCommit m m') {k : K} {c : K → Element V → Nat}
    (hnew : ∀ v, w k (Element.new v) = 0) (hw : ∀ e, w k e.commit = w k e)
    (hcharge : ∀ e, m'.elems k = some e → w k e ≤ w k e.atCommit + c k e) :
    m'.entry w k ≤ m.entry w k + m'.entry c k := by
  rcases he' : m'.elems k with _ | e'
  · rw [entry_of_none he']
    exact Nat.zero_le _
  rw [entry_of_some he', entry_of_some he']
  refine (hcharge e' he').trans (Nat.add_le_add_right ?_ _)
  rcases he : m.elems k with _ | e
  · -- the element is new, and was its initial record at the commit
    obtain ⟨v, hv⟩ := h.elems_none k e' he he'
    rw [hv, hnew]
    exact Nat.zero_le _
  · obtain ⟨e₁, he₁, hcommit⟩ := h.elems_some k e he
    obtain rfl : e' = e₁ := Option.some.inj (he'.symm.trans he₁)
    rw [hcommit, hw, entry_of_some he]

variable [DecidableEq K]

theorem Extends.sinceCommit {P : K → V → Prop} (h : m.commit.Extends P m') : SinceCommit m m' := by
  have hnext : 0 < m.commit.next := Nat.lt_of_le_of_lt (Nat.zero_le _) m.commit.frozen_lt
  refine ⟨fun k e he => ?_, fun k e' he he' => ?_⟩
  · obtain ⟨e', he', hroll⟩ := h.elems_some k e.commit (by simp [commit_elems, he])
    exact ⟨e', he', Element.atCommit_eq (hroll 0 hnext) e.commit_recent⟩
  · obtain ⟨v, -, hv⟩ := h.elems_none k e' (by simp [commit_elems, he]) he'
    exact ⟨v, Element.atCommit_eq (hv 0 hnext) rfl⟩

end HistoryMap

end ZkOs.History
