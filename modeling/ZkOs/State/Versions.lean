import ZkOs.State.HistoryMap

/-!
# Invariants of all versions of a history map

* `Element.All P` : every version that a rollback can bring back satisfies `P`;
* `HistoryMap.Loyal P` : every version is related by `P` to the initial one of its key;
* one rule for each operation of a history map.
-/

namespace ZkOs.History

namespace Element

variable {V : Type} {P Q : V → Prop} {e : Element V}

/-- The initial version, the committed one and those since the last commit. -/
structure All (P : V → Prop) (e : Element V) : Prop where
  initial : P e.initial
  committed : ∀ v, e.committed = some v → P v
  recent : ∀ r ∈ e.recent, P r.value

namespace All

theorem mono (h : e.All P) (hPQ : ∀ v, P v → Q v) : e.All Q :=
  ⟨hPQ _ h.initial, fun v hv => hPQ v (h.committed v hv), fun r hr => hPQ _ (h.recent r hr)⟩

theorem new {v : V} (h : P v) : (Element.new v).All P := by
  refine ⟨h, fun w hw => ?_, fun r hr => ?_⟩
  · cases hw
  · cases hr

theorem base (h : e.All P) : P e.base := by
  unfold Element.base
  rcases hc : e.committed with _ | v
  · exact h.initial
  · exact h.committed v hc

theorem current (h : e.All P) : P e.current := by
  unfold Element.current
  rcases hr : e.recent with _ | ⟨r, rs⟩
  · exact h.base
  · apply h.recent
    rw [hr]
    exact List.mem_cons_self

theorem update (h : e.All P) (n : Nat) {f : V → V} (hf : P (f e.current)) : (e.update n f).All P := by
  have hrecent := h.recent
  unfold Element.update
  unfold Element.current at hf
  rcases hr : e.recent with _ | ⟨r, rs⟩
  · rw [hr] at hf
    refine ⟨h.initial, h.committed, fun r' hr' => ?_⟩
    cases List.mem_singleton.mp hr'
    exact hf
  · rw [hr] at hf hrecent
    dsimp only
    split
    · refine ⟨h.initial, h.committed, fun r' hr' => ?_⟩
      rcases List.mem_cons.mp hr' with rfl | hr'
      · exact hf
      · exact hrecent r' (List.mem_cons_of_mem _ hr')
    · refine ⟨h.initial, h.committed, fun r' hr' => ?_⟩
      rcases List.mem_cons.mp hr' with rfl | hr'
      · exact hf
      · exact hrecent r' hr'

theorem mutateHead (h : e.All P) {f : V → V} (hf : P (f e.current)) : (e.mutateHead f).All P := by
  have hrecent := h.recent
  unfold Element.mutateHead
  unfold Element.current at hf
  rcases hr : e.recent with _ | ⟨r, rs⟩
  · exact h
  · rw [hr] at hf hrecent
    refine ⟨h.initial, h.committed, fun r' hr' => ?_⟩
    rcases List.mem_cons.mp hr' with rfl | hr'
    · exact hf
    · exact hrecent r' (List.mem_cons_of_mem _ hr')

theorem rollback (h : e.All P) (s : Nat) : (e.rollback s).All P :=
  ⟨h.initial, h.committed, fun r hr => h.recent r ((List.dropWhile_suffix _).subset hr)⟩

theorem commit (h : e.All P) : e.commit.All P := by
  unfold Element.commit
  rcases hr : e.recent with _ | ⟨r, rs⟩
  · exact h
  · refine ⟨h.initial, fun v hv => ?_, fun r' hr' => ?_⟩
    · cases hv
      apply h.recent
      rw [hr]
      exact List.mem_cons_self
    · cases hr'

end All

theorem mutateHead_initial (f : V → V) (e : Element V) : (e.mutateHead f).initial = e.initial := by
  unfold Element.mutateHead
  split <;> rfl

end Element

namespace HistoryMap

variable {K V : Type} [DecidableEq K] {P Q : K → V → V → Prop} {m m' : HistoryMap K V}

/-- Every version of every key is related to the initial one. -/
def Loyal (P : K → V → V → Prop) (m : HistoryMap K V) : Prop :=
  ∀ k e, m.elems k = some e → e.All (P k e.initial)

namespace Loyal

omit [DecidableEq K] in
theorem new : Loyal P (HistoryMap.new : HistoryMap K V) := by
  intro k e he
  cases he

omit [DecidableEq K] in
theorem mono (h : Loyal P m) (hPQ : ∀ k i v, P k i v → Q k i v) : Loyal Q m :=
  fun k e he => (h k e he).mono fun v hv => hPQ k _ v hv

omit [DecidableEq K] in
theorem of_elems (h : Loyal P m) (heq : m'.elems = m.elems) : Loyal P m' := by
  intro k e he
  rw [heq] at he
  exact h k e he

theorem getOrInsert (h : Loyal P m) {k : K} {v : V} (hv : P k v v) : Loyal P (m.getOrInsert k v) := by
  intro k' e he
  rw [elems_getOrInsert] at he
  by_cases hk : k' = k
  · subst hk
    rw [Function.update_self] at he
    rcases hm : m.elems k' with _ | e₀
    · rw [hm] at he
      cases he
      exact .new hv
    · rw [hm] at he
      cases he
      exact h k' e₀ hm
  · rw [Function.update_of_ne hk] at he
    exact h k' e he

theorem update (h : Loyal P m) {k : K} {f : V → V}
    (hf : ∀ e, m.elems k = some e → P k e.initial e.current → P k e.initial (f e.current)) : Loyal P (m.update k f) := by
  intro k' e he
  rw [elems_update] at he
  by_cases hk : k' = k
  · subst hk
    rw [Function.update_self] at he
    obtain ⟨e₀, h₀, rfl⟩ := Option.map_eq_some_iff.mp he
    have hall := h k' e₀ h₀
    rw [Element.update_initial]
    exact hall.update _ (hf e₀ h₀ hall.current)
  · rw [Function.update_of_ne hk] at he
    exact h k' e he

theorem mutateHead (h : Loyal P m) {k : K} {f : V → V}
    (hf : ∀ e, m.elems k = some e → P k e.initial e.current → P k e.initial (f e.current)) :
    Loyal P (m.mutateHead k f) := by
  intro k' e he
  rw [elems_mutateHead] at he
  by_cases hk : k' = k
  · subst hk
    rw [Function.update_self] at he
    obtain ⟨e₀, h₀, rfl⟩ := Option.map_eq_some_iff.mp he
    have hall := h k' e₀ h₀
    rw [Element.mutateHead_initial]
    exact hall.mutateHead (hf e₀ h₀ hall.current)
  · rw [Function.update_of_ne hk] at he
    exact h k' e he

theorem rollback (h : Loyal P m) {s : Nat} (hr : m.rollback s = some m') : Loyal P m' := by
  obtain ⟨-, helems, -⟩ := rollback_eq_some hr
  intro k e he
  rw [helems] at he
  obtain ⟨e₀, h₀, rfl⟩ := Option.map_eq_some_iff.mp he
  exact (h k e₀ h₀).rollback s

theorem commit (h : Loyal P m) : Loyal P m.commit := by
  intro k e he
  rw [commit_elems] at he
  obtain ⟨e₀, h₀, rfl⟩ := Option.map_eq_some_iff.mp he
  rw [Element.commit_initial]
  exact (h k e₀ h₀).commit

end Loyal

end HistoryMap

end ZkOs.History
