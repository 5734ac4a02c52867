import Mathlib.Logic.Basic

/-!
# Programs with frames that may be rolled back

* `Prog Op Resp Label α` : a program that asks for operations and runs parts of itself in frames; when a
  frame ends, its result says whether its effects are kept or undone;
* `Handler Op Resp σ` : what the operations do to a state, and how a state is marked and restored;
* `Prog.run` : the run of a program, `Prog.Visits` : the states it goes through, `Prog.kept` : the events
  whose effects were kept;
* `Prog.Asks P Q` : the program asks only for operations in `P` and returns only values in `Q`;
* `Prog.Visits.rel` : what every operation and every frame respects, every run respects;
* `Prog.kept_chain` : what undone frames leave unchanged is changed only by kept events;
* `Prog.Reaches` : the states that a run goes through, each with the events that are kept so far, and
  `Prog.Reaches.rel` : what is kept up by every operation and brought back by undoing a frame.
-/

namespace ZkOs.FrameProgram

/-- Programs over the operations `Op`, with frames that carry a label. -/
inductive Prog (Op : Type) (Resp : Op → Type) (Label : Type) : Type → Type 1 where
  | ret {α : Type} (a : α) : Prog Op Resp Label α
  | op {α : Type} (o : Op) (k : Resp o → Prog Op Resp Label α) : Prog Op Resp Label α
  | frame {α β : Type} (l : Label) (body : Prog Op Resp Label β) (revert : β → Bool)
      (k : β → Prog Op Resp Label α) : Prog Op Resp Label α

/-- An operation that was performed, with the frame it was performed in and the state before it, or a
frame that was entered. -/
inductive Event (Op Label σ : Type) where
  | op (l : Option Label) (s : σ) (o : Op)
  | enter (l : Label)

/-- The meaning of the operations, of marking a state and of undoing everything since a mark. -/
structure Handler (Op : Type) (Resp : Op → Type) (σ : Type) where
  exec : (o : Op) → σ → Resp o × σ
  Mark : Type
  mark : σ → Mark × σ
  undo : Mark → σ → σ

namespace Prog

variable {Op : Type} {Resp : Op → Type} {L σ : Type} {α β : Type}

protected def bind {α β : Type} : Prog Op Resp L α → (α → Prog Op Resp L β) → Prog Op Resp L β
  | ret a, f => f a
  | op o k, f => op o fun x => (k x).bind f
  | frame l body revert k, f => frame l body revert fun x => (k x).bind f

instance : Monad (Prog Op Resp L) where
  pure := ret
  bind := Prog.bind

def run {α : Type} (h : Handler Op Resp σ) : Prog Op Resp L α → σ → α × σ
  | ret a, s => (a, s)
  | op o k, s => (k (h.exec o s).1).run h (h.exec o s).2
  | frame _ body revert k, s =>
    let x := body.run h (h.mark s).2
    (k x.1).run h (if revert x.1 then h.undo (h.mark s).1 x.2 else x.2)

/-- The events of a run in the frame `l` that were not undone, in order. -/
def kept {α : Type} (h : Handler Op Resp σ) (l : Option L) : Prog Op Resp L α → σ → List (Event Op L σ)
  | ret _, _ => []
  | op o k, s => .op l s o :: (k (h.exec o s).1).kept h l (h.exec o s).2
  | frame l' body revert k, s =>
    let x := body.run h (h.mark s).2
    (if revert x.1 then [] else .enter l' :: body.kept h (some l') (h.mark s).2) ++
      (k x.1).kept h l (if revert x.1 then h.undo (h.mark s).1 x.2 else x.2)

def Visits {α : Type} (h : Handler Op Resp σ) : Prog Op Resp L α → σ → σ → Prop
  | ret _, s, t => t = s
  | op o k, s, t => t = s ∨ (k (h.exec o s).1).Visits h (h.exec o s).2 t
  | frame _ body revert k, s, t =>
    let x := body.run h (h.mark s).2
    t = s ∨ body.Visits h (h.mark s).2 t ∨
      (k x.1).Visits h (if revert x.1 then h.undo (h.mark s).1 x.2 else x.2) t

/-- Whatever the responses are, the program asks only for operations with the property `P` and returns
only values with the property `Q`. -/
def Asks {α : Type} (P : Op → Prop) : Prog Op Resp L α → (α → Prop) → Prop
  | ret a, Q => Q a
  | op o k, Q => P o ∧ ∀ x, (k x).Asks P Q
  | frame _ body _ k, Q => body.Asks P fun b => (k b).Asks P Q

variable {h : Handler Op Resp σ}

@[simp] theorem run_pure (a : α) (s : σ) : (pure a : Prog Op Resp L α).run h s = (a, s) := rfl

theorem run_bind (p : Prog Op Resp L α) (f : α → Prog Op Resp L β) (s : σ) :
    (p >>= f).run h s = (f (p.run h s).1).run h (p.run h s).2 := by
  show (p.bind f).run h s = _
  induction p generalizing s with
  | ret a => rfl
  | op o k ih => exact ih _ f _
  | frame l body revert k _ ih => exact ih _ f _

theorem kept_bind (l : Option L) (p : Prog Op Resp L α) (f : α → Prog Op Resp L β) (s : σ) :
    (p >>= f).kept h l s = p.kept h l s ++ (f (p.run h s).1).kept h l (p.run h s).2 := by
  show (p.bind f).kept h l s = _
  induction p generalizing s with
  | ret a => rfl
  | op o k ih => exact congrArg _ (ih _ f _)
  | frame l body revert k _ ih =>
    simp only [Prog.bind, kept, run, List.append_assoc]
    rw [ih]

/-! ## Programs that ask only for some operations -/

theorem Asks.mono {P : Op → Prop} {p : Prog Op Resp L α} {Q Q' : α → Prop} (hp : p.Asks P Q)
    (hQ : ∀ a, Q a → Q' a) : p.Asks P Q' := by
  induction p with
  | ret a => exact hQ a hp
  | op o k ih => exact ⟨hp.1, fun x => ih x (hp.2 x) hQ⟩
  | frame l body revert k ihb ih => exact ihb hp fun b hb => ih b hb hQ

theorem Asks.bind {P : Op → Prop} {p : Prog Op Resp L α} {f : α → Prog Op Resp L β} {Q : α → Prop} {Q' : β → Prop}
    (hp : p.Asks P Q) (hf : ∀ a, Q a → (f a).Asks P Q') : (p >>= f).Asks P Q' := by
  show (p.bind f).Asks P Q'
  induction p with
  | ret a => exact hf a hp
  | op o k ih => exact ⟨hp.1, fun x => ih x (hp.2 x) hf⟩
  | frame l body revert k _ ih => exact Asks.mono (p := body) hp fun b hb => ih b hb hf

theorem Asks.of_forall {P : Op → Prop} (hP : ∀ o, P o) (p : Prog Op Resp L α) : p.Asks P fun _ => True := by
  induction p with
  | ret a => trivial
  | op o k ih => exact ⟨hP o, ih⟩
  | frame l body revert k ihb ih => exact Asks.mono (p := body) ihb fun b _ => ih b

/-! ## Induction rules -/

section Rules

variable {P : Op → Prop} {Q : α → Prop} {R : σ → σ → Prop}

theorem visits_run (p : Prog Op Resp L α) (s : σ) : p.Visits h s (p.run h s).2 := by
  induction p generalizing s with
  | ret a => rfl
  | op o k ih => exact .inr (ih _ _)
  | frame l body revert k ihb ih => exact .inr (.inr (ih _ _))

theorem Asks.result {p : Prog Op Resp L α} (hp : p.Asks P Q) (s : σ) : Q (p.run h s).1 := by
  induction p generalizing s with
  | ret a => exact hp
  | op o k ih => exact ih _ (hp.2 _) _
  | frame l body revert k ihb ih => exact ih _ (ihb hp _) _

/-- A preorder that operations, marks and undone frames respect relates a state to all that are visited
from it. -/
theorem Visits.rel (hrefl : ∀ s, R s s) (htrans : ∀ a b c, R a b → R b c → R a c)
    (hop : ∀ o s, P o → R s (h.exec o s).2) (hmark : ∀ s, R s (h.mark s).2)
    (hundo : ∀ s t, R (h.mark s).2 t → R s (h.undo (h.mark s).1 t))
    {p : Prog Op Resp L α} (hp : p.Asks P Q) {s t : σ} (hv : p.Visits h s t) : R s t := by
  induction p generalizing s t with
  | ret a =>
    cases hv
    exact hrefl s
  | op o k ih =>
    rcases hv with rfl | hv
    · exact hrefl _
    · exact htrans _ _ _ (hop o s hp.1) (ih _ (hp.2 _) hv)
  | frame l body revert k ihb ih =>
    have hbody := ihb hp (visits_run body (h.mark s).2)
    rcases hv with rfl | hv | hv
    · exact hrefl _
    · exact htrans _ _ _ (hmark s) (ihb hp hv)
    · refine htrans _ _ _ ?_ (ih _ (Asks.result (p := body) hp _) hv)
      split
      · exact hundo s _ hbody
      · exact htrans _ _ _ (hmark s) hbody

end Rules

/-! ## Kept events -/

section Kept

variable {γ : Type} {f : σ → γ}

theorem Asks.kept {P : Op → Prop} {p : Prog Op Resp L α} {Q : α → Prop} (hp : p.Asks P Q) {l l' : Option L} {s u : σ}
    {o : Op} (ho : .op l' u o ∈ p.kept h l s) : P o := by
  induction p generalizing l s with
  | ret a => cases ho
  | op o' k ih =>
    rcases List.mem_cons.mp ho with heq | ho
    · cases heq
      exact hp.1
    · exact ih _ (hp.2 _) ho
  | frame l₁ body revert k ihb ih =>
    simp only [Prog.kept, List.mem_append] at ho
    rcases ho with ho | ho
    · split at ho
      · cases ho
      · rcases List.mem_cons.mp ho with heq | ho
        · cases heq
        · exact ihb hp ho
    · exact ih _ (Asks.result (p := body) hp _) ho

/-- A kept operation was performed in the outermost frame or in one that was entered and kept. -/
theorem enter_mem_kept {p : Prog Op Resp L α} {l : Option L} {l' : L} {s u : σ} {o : Op}
    (ho : .op (some l') u o ∈ p.kept h l s) : l = some l' ∨ .enter l' ∈ p.kept h l s := by
  induction p generalizing l s with
  | ret a => cases ho
  | op o' k ih =>
    rcases List.mem_cons.mp ho with heq | ho
    · cases heq
      exact .inl rfl
    · exact (ih _ ho).imp_right (List.mem_cons_of_mem _)
  | frame l₁ body revert k ihb ih =>
    simp only [Prog.kept, List.mem_append] at ho ⊢
    rcases ho with ho | ho
    · split at ho
      · cases ho
      · rename_i hr
        rw [if_neg hr]
        rcases List.mem_cons.mp ho with heq | ho
        · cases heq
        · rcases ihb ho with heq | hmem
          · cases heq
            exact .inr (.inl List.mem_cons_self)
          · exact .inr (.inl (List.mem_cons_of_mem _ hmem))
    · exact (ih _ ho).imp_right .inr

/-- Between the events of the list, and before and after them, `f` does not change. -/
def Chain (h : Handler Op Resp σ) (f : σ → γ) : σ → List (Event Op L σ) → σ → Prop
  | s, [], t => f t = f s
  | s, .op _ u o :: es, t => f u = f s ∧ Chain h f (h.exec o u).2 es t
  | s, .enter _ :: es, t => Chain h f s es t

theorem Chain.append {es es' : List (Event Op L σ)} {s t u : σ} (h₁ : Chain h f s es t) (h₂ : Chain h f t es' u) :
    Chain h f s (es ++ es') u := by
  induction es generalizing s with
  | nil =>
    have hst : f t = f s := h₁
    -- only the value at the first state matters
    clear h₁
    induction es' with
    | nil => exact (show f u = f t from h₂).trans hst
    | cons e es' ih =>
      cases e with
      | op l v o => exact ⟨h₂.1.trans hst, h₂.2⟩
      | enter l => exact ih h₂
  | cons e es ih =>
    cases e with
    | op l v o => exact ⟨h₁.1, ih h₁.2⟩
    | enter l => exact ih h₁

theorem Chain.of_append {es es' : List (Event Op L σ)} {s u : σ} (hc : Chain h f s (es ++ es') u) :
    ∃ t, Chain h f s es t ∧ Chain h f t es' u := by
  induction es generalizing s with
  | nil => exact ⟨s, rfl, hc⟩
  | cons e es ih =>
    cases e with
    | op l v o =>
      obtain ⟨t, h₁, h₂⟩ := ih hc.2
      exact ⟨t, ⟨hc.1, h₁⟩, h₂⟩
    | enter l =>
      obtain ⟨t, h₁, h₂⟩ := ih hc
      exact ⟨t, h₁, h₂⟩

theorem Chain.persists {F : γ → Prop} {es : List (Event Op L σ)} {s t : σ} (hc : Chain h f s es t)
    (hop : ∀ l u o, .op l u o ∈ es → F (f u) → F (f (h.exec o u).2)) (hs : F (f s)) : F (f t) := by
  induction es generalizing s with
  | nil => exact (show f t = f s from hc) ▸ hs
  | cons e es ih =>
    cases e with
    | op l v o =>
      refine ih hc.2 (fun l u o ho => hop l u o (List.mem_cons_of_mem _ ho)) (hop l v o List.mem_cons_self ?_)
      exact hc.1 ▸ hs
    | enter l => exact ih hc (fun l u o ho => hop l u o (List.mem_cons_of_mem _ ho)) hs

/-- What holds at the end held at the start, or an operation of the list brought it about. -/
theorem Chain.cause {F : γ → Prop} {es : List (Event Op L σ)} {s t : σ} (hc : Chain h f s es t) (ht : F (f t)) :
    F (f s) ∨ ∃ es₁ l u o es₂, es = es₁ ++ .op l u o :: es₂ ∧ ¬F (f u) ∧ F (f (h.exec o u).2) := by
  induction es generalizing s with
  | nil => exact .inl ((show f t = f s from hc) ▸ ht)
  | cons e es ih =>
    cases e with
    | op l v o =>
      rcases ih hc.2 with hv | ⟨es₁, l', u, o', es₂, rfl, hu⟩
      · by_cases hF : F (f v)
        · exact .inl (hc.1 ▸ hF)
        · exact .inr ⟨[], l, v, o, es, rfl, hF, hv⟩
      · exact .inr ⟨.op l v o :: es₁, l', u, o', es₂, rfl, hu⟩
    | enter l =>
      rcases ih hc with hv | ⟨es₁, l', u, o', es₂, rfl, hu⟩
      · exact .inl hv
      · exact .inr ⟨.enter l :: es₁, l', u, o', es₂, rfl, hu⟩

/-- What marks and undone frames leave unchanged changes only by the kept events of a run. -/
theorem kept_chain (hmark : ∀ s, f (h.mark s).2 = f s)
    (hundo : ∀ {β : Type} (body : Prog Op Resp L β) (s : σ),
      f (h.undo (h.mark s).1 (body.run h (h.mark s).2).2) = f s)
    (l : Option L) (p : Prog Op Resp L α) (s : σ) : Chain h f s (p.kept h l s) (p.run h s).2 := by
  induction p generalizing l s with
  | ret a => rfl
  | op o k ih => exact ⟨rfl, ih _ _ _⟩
  | frame l' body revert k ihb ih =>
    simp only [kept, run]
    refine Chain.append ?_ (ih _ _ _)
    split
    · exact hundo body s
    · have hm : Chain h f s [.enter l'] (h.mark s).2 := hmark s
      exact hm.append (ihb _ _)

end Kept

/-! ## States with the events so far -/

/-- The run goes through the state `t`, and `es` are the events before it that were not undone. -/
def Reaches {α : Type} (h : Handler Op Resp σ) (l : Option L) :
    Prog Op Resp L α → σ → List (Event Op L σ) → σ → Prop
  | ret _, s, es, t => es = [] ∧ t = s
  | op o k, s, es, t => (es = [] ∧ t = s) ∨
      ∃ es', es = .op l s o :: es' ∧ (k (h.exec o s).1).Reaches h l (h.exec o s).2 es' t
  | frame l' body revert k, s, es, t =>
    let x := body.run h (h.mark s).2
    (es = [] ∧ t = s) ∨ (∃ es', es = .enter l' :: es' ∧ body.Reaches h (some l') (h.mark s).2 es' t) ∨
      ∃ es', es = (if revert x.1 then [] else .enter l' :: body.kept h (some l') (h.mark s).2) ++ es' ∧
        (k x.1).Reaches h l (if revert x.1 then h.undo (h.mark s).1 x.2 else x.2) es' t

theorem reaches_run (l : Option L) (p : Prog Op Resp L α) (s : σ) :
    p.Reaches h l s (p.kept h l s) (p.run h s).2 := by
  induction p generalizing l s with
  | ret a => exact ⟨rfl, rfl⟩
  | op o k ih => exact .inr ⟨_, rfl, ih _ _ _⟩
  | frame l' body revert k _ ih => exact .inr (.inr ⟨_, rfl, ih _ _ _⟩)

section Relation

variable {R : List (Event Op L σ) → σ → Prop} {P : Op → Prop}
  (hop : ∀ es l s o, P o → R es s → R (es ++ [.op l s o]) (h.exec o s).2)
  (hmark : ∀ es l s, R es s → R (es ++ [.enter l]) (h.mark s).2)
  (hundo : ∀ {β : Type} (body : Prog Op Resp L β) es s, R es s →
    R es (h.undo (h.mark s).1 (body.run h (h.mark s).2).2))
  {Q : α → Prop} {l : Option L} {s t : σ}

include hop hmark hundo

theorem Reaches.rel_append {p : Prog Op Resp L α} (hp : p.Asks P Q) {es₀ es : List (Event Op L σ)} (h₀ : R es₀ s)
    (hr : p.Reaches h l s es t) : R (es₀ ++ es) t := by
  induction p generalizing l es₀ es s t with
  | ret a =>
    obtain ⟨rfl, rfl⟩ := hr
    rwa [List.append_nil]
  | op o k ih =>
    rcases hr with ⟨rfl, rfl⟩ | ⟨es', rfl, hr⟩
    · rwa [List.append_nil]
    · rw [List.append_cons]
      exact ih _ (hp.2 _) (hop _ _ _ _ hp.1 h₀) hr
  | frame l' body revert k ihb ih =>
    have hk := fun s => Asks.result (h := h) (p := body) hp s
    rcases hr with ⟨rfl, rfl⟩ | ⟨es', rfl, hr⟩ | ⟨es', rfl, hr⟩
    · rwa [List.append_nil]
    · rw [List.append_cons]
      exact ihb hp (hmark _ _ _ h₀) hr
    · rw [← List.append_assoc]
      refine ih _ (hk _) ?_ hr
      split
      · rw [List.append_nil]
        exact hundo body _ _ h₀
      · rw [List.append_cons]
        exact ihb hp (hmark _ _ _ h₀) (reaches_run _ body _)

/-- A relation between events and states that operations and marks keep up and undone frames bring back. -/
theorem Reaches.rel {p : Prog Op Resp L α} (hp : p.Asks P Q) {es : List (Event Op L σ)} (h₀ : R [] s)
    (hr : p.Reaches h l s es t) : R es t := rel_append hop hmark hundo hp h₀ hr

end Relation

end Prog

end ZkOs.FrameProgram
