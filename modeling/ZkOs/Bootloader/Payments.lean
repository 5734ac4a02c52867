import ZkOs.Bootloader.Trace
import ZkOs.State.Balances

/-!
# What the bootloader pays and takes

Balances change by transfers between accounts, by the withdrawal hook, and by payments of the
bootloader: fees, refunds and mints.

* `Payment`, `payments` : the payments among the events that a run leaves behind;
* `Pays` : a run left exactly these payments, and each of them changed the balance of its account;
* `Paying` : the payments of the runs of a program that end well, with one rule per way of composing
  programs;
* `payments_law` : calls make no payments of the bootloader.
-/

namespace ZkOs

open History ZkOs.Action SysM

/-! ## Payments -/

structure Payment where
  account : B160
  amount : U256
  subtract : Bool
  deriving DecidableEq

/-- A frame in which accounts run code or hooks. -/
def FrameLabel.isCall : FrameLabel → Bool
  | call .. => true
  | _ => false

/-- A successful change of a balance outside of all calls. -/
def payment (env : Env) : IoEvent → Option Payment
  | .op l io (.updateBalance ee a amount subtract fee, r) =>
    if l.any FrameLabel.isCall = false ∧
        ((IoOp.updateBalance ee a amount subtract fee).exec env ⟨io, r⟩).1.toOption.isSome then
      some ⟨a, amount, subtract⟩
    else none
  | _ => none

/-- The payments of the bootloader, oldest first. -/
def payments (env : Env) (es : List IoEvent) : List Payment := es.filterMap (payment env)

/-- The balance of the account was changed by the amount, without a wrap, and nothing else was. -/
def Payment.Made (env : Env) (p : Payment) (io io' : Io) : Prop :=
  ∃ old new : U256, Io.SetsBalance env p.account old new io io' ∧
    if p.subtract then p.amount.toNat + new.toNat = old.toNat else new.toNat = old.toNat + p.amount.toNat

/-- The payments are these, and all of them were made. -/
structure Pays (env : Env) (es : List IoEvent) (ps : List Payment) : Prop where
  payments : payments env es = ps
  made : ∀ l io q p, .op l io q ∈ es → payment env (.op l io q) = some p → p.Made env io ((Io.handler env).exec q io).2

section Payments

variable {env : Env} {es es' : List IoEvent} {l : Option FrameLabel} {io : Io} {q : IoQuery}

theorem payments_append : payments env (es ++ es') = payments env es ++ payments env es' := List.filterMap_append

theorem payments_singleton (h : payment env (.op l io q) = none) : payments env [.op l io q] = [] :=
  List.filterMap_cons_none h

theorem payment_made {p : Payment} (h : payment env (.op l io q) = some p) :
    p.Made env io ((Io.handler env).exec q io).2 := by
  rcases q with ⟨o, r⟩
  cases o with
  | updateBalance ee a amount subtract fee =>
    simp only [payment] at h
    split at h
    · rename_i hok
      cases h
      rcases hx : (IoOp.updateBalance ee a amount subtract fee).exec env ⟨io, r⟩ with ⟨e | old, s'⟩
      · rw [hx] at hok
        exact absurd hok.2 Bool.false_ne_true
      · obtain ⟨new, hf, hset⟩ := updateNominalTokenValue_ok hx
        show Payment.Made env _ io (IoOp.exec env _ ⟨io, r⟩).2.io
        rw [hx]
        refine ⟨old, new, hset, ?_⟩
        cases subtract with
        | true => exact subBalance_ok hf
        | false => exact addBalance_ok hf
    · cases h
  | _ => cases h

theorem Pays.of_payments {ps : List Payment} (h : ZkOs.payments env es = ps) : Pays env es ps :=
  ⟨h, fun _ _ _ _ _ => payment_made⟩

theorem payments_of_unpaid (l : Option FrameLabel) (io : Io) (q : IoQuery) (h : ¬q.1.scope.pays) :
    payments env [.op l io q] = [] := by
  rcases q with ⟨o, r⟩
  cases o with
  | updateBalance => exact absurd trivial h
  | _ => exact payments_singleton rfl

theorem payments_of_call {f : FrameLabel} (hf : f.isCall = true) (io : Io) (q : IoQuery) :
    payments env [.op (some f) io q] = [] := by
  rcases q with ⟨o, r⟩
  cases o with
  | updateBalance => exact payments_singleton (if_neg fun h => Bool.false_ne_true (h.1.symm.trans hf))
  | _ => exact payments_singleton rfl

end Payments

/-! ## Calls -/

section Calls

variable {env : Env} {l : Option FrameLabel}

theorem payments_composes : Composes (payments env · = []) where
  nil := rfl
  append h h' := payments_append.trans (congrArg₂ _ h h')
  enter _ := rfl

variable {ε α : Type} {m : SysM ε α} {Q G : α → Prop}

theorem unpaid_within (hm : Within (.plain fun _ => True) m Q) :
    Keeps env (payments env · = []) l m G :=
  .of_within payments_composes (fun l io q h => payments_of_unpaid l io q h.pays) hm

theorem bind_unpaid {β : Type} {f : α → SysM ε β} {G : β → Prop} (hm : Within (.plain fun _ => True) m Q)
    (hf : ∀ a, Q a → Keeps env (payments env · = []) l (f a) G) :
    Keeps env (payments env · = []) l (m >>= f) G :=
  .bind_within payments_composes (fun l io q h => payments_of_unpaid l io q h.pays) hm hf

variable {f : FrameLabel} (hf : f.isCall = true)

include hf

theorem bind_burn_unpaid {k : SysM Err α} (value : U256) (hk : Keeps env (payments env · = []) (some f) k G) :
    Keeps env (payments env · = []) (some f) (burnNominalTokenValue value >>= fun _ => k) G := by
  refine .bind (G := fun _ => True) payments_composes ?_ (fun _ _ => hk) fun _ h => absurd trivial h
  refine .bind payments_composes (.attempt (G := fun _ => True) (.perform fun io r _ => payments_of_call hf io _))
    (fun r _ => ?_) fun r hr => ⟨.plain fun _ => True, ?_⟩
  · rcases r with e | _
    · cases e <;> exact .throw _
    · exact .pure payments_composes _
  · rcases r with e | a
    · cases e <;> exact .throw _
    · exact absurd ⟨a, rfl, trivial⟩ hr

theorem l2BaseTokenHookInner_unpaid (calldata : List UInt8) (caller : B160) (value : U256) (isStatic : Bool) :
    Keeps env (payments env · = []) (some f) (l2BaseTokenHookInner calldata caller value isStatic) (· ≠ none) := by
  have ho : (Scope.plain fun _ => True).Open := (Scope.plain_hasWords _).toOpen
  refine bind_unpaid (.pay _) fun _ _ => bind_unpaid (.require _ _) fun _ _ => ?_
  refine .ite (fun _ => .pure payments_composes _) fun _ => .ite (fun _ => ?_) fun _ => .ite (fun _ => ?_)
    fun _ => .pure payments_composes _
  · refine .ite (fun _ => .pure payments_composes _) fun _ => bind_burn_unpaid hf value ?_
    refine .ite (fun _ => .pure payments_composes _) fun _ => unpaid_within (Q := fun _ => True) ?_
    exact .bind (sendToL1Inner_within ho trivial _) fun _ _ => .bind (.emitEvent ho _ _ _ _) fun _ _ => .pure _ trivial
  · refine .ite (fun _ => .pure payments_composes _) fun _ => ?_
    split
    · exact .pure payments_composes _
    · refine .ite (fun _ => .pure payments_composes _) fun _ => bind_burn_unpaid hf value ?_
      refine unpaid_within (Q := fun _ => True) ?_
      refine .bind (.pay _) fun _ _ => .bind (sendToL1Inner_within ho trivial _) fun _ _ => .bind (.pay _) fun _ _ => ?_
      exact .bind (.emitEvent ho _ _ _ _) fun _ _ => .pure _ trivial

omit hf in
theorem payments_law : TraceLaw env (fun _ => True) (payments env · = []) where
  toComposes := payments_composes
  plain l io q h := payments_of_unpaid l io q h.pays
  transfer _ _ _ _ _ _ _ := payments_singleton rfl
  destroy _ _ _ _ _ _ _ _ _ := payments_singleton rfl
  deploy _ _ _ _ _ _ := payments_singleton rfl
  force _ _ _ _ _ _ _ _ _ _ := payments_singleton rfl
  withdraw _ _ _ calldata sender value isStatic := l2BaseTokenHookInner_unpaid rfl calldata sender value isStatic

end Calls

/-! ## Payments of programs -/

/-- The payments of every run that returns a value are as `R` says. -/
def Paying {ε α : Type} (env : Env) (l : Option FrameLabel) (m : SysM ε α) (R : α → List Payment → Prop) : Prop :=
  ∀ s a s', m.run env s = (.ok a, s') → R a (payments env (m.kept env l s))

namespace Paying

variable {ε ε' α β : Type} {env : Env} {l : Option FrameLabel} {m : SysM ε α} {R : α → List Payment → Prop}

theorem pure {a : α} (h : R a []) : Paying env l (Pure.pure a : SysM ε α) R := by
  intro s b s' hrun
  cases hrun
  exact h

theorem throw (e : ε) : Paying env l (SysM.throw e : SysM ε α) R := by
  intro s a s' h
  cases h

variable {f : α → SysM ε β} {R' : β → List Payment → Prop} {l' : FrameLabel} {failed : Except ε α → Bool}

theorem bind (hm : Paying env l m R) (hf : ∀ a ps, R a ps → Paying env l (f a) fun b ps' => R' b (ps ++ ps'))
    : Paying env l (m >>= f) R' := by
  intro s b s'' h
  rw [run_bind] at h
  obtain ⟨a, s', h₁, h₂⟩ := bind_ok.mp h
  rw [kept_bind_ok h₁, payments_append]
  exact hf a _ (hm s a s' h₁) s' b s'' h₂

theorem bind_within {Q : α → Prop} (hm : Within (.plain fun _ => True) m Q) (hf : ∀ a, Q a → Paying env l (f a) R')
    : Paying env l (m >>= f) R' := by
  refine bind (R := fun a ps => Q a ∧ ps = []) (fun s a s' h => ⟨hm.result h, ?_⟩) fun a ps h => ?_
  · exact unpaid_within (G := fun _ => True) hm s a s' h trivial
  · rw [h.2]
    exact hf a h.1

theorem then_within (hm : Paying env l m R)
    (hf : ∀ a, Within (.plain fun _ => True) (f a) fun b => ∀ ps, R a ps → R' b ps) : Paying env l (m >>= f) R' := by
  refine bind hm fun a ps h s b s' hrun => ?_
  show R' b (ps ++ _)
  rw [unpaid_within (G := fun _ => True) (hf a) s b s' hrun trivial, List.append_nil]
  exact (hf a).result hrun ps h

theorem of_keeps (hm : Keeps env (payments env · = []) l m fun _ => True) :
    Paying env l m fun _ ps => ps = [] := fun s a s' h => hm s a s' h trivial

theorem updateBalance {ee : ExecutionEnvironmentType} {a : B160} {amount : U256} {subtract fee : Bool}
    (hl : l.any FrameLabel.isCall = false) :
    Paying env l (perform (.updateBalance ee a amount subtract fee)) fun _ ps => ps = [⟨a, amount, subtract⟩] := by
  intro s old s' h
  refine List.filterMap_cons_some (if_pos ⟨hl, ?_⟩)
  rw [show (IoOp.updateBalance ee a amount subtract fee).exec env ⟨s.io, s.res⟩ = (.ok old, s') from h]
  rfl

theorem attempt (hm : Paying env l m R) :
    Paying env l (SysM.attempt m : SysM ε' (Except ε α)) fun x ps => ∀ a, x = .ok a → R a ps := by
  rintro s x s' h a rfl
  rw [run_attempt] at h
  rw [kept_attempt]
  exact hm s a s' (Prod.ext (Except.ok.inj (Prod.mk.inj h).1) (Prod.mk.inj h).2)

theorem mapError {g : ε → ε'} (hm : Paying env l m R) : Paying env l (SysM.mapError g m) R := by
  intro s a s' h
  rw [kept_mapError]
  exact hm s a s' (mapError_ok.mp h)

theorem infiniteErgs (hm : Paying env l m R) : Paying env l (SysM.infiniteErgs m) R := by
  intro s a s' h
  rw [run_infiniteErgs] at h
  rw [kept_infiniteErgs]
  exact hm _ a _ (Prod.ext (Prod.mk.inj h).1 rfl)

theorem paidFrom {r : Resources} (hm : Paying env l m R) : Paying env l (SysM.paidFrom r m) R := by
  intro s a s' h
  rw [run_paidFrom] at h
  rw [kept_paidFrom]
  exact hm _ a _ (Prod.ext (Prod.mk.inj h).1 rfl)

theorem ite {c : Prop} [Decidable c] {m' : SysM ε α} (hm : c → Paying env l m R) (hm' : ¬c → Paying env l m' R) :
    Paying env l (if c then m else m') R := by
  split
  · exact hm ‹_›
  · exact hm' ‹_›

/-- What an undone frame paid is undone with it. -/
theorem attempt_frame (hm : Paying env (some l') m R) :
    Paying env l (SysM.attempt (SysM.frame l' failed m) : SysM ε' (Except ε α)) fun x ps =>
      if failed x then ps = [] else ∀ a, x = .ok a → R a ps := by
  intro s x s' h
  rw [run_attempt, run_frame] at h
  rw [kept_attempt, kept_frame]
  have hx : (m.run env ⟨s.io.startFrame.2, s.res⟩).1 = x := Except.ok.inj (Prod.mk.inj h).1
  rw [hx]
  split
  · rfl
  · rintro a rfl
    exact hm _ a _ (Prod.ext hx rfl)

theorem frame (hm : Paying env (some l') m R) :
    Paying env l (SysM.frame l' failed m) fun a ps => if failed (.ok a) then ps = [] else R a ps := by
  intro s a s' h
  have hx : (SysM.attempt (SysM.frame l' failed m) : SysM ε (Except ε α)).run env s = (.ok (.ok a), s') := by
    rw [run_attempt, h]
  have hps := (attempt_frame hm : Paying env l _ _) s (.ok a) s' hx
  rw [kept_attempt] at hps
  split at hps
  · rw [if_pos ‹_›]
    exact hps
  · rw [if_neg ‹_›]
    exact hps a rfl

end Paying

end ZkOs
