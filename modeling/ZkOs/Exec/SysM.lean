import ZkOs.State.Io

/-!
# Programs with resources and errors

`SysM ε α` is the monad in which the runner, the hooks and the bootloader are written: a program over
the operations of the IO subsystem that passes the resources of the current frame along and may stop
with an error `ε`. The resources it reached stay visible after an error.

* `perform`, `pay`, `infiniteErgs`, `free` : operations and how they are paid for;
* `frame` : a part whose effects are undone if it ends in a failure;
* `SysM.run` : what such a program does to the state, with one rule per construction.
-/

namespace ZkOs

open FrameProgram

/-- A program that is given resources and returns what is left of them. -/
def SysM (ε α : Type) : Type 1 := Resources → Prog (Except ε α × Resources)

namespace SysM

variable {ε ε' α β : Type}

protected def bind (m : SysM ε α) (f : α → SysM ε β) : SysM ε β := fun r =>
  m r >>= fun x =>
    match x.1 with
    | .ok a => f a x.2
    | .error e => pure (.error e, x.2)

instance : Monad (SysM ε) where
  pure a := fun r => pure (.ok a, r)
  bind := SysM.bind

def throw (e : ε) : SysM ε α := fun r => pure (.error e, r)

def require (c : Prop) [Decidable c] (e : ε) : SysM ε Unit := if c then pure () else throw e

def resources : SysM ε Resources := fun r => pure (.ok r, r)

def setResources (r : Resources) : SysM ε Unit := fun _ => pure (.ok (), r)

def modifyResources (f : Resources → Resources) : SysM ε Unit := fun r => pure (.ok (), f r)

def perform (o : IoOp) : SysM Err o.Resp := fun r => .op (o, r) pure

def pay (c : Resources) : SysM Err Unit := fun r => pure (r.charge c)

/-- `with_infinite_ergs`: only native is charged. -/
def infiniteErgs (m : SysM ε α) : SysM ε α := fun r => do
  let x ← m { r with ergs := BitVec.allOnes 64 }
  pure (x.1, { x.2 with ergs := r.ergs })

/-- Paid from resources other than those of the frame. -/
def paidFrom (r : Resources) (m : SysM ε α) : SysM ε α := fun r₀ => do
  let x ← m r
  pure (x.1, r₀)

/-- Paid from `FORMAL_INFINITE` resources. -/
def free (m : SysM ε α) : SysM ε α := paidFrom .infinite m

/-- The result of `m`, error or not, as a value. -/
def attempt (m : SysM ε α) : SysM ε' (Except ε α) := fun r => do
  let x ← m r
  pure (.ok x.1, x.2)

def mapError (f : ε → ε') (m : SysM ε α) : SysM ε' α := fun r => do
  let x ← m r
  pure (x.1.mapError f, x.2)

/-- Runs `m` on a clone of the resources, which is dropped if `m` fails. -/
def onClone (m : SysM ε α) : SysM ε α := fun r => do
  let x ← m r
  pure (x.1, if x.1.toOption.isSome then x.2 else r)

/-- Runs `body` in a frame of its own and undoes it if the result says so. -/
def frame (l : FrameLabel) (failed : Except ε α → Bool) (body : SysM ε α) : SysM ε α := fun r =>
  .frame l (body r) (fun x => failed x.1) pure

def run (env : Env) (m : SysM ε α) : Action ε Sys α := fun s =>
  let x := (m s.res).run (Io.handler env) s.io
  (x.1.1, ⟨x.2, x.1.2⟩)

variable (env : Env)

@[simp] theorem run_pure (a : α) : (pure a : SysM ε α).run env = pure a := rfl

@[simp] theorem run_throw (e : ε) : (throw e : SysM ε α).run env = Action.throw e := rfl

theorem run_bind (m : SysM ε α) (f : α → SysM ε β) :
    (m >>= f).run env = m.run env >>= fun a => (f a).run env := by
  funext s
  show (let x := (m.bind f s.res).run (Io.handler env) s.io; ((x.1.1, ⟨x.2, x.1.2⟩) : Except ε β × Sys)) = _
  simp only [SysM.bind, Prog.run_bind, Action.bind_apply, run]
  rcases (m s.res).run (Io.handler env) s.io with ⟨⟨_ | a, r⟩, io⟩ <;> rfl

variable {env} in
theorem bind_run_ok {m : SysM ε α} {f : α → SysM ε β} {s s'' : Sys} {b : β} (h : (m >>= f).run env s = (.ok b, s'')) :
    ∃ a s', m.run env s = (.ok a, s') ∧ (f a).run env s' = (.ok b, s'') := by
  rw [run_bind] at h
  exact Action.bind_ok.mp h

@[simp] theorem run_perform (o : IoOp) : (perform o).run env = o.exec env := rfl

@[simp] theorem run_pay (c : Resources) : (pay c).run env = ZkOs.charge c := rfl

@[simp] theorem run_require (c : Prop) [Decidable c] (e : ε) :
    (require c e : SysM ε Unit).run env = Action.require c e := by
  unfold require Action.require
  split <;> rfl

section Apply

variable (m : SysM ε α) (s : Sys)

theorem run_resources : (resources : SysM ε Resources).run env s = (.ok s.res, s) := rfl

theorem run_setResources (r : Resources) : (setResources r : SysM ε Unit).run env s = (.ok (), ⟨s.io, r⟩) := rfl

theorem run_modifyResources (f : Resources → Resources) :
    (modifyResources f : SysM ε Unit).run env s = (.ok (), ⟨s.io, f s.res⟩) := rfl

theorem run_infiniteErgs : (infiniteErgs m).run env s =
    ((m.run env ⟨s.io, { s.res with ergs := BitVec.allOnes 64 }⟩).1,
      let t := (m.run env ⟨s.io, { s.res with ergs := BitVec.allOnes 64 }⟩).2
      ⟨t.io, { t.res with ergs := s.res.ergs }⟩) := by
  simp only [run, infiniteErgs, Prog.run_bind, Prog.run_pure]

theorem run_paidFrom (r : Resources) : (paidFrom r m).run env s =
    ((m.run env ⟨s.io, r⟩).1, ⟨(m.run env ⟨s.io, r⟩).2.io, s.res⟩) := by
  simp only [run, paidFrom, Prog.run_bind, Prog.run_pure]

theorem run_attempt : (attempt m : SysM ε' (Except ε α)).run env s = (.ok (m.run env s).1, (m.run env s).2) := by
  simp only [run, attempt, Prog.run_bind, Prog.run_pure]

theorem run_mapError (f : ε → ε') :
    (mapError f m).run env s = ((m.run env s).1.mapError f, (m.run env s).2) := by
  simp only [run, mapError, Prog.run_bind, Prog.run_pure]

variable {env m s} in
theorem mapError_ok {f : ε → ε'} {a : α} {s' : Sys} :
    (mapError f m).run env s = (.ok a, s') ↔ m.run env s = (.ok a, s') := by
  rw [run_mapError]
  rcases m.run env s with ⟨_ | b, t⟩ <;> simp [Except.mapError]

theorem run_onClone : (onClone m).run env s =
    ((m.run env s).1, ⟨(m.run env s).2.io,
      if (m.run env s).1.toOption.isSome then (m.run env s).2.res else s.res⟩) := by
  simp only [run, onClone, Prog.run_bind, Prog.run_pure]
  rfl

theorem run_frame (l : FrameLabel) (failed : Except ε α → Bool) : (frame l failed m).run env s =
    let x := m.run env ⟨s.io.startFrame.2, s.res⟩
    (x.1, ⟨if failed x.1 then (Io.handler env).undo s.io.startFrame.1 x.2.io else x.2.io, x.2.res⟩) := rfl

end Apply

end SysM

end ZkOs
