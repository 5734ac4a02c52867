import ZkOs.Bootloader.Within
import ZkOs.Exec.Trace

/-!
# The events that the execution of a transaction leaves behind

The laws of calls carried through the frames that the bootloader opens around them.

* `executeInFrame_keeps` : the execution of an L2 transaction, whatever its outcome.
-/

namespace ZkOs.Bootloader

open SysM

variable {env : Env} {machine : Machine} {C : B160 → Prop} {T : List IoEvent → Prop} {l : Option FrameLabel}
  {tx : L2Transaction}

section Execution

variable (law : TraceLaw env C T) (hC : ∀ q : ExternalCallRequest, hookFor machine q = none → C q.callee)
  (hfrom : C tx.fromAddress)

include law hC hfrom

theorem processDeployment_keeps (nonce : U64) :
    Keeps env T l (processDeployment env machine tx nonce) fun _ => True := by
  refine .ite (fun _ => .pure law.toComposes _) fun _ => law.bind_within .resources fun r _ =>
    .frame law.toComposes ?_
  refine .bind law.toComposes (law.runTillCompletion_keeps hC _ hfrom) (fun result _ => ?_) fun _ h => absurd trivial h
  cases result with
  | successful d => exact law.bind_within (.infiniteErgs (.readAccount _ trivial _ _)) fun _ _ => .pure law.toComposes _
  | failed d => exact .pure law.toComposes _
  | preparationStepFailed => exact .throw _

theorem processCall_keeps (destination : BitVec 160) :
    Keeps env T l (processCall machine tx destination) fun _ => True := by
  refine .bind law.toComposes (law.runSingleInteraction_keeps hC _ _ _ _ hfrom) (fun result _ => ?_)
    fun _ h => absurd trivial h
  cases result <;> exact .pure law.toComposes _

theorem executeOnClone_keeps (nonce : U64) : Keeps env T l (executeOnClone env machine tx nonce) fun _ => True := by
  unfold executeOnClone
  split
  · exact processDeployment_keeps law hC hfrom nonce
  · exact processCall_keeps law hC hfrom _

theorem transactionExecution_keeps (nonce : U64) (npp : U256) (v : ValidationResult) :
    Keeps env T l (transactionExecution env machine tx nonce npp v) fun _ => True := by
  refine .bind law.toComposes (.onClone (executeOnClone_keeps law hC hfrom nonce)) (fun _ _ => ?_)
    fun _ h => absurd trivial h
  refine law.bind_within .resources fun _ _ => law.bind_within (Q := fun _ => True) ?_ fun _ _ => .pure law.toComposes _
  exact .bind (getResourcesToChargeForPubdata_within _ _) fun _ _ => .pure _ trivial

/-- A fatal error undoes the frame of the execution, any other error ends the block. -/
theorem executeInFrame_keeps (nonce : U64) (npp : U256) (v : ValidationResult) :
    Keeps env T l (executeInFrame env machine tx nonce npp v) fun _ => True := by
  refine .bind law.toComposes (.attempt_frame law.toComposes
    ((transactionExecution_keeps law hC hfrom nonce npp v).mono fun _ _ => trivial)) (fun r _ => ?_)
    fun r hr => ⟨.plain C, ?_⟩
  · rcases r with e | _
    · cases e <;> first
        | exact .throw _
        | exact law.bind_within .exhaustErgs fun _ _ => .pure law.toComposes _
    · exact .pure law.toComposes _
  · rcases r with e | x
    · cases e <;> first | exact absurd (.inl rfl) hr | exact .throw _
    · exact absurd (.inr ⟨x, rfl⟩) hr

end Execution

end ZkOs.Bootloader
