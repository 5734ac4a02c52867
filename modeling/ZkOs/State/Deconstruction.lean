import ZkOs.State.Frames

/-!
# Deployment and deconstruction marks

* `Io.marks` : in which transaction an account was deployed, and whether it is marked for
  deconstruction;
* `IoOp.exec_marks` : what each operation does to the marks;
* `finishTx_account`, `finishTx_slot` : the sweep at the end of a transaction, from the marks.
-/

namespace ZkOs

open History ZkOs.Action

/-! ## Marks -/

@[ext] structure Marks where
  deployedInTx : Option Nat
  deconstructed : Bool
  deriving DecidableEq

def AccountRecord.marks (r : AccountRecord) : Marks :=
  ⟨r.metadata.deployedInTx, decide (r.appearance = .deconstructed)⟩

def Marks.none : Marks := ⟨.none, false⟩

theorem FreshAccount.marks {r : AccountRecord} (h : FreshAccount r) : AccountRecord.marks r = .none := by
  simp [AccountRecord.marks, Marks.none, h.metadata, initialMetadata, h.not_deconstructed]

namespace Io

variable {env : Env} {sc : Scope} {io io' : Io}

def marks (io : Io) (a : B160) : Marks :=
  (io.accounts.cache.elems a).elim .none fun e => AccountRecord.marks e.current

theorem marks_of_elems {a : B160} {e : Element AccountRecord} (h : io.accounts.cache.elems a = some e) :
    io.marks a = AccountRecord.marks e.current := by
  rw [marks, h]
  rfl

theorem marks_congr {a : B160} (h : io'.accounts.cache.elems a = io.accounts.cache.elems a) :
    io'.marks a = io.marks a := by
  rw [marks, marks, h]

theorem marks_update (io : Io) (b : B160) (f : AccountRecord → AccountRecord) (a : B160) :
    (io.setAccounts (io.accounts.cache.update b f)).marks a =
      if a = b then (io.accounts.cache.elems b).elim .none fun e => AccountRecord.marks (f e.current) else io.marks a := by
  simp only [marks, setAccounts, HistoryMap.elems_update]
  split
  · rename_i h
    subst h
    rw [Function.update_self]
    rcases io.accounts.cache.elems a with _ | e
    · rfl
    · exact congrArg AccountRecord.marks (Element.current_update _ f e)
  · rename_i h
    rw [Function.update_of_ne h]

theorem marks_getOrInsert (io : Io) (b : B160) {r : AccountRecord} (hr : FreshAccount r) (a : B160) :
    (io.setAccounts (io.accounts.cache.getOrInsert b r)).marks a = io.marks a := by
  simp only [marks, setAccounts, HistoryMap.elems_getOrInsert]
  by_cases h : a = b
  · subst h
    rw [Function.update_self]
    rcases io.accounts.cache.elems a with _ | e
    · exact hr.marks
    · rfl
  · rw [Function.update_of_ne h]

theorem Step.marks_eq (hd : ¬sc.deploys) (hx : ¬sc.destroys) (h : Step env sc io io') (a : B160) :
    io'.marks a = io.marks a := by
  cases h with
  | insertAccount b hb e he r hr => exact marks_getOrInsert io b hr.fresh a
  | updateAccount b f hf =>
    rw [marks_update]
    split
    · rename_i hab
      subst hab
      rcases he : io.accounts.cache.elems a with _ | e
      · rw [marks, he]
        rfl
      · rw [marks_of_elems he]
        refine Marks.ext ((hf e.current).deployedInTx.resolve_left hd) ?_
        exact decide_eq_decide.mpr ((hf e.current).deconstructed.resolve_left hx)
    · rfl
  | _ => rfl

theorem Steps.marks_eq (hd : ¬sc.deploys) (hx : ¬sc.destroys) (h : Steps env sc io io') (a : B160) :
    io'.marks a = io.marks a := by
  induction h with
  | refl => rfl
  | tail _ hstep ih => exact (hstep.marks_eq hd hx a).trans ih

theorem Loads.marks_eq (h : Loads env io io') (a : B160) : io'.marks a = io.marks a := by
  rcases he : io.accounts.cache.elems a with _ | e
  · rcases he' : io'.accounts.cache.elems a with _ | e'
    · rw [marks, marks, he, he']
    · obtain ⟨r, hr, rfl⟩ := h.accounts.elems_none a e' he he'
      rw [marks_of_elems he', marks, he]
      exact hr.marks
  · exact marks_congr (by rw [h.accounts.elems_some a e he, he])

theorem beginNextTx_marks (io : Io) (a : B160) : io.beginNextTx.marks a = io.marks a := by
  simp only [marks, beginNextTx, HistoryMap.commit_elems]
  rcases io.accounts.cache.elems a with _ | e
  · rfl
  · exact congrArg AccountRecord.marks e.commit_current

end Io

/-! ## Operations -/

/-- Everything but deployments and deconstructions. -/
def Scope.unmarked : Scope := ⟨fun _ => True, fun _ => True, True, False, False, fun _ => True, True, True, True, True, True⟩

section Operations

variable {env : Env} {α β : Type} {s s' : Sys}

theorem Moves.marks_eq (h : Moves env .unmarked s s') (a : B160) : s'.io.marks a = s.io.marks a :=
  h.steps.marks_eq id id a

variable {sc : Scope} {a : B160} {m : IoM α} {f : α → IoM β} {E : Err → Prop} {io io' : Io}

theorem Io.Steps.elems_ne_none (h : Io.Steps env sc io io') (ha : io.accounts.cache.elems a ≠ none) :
    io'.accounts.cache.elems a ≠ none := by
  obtain ⟨e, he⟩ := Option.ne_none_iff_exists'.mp ha
  obtain ⟨e', he', -⟩ := (Io.Extends.of_steps h).accounts.elems_some a e he
  rw [he']
  exact Option.some_ne_none e'

theorem materializeAccount_ok {ee : ExecutionEnvironmentType} {b l : Bool}
    (h : materializeAccount env ee a b l s = (.ok (), s')) : s'.io.accounts.cache.elems a ≠ none := by
  obtain ⟨_, s₁, -, h₁⟩ := bind_ok.mp h
  obtain ⟨i, s₂, -, h₂⟩ := bind_ok.mp h₁
  have hsteps := ((@Io.Steps.admits env .unmarked s₂.io).warmUpAccount ee trivial b i).reached .refl h₂
  refine hsteps.1.elems_ne_none ?_
  obtain ⟨_, s₃, hg, h₃⟩ := bind_ok.mp h₂
  cases hg
  obtain ⟨e, s₄, he, -⟩ := bind_ok.mp h₃
  rw [(accountItem_ok he).1]
  exact Option.some_ne_none e

/-- An action that keeps the marks when it fails. -/
def FailsUnmarked (env : Env) (m : IoM α) : Prop := ∀ s e s', m s = (.error e, s') → Moves env .unmarked s s'

/-- The last change of a deployment. -/
structure DeploysAt (a : B160) (io io' : Io) : Prop where
  marks_self : io'.marks a = ⟨some io.accounts.currentTxId, (io.marks a).deconstructed⟩
  marks_of_ne : ∀ b, b ≠ a → io'.marks b = io.marks b

/-- The only change of a mark since `io` is the last one of a deployment, which is not made on a failure. -/
structure SetsCode (env : Env) (a : B160) (io : Io) (m : IoM α) : Prop where
  meets : ∀ s, Io.Steps env .unmarked io s.io →
    Meets m s (fun _ s' => Io.Steps env .unmarked io s'.io ∧ s'.res.Le s.res) fun _ s' => DeploysAt a io s'.io

namespace SetsCode

theorem failsUnmarked (h : ∀ io, SetsCode env a io m) : FailsUnmarked env m := by
  intro s e s' hrun
  obtain ⟨hsteps, hle⟩ := ((h s.io).meets s .refl).of_error hrun
  exact ⟨hsteps, hle⟩

theorem bind (hm : Runs (Io.Steps env .unmarked io) E m) (hf : ∀ x, SetsCode env a io (f x)) :
    SetsCode env a io (m >>= f) := by
  refine ⟨fun s hs => hm.bind_meets hs (fun _ _ h hle => ⟨h, hle⟩) fun x s' _ hs' hle => ?_⟩
  exact ((hf x).meets s' hs').mono (fun _ _ h => ⟨h.1, h.2.trans hle⟩) fun _ _ h => h

theorem get_bind {f : Sys → IoM β}
    (hf : ∀ s : Sys, s.io.accounts.currentTxId = io.accounts.currentTxId → SetsCode env a io (f s)) :
    SetsCode env a io (Action.get >>= f) := ⟨fun s hs => (hf s (Io.Extends.of_steps hs).accountsTx).meets s hs⟩

theorem load_bind {m : IoM Unit} {f : Unit → IoM β} (hm : Runs (Io.Steps env .unmarked io) E m)
    (hload : ∀ s s', m s = (.ok (), s') → s'.io.accounts.cache.elems a ≠ none)
    (hf : ∀ io₁ : Io, io₁.accounts.cache.elems a ≠ none → io₁.accounts.currentTxId = io.accounts.currentTxId →
      SetsCode env a io₁ (f ())) : SetsCode env a io (m >>= f) := by
  refine ⟨fun s hs => hm.bind_meets hs (fun _ _ h hle => ⟨h, hle⟩) fun _ s' hrun hs' hle => ?_⟩
  have htx := (Io.Extends.of_steps hs').accountsTx
  refine ((hf s'.io (hload s s' hrun) htx).meets s' .refl).mono (fun _ _ h => ⟨hs'.trans h.1, h.2.trans hle⟩) fun _ _ h => ?_
  refine ⟨?_, fun b hb => (h.marks_of_ne b hb).trans (hs'.marks_eq id id b)⟩
  rw [h.marks_self, htx, hs'.marks_eq id id]

theorem update (ha : io.accounts.cache.elems a ≠ none) {f : AccountProperties → AccountPropertiesMetadata →
      AccountProperties × AccountPropertiesMetadata}
    (hf : ∀ v m, (f v m).2.deployedInTx = some io.accounts.currentTxId) :
    SetsCode env a io (updateAccount a fun r => r.update f) := by
  refine ⟨fun s hs => ?_⟩
  have hmarks := Io.marks_update s.io a (fun r => r.update f)
  refine ⟨(hmarks a).trans ?_, fun b hb => (hmarks b).trans ?_⟩
  · obtain ⟨e, he⟩ := Option.ne_none_iff_exists'.mp (hs.elems_ne_none ha)
    rw [if_pos rfl, he, ← hs.marks_eq id id, Io.marks_of_elems he]
    refine Marks.ext (hf _ _) ?_
    exact decide_eq_decide.mpr (e.current.update_deconstructed f)
  · rw [if_neg hb, hs.marks_eq id id]

end SetsCode

theorem withInfiniteErgs_ok {a : α} (h : withInfiniteErgs m s = (.ok a, s')) :
    ∃ t, m { s with res := { s.res with ergs := BitVec.allOnes 64 } } = (.ok a, t) ∧ s'.io = t.io := by
  have ha : (withInfiniteErgs m s).1 = .ok a := by rw [h]
  have hs : (withInfiniteErgs m s).2 = s' := by rw [h]
  refine ⟨(m { s with res := { s.res with ergs := BitVec.allOnes 64 } }).2, Prod.ext ha rfl, ?_⟩
  rw [← hs]
  rfl

theorem deployCode_setsCode (ee : ExecutionEnvironmentType) (a : B160) (code : List UInt8) (io : Io) :
    SetsCode env a io (deployCode env ee a code) := by
  have h := @Io.Steps.admits env .unmarked io
  refine .bind (by cases ee <;> first | exact .pure _ | exact h.charge _) fun _ => .get_bind fun s htx => ?_
  refine .load_bind (.withInfiniteErgs (h.materializeAccount ee ⟨trivial, trivial⟩ false false)) (fun s s' hrun => ?_) ?_
  · obtain ⟨t, ht, hio⟩ := withInfiniteErgs_ok hrun
    rw [hio]
    exact materializeAccount_ok ht
  · intro io₁ ha htx₁
    have h := @Io.Steps.admits env .unmarked io₁
    refine .bind (h.require _) fun _ => .bind (h.charge _) fun _ => .bind (h.charge _) fun _ => ?_
    refine .bind (Io.Steps.storeBytecode trivial _ _ _) fun _ => .bind (h.charge _) fun _ => ?_
    exact .update ha fun _ _ => congrArg some (htx.trans htx₁.symm)

theorem setBytecodeDetails_setsCode (ee : ExecutionEnvironmentType) (a : B160) (ch oh : Bytes32) (l al ol : BitVec 32)
    (io : Io) : SetsCode env a io (setBytecodeDetails env ee a ch l al oh ol) := by
  refine .get_bind fun s htx => ?_
  refine .load_bind (Io.Steps.admits.materializeAccount ee ⟨trivial, trivial⟩ false false)
    (fun _ _ => materializeAccount_ok) fun io₁ ha htx₁ => ?_
  have h := @Io.Steps.admits env .unmarked io₁
  refine .bind (h.getPreimage _ _) fun code => .bind (h.require _) fun _ => .bind (h.charge _) fun _ => ?_
  refine .bind (Io.Steps.storeBytecode trivial _ _ _) fun _ => .bind (h.charge _) fun _ => ?_
  exact .update ha fun _ _ => congrArg some (htx.trans htx₁.symm)

/-- What `SELFDESTRUCT` at `a` does to the marks. -/
structure DestroysAt (a : B160) (inConstructor : Bool) (io io' : Io) : Prop where
  marks_self : io'.marks a = ⟨(io.marks a).deployedInTx, (io.marks a).deconstructed ||
    decide ((io.marks a).deployedInTx = some io.accounts.currentTxId ∨ inConstructor = true)⟩
  marks_of_ne : ∀ b, b ≠ a → io'.marks b = io.marks b

theorem DestroysAt.trans_marks {c : Bool} {io io' io'' : Io} (h : DestroysAt a c io io')
    (h' : ∀ x, io''.marks x = io'.marks x) : DestroysAt a c io io'' :=
  ⟨(h' a).trans h.marks_self, fun b hb => (h' b).trans (h.marks_of_ne b hb)⟩

/-- A failure before the account is marked leaves all marks; everything after it leaves the marks. -/
theorem markForDeconstruction_marks (ee : ExecutionEnvironmentType) (a b : B160) (c : Bool) (s : Sys) :
    Meets (markForDeconstruction env ee a b c) s
      (fun _ s' => (∀ x, s'.io.marks x = s.io.marks x) ∨ DestroysAt a c s.io s'.io)
      fun _ s' => DestroysAt a c s.io s'.io := by
  have h := @Io.Steps.admits env .unmarked s.io
  refine meets_get_bind.mpr ?_
  refine (h.materializeAccount ee ⟨trivial, trivial⟩ true false).bind_meets .refl ?_ fun _ s₁ _ hs₁ _ => ?_
  · exact fun _ _ h _ => .inl (h.marks_eq id id)
  refine (h.charge _).bind_meets hs₁ (fun _ _ h _ => .inl (h.marks_eq id id)) fun _ s₂ _ hs₂ _ => ?_
  refine (h.accountItem a).bind_meets hs₂ (fun _ _ h _ => .inl (h.marks_eq id id)) fun e s₃ hitem hs₃ _ => ?_
  obtain ⟨he, rfl⟩ := accountItem_ok hitem
  have hmarks := hs₃.marks_eq id id
  have hd : e.current.metadata.deployedInTx = (s.io.marks a).deployedInTx := by
    rw [← hmarks, Io.marks_of_elems he]
    rfl
  simp only [hd]
  -- the account is marked now
  refine .bind (Q := fun _ t => DestroysAt a c s.io t.io) ?_ fun _ t ht => ?_
  · split
    · rename_i hc
      have hu := Io.marks_update s₃.io a CacheRecord.deconstruct
      refine ⟨(hu a).trans ?_, fun x hx => (hu x).trans (by rw [if_neg hx, hmarks])⟩
      rw [if_pos rfl, he, decide_eq_true hc, Bool.or_true]
      exact Marks.ext hd rfl
    · rename_i hc
      refine ⟨?_, fun x _ => hmarks x⟩
      rw [hmarks, decide_eq_false hc, Bool.or_false]
  · have h := @Io.Steps.admits env .unmarked t.io
    have hpay := @Io.Steps.allowsPayments env .unmarked t.io trivial
    have hsame {s' : Sys} (hs' : Io.Steps env .unmarked t.io s'.io) : DestroysAt a c s.io s'.io :=
      ht.trans_marks (hs'.marks_eq id id)
    refine (Runs.meets (I := Io.Steps env .unmarked t.io) (E := fun _ => True) ?_ .refl).mono
      (fun _ _ h => .inr (hsame h)) fun _ _ h => hsame h
    refine .bind (.ite (h.transferNominalTokenValue (fun _ => trivial) hpay ee ⟨trivial, trivial⟩ ⟨trivial, trivial⟩ _ true)
      (.ite (.modifyIo (hpay a _ fun _ _ => ⟨rfl, rfl⟩)) (.pure _))) fun _ => ?_
    exact .bind (.ite (.bind (h.accountItem b) fun _ => .ite (h.charge _) (.pure _)) (.pure _)) fun _ => .pure _

end Operations

namespace IoOp

/-- The account whose code an operation sets. -/
def deploysAt : IoOp → Option B160
  | deployCode _ a _ | setBytecodeDetails _ a .. => some a
  | _ => none

def createsAt : IoOp → Option B160
  | deployCode _ a _ => some a
  | _ => none

/-- The account of a `SELFDESTRUCT`, and its constructor flag. -/
def destroysAt : IoOp → Option (B160 × Bool)
  | markForDeconstruction _ a _ c => some (a, c)
  | _ => none

end IoOp

namespace Io

variable {env : Env} {io : Io} {q : IoQuery}

theorem exec_deploysAt {a : B160} (hq : q.1.deploysAt = some a) (hs : q.Succeeds env io) :
    DeploysAt a io ((Io.handler env).exec q io).2 := by
  rcases q with ⟨o, r⟩
  obtain ⟨x, s', h⟩ := hs
  have hio : ((Io.handler env).exec (o, r) io).2 = s'.io := congrArg (fun y => y.2.io) h
  rw [hio]
  cases o with
  | deployCode ee b code =>
    cases hq
    exact ((deployCode_setsCode ee a code io).meets ⟨io, r⟩ .refl).of_ok h
  | setBytecodeDetails ee b ch l al oh ol =>
    cases hq
    exact ((setBytecodeDetails_setsCode ee a ch oh l al ol io).meets ⟨io, r⟩ .refl).of_ok h
  | _ => cases hq

theorem exec_destroysAt {a : B160} {c : Bool} (hq : q.1.destroysAt = some (a, c)) (hs : q.Succeeds env io) :
    DestroysAt a c io ((Io.handler env).exec q io).2 := by
  rcases q with ⟨o, r⟩
  cases o with
  | markForDeconstruction ee a' b c' =>
    cases hq
    obtain ⟨x, s', hx⟩ := hs
    have hio : ((Io.handler env).exec (.markForDeconstruction ee a b c, r) io).2 = s'.io := congrArg (fun y => y.2.io) hx
    rw [hio]
    exact (markForDeconstruction_marks ee a b c ⟨io, r⟩).of_ok hx
  | _ => cases hq

theorem exec_marks (env : Env) (io : Io) (q : IoQuery) :
    (∀ x, ((Io.handler env).exec q io).2.marks x = io.marks x) ∨
    (∃ a, q.1.deploysAt = some a ∧ DeploysAt a io ((Io.handler env).exec q io).2) ∨
    ∃ a c, q.1.destroysAt = some (a, c) ∧ DestroysAt a c io ((Io.handler env).exec q io).2 := by
  rcases q with ⟨o, r⟩
  have hdeploys : ∀ a, o.deploysAt = some a → FailsUnmarked env (o.exec env) →
      (∀ x, ((Io.handler env).exec (o, r) io).2.marks x = io.marks x) ∨
        DeploysAt a io ((Io.handler env).exec (o, r) io).2 := by
    intro a ha hfail
    rcases h : o.exec env ⟨io, r⟩ with ⟨e | x, s'⟩
    · refine .inl ?_
      have hio : ((Io.handler env).exec (o, r) io).2 = s'.io := congrArg (fun y => y.2.io) h
      rw [hio]
      exact (hfail _ _ _ h).marks_eq
    · exact .inr (exec_deploysAt (q := (o, r)) ha ⟨x, s', h⟩)
  cases o with
  | deployCode ee a code => exact (hdeploys a rfl (SetsCode.failsUnmarked (deployCode_setsCode ee a code))).imp_right fun h => .inl ⟨a, rfl, h⟩
  | setBytecodeDetails ee a ch l al oh ol =>
    have hfails := SetsCode.failsUnmarked (@setBytecodeDetails_setsCode env ee a ch oh l al ol)
    exact (hdeploys a rfl hfails).imp_right fun h => .inl ⟨a, rfl, h⟩
  | markForDeconstruction ee a b c =>
    have hmarks := @markForDeconstruction_marks env ee a b c ⟨io, r⟩
    rcases h : markForDeconstruction env ee a b c ⟨io, r⟩ with ⟨e | x, s'⟩
    all_goals have hio : ((Io.handler env).exec (.markForDeconstruction ee a b c, r) io).2 = s'.io :=
      congrArg (fun y => y.2.io) h
    all_goals rw [hio]
    · exact (hmarks.of_error h).imp_right fun h => .inr ⟨a, c, rfl, h⟩
    · exact .inr (.inr ⟨a, c, rfl, hmarks.of_ok h⟩)
  | _ =>
    refine .inl ((@Io.Steps.mono env _ .unmarked ?_ _ _ (Io.handler_steps env _ io)).marks_eq id id)
    exact ⟨fun _ _ => trivial, fun _ _ => trivial, fun _ => trivial, nofun, nofun, fun _ _ => trivial,
      fun _ => trivial, fun _ => trivial, fun _ => trivial, fun _ => trivial⟩

end Io

/-! ## The sweep -/

section Sweep

def sweepElement (e : Element AccountRecord) : Element AccountRecord :=
  if e.current.appearance = .deconstructed then e.mutateHead finishDeconstruction else e

theorem elems_sweepAccount (a : B160) (m : HistoryMap B160 AccountRecord) (c : StorageCache) :
    (sweepAccount a m c).1.elems = Function.update m.elems a ((m.elems a).map sweepElement) := by
  unfold sweepAccount
  rcases he : m.elems a with _ | e
  · simp only [Option.map_none]
    rw [← he, Function.update_eq_self]
  · simp only [Option.map_some, sweepElement]
    split
    · rw [HistoryMap.elems_mutateHead, he, Option.map_some]
    · rw [← he, Function.update_eq_self]

theorem sweepElement_idem (e : Element AccountRecord) : sweepElement (sweepElement e) = sweepElement e := by
  rcases e with ⟨i, c, _ | ⟨r, rs⟩⟩
  · unfold sweepElement
    split <;> simp_all [Element.mutateHead]
  · by_cases h : r.value.appearance = .deconstructed
    · simp [sweepElement, Element.current, Element.top, Element.mutateHead, finishDeconstruction, h,
        CacheRecord.update]
    · simp [sweepElement, Element.current, Element.top, h]

theorem elems_sweep (l : List (B160 × Nat)) (st : HistoryMap B160 AccountRecord × StorageCache) (a : B160) :
    (l.foldl (fun st p => sweepAccount p.1 st.1 st.2) st).1.elems a =
      if a ∈ l.map Prod.fst then (st.1.elems a).map sweepElement else st.1.elems a := by
  induction l generalizing st with
  | nil => rfl
  | cons p l ih =>
    rw [List.foldl_cons, ih, elems_sweepAccount]
    by_cases ha : a = p.1
    · subst ha
      simp only [Function.update_self, Option.map_map, List.map_cons, List.mem_cons, true_or, if_true]
      rw [show sweepElement ∘ sweepElement = sweepElement from funext sweepElement_idem, ite_self]
    · simp only [Function.update_of_ne ha, List.map_cons, List.mem_cons, ha, false_or]

theorem elems_foldl_update {K V : Type} [DecidableEq K] {f : V → V} {l : List K} {k : K} (hk : k ∉ l)
    (m : HistoryMap K V) : (l.foldl (fun m k => m.update k f) m).elems k = m.elems k := by
  induction l generalizing m with
  | nil => rfl
  | cons k' l ih =>
    rw [List.mem_cons, not_or] at hk
    rw [List.foldl_cons, ih hk.2, HistoryMap.elems_update, Function.update_of_ne hk.1]

theorem current_foldl_update {K V : Type} [DecidableEq K] {f : V → V} {P : V → Prop} (hf : ∀ v, P (f v)) {l : List K}
    {k : K} (m : HistoryMap K V) (hk : k ∈ l ∨ ∀ e, m.elems k = some e → P e.current) {e : Element V}
    (he : (l.foldl (fun m k => m.update k f) m).elems k = some e) : P e.current := by
  induction l generalizing m with
  | nil => exact hk.elim nofun fun h => h e he
  | cons k' l ih =>
    refine ih _ ?_ he
    by_cases hkk : k = k'
    · refine .inr fun e₁ he₁ => ?_
      rw [HistoryMap.elems_update, hkk, Function.update_self] at he₁
      obtain ⟨e₀, -, rfl⟩ := Option.map_eq_some_iff.mp he₁
      rw [Element.current_update]
      exact hf _
    · rcases hk with hk | hk
      · exact .inl ((List.mem_cons.mp hk).resolve_left hkk)
      · refine .inr fun e₁ he₁ => hk e₁ ?_
        rwa [HistoryMap.elems_update, Function.update_of_ne hkk] at he₁

variable {a : B160} {k : SlotKey} {c : StorageCache} {e : Element SlotRecord} {m : HistoryMap B160 AccountRecord}

theorem clearState_of_ne (hk : k.1 ≠ a) (c : StorageCache) :
    (clearState a c).cache.elems k = c.cache.elems k :=
  elems_foldl_update (k := k) (fun h => hk (by simpa using (List.mem_filter.mp h).2)) c.cache

theorem clearState_value (he : (clearState k.1 c).cache.elems k = some e) : e.current.value = 0 := by
  refine current_foldl_update (P := fun r : SlotRecord => r.value = 0) (fun _ => rfl) c.cache ?_ he
  by_cases hk : c.cache.elems k = none
  · exact .inr fun e₀ h₀ => nomatch hk.symm.trans h₀
  · exact .inl (List.mem_filter.mpr ⟨(c.cache.mem_keys k).mpr hk, decide_eq_true rfl⟩)

def Deconstructed (m : HistoryMap B160 AccountRecord) (a : B160) : Prop :=
  ∃ e, m.elems a = some e ∧ e.current.appearance = .deconstructed

theorem sweepAccount_slot_of_not (c : StorageCache) (h : ¬(k.1 = a ∧ Deconstructed m a))
    : (sweepAccount a m c).2.cache.elems k = c.cache.elems k := by
  unfold sweepAccount
  split
  · rename_i e he
    split
    · rename_i hd
      exact clearState_of_ne (fun hk => h ⟨hk, e, he, hd⟩) c
    · rfl
  · rfl

theorem sweepAccount_slot (h : Deconstructed m k.1) (he : (sweepAccount k.1 m c).2.cache.elems k = some e) :
    e.current.value = 0 := by
  obtain ⟨e₀, h₀, hd⟩ := h
  simp only [sweepAccount, h₀, hd, if_true] at he
  exact clearState_value he

theorem sweep_slot_of_not (l : List (B160 × Nat)) (st : HistoryMap B160 AccountRecord × StorageCache)
    (h : ¬(k.1 ∈ l.map Prod.fst ∧ Deconstructed st.1 k.1)) :
    (l.foldl (fun st p => sweepAccount p.1 st.1 st.2) st).2.cache.elems k = st.2.cache.elems k := by
  induction l generalizing st with
  | nil => rfl
  | cons p l ih =>
    rw [List.foldl_cons, ih, sweepAccount_slot_of_not]
    · rintro ⟨hk, hd⟩
      exact h ⟨by rw [hk]; exact List.mem_cons_self, hk ▸ hd⟩
    · rintro ⟨hk, e, he, hd⟩
      refine h ⟨List.mem_cons_of_mem _ hk, ?_⟩
      rw [elems_sweepAccount] at he
      by_cases hp : k.1 = p.1
      · -- a swept record that is still marked was marked before
        rw [hp, Function.update_self] at he
        obtain ⟨e₀, h₀, rfl⟩ := Option.map_eq_some_iff.mp he
        refine ⟨e₀, hp ▸ h₀, ?_⟩
        by_contra hn
        rw [sweepElement, if_neg hn] at hd
        exact hn hd
      · rw [Function.update_of_ne hp] at he
        exact ⟨e, he, hd⟩

theorem sweep_slot (l : List (B160 × Nat)) (st : HistoryMap B160 AccountRecord × StorageCache)
    (h : k.1 ∈ l.map Prod.fst ∧ Deconstructed st.1 k.1 ∨ ∀ e, st.2.cache.elems k = some e → e.current.value = 0)
    (he : (l.foldl (fun st p => sweepAccount p.1 st.1 st.2) st).2.cache.elems k = some e) : e.current.value = 0 := by
  induction l generalizing st with
  | nil => exact h.elim (fun h => nomatch h.1) fun h => h e he
  | cons p l ih =>
    refine ih (sweepAccount p.1 st.1 st.2) ?_ he
    by_cases hp : k.1 = p.1
    · refine .inr fun e₁ he₁ => ?_
      by_cases hd : Deconstructed st.1 k.1
      · rw [← hp] at he₁
        exact sweepAccount_slot hd he₁
      · rw [← hp, sweepAccount_slot_of_not _ fun h => hd h.2] at he₁
        exact h.elim (fun h => absurd h.2 hd) fun h => h e₁ he₁
    · rcases h with ⟨hk, e₀, h₀, hd⟩ | h
      · refine .inl ⟨(List.mem_cons.mp hk).resolve_left hp, e₀, ?_, hd⟩
        rw [elems_sweepAccount, Function.update_of_ne hp, h₀]
      · refine .inr fun e₁ he₁ => h e₁ ?_
        rwa [sweepAccount_slot_of_not _ fun h => hp h.1] at he₁

end Sweep

namespace Io

variable {io : Io} {a : B160}

structure MarkedSinceCommit (io : Io) (a : B160) : Prop where
  marked : (io.marks a).deconstructed = true
  pending : a ∈ io.accounts.cache.pending.map Prod.fst

theorem MarkedSinceCommit.deconstructed (h : io.MarkedSinceCommit a) : Deconstructed io.accounts.cache a := by
  have hm := h.marked
  rcases he : io.accounts.cache.elems a with _ | e
  · rw [marks, he] at hm
    exact nomatch hm
  · rw [marks_of_elems he] at hm
    exact ⟨e, he, of_decide_eq_true hm⟩

theorem finishTx_elems (io : Io) (a : B160) : io.finishTx.accounts.cache.elems a =
    if a ∈ io.accounts.cache.pending.map Prod.fst then (io.accounts.cache.elems a).map sweepElement
    else io.accounts.cache.elems a := elems_sweep _ (io.accounts.cache, io.storage) a

theorem finishTx_of_marked (h : io.MarkedSinceCommit a) :
    (∃ e, io.finishTx.accounts.cache.elems a = some e ∧ e.current.value = .trivial) ∧
      ∀ key e, io.finishTx.storage.cache.elems (a, key) = some e → e.current.value = 0 := by
  obtain ⟨e, he, hd⟩ := h.deconstructed
  refine ⟨⟨sweepElement e, ?_, ?_⟩, fun key e' he' => sweep_slot _ _ (.inl ⟨h.pending, e, he, hd⟩) he'⟩
  · rw [finishTx_elems, if_pos h.pending, he, Option.map_some]
  · -- the mark is in a record since the last commit, so there is a head record
    obtain ⟨p, hp, rfl⟩ := List.mem_map.mp h.pending
    obtain ⟨e', he', r, hr, -⟩ := io.accounts.cache.wf.pending_recent p hp
    cases he.symm.trans he'
    rw [sweepElement, if_pos hd]
    rcases e with ⟨i, c, _ | ⟨r₀, rs⟩⟩
    · exact nomatch hr
    · simp only [Element.current, Element.top] at hd
      simp [Element.mutateHead, Element.current, Element.top, finishDeconstruction, hd, CacheRecord.update]

theorem finishTx_of_not_marked (h : (io.marks a).deconstructed = false) :
    io.finishTx.accounts.cache.elems a = io.accounts.cache.elems a ∧
      ∀ key, io.finishTx.storage.cache.elems (a, key) = io.storage.cache.elems (a, key) := by
  have hd : ¬Deconstructed io.accounts.cache a := by
    rintro ⟨e, he, hd⟩
    rw [marks_of_elems he] at h
    exact absurd hd (of_decide_eq_false h)
  refine ⟨?_, fun key => sweep_slot_of_not _ (io.accounts.cache, io.storage) fun hk => hd hk.2⟩
  rw [finishTx_elems]
  rcases he : io.accounts.cache.elems a with _ | e
  · simp
  · have hn : sweepElement e = e := if_neg fun hn => hd ⟨e, he, hn⟩
    simp [hn]

theorem finishTx_marks (h : (io.marks a).deconstructed = true → io.MarkedSinceCommit a) :
    io.finishTx.marks a = ⟨(io.marks a).deployedInTx, false⟩ := by
  rcases hd : (io.marks a).deconstructed with _ | _
  · rw [marks_congr (finishTx_of_not_marked hd).1]
    exact Marks.ext rfl hd
  · obtain ⟨e, he, happ⟩ := (h hd).deconstructed
    have hswept : io.finishTx.accounts.cache.elems a = some (sweepElement e) := by
      rw [finishTx_elems, if_pos (h hd).pending, he, Option.map_some]
    rw [marks_of_elems hswept, marks_of_elems he, sweepElement, if_pos happ]
    obtain ⟨p, hp, rfl⟩ := List.mem_map.mp (h hd).pending
    obtain ⟨e', he', r, hr, -⟩ := io.accounts.cache.wf.pending_recent p hp
    cases he.symm.trans he'
    rcases e with ⟨i, c, _ | ⟨r₀, rs⟩⟩
    · exact nomatch hr
    · simp only [Element.current, Element.top] at happ
      simp [Element.mutateHead, Element.current, Element.top, finishDeconstruction, happ, CacheRecord.update,
        AccountRecord.marks]

end Io

end ZkOs
