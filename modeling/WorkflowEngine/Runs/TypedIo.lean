import WorkflowEngine.Engine.Backoff
import WorkflowEngine.Runs.Records

/-! Plain tasks with and without typed I/O.

    With `typed_io` an attempt of a plain task gets a copy of the step's params; without it, it gets
    the step's own mapping. A failed attempt that changes the mapping is then seen by the next one,
    or by the dead letter. Where no failed attempt does, the two executors make the same moves. -/

namespace WorkflowEngine
open Schemes Relation

variable {V P : Type}

/-- The public records of two executors are the same. -/
structure SameRecords (σ τ : RunState V P) : Prop where
  statuses : σ.statuses = τ.statuses
  results : σ.results = τ.results
  errors : σ.errors = τ.errors
  retryCounts : σ.retryCounts = τ.retryCounts
  deadLetters : σ.deadLetters = τ.deadLetters

variable [PyValue V]

/-- A keyword callable without a `run` attribute whose values are no `TaskResult`. -/
structure Task.Plain (task : Task V P) : Prop where
  noRun : task.run = none
  value : ∀ step n context p res p', task.call step n context p = (.ok res, p') →
    PyValue.taskResult? res = none

namespace WorkflowExecutor

variable (E : WorkflowExecutor V P)

/-- `WorkflowExecutor(config, registry, typed_io=b)`. -/
def withTypedIo (b : Bool) : WorkflowExecutor V P := { E with typedIo := some b }

def PlainTasks : Prop := ∀ name task, E.taskRegistry.get name = some task → task.Plain

/-- SPEC: `typed_io` cannot be told from the outside. In every order of moves both executors return
    with the same records; every attempt, counted from zero, and every dead letter has the declared
    params. -/
structure TypedIoInvisible : Prop where
  same : ∀ b ms σ deadlock,
    (E.withTypedIo b).runMoves ms (.loop (E.withTypedIo b).start ∅) = some (.done σ deadlock) →
    ∃ τ, (E.withTypedIo !b).runMoves ms (.loop (E.withTypedIo !b).start ∅) =
      some (.done τ deadlock) ∧ SameRecords σ τ
  declared : ∀ b σ, (E.withTypedIo b).Finishes σ → ∀ s ∈ E.config.steps, ∀ k context,
    .invoke s.id (k + 1) context ∈ σ.log → (E.withTypedIo b).paramsAt s context k = s.params
  letters : ∀ b σ, (E.withTypedIo b).Finishes σ → ∀ dl ∈ σ.deadLetters,
    ∃ s ∈ E.config.steps, s.id = dl.stepId ∧ dl.params = s.params

/-- If attempt number `k` raises on the declared params, it leaves them as they are. -/
def LeavesParams (s : StepConfig P) (k : ℕ) (context : Context V) : Prop :=
  ∀ exc p', (E.taskFn s).call s.id (k + 1) context s.params = (.error exc, p') → p' = s.params

/-- The attempts of a log leave the declared params when they raise. -/
def LogLeavesParams (log : List (Action V P)) : Prop :=
  ∀ s ∈ E.config.steps, ∀ k context, .invoke s.id (k + 1) context ∈ log → E.LeavesParams s k context

/-- Without typed I/O, no attempt that is made and raises changes its params. -/
def FailuresLeaveParams : Prop :=
  ∀ σ, (E.withTypedIo false).Finishes σ → E.LogLeavesParams σ.log

/-! ### One attempt -/

section Attempt
variable {E} {s : StepConfig P}

theorem invoke_untyped (n : ℕ) (context : Context V) (p : P) :
    (E.withTypedIo false).invoke s n context p = (E.taskFn s).call s.id n context p := rfl

/-- A plain task does the same through the adapter, but on a copy. -/
theorem PlainTasks.invoke_typed (h : E.PlainTasks) (n : ℕ) (context : Context V) (p : P) :
    (E.withTypedIo true).invoke s n context p =
      (((E.taskFn s).call s.id n context p).1, p) := by
  have htyped : (E.withTypedIo true).typed = true := rfl
  have hregistry : (E.withTypedIo true).taskRegistry = E.taskRegistry := rfl
  cases htask : E.taskRegistry.get s.task with
  | none => simp [WorkflowExecutor.invoke, htyped, hregistry, taskFn, TaskRunner.run, htask]
  | some task =>
    have hplain := h s.task task htask
    rcases hcall : task.call s.id n context p with ⟨exc | res, p'⟩
    · simp [WorkflowExecutor.invoke, htyped, hregistry, taskFn, TaskRunner.run, htask,
        hplain.noRun, hcall]
    · simp [WorkflowExecutor.invoke, htyped, hregistry, taskFn, TaskRunner.run, htask,
        hplain.noRun, hcall, hplain.value _ _ _ _ _ _ hcall, TaskResult.unwrap]

theorem PlainTasks.invoke_of_untyped (h : E.PlainTasks) {n : ℕ} {context : Context V} {p p' : P}
    {value : Except String V}
    (hcall : (E.withTypedIo false).invoke s n context p = (value, p')) :
    (E.withTypedIo true).invoke s n context p = (value, p) := by
  rw [h.invoke_typed, ← invoke_untyped, hcall]

/-- With typed I/O each attempt is handed the declared params. -/
theorem PlainTasks.paramsAt_typed (h : E.PlainTasks) (context : Context V) (k : ℕ) :
    (E.withTypedIo true).paramsAt s context k = s.params := by
  induction k with
  | zero => rfl
  | succ k ih => rw [paramsAt, ih, h.invoke_typed]

end Attempt

/-! ### One retry loop -/

section Loop
variable {E} {s : StepConfig P} {context : Context V}

/-- How a loop that has come to attempt number `attempt` ends: in its last attempt, number `k`, and
    with the params that this one leaves. -/
theorem attemptEnd_last_attempt (left attempt : ℕ) (p : P) (hp : p = E.paramsAt s context attempt) :
    ∃ k, (E.attemptEnd s context left attempt p).attempts = k + 1 ∧
      (E.attemptEnd s context left attempt p).value =
        (E.invoke s (k + 1) context (E.paramsAt s context k)).1 ∧
      (E.attemptEnd s context left attempt p).params = E.paramsAt s context (k + 1) ∧
      ∀ j, attempt ≤ j → j < k → E.Fails s context j := by
  induction left, attempt, p using E.attempt_induction s context with
  | ok left attempt p res p' h =>
    subst hp
    rw [attemptEnd_ok h]
    exact ⟨attempt, rfl, by rw [h], by rw [paramsAt, h], fun j hj hj' => by omega⟩
  | last attempt p exc p' h =>
    subst hp
    rw [attemptEnd_last h]
    exact ⟨attempt, rfl, by rw [h], by rw [paramsAt, h], fun j hj hj' => by omega⟩
  | retry left attempt p exc p' h ih =>
    obtain ⟨hf, hp'⟩ := fails_at hp h
    obtain ⟨k, hk, hvalue, hparams, hall⟩ := ih hp'
    rw [attemptEnd_retry h]
    refine ⟨k, hk, hvalue, hparams, fun j hj hj' => ?_⟩
    rcases Nat.eq_or_lt_of_le hj with rfl | hlt
    · exact hf
    · exact hall j hlt hj'

theorem ending_last_attempt (E : WorkflowExecutor V P) (s : StepConfig P) (context : Context V) :
    ∃ k, (E.ending s context).attempts = k + 1 ∧
      (E.ending s context).value = (E.invoke s (k + 1) context (E.paramsAt s context k)).1 ∧
      (E.ending s context).params = E.paramsAt s context (k + 1) ∧
      ∀ j < k, E.Fails s context j := by
  have hstart : s.params = E.paramsAt s context 0 := rfl
  obtain ⟨k, hk, hvalue, hparams, hall⟩ := attemptEnd_last_attempt s.retries 0 s.params hstart
  exact ⟨k, hk, hvalue, hparams, fun j hj => hall j (Nat.zero_le j) hj⟩

/-- SIMULATION: a loop on the declared params whose failed attempts leave them does the same with
    typed I/O. -/
theorem PlainTasks.attemptLoop_typed (h : E.PlainTasks) (live : Bool) (left attempt : ℕ) (p : P)
    (hp : p = s.params)
    (hleaves : ∀ k c, .invoke s.id (k + 1) c ∈
      ((E.withTypedIo false).attemptLoop s context live left attempt p).1 → E.LeavesParams s k c) :
    (E.withTypedIo true).attemptLoop s context live left attempt p =
      (E.withTypedIo false).attemptLoop s context live left attempt p := by
  induction left, attempt, p using (E.withTypedIo false).attempt_induction s context with
  | ok left attempt p res p' hcall =>
    rw [attemptLoop_ok hcall, attemptLoop_ok (h.invoke_of_untyped hcall)]
  | last attempt p exc p' hcall =>
    have htyped := h.invoke_of_untyped hcall
    subst hp
    rw [attemptLoop_last hcall] at hleaves
    have hkept : p' = s.params := hleaves attempt context (by simp) exc p' hcall
    rw [attemptLoop_last hcall, attemptLoop_last htyped, hkept]
  | retry left attempt p exc p' hcall ih =>
    have htyped := h.invoke_of_untyped hcall
    subst hp
    rw [attemptLoop_retry hcall] at hleaves
    have hkept : p' = s.params := hleaves attempt context (by simp) exc p' hcall
    have hrest := ih hkept fun k c hm => hleaves k c (by
      rw [List.mem_append, List.mem_cons]; exact Or.inr (Or.inr hm))
    have hbackoff : (E.withTypedIo true).backoff attempt = (E.withTypedIo false).backoff attempt :=
      rfl
    rw [attemptLoop_retry hcall, attemptLoop_retry htyped, hbackoff, ← hkept, hrest]

theorem PlainTasks.runWithRetry_typed (h : E.PlainTasks) (live : Bool)
    (hleaves : ∀ k c, .invoke s.id (k + 1) c ∈
      ((E.withTypedIo false).runWithRetry s context live).1 → E.LeavesParams s k c) :
    (E.withTypedIo true).runWithRetry s context live =
      (E.withTypedIo false).runWithRetry s context live :=
  h.attemptLoop_typed live s.retries 0 s.params rfl hleaves

end Loop

/-! ### One scheduling pass -/

section Pass
variable {E}

omit [PyValue V] in
theorem LogLeavesParams.mono {log log' : List (Action V P)} (h : E.LogLeavesParams log')
    (hp : log <+: log') : E.LogLeavesParams log :=
  fun s hs k context hm => h s hs k context (hp.subset hm)

theorem legacyStep_log (E : WorkflowExecutor V P) (p : Pass V P) (s : StepConfig P) :
    p.state.log <+: (E.legacyStep p s).state.log := by
  rw [legacyStep]
  cases gate p.state p.resolved s with
  | pass => exact List.prefix_rfl
  | skip => simp only [Pass.skip, acts_log]; exact List.prefix_append _ _
  | run =>
    simp only [runStep, acts_log, List.append_assoc]
    exact List.prefix_append _ _

theorem legacyFold_log (E : WorkflowExecutor V P) : ∀ (steps : List (StepConfig P)) (p : Pass V P),
    p.state.log <+: (steps.foldl E.legacyStep p).state.log
  | [], _ => List.prefix_rfl
  | s :: steps, p => (legacyStep_log E p s).trans (legacyFold_log E steps _)

theorem PlainTasks.legacyStep_typed (h : E.PlainTasks) {s : StepConfig P}
    (hs : s ∈ E.config.steps) (p : Pass V P)
    (hleaves : E.LogLeavesParams ((E.withTypedIo false).legacyStep p s).state.log) :
    (E.withTypedIo true).legacyStep p s = (E.withTypedIo false).legacyStep p s := by
  rw [legacyStep] at hleaves
  rw [legacyStep, legacyStep]
  cases hgate : gate p.state p.resolved s with
  | pass => rfl
  | skip => rfl
  | run =>
    rw [hgate] at hleaves
    simp only [runStep, acts_log] at hleaves
    have hstarted : (E.withTypedIo true).acts p.state (startActs s) =
        (E.withTypedIo false).acts p.state (startActs s) := rfl
    have hloop : (E.withTypedIo true).runWithRetry s
          ((E.withTypedIo false).acts p.state (startActs s)).results.get true =
        (E.withTypedIo false).runWithRetry s
          ((E.withTypedIo false).acts p.state (startActs s)).results.get true :=
      h.runWithRetry_typed true fun k c hm => hleaves s hs k c (by simp [hm])
    simp only [runStep, hstarted, hloop]
    rfl

/-- SIMULATION: a sequential pass. -/
theorem PlainTasks.legacyFold_typed (h : E.PlainTasks) : ∀ (steps : List (StepConfig P))
    (_ : ∀ s ∈ steps, s ∈ E.config.steps) (p : Pass V P),
    E.LogLeavesParams (steps.foldl (E.withTypedIo false).legacyStep p).state.log →
    steps.foldl (E.withTypedIo true).legacyStep p = steps.foldl (E.withTypedIo false).legacyStep p
  | [], _, _, _ => rfl
  | s :: steps, hsub, p, hleaves => by
      have hfirst := h.legacyStep_typed (hsub s List.mem_cons_self) p
        (hleaves.mono (legacyFold_log _ steps _))
      rw [List.foldl_cons, List.foldl_cons, hfirst]
      exact h.legacyFold_typed steps (fun t ht => hsub t (List.mem_cons_of_mem s ht)) _ hleaves

end Pass

/-! ### The actions still to come -/

/-- The submitted work that is not finished. -/
def Conf.jobs : Conf V P → List (Job V P)
  | .pool _ _ _ p => p.queue ++ p.busy
  | _ => []

/-- The action has been performed, or waits in the pool. -/
def Due (c : Conf V P) (a : Action V P) : Prop :=
  a ∈ (Conf.state c).log ∨ ∃ j ∈ Conf.jobs c, a ∈ j.acts

section Due
variable {E} {c c' : Conf V P} {a : Action V P}

/-- The job of one worker, or another one. -/
theorem mem_jobs_worker {α : Type} {queue l r : List α} {i j : α} :
    j ∈ queue ++ (l ++ i :: r) ↔ j = i ∨ j ∈ queue ++ (l ++ r) := by
  simp only [List.mem_append, List.mem_cons]
  tauto

/-- STEP: what is due stays due. -/
theorem Due.step (h : Due c a) (hc : E.Reaches c) (step : E.Step c c') : Due c' a := by
  rcases h with hm | ⟨j, hj, ha⟩
  · exact Or.inl (((running_of_reaches hc).step_log step).subset hm)
  cases turn_of_step step with
  | finish | pass | collect | enter => simp [Conf.jobs] at hj
  | submit => refine Or.inr ⟨j, ?_, ha⟩; simp only [Conf.jobs, List.mem_append] at hj ⊢; tauto
  | join _ queue busy => simp [Conf.jobs, queue, busy] at hj
  | take next =>
    refine Or.inr ⟨j, ?_, ha⟩
    simp only [Conf.jobs, next, List.mem_append, List.mem_cons, List.not_mem_nil, or_false] at hj ⊢
    tauto
  | work worker acts =>
    rw [Conf.jobs, worker, mem_jobs_worker] at hj
    rcases hj with rfl | hother
    · -- the worker's own job: its first action is performed, the others wait
      rw [acts, List.mem_cons] at ha
      rcases ha with rfl | ha
      · exact Or.inl (by simp [Conf.state])
      · exact Or.inr ⟨_, mem_jobs_worker.mpr (Or.inl rfl), ha⟩
    · exact Or.inr ⟨j, mem_jobs_worker.mpr (Or.inr hother), ha⟩
  | complete worker acts =>
    rw [Conf.jobs, worker, mem_jobs_worker] at hj
    rcases hj with rfl | hother
    · rw [acts] at ha; simp at ha
    · exact Or.inr ⟨j, hother, ha⟩

/-- RUN: what is due is performed in some run that returns. -/
theorem performed_of_due (hc : E.Reaches c) :
    ∃ σ, E.Finishes σ ∧ ∀ a, Due c a → a ∈ σ.log := by
  obtain ⟨σ, deadlock, hrun⟩ := exists_return hc
  refine ⟨σ, ⟨deadlock, ReflTransGen.trans hc hrun⟩, fun a ha => ?_⟩
  have hdue := Run.invariant (I := fun d => E.Reaches d ∧ Due d a)
    (fun _ _ hI step => ⟨hI.1.tail step, hI.2.step hI.1 step⟩) ⟨hc, ha⟩ hrun
  rcases hdue.2 with hm | ⟨j, hj, -⟩
  · exact hm
  · simp [Conf.jobs] at hj

end Due

/-! ### Lockstep -/

section Lockstep
variable {E}

/-- A sequential round of `execute`. -/
theorem next_pass {F : WorkflowExecutor V P} {σ : RunState V P} {resolved : Finset String}
    (hmore : resolved.card < F.total) (hmode : F.parallel = false) :
    F.next .main (.loop σ resolved) =
      some (F.endRound (F.runLegacyYamlOrder σ resolved).state
        (F.runLegacyYamlOrder σ resolved).resolved
        (F.runLegacyYamlOrder σ resolved).executed) := by
  simp [next, hmore, hmode]

omit [PyValue V] in
theorem endRound_log (F : WorkflowExecutor V P) (σ : RunState V P) (resolved : Finset String)
    (executed : Bool) : σ.log <+: (Conf.state (F.endRound σ resolved executed)).log := by
  unfold endRound
  split_ifs
  · exact List.prefix_append _ _
  · exact List.prefix_rfl

/-- The main thread at the head of the loop. -/
theorem PlainTasks.next_loop_typed (h : E.PlainTasks) (hleaves : E.FailuresLeaveParams)
    {σ : RunState V P} {resolved : Finset String}
    (hc : (E.withTypedIo false).Reaches (.loop σ resolved)) :
    (E.withTypedIo true).next .main (.loop σ resolved) =
      (E.withTypedIo false).next .main (.loop σ resolved) := by
  have hall : ∀ b, (E.withTypedIo b).total = E.total ∧ (E.withTypedIo b).parallel = E.parallel :=
    fun _ => ⟨rfl, rfl⟩
  by_cases hmore : resolved.card < E.total
  · cases hmode : E.parallel with
    | false =>
      have hnext := next_pass (F := E.withTypedIo false) (σ := σ) hmore hmode
      obtain ⟨τ, hτ, hlog⟩ := exists_finish (hc.tail ⟨.main, hnext⟩)
      have hpass : (E.withTypedIo true).runLegacyYamlOrder σ resolved =
          (E.withTypedIo false).runLegacyYamlOrder σ resolved :=
        h.legacyFold_typed E.config.steps (fun s hs => hs) { state := σ, resolved := resolved }
          ((hleaves τ hτ).mono ((endRound_log _ _ _ _).trans hlog))
      rw [hnext, next_pass (F := E.withTypedIo true) (σ := σ) hmore hmode, hpass]
      rfl
    | true =>
      simp only [next, (hall _).1, (hall _).2, hmode, if_pos hmore, if_true]
      rfl
  · simp only [next, (hall _).1, if_neg hmore]
    rfl

/-- The main thread inside `_run_parallel`. -/
theorem PlainTasks.next_pool_typed (h : E.PlainTasks) (hleaves : E.FailuresLeaveParams)
    {σ : RunState V P} {resolved : Finset String} {layer : List (StepConfig P)} {p : Pool V P}
    (hc : (E.withTypedIo false).Reaches (.pool σ resolved layer p)) :
    (E.withTypedIo true).next .main (.pool σ resolved layer p) =
      (E.withTypedIo false).next .main (.pool σ resolved layer p) := by
  cases hsub : p.toSubmit with
  | nil => simp only [next, hsub]; rfl
  | cons s rest =>
    have hnext : (E.withTypedIo false).next .main (.pool σ resolved layer p) =
        some (.pool σ resolved layer { p with
          toSubmit := rest, queue := p.queue ++ [(E.withTypedIo false).submit σ s] }) := by
      simp only [next, hsub]
    have hs : s ∈ E.config.steps := by
      obtain ⟨m, -, hrel⟩ := running_of_reaches hc
      cases hrel with
      | pool mode pooled =>
        exact pooled.mem s (pooled.toSubmit s (by rw [hsub]; exact List.mem_cons_self)).1
    obtain ⟨τ, hτ, hdue⟩ := performed_of_due (hc.tail ⟨.main, hnext⟩)
    -- the new work item is in the queue, so some run performs its attempts
    have hloop : (E.withTypedIo true).runWithRetry s σ.results.get false =
        (E.withTypedIo false).runWithRetry s σ.results.get false := by
      refine h.runWithRetry_typed false fun k c hm => hleaves τ hτ s hs k c (hdue _ ?_)
      exact Or.inr ⟨(E.withTypedIo false).submit σ s, by simp [Conf.jobs], hm⟩
    have hsubmit : (E.withTypedIo true).submit σ s = (E.withTypedIo false).submit σ s := by
      simp only [submit, hloop]
    rw [hnext]
    simp only [next, hsub, hsubmit]

/-- SIMULATION: from what a run without typed I/O reaches, both executors make the same moves. -/
theorem PlainTasks.next_typed (h : E.PlainTasks) (hleaves : E.FailuresLeaveParams) (m : Move)
    {c : Conf V P} (hc : (E.withTypedIo false).Reaches c) :
    (E.withTypedIo true).next m c = (E.withTypedIo false).next m c := by
  cases m with
  | main =>
    cases c with
    | loop σ resolved => exact h.next_loop_typed hleaves hc
    | pool σ resolved layer p => exact h.next_pool_typed hleaves hc
    | done σ deadlock => rfl
  | start => cases c <;> rfl
  | work i => cases c <;> rfl

theorem PlainTasks.runMoves_typed (h : E.PlainTasks) (hleaves : E.FailuresLeaveParams)
    (ms : List Move) :
    (E.withTypedIo true).runMoves ms (.loop (E.withTypedIo true).start ∅) =
      (E.withTypedIo false).runMoves ms (.loop (E.withTypedIo false).start ∅) :=
  Run.moves_congr (I := (E.withTypedIo false).Reaches) (fun m _ _ hc hm => hc.tail ⟨m, hm⟩)
    (fun m _ hc => h.next_typed hleaves m hc) ms .refl

end Lockstep

/-! ### The attempts and dead letters of a returned run -/

section Made
variable {E} {live : Bool} {log : List (Action V P)} {s : StepConfig P} {context : Context V}

omit [PyValue V] in
theorem mem_invoked {id : String} {n : ℕ} :
    (n, context) ∈ (own id log).filterMap Action.invoked? ↔ .invoke id n context ∈ log := by
  rw [List.mem_filterMap]
  constructor
  · rintro ⟨a, ha, hinv⟩
    obtain ⟨hlog, howner⟩ := (History.mem_proj Action.owner).mp ha
    cases a with
    | invoke id' n' context' =>
      obtain rfl : id' = id := Option.some.inj howner
      obtain ⟨rfl, rfl⟩ := Prod.mk.inj (Option.some.inj hinv)
      exact hlog
    | _ => cases hinv
  · exact fun hm => ⟨_, (History.mem_proj Action.owner).mpr ⟨hm, rfl⟩, rfl⟩

theorem Ran.invoke_mem (h : E.Ran live log s context) {k : ℕ}
    (hk : k < (E.ending s context).attempts) : .invoke s.id (k + 1) context ∈ log := by
  rw [← mem_invoked, h.own, runActs_invoked, List.mem_map]
  exact ⟨k + 1, List.mem_range'_1.mpr ⟨by omega, by omega⟩, rfl⟩

theorem Ended.ran_of_invoke (h : E.Ended live log) (hs : s ∈ E.config.steps) {k : ℕ}
    (hm : .invoke s.id (k + 1) context ∈ log) :
    E.Ran live log s context ∧ k < (E.ending s context).attempts := by
  rw [← mem_invoked] at hm
  cases h.closed s hs with
  | skipped hlog _ => rw [hlog] at hm; simp [skipActs, Action.invoked?] at hm
  | ran c hran _ =>
    rw [hran.own, runActs_invoked, List.mem_map] at hm
    obtain ⟨n, hn, he⟩ := hm
    obtain ⟨rfl, rfl⟩ := Prod.mk.inj he
    have hn' := List.mem_range'_1.mp hn
    exact ⟨hran, by omega⟩

/-- A dead letter is that of a step whose last attempt failed. -/
theorem Ended.letter_ran (h : E.Ended live log) {dl : DeadLetter P}
    (hdl : dl ∈ (E.replay log).deadLetters) : ∃ s ∈ E.config.steps, s.id = dl.stepId ∧
      ∃ context exc, E.Ran live log s context ∧ (E.ending s context).value = .error exc ∧
        dl.params = (E.ending s context).params := by
  obtain ⟨s, hs, hid, -⟩ := h.letter hdl
  have hin := mem_view_deadLetters.mpr ⟨hdl, hid.symm⟩
  refine ⟨s, hs, hid, ?_⟩
  cases h.closed s hs with
  | skipped _ hview => rw [hview] at hin; cases hin
  | ran context hran hview =>
    rw [hview, ranView, StepView.after] at hin
    cases hvalue : (E.ending s context).value with
    | ok res => rw [hvalue] at hin; cases hin
    | error exc =>
      rw [hvalue] at hin
      obtain rfl := List.mem_singleton.mp hin
      exact ⟨context, exc, hran, hvalue, rfl⟩

theorem Ran.letter_mem (h : E.Ran live log s context) (hs : s ∈ E.config.steps) {exc : String}
    (hvalue : (E.ending s context).value = .error exc) : ∃ dl ∈ (E.replay log).deadLetters,
      dl.stepId = s.id ∧ dl.params = (E.ending s context).params := by
  have hview := view_of_ran hs h
  rw [ranView, StepView.after, hvalue] at hview
  have hin : (⟨s.id, s.task, exc, (E.ending s context).attempts, (E.ending s context).params⟩ :
      DeadLetter P) ∈ ((E.replay log).view s.id).deadLetters := by
    rw [hview]; exact List.mem_singleton.mpr rfl
  exact ⟨_, (mem_view_deadLetters.mp hin).1, rfl, rfl⟩

/-- Failures that leave the declared params hand them on. -/
theorem paramsAt_untyped {k : ℕ} (hfails : ∀ j < k, (E.withTypedIo false).Fails s context j)
    (hleaves : ∀ j < k, E.LeavesParams s j context) :
    (E.withTypedIo false).paramsAt s context k = s.params := by
  induction k with
  | zero => rfl
  | succ k ih =>
    have hk := ih (fun j hj => hfails j (by omega)) fun j hj => hleaves j (by omega)
    obtain ⟨exc, hexc⟩ := hfails k (by omega)
    rw [hk] at hexc
    rw [paramsAt, hk]
    exact hleaves k (by omega) exc _ (Prod.ext hexc rfl)

end Made

/-! ### Whole executions -/

section Whole
variable {E}

theorem withTypedIo_ended (hacc : detectCycles E.config.steps = .ok ()) {b : Bool}
    {σ : RunState V P} (hσ : (E.withTypedIo b).Finishes σ) :
    (E.withTypedIo b).Ended (E.withTypedIo b).live σ.log ∧ (E.withTypedIo b).replay σ.log = σ :=
  ended_of_finishes (acyclic_of_accepted hacc) hσ

/-- Without typed I/O, failures that leave their params keep every attempt of a step at the declared
    ones, and what it leaves behind if it fails in the end. -/
theorem FailuresLeaveParams.ran (h : E.FailuresLeaveParams) {live : Bool} {σ : RunState V P}
    (hσ : (E.withTypedIo false).Finishes σ) {s : StepConfig P} (hs : s ∈ E.config.steps)
    {context : Context V} (hran : (E.withTypedIo false).Ran live σ.log s context) :
    (∀ k < ((E.withTypedIo false).ending s context).attempts,
      (E.withTypedIo false).paramsAt s context k = s.params) ∧
    ∀ exc, ((E.withTypedIo false).ending s context).value = .error exc →
      ((E.withTypedIo false).ending s context).params = s.params := by
  obtain ⟨k, hk, hvalue, hparams, hall⟩ := (E.withTypedIo false).ending_last_attempt s context
  have hleaves : ∀ j ≤ k, E.LeavesParams s j context := fun j hj =>
    h σ hσ s hs j context (hran.invoke_mem (by omega))
  refine ⟨fun j hj => paramsAt_untyped (fun i hi => hall i (by omega))
    fun i hi => hleaves i (by omega), fun exc hexc => ?_⟩
  rw [hparams]
  refine paramsAt_untyped (fun j hj => ?_) fun j hj => hleaves j (by omega)
  rcases Nat.eq_or_lt_of_le (Nat.le_of_lt_succ hj) with rfl | hlt
  · exact ⟨exc, by rw [← hvalue, hexc]⟩
  · exact hall j hlt

theorem PlainTasks.ending_typed (h : E.PlainTasks) (s : StepConfig P) (context : Context V) :
    ((E.withTypedIo true).ending s context).params = s.params := by
  obtain ⟨k, -, -, hparams, -⟩ := (E.withTypedIo true).ending_last_attempt s context
  rw [hparams, h.paramsAt_typed]

theorem invisible_of_leaves (hacc : detectCycles E.config.steps = .ok ()) (h : E.PlainTasks)
    (hleaves : E.FailuresLeaveParams) : E.TypedIoInvisible where
  same b ms σ deadlock hrun := by
    have hmoves := h.runMoves_typed hleaves ms
    cases b with
    | false => exact ⟨σ, hmoves.trans hrun, rfl, rfl, rfl, rfl, rfl⟩
    | true => exact ⟨σ, hmoves.symm.trans hrun, rfl, rfl, rfl, rfl, rfl⟩
  declared b σ hσ s hs k context hm := by
    cases b with
    | false =>
      obtain ⟨hran, hk⟩ := (withTypedIo_ended hacc hσ).1.ran_of_invoke hs hm
      exact (hleaves.ran hσ hs hran).1 k hk
    | true => exact h.paramsAt_typed context k
  letters b σ hσ dl hdl := by
    obtain ⟨hended, hreplay⟩ := withTypedIo_ended hacc hσ
    rw [← hreplay] at hdl
    obtain ⟨s, hs, hid, context, exc, hran, hvalue, hparams⟩ := hended.letter_ran hdl
    refine ⟨s, hs, hid, hparams.trans ?_⟩
    cases b with
    | false => exact (hleaves.ran hσ hs hran).2 exc hvalue
    | true => exact h.ending_typed s context

/-- An attempt that fails and changes its params shows in the next attempt, or in the dead letter. -/
theorem leaves_of_invisible (hacc : detectCycles E.config.steps = .ok ())
    (h : E.TypedIoInvisible) : E.FailuresLeaveParams := by
  intro σ hσ s hs k context hm exc p' hcall
  obtain ⟨hended, hreplay⟩ := withTypedIo_ended hacc hσ
  obtain ⟨hran, hk⟩ := hended.ran_of_invoke hs hm
  have hinvoke : (E.withTypedIo false).invoke s (k + 1) context
      ((E.withTypedIo false).paramsAt s context k) = (.error exc, p') := by
    rw [h.declared false σ hσ s hs k context hm]; exact hcall
  have hleft : (E.withTypedIo false).paramsAt s context (k + 1) = p' := by rw [paramsAt, hinvoke]
  rw [← hleft]
  rcases Nat.lt_or_ge (k + 1) ((E.withTypedIo false).ending s context).attempts with hnext | hlast
  · exact h.declared false σ hσ s hs (k + 1) context (hran.invoke_mem hnext)
  · -- the last attempt: its params are those of the dead letter
    obtain ⟨n, hn, hvalue, hparams, -⟩ := (E.withTypedIo false).ending_last_attempt s context
    obtain rfl : n = k := by omega
    obtain ⟨dl, hdl, hid, hdlp⟩ := hran.letter_mem hs (hvalue.trans (by rw [hinvoke]))
    rw [hreplay] at hdl
    obtain ⟨t, ht, htid, htp⟩ := h.letters false σ hσ dl hdl
    obtain rfl : t = s := eq_of_id_eq ht hs (htid.trans hid)
    rw [← hparams, ← hdlp, htp]

/-- EXACT: `typed_io` changes nothing for plain tasks exactly when no attempt made without it that
    raises changes the params it was handed. -/
theorem typedIo_invisible_iff (hacc : detectCycles E.config.steps = .ok ()) (h : E.PlainTasks) :
    E.TypedIoInvisible ↔ E.FailuresLeaveParams :=
  ⟨leaves_of_invisible hacc, invisible_of_leaves hacc h⟩

end Whole

/-! ### A task that takes its path out of its params -/

/-- One step with one retry. -/
def fetching (task : Task String (Dict String String)) :
    WorkflowExecutor String (Dict String String) where
  config :=
    { name := "fetching"
      steps := [{ id := "fetch", task := "fetch", retries := 1
                  params := Dict.ofList [("path", "data.csv")] }]
      uniqueStepIds := by decide }
  taskRegistry := Dict.ofList [("fetch", task)]

/-- `params.pop("path")`, and then a connection that fails on the first attempt. -/
def popThenFetch : Task String (Dict String String) where
  call _ n _ p :=
    match p.get "path" with
    | none => (.error "'path'", p)
    | some path => (if n = 1 then .error "timed out" else .ok path, p.erase "path")

/-- The same with a connection that does not fail. -/
def popAndFetch : Task String (Dict String String) where
  call _ _ _ p :=
    match p.get "path" with
    | none => (.error "'path'", p)
    | some path => (.ok path, p.erase "path")

theorem fetching_plain {task : Task String (Dict String String)} (hrun : task.run = none) :
    (fetching task).PlainTasks := by
  intro name t ht
  rw [fetching, Dict.get_ofList_iff _ (by simp), List.mem_singleton] at ht
  obtain rfl : t = task := (Prod.mk.inj ht).2
  exact ⟨hrun, fun _ _ _ _ _ _ _ => rfl⟩

theorem popAndFetch_invisible : (fetching popAndFetch).TypedIoInvisible := by
  refine (typedIo_invisible_iff rfl (fetching_plain rfl)).mpr fun σ _ s hs k context _ exc p' h => ?_
  obtain rfl := List.mem_singleton.mp hs
  cases h

/-- The second attempt finds no path without typed I/O, and the path with it. -/
theorem popThenFetch_visible : detectCycles (fetching popThenFetch).config.steps = .ok () ∧
    (fetching popThenFetch).PlainTasks ∧ ¬ (fetching popThenFetch).TypedIoInvisible := by
  refine ⟨rfl, fetching_plain rfl, fun h => ?_⟩
  have htyped : ∃ σ deadlock, ((fetching popThenFetch).withTypedIo true).runMoves [.main, .main]
      (.loop ((fetching popThenFetch).withTypedIo true).start ∅) = some (.done σ deadlock) ∧
      σ.statuses.get "fetch" = some .completed := ⟨_, _, rfl, rfl⟩
  obtain ⟨σ, deadlock, hσ, hcompleted⟩ := htyped
  obtain ⟨τ, hτ, hsame⟩ := h.same true _ _ _ hσ
  have hfailed : ((((fetching popThenFetch).withTypedIo false).runMoves [.main, .main]
      (.loop ((fetching popThenFetch).withTypedIo false).start ∅)).bind Conf.returned?).map
      (fun τ => τ.statuses.get "fetch") = some (some .failed) := rfl
  rw [show (!true) = false from rfl] at hτ
  rw [hτ] at hfailed
  have hτfailed : τ.statuses.get "fetch" = some .failed := Option.some.inj hfailed
  rw [← hsame.statuses, hcompleted] at hτfailed
  cases hτfailed

end WorkflowExecutor

end WorkflowEngine
