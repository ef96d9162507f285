import WorkflowEngine.Runs.Records

/-! The reference semantics of a workflow.

    A step's outcome is computed from the outcomes of its ancestors alone, by recursion over the
    graph: skipped if its condition is false on its source's result, otherwise the first successful
    attempt among those allowed, or the last error. When the tasks of a workflow look at nothing but
    their ancestors' results, every run of it ends in the reference outcomes: in either mode, with
    any number of workers, in any interleaving, and for any order of the definition's list. -/

namespace WorkflowEngine
open Schemes Relation

variable {V P : Type}

/-- How a step ends; `retries` counts the failed attempts. -/
inductive Outcome (V P : Type) where
  | skipped
  | completed (res : V) (retries : ℕ)
  | failed (error : String) (retries : ℕ) (params : P)

namespace Outcome

def status : Outcome V P → Status
  | .skipped => .skipped
  | .completed _ _ => .completed
  | .failed _ _ _ => .failed

def result? : Outcome V P → Option V
  | .completed res _ => some res
  | _ => none

def error? : Outcome V P → Option String
  | .failed error _ _ => some error
  | _ => none

def retryCount : Outcome V P → ℕ
  | .skipped => 0
  | .completed _ n | .failed _ n _ => n

def letter? (s : StepConfig P) : Outcome V P → Option (DeadLetter P)
  | .failed error n params => some ⟨s.id, s.task, error, n, params⟩
  | _ => none

/-- The outcome of a retry loop. -/
def ofEnding (o : Ending V P) : Outcome V P :=
  match o.value with
  | .ok res => .completed res (o.attempts - 1)
  | .error exc => .failed exc o.attempts o.params

/-- The records of step `s` show the outcome. -/
structure Shows (s : StepConfig P) (o : Outcome V P) (w : StepView V P) : Prop where
  status : w.status = some o.status
  result : w.result = o.result?
  error : w.error = o.error?
  retryCount : w.retryCount = some o.retryCount
  letters : w.deadLetters = (o.letter? s).toList

end Outcome

/-- For `step` the task looks at the visible entries of its context only. -/
structure Task.LocalTo (task : Task V P) (step : String) (visible : String → Prop) : Prop where
  call : ∀ n p (c c' : Context V), (∀ d, visible d → c d = c' d) →
    task.call step n c p = task.call step n c' p
  run : ∀ f, task.run = some f → ∀ n p (c c' : Context V), (∀ d, visible d → c d = c' d) →
    f step n ⟨c, p⟩ = f step n ⟨c', p⟩

namespace WorkflowExecutor

variable (E : WorkflowExecutor V P)

/-- Every task looks at its step's ancestors only. -/
def LocalTasks : Prop :=
  ∀ s ∈ E.config.steps, ∀ task, E.taskRegistry.get s.task = some task →
    task.LocalTo s.id fun d => E.Ancestor d s.id

/-- `E'` runs the steps of `E` in some order with the same tasks. Mode, limit, hook, trace and
    backoff may differ. -/
structure Reorders (E' E : WorkflowExecutor V P) : Prop where
  steps : E'.config.steps.Perm E.config.steps
  registry : E'.taskRegistry = E.taskRegistry
  typed : E'.typed = E.typed

section Views
variable {E} {E' : WorkflowExecutor V P} {s : StepConfig P}

theorem condition_ancestor (hs : s ∈ E.config.steps) {cond : StepCondition}
    (hc : s.condition = some cond) : E.Ancestor cond.step s.id :=
  .single ⟨s, hs, rfl, (s.mem_deps _).mpr (Or.inr ⟨cond, hc, rfl⟩)⟩

theorem find_step (hs : s ∈ E.config.steps) :
    (E.config.steps.find? fun t => t.id = s.id) = some s := by
  cases hf : E.config.steps.find? fun t => t.id = s.id with
  | none => exact absurd (List.find?_eq_none.mp hf s hs) (by simp)
  | some t =>
    have hid : t.id = s.id := by simpa using List.find?_some hf
    rw [eq_of_id_eq (List.mem_of_find?_eq_some hf) hs hid]

theorem filter_step (hs : s ∈ E.config.steps) :
    (E.config.steps.filter fun t => t.id = s.id) = [s] := by
  have hnodup : (E.config.steps.filter fun t => t.id = s.id).Nodup :=
    (List.Nodup.of_map _ E.config.uniqueStepIds).filter _
  refine List.perm_singleton.mp ((List.perm_ext_iff_of_nodup hnodup (List.nodup_singleton s)).mpr ?_)
  intro t
  rw [List.mem_filter, List.mem_singleton]
  constructor
  · rintro ⟨ht, hid⟩
    exact eq_of_id_eq ht hs (by simpa using hid)
  · rintro rfl
    exact ⟨hs, by simp⟩

theorem shows_skipped (s : StepConfig P) :
    Outcome.Shows s .skipped (skippedView E s) := ⟨rfl, rfl, rfl, rfl, rfl⟩

theorem shows_ranView (s : StepConfig P) (o : Ending V P) :
    Outcome.Shows s (Outcome.ofEnding o) (ranView E s o) := by
  rw [ranView, StepView.after, Outcome.ofEnding]
  cases o.value with
  | ok res => exact ⟨rfl, rfl, rfl, rfl, rfl⟩
  | error exc => exact ⟨rfl, rfl, rfl, rfl, rfl⟩

theorem ancestor_known (hdag : Acyclic E.config.steps) {d x : String} (h : E.Ancestor d x) :
    ∃ t ∈ E.config.steps, t.id = d := by
  obtain ⟨y, hdep, -⟩ := TransGen.head'_iff.mp h
  exact List.mem_map.mp (hdag.known d y hdep)

theorem Reorders.ancestor (h : E'.Reorders E) : E'.Ancestor = E.Ancestor := by
  funext d x
  rw [Ancestor, Ancestor, dep_perm h.steps]

end Views

variable [PyValue V]

/-! ### The recursion -/

/-- The attempt `k` places after attempt `a`, when the params are `p` by then. -/
def attemptFrom (s : StepConfig P) (context : Context V) : ℕ → P → ℕ → Except String V × P
  | a, p, 0 => E.invoke s (a + 1) context p
  | a, p, k + 1 => attemptFrom s context (a + 1) (E.invoke s (a + 1) context p).2 k

/-- The text of an attempt's exception. -/
def errorText : Except String V → String
  | .ok _ => ""
  | .error exc => exc

/-- The first success among the `left + 1` attempts after attempt `a`, or the last error. -/
def search (s : StepConfig P) (context : Context V) (left a : ℕ) (p : P) : Outcome V P :=
  match (List.range (left + 1)).findSome? fun k =>
      (E.attemptFrom s context a p k).1.toOption.map fun res => (res, a + k) with
  | some (res, n) => .completed res n
  | none => .failed (errorText (E.attemptFrom s context a p left).1) (a + left + 1)
      (E.attemptFrom s context a p left).2

/-- A step's outcome from the outcomes of the others. -/
def outcomeStep (id : String) (earlier : String → Option (Outcome V P)) : Option (Outcome V P) :=
  (E.config.steps.find? fun s => s.id = id).map fun s =>
    let results : Context V := fun d => (earlier d).bind Outcome.result?
    if holds s results then E.search s results s.retries 0 s.params else .skipped

/-- REFERENCE: the outcome of every step, by recursion over its ancestors. -/
noncomputable def reference (wf : WellFounded E.Ancestor) : String → Option (Outcome V P) :=
  Topological.solution wf E.outcomeStep

/-- The records of a run are those of the reference. -/
structure MatchesReference (wf : WellFounded E.Ancestor) (σ : RunState V P) : Prop where
  statuses : ∀ id, σ.statuses.get id = (E.reference wf id).map Outcome.status
  results : ∀ id, σ.results.get id = (E.reference wf id).bind Outcome.result?
  errors : ∀ id, σ.errors.get id = (E.reference wf id).bind Outcome.error?
  retryCounts : ∀ id, σ.retryCounts.get id = (E.reference wf id).map Outcome.retryCount
  deadLetters : σ.deadLetters.Perm
    (E.config.steps.filterMap fun s => (E.reference wf s.id).bind (Outcome.letter? s))

variable {E} {E' : WorkflowExecutor V P} {s : StepConfig P} {c c' : Context V}

/-! ### The loop finds the first success -/

theorem attemptEnd_search (left a : ℕ) (p : P) :
    Outcome.ofEnding (E.attemptEnd s c left a p) = E.search s c left a p := by
  induction left, a, p using E.attempt_induction s c with
  | ok left a p res p' h =>
    rw [attemptEnd_ok h, search, List.range_succ_eq_map, List.findSome?_cons]
    simp [attemptFrom, h, Outcome.ofEnding, Except.toOption]
  | last a p exc p' h =>
    rw [attemptEnd_last h, search]
    simp [attemptFrom, h, Outcome.ofEnding, Except.toOption, errorText]
  | retry left a p exc p' h ih =>
    have hnext : ∀ k, E.attemptFrom s c a p (k + 1) = E.attemptFrom s c (a + 1) p' k := by
      intro k
      rw [attemptFrom, h]
    have hfirst : (E.attemptFrom s c a p 0).1.toOption = none := by rw [attemptFrom, h]; rfl
    rw [attemptEnd_retry h, ih, search, search, List.range_succ_eq_map (n := left + 1),
      List.findSome?_cons, hfirst, List.findSome?_map]
    simp only [Option.map_none, Function.comp_def, hnext, Nat.add_right_comm, Nat.add_assoc,
      Nat.add_comm 1, Nat.succ_eq_add_one]

theorem ending_search (s : StepConfig P) (c : Context V) :
    Outcome.ofEnding (E.ending s c) = E.search s c s.retries 0 s.params :=
  attemptEnd_search s.retries 0 s.params

/-! ### What a step's outcome depends on -/

theorem attemptFrom_congr (h : ∀ n p, E'.invoke s n c p = E.invoke s n c' p) (k : ℕ) :
    ∀ (a : ℕ) (p : P), E'.attemptFrom s c a p k = E.attemptFrom s c' a p k := by
  induction k with
  | zero => intro a p; exact h (a + 1) p
  | succ k ih => intro a p; rw [attemptFrom, attemptFrom, h, ih]

theorem search_congr (h : ∀ n p, E'.invoke s n c p = E.invoke s n c' p) (left a : ℕ) (p : P) :
    E'.search s c left a p = E.search s c' left a p := by
  simp only [search, attemptFrom_congr h]

/-- A local task does the same on contexts that agree on the ancestors. -/
theorem LocalTasks.invoke (h : E.LocalTasks) (hs : s ∈ E.config.steps)
    (hc : ∀ d, E.Ancestor d s.id → c d = c' d) (n : ℕ) (p : P) :
    E.invoke s n c p = E.invoke s n c' p := by
  cases htask : E.taskRegistry.get s.task with
  | none => simp [WorkflowExecutor.invoke, taskFn, TaskRunner.run, htask]
  | some task =>
    have hlocal := h s hs task htask
    have hcall := hlocal.call n p c c' hc
    cases hrun : task.run with
    | none => simp [WorkflowExecutor.invoke, taskFn, TaskRunner.run, htask, hrun, hcall]
    | some f =>
      have hf := hlocal.run f hrun n p c c' hc
      simp [WorkflowExecutor.invoke, taskFn, TaskRunner.run, htask, hrun, hcall, hf]

theorem Reorders.invoke (h : E'.Reorders E) (n : ℕ) (p : P) :
    E'.invoke s n c p = E.invoke s n c p := by
  simp only [WorkflowExecutor.invoke, taskFn, h.registry, h.typed]

/-- A condition looks at its source only. -/
theorem holds_congr (h : ∀ cond, s.condition = some cond → c cond.step = c' cond.step) :
    holds s c = holds s c' := by
  cases hs : s.condition with
  | none => simp [holds, hs]
  | some cond => simp [holds, hs, StepCondition.evaluate, h cond hs]

theorem outcomeStep_local (h : E.LocalTasks) (id : String)
    (f g : String → Option (Outcome V P)) (hfg : ∀ d, E.Ancestor d id → f d = g d) :
    E.outcomeStep id f = E.outcomeStep id g := by
  rw [outcomeStep, outcomeStep]
  cases hf : E.config.steps.find? fun s => s.id = id with
  | none => rfl
  | some s =>
    have hs := List.mem_of_find?_eq_some hf
    obtain rfl : s.id = id := by simpa using List.find?_some hf
    have hc : ∀ d, E.Ancestor d s.id →
        (f d).bind Outcome.result? = (g d).bind Outcome.result? := fun d hd => by rw [hfg d hd]
    have hholds : holds s (fun d => (f d).bind Outcome.result?) =
        holds s fun d => (g d).bind Outcome.result? :=
      holds_congr fun cond hcond => hc cond.step (condition_ancestor hs hcond)
    have hsearch := search_congr (h.invoke hs hc) s.retries 0 s.params
    simp only [Option.map_some, hholds, hsearch]

/-- The results map of the reference. -/
noncomputable def referenceResults (E : WorkflowExecutor V P) (wf : WellFounded E.Ancestor) :
    Context V := fun d => (E.reference wf d).bind Outcome.result?

theorem reference_of_mem (h : E.LocalTasks) (wf : WellFounded E.Ancestor)
    (hs : s ∈ E.config.steps) : E.reference wf s.id =
      some (if holds s (E.referenceResults wf) then
        E.search s (E.referenceResults wf) s.retries 0 s.params else .skipped) := by
  rw [reference, Topological.solution_eq wf (outcomeStep_local h s.id), outcomeStep, find_step hs]
  rfl

theorem reference_unknown (h : E.LocalTasks) (wf : WellFounded E.Ancestor) {id : String}
    (hid : ∀ s ∈ E.config.steps, s.id ≠ id) : E.reference wf id = none := by
  have hf : (E.config.steps.find? fun s => s.id = id) = none :=
    List.find?_eq_none.mpr fun s hs => by simpa using hid s hs
  rw [reference, Topological.solution_eq wf (outcomeStep_local h id), outcomeStep, hf]
  rfl

/-! ### A run shows the reference -/

/-- STEP: a step shows its reference outcome when its ancestors do. -/
theorem shows_of_ancestors (h : E.LocalTasks) (wf : WellFounded E.Ancestor)
    (hre : E'.Reorders E) {live : Bool} {log : List (Action V P)} (hended : E'.Ended live log)
    (hs : s ∈ E.config.steps)
    (hanc : ∀ d, E.Ancestor d s.id → (E'.replay log).results.get d = E.referenceResults wf d) :
    ∃ o, E.reference wf s.id = some o ∧ Outcome.Shows s o ((E'.replay log).view s.id) := by
  have hs' := hre.steps.mem_iff.mpr hs
  obtain ⟨pre, a, post, he, ha, hpre⟩ := History.exists_first Action.owner
    (own_ne_nil_of_emit (hended.emitted s hs'))
  -- the condition was evaluated on the source's final result
  have hholds : holds s (E'.replay pre).results.get = holds s (E.referenceResults wf) := by
    refine holds_congr fun cond hcond => ?_
    have hcanc := condition_ancestor hs hcond
    rw [← hanc cond.step hcanc]
    exact congrArg StepView.result (view_eq_of_emit hended.ordered he
      (ancestor_emitted hended.ordered (by rw [hre.ancestor]; exact hcanc) he ha))
  rw [reference_of_mem h wf hs, ← hholds]
  cases hended.picked hs' he ha hpre with
  | skip hfails hskip =>
    rw [hfails, view_of_skipped hs' hskip]
    exact ⟨_, rfl, shows_skipped s⟩
  | run context hrun hran =>
    rw [hrun, view_of_ran hs' hran]
    -- the snapshot holds the ancestors' final results
    obtain ⟨pre₀, ⟨rest, hcut⟩, hown, rfl⟩ := hran.snapshot
    have hcontext : ∀ d, E.Ancestor d s.id →
        (E'.replay pre₀).results.get d = E.referenceResults wf d := by
      intro d hd
      rw [← hanc d hd]
      exact congrArg StepView.result (view_eq_of_emit hended.ordered hcut.symm
        (ancestor_emitted_of_own hended.ordered (by rw [hre.ancestor]; exact hd) hcut.symm
          (by rw [hown]; simp [startActs])))
    have hinvoke : ∀ n p, E'.invoke s n (E'.replay pre₀).results.get p =
        E.invoke s n (E.referenceResults wf) p := fun n p =>
      (hre.invoke n p).trans (h.invoke hs hcontext n p)
    refine ⟨_, rfl, ?_⟩
    rw [if_pos rfl, ← search_congr hinvoke, ← ending_search]
    exact shows_ranView s _

/-- RUN: every step of a returned run shows its reference outcome. -/
theorem shows_reference (h : E.LocalTasks) (hdag : Acyclic E.config.steps)
    (wf : WellFounded E.Ancestor) (hre : E'.Reorders E) {live : Bool} {log : List (Action V P)}
    (hended : E'.Ended live log) (x : String) : ∀ s ∈ E.config.steps, s.id = x →
    ∃ o, E.reference wf s.id = some o ∧ Outcome.Shows s o ((E'.replay log).view s.id) := by
  induction x using wf.induction with
  | _ x ih =>
    rintro s hs rfl
    refine shows_of_ancestors h wf hre hended hs fun d hd => ?_
    obtain ⟨t, ht, rfl⟩ := ancestor_known hdag hd
    obtain ⟨o, ho, hshows⟩ := ih t.id hd t ht rfl
    rw [referenceResults, ho]
    exact hshows.result

/-- The dead letters of the reference that name step `id`. -/
theorem referenceLetters_filter (wf : WellFounded E.Ancestor) (id : String) :
    ((E.config.steps.filterMap fun s =>
      (E.reference wf s.id).bind (Outcome.letter? s)).filter fun dl => dl.stepId = id) =
      (E.config.steps.filter fun s => s.id = id).filterMap fun s =>
        (E.reference wf s.id).bind (Outcome.letter? s) := by
  have howner : ∀ (s : StepConfig P) (dl : DeadLetter P),
      (E.reference wf s.id).bind (Outcome.letter? s) = some dl →
        (decide (dl.stepId = id) = true ↔ some s.id = some id) := by
    intro s dl hdl
    obtain ⟨o, -, ho⟩ := Option.bind_eq_some_iff.mp hdl
    cases o with
    | failed error n params =>
      obtain rfl := Option.some.inj ho
      simp
    | skipped | completed => cases ho
  rw [History.filterMap_proj (fun s : StepConfig P => some s.id) howner, History.proj]
  congr 1
  exact List.filter_congr fun s _ => by simp

theorem matchesReference (h : E.LocalTasks) (hdag : Acyclic E.config.steps)
    (wf : WellFounded E.Ancestor) (hre : E'.Reorders E) {σ : RunState V P} (hσ : E'.Finishes σ) :
    E.MatchesReference wf σ := by
  obtain ⟨hended, hreplay⟩ := ended_of_finishes (hdag.perm hre.steps) hσ
  -- an id is a step's, and shows its outcome, or no step's, and is in none of the records
  have hcases : ∀ id, (∃ s ∈ E.config.steps, s.id = id ∧
      ∃ o, E.reference wf id = some o ∧ Outcome.Shows s o (σ.view id)) ∨
      ((∀ s ∈ E.config.steps, s.id ≠ id) ∧ E.reference wf id = none ∧
        σ.view id = E'.init.view id ∧ E'.init.statuses.get id = none ∧
        E'.init.retryCounts.get id = none) := by
    intro id
    by_cases hid : ∃ s ∈ E.config.steps, s.id = id
    · obtain ⟨s, hs, rfl⟩ := hid
      have hshows := shows_reference h hdag wf hre hended s.id s hs rfl
      rw [hreplay] at hshows
      exact Or.inl ⟨s, hs, rfl, hshows⟩
    · push Not at hid
      have hview := hended.view_unknown fun s hs => hid s (hre.steps.mem_iff.mp hs)
      rw [hreplay] at hview
      have hno : id ∉ E'.config.steps.map StepConfig.id := by
        rintro hm
        obtain ⟨s, hs, rfl⟩ := List.mem_map.mp hm
        exact hid s (hre.steps.mem_iff.mp hs) rfl
      refine Or.inr ⟨hid, reference_unknown h wf hid, hview, ?_, ?_⟩
      · rw [init, Dict.get_ofList_map, if_neg hno]
      · rw [init, Dict.get_ofList_map, if_neg hno]
  refine ⟨fun id => ?_, fun id => ?_, fun id => ?_, fun id => ?_, ?_⟩
  · rcases hcases id with ⟨s, -, -, o, ho, hshows⟩ | ⟨-, hnone, hview, hst, -⟩
    · rw [ho]; exact hshows.status
    · rw [hnone]; exact (congrArg StepView.status hview).trans hst
  · rcases hcases id with ⟨s, -, -, o, ho, hshows⟩ | ⟨-, hnone, hview, -, -⟩
    · rw [ho]; exact hshows.result
    · rw [hnone]; exact congrArg StepView.result hview
  · rcases hcases id with ⟨s, -, -, o, ho, hshows⟩ | ⟨-, hnone, hview, -, -⟩
    · rw [ho]; exact hshows.error
    · rw [hnone]; exact congrArg StepView.error hview
  · rcases hcases id with ⟨s, -, -, o, ho, hshows⟩ | ⟨-, hnone, hview, -, hret⟩
    · rw [ho]; exact hshows.retryCount
    · rw [hnone]; exact (congrArg StepView.retryCount hview).trans hret
  · refine History.perm_of_filter DeadLetter.stepId fun id => ?_
    rw [referenceLetters_filter]
    rcases hcases id with ⟨s, hs, rfl, o, ho, hshows⟩ | ⟨hid, -, hview, -, -⟩
    · rw [filter_step hs, List.filterMap_cons, List.filterMap_nil, ho]
      refine hshows.letters.trans ?_
      cases o <;> rfl
    · have hnil : (E.config.steps.filter fun s => s.id = id) = [] :=
        List.filter_eq_nil_iff.mpr fun s hs => by simpa using hid s hs
      rw [hnil]
      exact congrArg StepView.deadLetters hview

/-- CORRECT (confluence): when the tasks look at their ancestors only, every run of an accepted
    workflow, in either mode, with any limit, in any interleaving and for any order of its list,
    ends in the records of the reference; so any two such runs agree. -/
theorem runs_match_reference (hacc : detectCycles E.config.steps = .ok ()) (hlocal : E.LocalTasks) :
    (∀ E' : WorkflowExecutor V P, E'.Reorders E → ∀ σ, E'.Finishes σ →
      E.MatchesReference (wf_ancestor (acyclic_of_accepted hacc)) σ) ∧
    ∀ E₁ E₂ : WorkflowExecutor V P, E₁.Reorders E → E₂.Reorders E →
      ∀ σ₁ σ₂, E₁.Finishes σ₁ → E₂.Finishes σ₂ →
        (∀ id, σ₁.statuses.get id = σ₂.statuses.get id) ∧
        (∀ id, σ₁.results.get id = σ₂.results.get id) ∧
        (∀ id, σ₁.errors.get id = σ₂.errors.get id) ∧
        (∀ id, σ₁.retryCounts.get id = σ₂.retryCounts.get id) ∧
        σ₁.deadLetters.Perm σ₂.deadLetters := by
  have hdag := acyclic_of_accepted hacc
  refine ⟨fun E' hre σ hσ => matchesReference hlocal hdag _ hre hσ,
    fun E₁ E₂ h₁ h₂ σ₁ σ₂ hσ₁ hσ₂ => ?_⟩
  have m₁ := matchesReference hlocal hdag (wf_ancestor hdag) h₁ hσ₁
  have m₂ := matchesReference hlocal hdag (wf_ancestor hdag) h₂ hσ₂
  exact ⟨fun id => (m₁.statuses id).trans (m₂.statuses id).symm,
    fun id => (m₁.results id).trans (m₂.results id).symm,
    fun id => (m₁.errors id).trans (m₂.errors id).symm,
    fun id => (m₁.retryCounts id).trans (m₂.retryCounts id).symm,
    m₁.deadLetters.trans m₂.deadLetters.symm⟩

theorem etl_localTasks : etl.LocalTasks := by
  intro s hs task htask
  have hrun : task.run = none ∧ ∀ step n p c c', task.call step n c p = task.call step n c' p := by
    simp only [etl, etlSteps, List.mem_cons, List.not_mem_nil, or_false] at hs
    rcases hs with rfl | rfl
    · obtain rfl := Option.some.inj (show some _ = some task from htask)
      exact ⟨rfl, fun _ _ _ _ _ => rfl⟩
    · obtain rfl := Option.some.inj (show some _ = some task from htask)
      exact ⟨rfl, fun _ _ _ _ _ => rfl⟩
  refine ⟨fun n p c c' _ => hrun.2 s.id n p c c', fun f hf => ?_⟩
  rw [hrun.1] at hf; cases hf

/-- The same pipeline, sequential and in dependency order. -/
def etlSequential : WorkflowExecutor String Unit :=
  { etl with
    config := { name := "etl", steps := etlSteps.reverse, uniqueStepIds := by decide }
    concurrencyLimit := none }

theorem etl_runs_match : ∃ σ₁ σ₂, etl.Finishes σ₁ ∧ etlSequential.Finishes σ₂ ∧
    ∀ id, σ₁.statuses.get id = σ₂.statuses.get id := by
  obtain ⟨σ₁, h₁, -⟩ := exists_finish (E := etl) (c := .loop etl.start ∅) .refl
  obtain ⟨σ₂, h₂, -⟩ :=
    exists_finish (E := etlSequential) (c := .loop etlSequential.start ∅) .refl
  obtain ⟨-, hagree⟩ := runs_match_reference (E := etl) rfl etl_localTasks
  exact ⟨σ₁, σ₂, h₁, h₂, (hagree etl etlSequential ⟨.refl _, rfl, rfl⟩
    ⟨List.reverse_perm etlSteps, rfl, rfl⟩ σ₁ σ₂ h₁ h₂).1⟩

end WorkflowExecutor

end WorkflowEngine
