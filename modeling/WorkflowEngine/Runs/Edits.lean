import WorkflowEngine.Runs.Reference

/-! Edits of a definition.

    An edit adds, removes or changes steps. What a step ends with is computed from its ancestors,
    and a step that none of the edited ones leads to has the ancestors it had before, with their
    configurations and their tasks. So its records are those of the runs before the edit, whatever
    becomes of the other steps and whatever their tasks look at, and in whatever modes the two
    definitions run. -/

namespace WorkflowEngine
open Schemes Relation

variable {V P : Type}

namespace WorkflowExecutor

/-- `E'` is `E` with the steps `edited` added, removed or changed. Mode, limit, hook, trace and
    backoff may differ, and so may the tasks of the edited steps. -/
structure EditedTo (E E' : WorkflowExecutor V P) (edited : String → Prop) : Prop where
  steps : ∀ s, ¬ edited s.id → (s ∈ E'.config.steps ↔ s ∈ E.config.steps)
  tasks : ∀ s ∈ E.config.steps, ¬ edited s.id →
    E'.taskRegistry.get s.task = E.taskRegistry.get s.task
  typed : E'.typed = E.typed

/-- The step is edited, or one that leads to it is. -/
def Affected (E : WorkflowExecutor V P) (edited : String → Prop) (id : String) : Prop :=
  ∃ e, edited e ∧ ReflTransGen (Dep E.config.steps) e id

section Affected
variable {E E' : WorkflowExecutor V P} {edited : String → Prop} {id : String}

theorem not_edited (h : ¬ E.Affected edited id) : ¬ edited id := fun he => h ⟨id, he, .refl⟩

theorem not_affected_ancestor (h : ¬ E.Affected edited id) {d : String} (hd : E.Ancestor d id) :
    ¬ E.Affected edited d := by
  rintro ⟨e, he, hreach⟩
  exact h ⟨e, he, hreach.trans hd.to_reflTransGen⟩

end Affected

variable [PyValue V] {E E' : WorkflowExecutor V P} {edited : String → Prop} {s : StepConfig P}

/-! ### What decides a step -/

/-- The task of the step looks at the step's ancestors only. -/
def LocalStep (E : WorkflowExecutor V P) (s : StepConfig P) : Prop :=
  ∀ c c' : Context V, (∀ d, E.Ancestor d s.id → c d = c' d) → ∀ n p,
    E.invoke s n c p = E.invoke s n c' p

theorem LocalTasks.localStep (h : E.LocalTasks) (hs : s ∈ E.config.steps) : E.LocalStep s :=
  fun _ _ hc => h.invoke hs hc

/-- The outcome of a step whose condition sees these results and whose task sees this context. -/
def decision (E : WorkflowExecutor V P) (s : StepConfig P) (results context : Context V) :
    Outcome V P :=
  if holds s results then E.search s context s.retries 0 s.params else .skipped

/-- In a run that ended, a step is decided by the final results, and by a context that has those of
    its ancestors. -/
theorem Ended.decided {live : Bool} {log : List (Action V P)} (hended : E.Ended live log)
    (hs : s ∈ E.config.steps) : ∃ context : Context V,
      (∀ d, E.Ancestor d s.id → context d = (E.replay log).results.get d) ∧
      Outcome.Shows s (E.decision s (E.replay log).results.get context)
        ((E.replay log).view s.id) := by
  obtain ⟨pre, a, post, he, ha, hpre⟩ := History.exists_first Action.owner
    (own_ne_nil_of_emit (hended.emitted s hs))
  -- the condition was evaluated on the source's final result
  have hholds : holds s (E.replay pre).results.get = holds s (E.replay log).results.get :=
    holds_congr fun cond hcond => congrArg StepView.result (view_eq_of_emit hended.ordered he
      (ancestor_emitted hended.ordered (condition_ancestor hs hcond) he ha))
  unfold decision
  rw [← hholds]
  cases hended.picked hs he ha hpre with
  | skip hfails hskip =>
    rw [hfails, view_of_skipped hs hskip]
    exact ⟨_, fun _ _ => rfl, shows_skipped s⟩
  | run context hrun hran =>
    rw [hrun, view_of_ran hs hran]
    -- the snapshot holds the ancestors' final results
    obtain ⟨pre₀, ⟨rest, hcut⟩, hown, rfl⟩ := hran.snapshot
    refine ⟨(E.replay pre₀).results.get, fun d hd => ?_, ?_⟩
    · exact congrArg StepView.result (view_eq_of_emit hended.ordered hcut.symm
        (ancestor_emitted_of_own hended.ordered hd hcut.symm (by rw [hown]; simp [startActs])))
    · rw [if_pos rfl, ← ending_search]
      exact shows_ranView s _

/-! ### Two definitions -/

/-- Whatever the two contexts are, if the first has what the second has of the step's ancestors, the
    step's attempts do the same in both definitions. -/
def DoesSame (E E' : WorkflowExecutor V P) (s : StepConfig P) : Prop :=
  ∀ c c' : Context V, (∀ d, E.Ancestor d s.id → c' d = c d) → ∀ k,
    E'.attemptFrom s c' 0 s.params k = E.attemptFrom s c 0 s.params k

/-- The steps that the edit does not reach are in both definitions and do the same. -/
structure Preserves (E E' : WorkflowExecutor V P) (edited : String → Prop) : Prop where
  steps : ∀ s, ¬ edited s.id → (s ∈ E'.config.steps ↔ s ∈ E.config.steps)
  does : ∀ s ∈ E.config.steps, ¬ E.Affected edited s.id → E.DoesSame E' s

/-- The task of a step that is not edited does what it did. -/
theorem EditedTo.invoke (h : E.EditedTo E' edited) (hs : s ∈ E.config.steps)
    (hedit : ¬ edited s.id) (n : ℕ) (c : Context V) (p : P) :
    E'.invoke s n c p = E.invoke s n c p := by
  have htask := h.tasks s hs hedit
  simp only [WorkflowExecutor.invoke, taskFn, TaskRunner.run, htask, h.typed]

theorem EditedTo.preserves (h : E.EditedTo E' edited)
    (hlocal : ∀ s ∈ E.config.steps, ¬ E.Affected edited s.id → E.LocalStep s) :
    E.Preserves E' edited where
  steps := h.steps
  does s hs hfree c c' hc k := by
    have hsame : ∀ n p, E.invoke s n c' p = E.invoke s n c p := hlocal s hs hfree c' c hc
    have hinvoke : ∀ n p, E'.invoke s n c' p = E.invoke s n c' p :=
      fun n p => h.invoke hs (not_edited hfree) n c' p
    calc E'.attemptFrom s c' 0 s.params k
        = E.attemptFrom s c' 0 s.params k := attemptFrom_congr hinvoke k 0 s.params
      _ = E.attemptFrom s c 0 s.params k := attemptFrom_congr hsame k 0 s.params

/-! ### Two runs -/

namespace Preserves
variable (h : E.Preserves E' edited)
include h

/-- The ancestors of a step that the edit does not reach are its ancestors afterwards. -/
theorem ancestor {d x : String} (hd : E.Ancestor d x) (hx : ¬ E.Affected edited x) :
    E'.Ancestor d x := by
  induction hd with
  | single hdep =>
    obtain ⟨s, hs, rfl, hlisted⟩ := hdep
    exact .single ⟨s, (h.steps s (not_edited hx)).mpr hs, rfl, hlisted⟩
  | @tail y x hy hdep ih =>
    have hinit := ih (not_affected_ancestor hx (.single hdep))
    obtain ⟨s, hs, rfl, hlisted⟩ := hdep
    exact hinit.tail ⟨s, (h.steps s (not_edited hx)).mpr hs, rfl, hlisted⟩

variable {live live' : Bool} {log log' : List (Action V P)} (hended : E.Ended live log)
  (hended' : E'.Ended live' log')
include hended hended'

/-- STEP: a step that the edit does not reach shows one outcome in both runs, when its ancestors
    have the same results in both. -/
theorem shows_of_ancestors (hs : s ∈ E.config.steps) (hfree : ¬ E.Affected edited s.id)
    (hanc : ∀ d, E.Ancestor d s.id →
      (E'.replay log').results.get d = (E.replay log).results.get d) :
    ∃ o, Outcome.Shows s o ((E.replay log).view s.id) ∧
      Outcome.Shows s o ((E'.replay log').view s.id) := by
  have hs' : s ∈ E'.config.steps := (h.steps s (not_edited hfree)).mpr hs
  obtain ⟨context, hcontext, hshows⟩ := hended.decided hs
  obtain ⟨context', hcontext', hshows'⟩ := hended'.decided hs'
  have hholds : holds s (E'.replay log').results.get = holds s (E.replay log).results.get :=
    holds_congr fun cond hcond => hanc cond.step (condition_ancestor hs hcond)
  have hattempts : ∀ k, E'.attemptFrom s context' 0 s.params k =
      E.attemptFrom s context 0 s.params k := by
    refine h.does s hs hfree context context' fun d hd => ?_
    rw [hcontext' d (h.ancestor hd hfree), hcontext d hd, hanc d hd]
  have hsame : E'.decision s (E'.replay log').results.get context' =
      E.decision s (E.replay log).results.get context := by
    simp only [decision, search, hholds, hattempts]
  exact ⟨_, hshows, hsame ▸ hshows'⟩

/-- RUN: so does every step that the edit does not reach. -/
theorem shows (hdag : Acyclic E.config.steps) (x : String) :
    ∀ s ∈ E.config.steps, s.id = x → ¬ E.Affected edited s.id →
      ∃ o, Outcome.Shows s o ((E.replay log).view s.id) ∧
        Outcome.Shows s o ((E'.replay log').view s.id) := by
  induction x using (wf_ancestor hdag).induction with
  | _ x ih =>
    rintro s hs rfl hfree
    refine h.shows_of_ancestors hended hended' hs hfree fun d hd => ?_
    obtain ⟨t, ht, rfl⟩ := ancestor_known hdag hd
    obtain ⟨o, hshows, hshows'⟩ := ih t.id hd t ht rfl (not_affected_ancestor hfree hd)
    exact hshows'.result.trans hshows.result.symm

end Preserves

/-- The two states say the same of a step, or of an id that is no step's. -/
structure SameAt (σ σ' : RunState V P) (id : String) : Prop where
  status : σ'.statuses.get id = σ.statuses.get id
  result : σ'.results.get id = σ.results.get id
  error : σ'.errors.get id = σ.errors.get id
  retryCount : σ'.retryCounts.get id = σ.retryCounts.get id
  letters : (σ'.deadLetters.filter fun dl => dl.stepId = id) =
    σ.deadLetters.filter fun dl => dl.stepId = id

/-- So any two runs have the same records of what the edit does not reach. -/
theorem Preserves.sameAt (h : E.Preserves E' edited) (hdag : Acyclic E.config.steps)
    (hdag' : Acyclic E'.config.steps) {σ σ' : RunState V P} (hσ : E.Finishes σ)
    (hσ' : E'.Finishes σ') {id : String} (hid : ¬ E.Affected edited id) : SameAt σ σ' id := by
  obtain ⟨hended, hreplay⟩ := ended_of_finishes hdag hσ
  obtain ⟨hended', hreplay'⟩ := ended_of_finishes hdag' hσ'
  by_cases hstep : ∃ s ∈ E.config.steps, s.id = id
  · obtain ⟨s, hs, rfl⟩ := hstep
    obtain ⟨o, hshows, hshows'⟩ := h.shows hended hended' hdag s.id s hs rfl hid
    rw [hreplay] at hshows
    rw [hreplay'] at hshows'
    exact ⟨hshows'.status.trans hshows.status.symm, hshows'.result.trans hshows.result.symm,
      hshows'.error.trans hshows.error.symm, hshows'.retryCount.trans hshows.retryCount.symm,
      hshows'.letters.trans hshows.letters.symm⟩
  · push Not at hstep
    have hstep' : ∀ s ∈ E'.config.steps, s.id ≠ id := by
      rintro s hs rfl
      exact hstep s ((h.steps s (not_edited hid)).mp hs) rfl
    have hview := hended.view_unknown hstep
    have hview' := hended'.view_unknown hstep'
    rw [hreplay] at hview
    rw [hreplay'] at hview'
    have hsame : E'.init.view id = E.init.view id := by
      have hno : id ∉ E.config.steps.map StepConfig.id := by simpa using hstep
      have hno' : id ∉ E'.config.steps.map StepConfig.id := by simpa using hstep'
      simp only [RunState.view, init, Dict.get_ofList_map, if_neg hno, if_neg hno']
    have hall := (hview'.trans hsame).trans hview.symm
    exact ⟨congrArg StepView.status hall, congrArg StepView.result hall,
      congrArg StepView.error hall, congrArg StepView.retryCount hall,
      congrArg StepView.deadLetters hall⟩

/-- CORRECT (edits): an edit changes nothing that the records say about the steps it does not reach,
    between any run of the definition before and any run of the one after it, when the tasks of
    these steps look at their ancestors only. The other steps may do anything. -/
theorem edit_is_local (hacc : detectCycles E.config.steps = .ok ())
    (hacc' : detectCycles E'.config.steps = .ok ()) (hedit : E.EditedTo E' edited)
    (hlocal : ∀ s ∈ E.config.steps, ¬ E.Affected edited s.id → E.LocalStep s) {σ σ' : RunState V P}
    (hσ : E.Finishes σ) (hσ' : E'.Finishes σ') {id : String} (hid : ¬ E.Affected edited id) :
    SameAt σ σ' id :=
  (hedit.preserves hlocal).sameAt (acyclic_of_accepted hacc) (acyclic_of_accepted hacc') hσ hσ' hid

/-- The pipeline without its step `load`, and without a thread pool. -/
def etlExtract : WorkflowExecutor String Unit :=
  { etl with
    config := { name := "etl", steps := etlSteps.tail, uniqueStepIds := by decide }
    concurrencyLimit := none }

theorem etl_keeps_extract : ∃ σ σ', etl.Finishes σ ∧ etlExtract.Finishes σ' ∧
    σ'.results.get "extract" = σ.results.get "extract" := by
  obtain ⟨σ, hσ, -⟩ := exists_finish (E := etl) .refl
  obtain ⟨σ', hσ', -⟩ := exists_finish (E := etlExtract) .refl
  have hedit : etl.EditedTo etlExtract (· = "load") := by
    refine ⟨fun s hs => ⟨List.mem_cons_of_mem _, fun hmem => ?_⟩, fun _ _ _ => rfl, rfl⟩
    rcases List.mem_cons.mp hmem with rfl | hmem
    · exact absurd rfl hs
    · exact hmem
  have hfree : ¬ etl.Affected (· = "load") "extract" := by
    rintro ⟨e, rfl, hreach⟩
    rcases ReflTransGen.cases_tail hreach with heq | ⟨c, -, s, hs, hid, hc⟩
    · exact absurd heq (by decide)
    · have hdeps : ∀ t ∈ etl.config.steps, t.id = "extract" → t.deps = [] := by decide
      rw [hdeps s hs hid] at hc
      cases hc
  exact ⟨σ, σ', hσ, hσ', (edit_is_local rfl rfl hedit
    (fun s hs _ => etl_localTasks.localStep hs) hσ hσ' hfree).result⟩

end WorkflowExecutor

end WorkflowEngine
