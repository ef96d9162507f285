import WorkflowEngine.Runs.Finished

/-! The records of a returned run agree.

    A step ends in one of three ways, and each fixes its status, result, error, retry count, dead
    letter and number of invocations together. An id that is no step's is in none of the records. -/

namespace WorkflowEngine
open Schemes Relation

variable {V P : Type}

/-- How often the task of step `id` has been invoked. -/
def invocations (id : String) (log : List (Action V P)) : ℕ :=
  ((own id log).filterMap Action.invoked?).length

/-- What the records say of a step that has ended after `n` invocations. -/
inductive StepRecords (s : StepConfig P) (w : StepView V P) (n : ℕ) : Prop
  | skipped (status : w.status = some .skipped) (noResult : w.result = none)
      (noError : w.error = none) (noLetter : w.deadLetters = []) (invoked : n = 0)
  | completed (res : V) (status : w.status = some .completed) (result : w.result = some res)
      (noError : w.error = none) (noLetter : w.deadLetters = []) (k : ℕ)
      (retryCount : w.retryCount = some k) (le : k ≤ s.retries) (invoked : n = k + 1)
  | failed (exc : String) (params : P) (status : w.status = some .failed)
      (noResult : w.result = none) (error : w.error = some exc)
      (letter : w.deadLetters = [⟨s.id, s.task, exc, s.retries + 1, params⟩])
      (retryCount : w.retryCount = some (s.retries + 1)) (invoked : n = s.retries + 1)

namespace WorkflowExecutor

variable {E : WorkflowExecutor V P} {live : Bool}

theorem closingOf_invoked (s : StepConfig P) (o : Ending V P) :
    (closingOf live s o).filterMap Action.invoked? = [] := by
  cases live <;> cases ho : o.succeeded <;>
    simp [closingOf, retryActs, finishActs, Action.invoked?, ho, List.filterMap_cons]

/-- A step's dead letters are those of its view. -/
theorem mem_view_deadLetters {σ : RunState V P} {dl : DeadLetter P} {id : String} :
    dl ∈ (σ.view id).deadLetters ↔ dl ∈ σ.deadLetters ∧ dl.stepId = id := by
  simp [RunState.view]

variable [PyValue V]

/-- The invocations of a step that ran: numbered from 1, all on one context. -/
theorem runActs_invoked (s : StepConfig P) (context : Context V) :
    (E.runActs live s context).filterMap Action.invoked? =
      (List.range' 1 (E.ending s context).attempts).map fun n => (n, context) := by
  rw [runActs, List.filterMap_append, List.filterMap_append, runWithRetry_invoked,
    closingOf_invoked, List.append_nil]
  simp [startActs, Action.invoked?, List.filterMap_cons]

theorem Closed.records {log : List (Action V P)} {s : StepConfig P} {w : StepView V P}
    (h : E.Closed live log s w) : StepRecords s w (invocations s.id log) := by
  cases h with
  | skipped hlog hw =>
    refine .skipped ?_ ?_ ?_ ?_ ?_
    · rw [hw]; rfl
    · rw [hw]; rfl
    · rw [hw]; rfl
    · rw [hw]; rfl
    · rw [invocations, hlog]; rfl
  | ran context hran hw =>
    have hn : invocations s.id log = (E.ending s context).attempts := by
      rw [invocations, hran.own, runActs_invoked, List.length_map, List.length_range']
    obtain ⟨hpos, hle⟩ := E.ending_attempts s context
    rw [ranView, StepView.after] at hw
    rw [hn, hw]
    cases ho : (E.ending s context).value with
    | ok res =>
      exact .completed res rfl rfl rfl rfl ((E.ending s context).attempts - 1) rfl (by omega)
        (by omega)
    | error exc =>
      have hall := E.ending_error s context ho
      refine .failed exc (E.ending s context).params rfl rfl rfl ?_ ?_ hall
      · rw [← hall]; rfl
      · rw [← hall]; rfl

theorem Ended.view_unknown {log : List (Action V P)} (h : E.Ended live log) {id : String}
    (hid : ∀ s ∈ E.config.steps, s.id ≠ id) : (E.replay log).view id = E.init.view id := by
  rw [replay, view_acts, h.unknown id hid]; rfl

/-- An id in the records of a returned run: a step's, with its records, or in none of them. -/
theorem Ended.records_cases {log : List (Action V P)} (h : E.Ended live log) (id : String) :
    (∃ s ∈ E.config.steps, s.id = id ∧
      StepRecords s ((E.replay log).view id) (invocations id log)) ∨
    ((∀ s ∈ E.config.steps, s.id ≠ id) ∧ ((E.replay log).view id).status = none ∧
      ((E.replay log).view id).result = none ∧ ((E.replay log).view id).error = none ∧
      ((E.replay log).view id).deadLetters = []) := by
  by_cases hid : ∃ s ∈ E.config.steps, s.id = id
  · obtain ⟨s, hs, rfl⟩ := hid
    exact Or.inl ⟨s, hs, rfl, (h.closed s hs).records⟩
  · push Not at hid
    have hno : id ∉ E.config.steps.map StepConfig.id := by
      rintro hm
      obtain ⟨s, hs, rfl⟩ := List.mem_map.mp hm
      exact hid s hs rfl
    rw [h.view_unknown hid]
    refine Or.inr ⟨hid, ?_, by simp [RunState.view, init], by simp [RunState.view, init], rfl⟩
    rw [RunState.view, init, Dict.get_ofList_map, if_neg hno]

section Agreement
variable {σ : RunState V P} {log : List (Action V P)}

theorem Ended.completed_iff (h : E.Ended live log) (id : String) :
    (E.replay log).statuses.get id = some .completed ↔ id ∈ (E.replay log).results.keys := by
  rw [Dict.mem_keys_iff]
  change ((E.replay log).view id).status = _ ↔ ∃ v, ((E.replay log).view id).result = some v
  rcases h.records_cases id with ⟨s, -, -, hrec⟩ | ⟨-, hstatus, hresult, -, -⟩
  · cases hrec with
    | skipped status noResult => simp [status, noResult]
    | completed res status result => simp [status, result]
    | failed exc params status noResult => simp [status, noResult]
  · simp [hstatus, hresult]

theorem Ended.failed_iff (h : E.Ended live log) (id : String) :
    (E.replay log).statuses.get id = some .failed ↔ id ∈ (E.replay log).errors.keys := by
  rw [Dict.mem_keys_iff]
  change ((E.replay log).view id).status = _ ↔ ∃ v, ((E.replay log).view id).error = some v
  rcases h.records_cases id with ⟨s, -, -, hrec⟩ | ⟨-, hstatus, -, herror, -⟩
  · cases hrec with
    | skipped status _ noError => simp [status, noError]
    | completed res status _ noError => simp [status, noError]
    | failed exc params status _ error => simp [status, error]
  · simp [hstatus, herror]

/-- A failed step has one dead letter, any other id none. -/
theorem Ended.letters_count (h : E.Ended live log) (id : String) :
    ((E.replay log).deadLetters.filter fun dl => dl.stepId = id).length =
      if (E.replay log).statuses.get id = some .failed then 1 else 0 := by
  change ((E.replay log).view id).deadLetters.length =
    if ((E.replay log).view id).status = some .failed then 1 else 0
  rcases h.records_cases id with ⟨s, -, -, hrec⟩ | ⟨-, hstatus, -, -, hletters⟩
  · cases hrec with
    | skipped status _ _ noLetter => simp [status, noLetter]
    | completed res status _ _ noLetter => simp [status, noLetter]
    | failed exc params status _ _ letter => simp [status, letter]
  · simp [hstatus, hletters]

/-- What a dead letter says about its step. -/
theorem Ended.letter (h : E.Ended live log) {dl : DeadLetter P}
    (hdl : dl ∈ (E.replay log).deadLetters) : ∃ s ∈ E.config.steps, s.id = dl.stepId ∧
      dl.task = s.task ∧ (E.replay log).errors.get s.id = some dl.error ∧
      (E.replay log).retryCounts.get s.id = some dl.attempts ∧ dl.attempts = s.retries + 1 ∧
      invocations s.id log = s.retries + 1 := by
  have hin := mem_view_deadLetters.mpr ⟨hdl, rfl⟩
  rcases h.records_cases dl.stepId with ⟨s, hs, hid, hrec⟩ | ⟨-, -, -, -, hletters⟩
  · refine ⟨s, hs, hid, ?_⟩
    cases hrec with
    | skipped _ _ _ noLetter => rw [noLetter] at hin; simp at hin
    | completed _ _ _ _ noLetter => rw [noLetter] at hin; simp at hin
    | failed exc params _ _ error letter retryCount invoked =>
      rw [letter, List.mem_singleton] at hin
      rw [hid, invoked]
      have htask : dl.task = s.task := by rw [hin]
      have herror : dl.error = exc := by rw [hin]
      have hattempts : dl.attempts = s.retries + 1 := by rw [hin]
      exact ⟨htask, by rw [herror]; exact error, by rw [hattempts]; exact retryCount, hattempts, rfl⟩
  · rw [hletters] at hin; simp at hin

theorem Ended.overallStatus_iff (h : E.Ended live log) :
    (E.replay log).overallStatus = .failed ↔ (E.replay log).deadLetters ≠ [] := by
  have hvalues : (E.replay log).overallStatus = .failed ↔
      .failed ∈ (E.replay log).statuses.values := by
    unfold RunState.overallStatus
    split_ifs with hfailed <;> simp [hfailed]
  rw [hvalues, Dict.mem_values_iff]
  constructor
  · rintro ⟨id, hid⟩ hnil
    have hcount := h.letters_count id
    rw [hnil, if_pos hid] at hcount
    simp at hcount
  · intro hne
    obtain ⟨dl, hdl⟩ := List.exists_mem_of_ne_nil _ hne
    refine ⟨dl.stepId, ?_⟩
    by_contra hno
    have hcount := h.letters_count dl.stepId
    rw [if_neg hno, List.length_eq_zero_iff, List.filter_eq_nil_iff] at hcount
    exact hcount dl hdl (by simp)

end Agreement

/-- CORRECT (records): after `execute`, the statuses, results, errors, retry counts and dead letters
    agree with one another and with the invocations that were made. -/
theorem records_agree {σ : RunState V P} (hacc : detectCycles E.config.steps = .ok ())
    (hσ : E.Finishes σ) :
    (∀ id, σ.statuses.get id = some .completed ↔ id ∈ σ.results.keys) ∧
    (∀ id, σ.statuses.get id = some .failed ↔ id ∈ σ.errors.keys) ∧
    (∀ id, (σ.deadLetters.filter fun dl => dl.stepId = id).length =
      if σ.statuses.get id = some .failed then 1 else 0) ∧
    (∀ dl ∈ σ.deadLetters, ∃ s ∈ E.config.steps, s.id = dl.stepId ∧ dl.task = s.task ∧
      σ.errors.get s.id = some dl.error ∧ σ.retryCounts.get s.id = some dl.attempts ∧
      dl.attempts = s.retries + 1 ∧ invocations s.id σ.log = s.retries + 1) ∧
    (∀ s ∈ E.config.steps, σ.statuses.get s.id = some .completed →
      ∃ k, σ.retryCounts.get s.id = some k ∧ k ≤ s.retries ∧ invocations s.id σ.log = k + 1) ∧
    (∀ s ∈ E.config.steps, σ.statuses.get s.id = some .skipped →
      invocations s.id σ.log = 0 ∧ s.id ∉ σ.results.keys ∧ s.id ∉ σ.errors.keys ∧
        ∀ dl ∈ σ.deadLetters, dl.stepId ≠ s.id) ∧
    (σ.overallStatus = .failed ↔ σ.deadLetters ≠ []) := by
  obtain ⟨hended, hreplay⟩ := ended_of_finishes (acyclic_of_accepted hacc) hσ
  have hcompleted := hended.completed_iff
  have hfailed := hended.failed_iff
  have hcount := hended.letters_count
  have hletter : ∀ dl ∈ (E.replay σ.log).deadLetters, _ := fun dl hdl => hended.letter hdl
  have hoverall := hended.overallStatus_iff
  rw [hreplay] at hcompleted hfailed hcount hletter hoverall
  refine ⟨hcompleted, hfailed, hcount, hletter, fun s hs hst => ?_, fun s hs hst => ?_, hoverall⟩
  · have hrec := (hended.closed s hs).records
    rw [hreplay] at hrec
    have hstatus : (σ.view s.id).status = some .completed := hst
    cases hrec with
    | skipped status => rw [status] at hstatus; simp at hstatus
    | completed _ _ _ _ _ k retryCount le invoked => exact ⟨k, retryCount, le, invoked⟩
    | failed _ _ status => rw [status] at hstatus; simp at hstatus
  · have hrec := (hended.closed s hs).records
    rw [hreplay] at hrec
    have hstatus : (σ.view s.id).status = some .skipped := hst
    refine ⟨?_, fun hk => ?_, fun hk => ?_, fun dl hdl hid => ?_⟩
    · cases hrec with
      | skipped _ _ _ _ invoked => exact invoked
      | completed _ status => rw [status] at hstatus; simp at hstatus
      | failed _ _ status => rw [status] at hstatus; simp at hstatus
    · have := (hcompleted s.id).mpr hk
      rw [hst] at this; simp at this
    · have := (hfailed s.id).mpr hk
      rw [hst] at this; simp at this
    · have hnone := hcount s.id
      rw [hst, if_neg (by simp), List.length_eq_zero_iff, List.filter_eq_nil_iff] at hnone
      exact hnone dl hdl (by simpa using hid)

theorem etl_records_agree : ∃ σ, etl.Finishes σ ∧
    (∀ id, σ.statuses.get id = some .completed ↔ id ∈ σ.results.keys) ∧
    (σ.overallStatus = .failed ↔ σ.deadLetters ≠ []) := by
  obtain ⟨σ, hσ, -⟩ := exists_finish (E := etl) (c := .loop etl.start ∅) .refl
  obtain ⟨hcompleted, -, -, -, -, -, hoverall⟩ := records_agree rfl hσ
  exact ⟨σ, hσ, hcompleted, hoverall⟩

end WorkflowExecutor

end WorkflowEngine
