import WorkflowEngine.Runs.Records

/-! The trace and the `on_step` stream of a returned run.

    Sequential mode logs a retry event after each failed attempt; parallel mode logs none in the loop
    and reconstructs them afterwards from the records. Both give the same events for a step, numbered
    by the invocations that were made, and the hook is called once for each step, on its final
    records. -/

namespace WorkflowEngine
open Schemes Relation

variable {V P : Type}

/-- A step's events as kinds and attempt numbers. -/
def skippedEvents : List (EventKind × Option ℕ) := [(.stepSkipped, none)]

/-- The events of the failed attempts `1..k` that were tried again. -/
def triedEvents (k : ℕ) : List (EventKind × Option ℕ) :=
  (.stepStarted, none) :: (List.range' 1 k).map fun n => (.stepRetry, some n)

def completedEvents (k : ℕ) : List (EventKind × Option ℕ) :=
  triedEvents k ++ [(.stepCompleted, some (k + 1))]

def failedEvents (r : ℕ) : List (EventKind × Option ℕ) :=
  triedEvents r ++ [(.stepFailed, some (r + 1)), (.dlqRecorded, some (r + 1))]

def Logged.brief (e : Logged) : EventKind × Option ℕ := (e.kind, e.attempt)

/-- The hook that an action calls. -/
def Action.emitted? : Action V P → Option String
  | .emit id => some id
  | _ => none

/-- The events and invocation numbers of a step that ended with `status`. -/
inductive StepStream (s : StepConfig P) (status : Option Status)
    (events : List (EventKind × Option ℕ)) (numbers : List ℕ) : Prop
  | skipped (ended : status = some .skipped) (events : events = skippedEvents)
      (numbers : numbers = [])
  | completed (k : ℕ) (ended : status = some .completed) (le : k ≤ s.retries)
      (events : events = completedEvents k) (numbers : numbers = List.range' 1 (k + 1))
  | failed (ended : status = some .failed) (events : events = failedEvents s.retries)
      (numbers : numbers = List.range' 1 (s.retries + 1))

namespace WorkflowExecutor

variable {E : WorkflowExecutor V P} {live : Bool}

/-! ### The events of one step -/

theorem retryActs_events (s : StepConfig P) (n : ℕ) :
    (retryActs s n : List (Action V P)).filterMap Action.event? = retryEvents s 0 n := by
  induction n with
  | zero => rfl
  | succ n ih =>
    have hlast : (retryActs s (n + 1) : List (Action V P)) =
        retryActs s n ++ [.trace .stepRetry (some s.id) (some (n + 1)) []] := by
      rw [retryActs, List.range_succ, List.map_append]; rfl
    rw [hlast, List.filterMap_append, ih, retryEvents, retryEvents, List.range'_1_concat,
      List.map_append]
    simp [Action.event?, Nat.add_comm]

/-- The events that close a step after `n + 1` attempts. -/
theorem closingOf_events (s : StepConfig P) {o : Ending V P} (ho : 0 < o.attempts) :
    (closingOf live s o).filterMap Action.event? =
      (if live then [] else retryEvents s 0 (o.attempts - 1)) ++
        (⟨if o.succeeded then .stepCompleted else .stepFailed, some s.id, some o.attempts, []⟩ ::
          if o.succeeded then [] else [⟨.dlqRecorded, some s.id, some o.attempts, []⟩]) := by
  have hne : o.attempts ≠ 0 := by omega
  rw [closingOf, List.filterMap_append]
  cases live <;> cases hs : o.succeeded <;>
    simp [finishActs, Action.event?, List.filterMap_cons, retryActs_events, hne]

theorem brief_retryEvents (s : StepConfig P) (n : ℕ) :
    (retryEvents s 0 n).map Logged.brief =
      (List.range' 1 n).map fun n => (.stepRetry, some n) := by
  simp [retryEvents, Logged.brief, Function.comp_def]

/-- An event belongs to the owner of its action. -/
theorem event_owner {a : Action V P} {e : Logged} (h : a.event? = some e) (id : String) :
    (decide (e.stepId = some id)) = true ↔ a.owner = some id := by
  cases a with
  | trace kind stepId attempt details =>
    obtain rfl := Option.some.inj h
    simp [Action.owner]
  | _ => cases h

/-! ### Numbered events -/

/-- Numbering keeps the events of each step. -/
theorem brief_number (t : TraceContext) (id : String) (l : List Logged) :
    ((l.mapIdx t.number).filter fun e => e.stepId = some id).map (fun e => (e.kind, e.attempt)) =
      (l.filter fun e => e.stepId = some id).map Logged.brief := by
  induction l using List.reverseRecOn with
  | nil => rfl
  | append_singleton l e ih =>
    rw [List.mapIdx_concat, List.filter_append, List.filter_append, List.map_append,
      List.map_append, ih]
    by_cases he : e.stepId = some id <;> simp [TraceContext.number, Logged.brief, he]

theorem sequence_number (t : TraceContext) (l : List Logged) :
    (l.mapIdx t.number).map ExecutionEvent.sequence = List.range' 1 l.length := by
  induction l using List.reverseRecOn with
  | nil => rfl
  | append_singleton l e ih =>
    rw [List.mapIdx_concat, List.map_append, ih, List.length_append, List.length_singleton,
      List.range'_1_concat, Nat.add_comm 1]
    rfl

theorem calls_replay (hook : E.onStep.isSome) (log : List (Action V P)) :
    (E.replay log).calls.map StepCall.stepId = log.filterMap Action.emitted? := by
  induction log using List.reverseRecOn with
  | nil => rfl
  | append_singleton log a ih =>
    rw [E.replay_concat, List.filterMap_append, ← ih]
    cases a with
    | emit id => rw [act, perform_emit]; simp [Action.emitted?, hook]
    | _ => simp [act, perform, Action.emitted?, List.filterMap_cons]

variable [PyValue V]

/-- Both modes log the same events for a step that ran. -/
theorem runActs_events (s : StepConfig P) (context : Context V) :
    ((E.runActs live s context).filterMap Action.event?).map Logged.brief =
      if (E.ending s context).succeeded then completedEvents ((E.ending s context).attempts - 1)
      else failedEvents ((E.ending s context).attempts - 1) := by
  obtain ⟨hpos, -⟩ := E.ending_attempts s context
  have hsucc : (E.ending s context).attempts - 1 + 1 = (E.ending s context).attempts := by omega
  rw [runActs, List.filterMap_append, List.filterMap_append, runWithRetry_events,
    closingOf_events s hpos]
  cases live <;> cases (E.ending s context).succeeded <;>
    simp [startActs, Action.event?, List.filterMap_cons, completedEvents, failedEvents, triedEvents,
      brief_retryEvents, hsucc, Logged.brief]

theorem Closed.stream {log : List (Action V P)} {s : StepConfig P} {w : StepView V P}
    (h : E.Closed live log s w) : StepStream s w.status
      (((own s.id log).filterMap Action.event?).map Logged.brief)
      (((own s.id log).filterMap Action.invoked?).map Prod.fst) := by
  cases h with
  | skipped hlog hw =>
    rw [hlog, hw]
    exact .skipped rfl rfl rfl
  | ran context hran hw =>
    obtain ⟨hpos, hle⟩ := E.ending_attempts s context
    have hsucc : (E.ending s context).attempts - 1 + 1 = (E.ending s context).attempts := by omega
    have hnum : ((own s.id log).filterMap Action.invoked?).map Prod.fst =
        List.range' 1 (E.ending s context).attempts := by
      rw [hran.own, runActs_invoked, List.map_map]; exact List.map_id _
    rw [hnum, hran.own, runActs_events, hw, ranView_status]
    cases ho : (E.ending s context).value with
    | ok res =>
      have hok : (E.ending s context).succeeded = true := by rw [Ending.succeeded, ho]; rfl
      rw [hok]
      exact .completed _ rfl (by omega) rfl (by rw [hsucc])
    | error exc =>
      have hok : (E.ending s context).succeeded = false := by rw [Ending.succeeded, ho]; rfl
      have hall := E.ending_error s context ho
      rw [hok, hall]
      exact .failed rfl rfl rfl

/-- The hook sees the final records of a closed step, once. -/
theorem Closed.calls {log : List (Action V P)} {s : StepConfig P} {w : StepView V P}
    (h : E.Closed live log s w) (hook : E.onStep.isSome) :
    w.calls = [⟨s.id, w.status, w.result, w.error, w.retryCount⟩] := by
  cases h with
  | skipped _ hw => rw [hw]; simp [skippedView, StepView.act, freshView, hook]
  | ran context _ hw =>
    rw [hw, ranView, StepView.after]
    cases (E.ending s context).value <;>
      simp [StepView.act, startedView, freshView, hook]

/-! ### The order of events and calls -/

/-- Every event of a dependency is numbered before every event of the step. -/
theorem event_before {log : List (Action V P)} (hlog : History.Each E.Admissible log)
    {s : StepConfig P} (hs : s ∈ E.config.steps) {d : String} (hd : d ∈ s.deps) {i j : ℕ}
    {e e' : Logged} (he : (log.filterMap Action.event?)[i]? = some e) (hid : e.stepId = some d)
    (he' : (log.filterMap Action.event?)[j]? = some e') (hid' : e'.stepId = some s.id) : i < j := by
  obtain ⟨hj, hval⟩ := List.getElem?_eq_some_iff.mp he'
  have hcut : log.filterMap Action.event? = (log.filterMap Action.event?).take j ++
      e' :: (log.filterMap Action.event?).drop (j + 1) := by
    rw [← hval, ← List.drop_eq_getElem_cons hj, List.take_append_drop]
  obtain ⟨pre, b, post, hpre, hb, htake, hdrop⟩ := History.exists_of_filterMap_eq hcut
  have howner : b.owner = some s.id := (event_owner hb s.id).mp (by simpa using hid')
  have hemit : .emit d ∈ pre := ((hlog pre b post hpre).step s hs howner).deps d hd
  by_contra hle
  -- an event of `d` from position `j` on would come from an action of `d` after its hook
  have hmem : e ∈ (b :: post).filterMap Action.event? := by
    rw [List.filterMap_cons_some hb, hdrop, ← hval, ← List.drop_eq_getElem_cons hj]
    refine List.mem_of_getElem? (i := i - j) ?_
    rw [List.getElem?_drop, ← he]
    congr 1; omega
  obtain ⟨a, ha, hae⟩ := List.mem_filterMap.mp hmem
  have hown : a ∈ own d (b :: post) :=
    (History.mem_proj Action.owner).mpr ⟨ha, (event_owner hae d).mp (by simpa using hid)⟩
  rw [own_eq_nil_of_emit hlog hpre hemit] at hown
  simp at hown

/-- A call for a step comes after the calls for its dependencies. -/
theorem call_after (hook : E.onStep.isSome) {log : List (Action V P)}
    (hlog : History.Each E.Admissible log) {s : StepConfig P} (hs : s ∈ E.config.steps) {d : String}
    (hd : d ∈ s.deps) {u v : List (StepCall V)} {c : StepCall V}
    (hc : (E.replay log).calls = u ++ c :: v) (hid : c.stepId = s.id) : ∃ c' ∈ u, c'.stepId = d := by
  have hcut : log.filterMap Action.emitted? =
      u.map StepCall.stepId ++ c.stepId :: v.map StepCall.stepId := by
    rw [← calls_replay hook, hc, List.map_append, List.map_cons]
  obtain ⟨pre, b, post, hpre, hb, hu, -⟩ := History.exists_of_filterMap_eq hcut
  have howner : b.owner = some s.id := by
    cases b with
    | emit id => rw [← hid, ← Option.some.inj hb]; rfl
    | _ => cases hb
  have hemit := ((hlog pre b post hpre).step s hs howner).deps d hd
  have hmem : d ∈ u.map StepCall.stepId := by
    rw [← hu]; exact List.mem_filterMap.mpr ⟨.emit d, hemit, rfl⟩
  obtain ⟨c', hc', rfl⟩ := List.mem_map.mp hmem
  exact ⟨c', hc', rfl⟩

theorem Ended.call_known {log : List (Action V P)} (h : E.Ended live log) {c : StepCall V}
    (hc : c ∈ (E.replay log).calls) : ∃ s ∈ E.config.steps, s.id = c.stepId := by
  by_contra hno
  push Not at hno
  have hin : c ∈ ((E.replay log).view c.stepId).calls := by simp [RunState.view, hc]
  rw [h.view_unknown hno] at hin
  simp [RunState.view, init] at hin

/-- `run.started` is a run's first action and `run.finished` its last. -/
theorem log_of_finishes {σ : RunState V P} (hdag : Acyclic E.config.steps) (h : E.Finishes σ) :
    ∃ mid details, σ.log =
      .trace .runStarted none none [] :: mid ++ [.trace .runFinished none none details] := by
  obtain ⟨m, hm, -, rfl⟩ := closed_of_finishes hdag h
  have hfirst : E.start.log <+: m.state.log :=
    Run.invariant (I := fun m => E.start.log <+: m.state.log)
      (fun _ _ hp hstep => hp.trans (mstep_log hstep)) List.prefix_rfl hm
  obtain ⟨mid, hmid⟩ := hfirst
  exact ⟨mid, _, by rw [finishRun, act_log, ← hmid]; rfl⟩

/-- CORRECT (trace): with a fresh trace and any hook, a returned run's events are numbered in order
    between `run.started` and `run.finished`, each step shows one of three event patterns, numbered
    by its invocations, and the hook is called once for each step, on its final records; events and
    calls of a step come after those of its dependencies. -/
theorem stream_of_finishes {σ : RunState V P} {t : TraceContext}
    {hook : StepCall V → Except String Unit}
    (hacc : detectCycles E.config.steps = .ok ()) (ht : E.trace = some t) (hfresh : t.events = [])
    (hhook : E.onStep = some hook) (hσ : E.Finishes σ) : ∃ t', σ.trace = some t' ∧
      t'.events.map ExecutionEvent.sequence = List.range' 1 t'.events.length ∧
      t'.events.head?.map ExecutionEvent.kind = some .runStarted ∧
      t'.events.getLast?.map ExecutionEvent.kind = some .runFinished ∧
      (∀ s ∈ E.config.steps, StepStream s (σ.statuses.get s.id)
        ((t'.events.filter fun e => e.stepId = some s.id).map fun e => (e.kind, e.attempt))
        (((own s.id σ.log).filterMap Action.invoked?).map Prod.fst)) ∧
      (∀ s ∈ E.config.steps, ∀ d, (d ∈ s.listed ∨ ∃ c, s.condition = some c ∧ c.step = d) →
        ∀ e ∈ t'.events, ∀ e' ∈ t'.events, e.stepId = some d → e'.stepId = some s.id →
          e.sequence < e'.sequence) ∧
      (∀ s ∈ E.config.steps, (σ.calls.filter fun c => c.stepId = s.id) =
        [⟨s.id, σ.statuses.get s.id, σ.results.get s.id, σ.errors.get s.id,
          σ.retryCounts.get s.id⟩]) ∧
      (∀ c ∈ σ.calls, ∃ s ∈ E.config.steps, s.id = c.stepId) ∧
      (∀ pre c post, σ.calls = pre ++ c :: post → ∀ s ∈ E.config.steps, c.stepId = s.id →
        ∀ d, (d ∈ s.listed ∨ ∃ c, s.condition = some c ∧ c.step = d) →
          ∃ c' ∈ pre, c'.stepId = d) := by
  obtain ⟨hended, hreplay⟩ := ended_of_finishes (acyclic_of_accepted hacc) hσ
  have hsome : E.onStep.isSome := by rw [hhook]; rfl
  have htrace := E.trace_replay ht hfresh σ.log
  rw [hreplay] at htrace
  obtain ⟨mid, details, hlog⟩ := log_of_finishes (acyclic_of_accepted hacc) hσ
  have hevents : σ.log.filterMap Action.event? = ⟨.runStarted, none, none, []⟩ ::
      mid.filterMap Action.event? ++ [⟨.runFinished, none, none, details⟩] := by
    rw [hlog]; simp [Action.event?]
  refine ⟨_, htrace, ?_, ?_, ?_, fun s hs => ?_, fun s hs d hd e he e' he' hid hid' => ?_,
    fun s hs => ?_, fun c hc => ?_, fun pre c post hc s hs hid d hd => ?_⟩
  · rw [sequence_number, List.length_mapIdx]
  · rw [hevents, List.cons_append, List.mapIdx_cons]; rfl
  · rw [hevents, List.mapIdx_concat, List.getLast?_concat]; rfl
  · have hstream := (hended.closed s hs).stream
    rw [hreplay] at hstream
    rw [brief_number, History.filterMap_proj Action.owner fun a e h => event_owner h s.id]
    exact hstream
  · obtain ⟨i, hi, rfl⟩ := List.mem_mapIdx.mp he
    obtain ⟨j, hj, rfl⟩ := List.mem_mapIdx.mp he'
    have hlt := event_before hended.ordered hs ((s.mem_deps d).mpr hd)
      (List.getElem?_eq_getElem hi) hid (List.getElem?_eq_getElem hj) hid'
    exact Nat.succ_lt_succ hlt
  · have hcalls := (hended.closed s hs).calls hsome
    rw [hreplay] at hcalls
    exact hcalls
  · rw [← hreplay] at hc; exact hended.call_known hc
  · rw [← hreplay] at hc
    exact call_after hsome hended.ordered hs ((s.mem_deps d).mpr hd) hc hid

/-- The pipeline with a fresh trace and a hook that always raises. -/
def tracedEtl : WorkflowExecutor String Unit :=
  { etl with trace := some {}, onStep := some fun _ => .error "closed" }

theorem tracedEtl_stream : ∃ σ t', tracedEtl.Finishes σ ∧ σ.trace = some t' ∧
    t'.events.map ExecutionEvent.sequence = List.range' 1 t'.events.length := by
  obtain ⟨σ, hσ, -⟩ := exists_finish (E := tracedEtl) (c := .loop tracedEtl.start ∅) .refl
  obtain ⟨t', ht', hsequence, -⟩ := stream_of_finishes (E := tracedEtl) rfl rfl rfl rfl hσ
  exact ⟨σ, t', hσ, ht', hsequence⟩

end WorkflowExecutor

end WorkflowEngine
