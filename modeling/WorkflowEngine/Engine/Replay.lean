import WorkflowEngine.Engine.Executor
import WorkflowEngine.Schemes.History

/-! Reading a run back from its actions.

    The records are the replay of the log. What they say about one step is the fold of that step's
    own actions, and the event trace is the numbered list of the events in the log. -/

namespace WorkflowEngine
open Schemes

variable {V P : Type}

namespace WorkflowExecutor

variable (E : WorkflowExecutor V P)

/-- The records after the actions of `log`. -/
def replay (log : List (Action V P)) : RunState V P := E.acts E.init log

@[simp] theorem act_log (σ : RunState V P) (a : Action V P) : (E.act σ a).log = σ.log ++ [a] := rfl

@[simp] theorem acts_nil (σ : RunState V P) : E.acts σ [] = σ := rfl

@[simp] theorem acts_cons (σ : RunState V P) (a : Action V P) (as : List (Action V P)) :
    E.acts σ (a :: as) = E.acts (E.act σ a) as := rfl

theorem acts_append (σ : RunState V P) (as bs : List (Action V P)) :
    E.acts σ (as ++ bs) = E.acts (E.acts σ as) bs := List.foldl_append ..

@[simp] theorem acts_log : ∀ (as : List (Action V P)) (σ : RunState V P),
    (E.acts σ as).log = σ.log ++ as
  | [], σ => by simp
  | a :: as, σ => by rw [acts_cons, acts_log as, act_log]; simp

@[simp] theorem replay_log (log : List (Action V P)) : (E.replay log).log = log := by
  simp [replay, init]

theorem replay_append (log as : List (Action V P)) :
    E.replay (log ++ as) = E.acts (E.replay log) as := E.acts_append ..

theorem replay_concat (log : List (Action V P)) (a : Action V P) :
    E.replay (log ++ [a]) = E.act (E.replay log) a := E.replay_append ..

end WorkflowExecutor

/-- The actions of step `id`, in order. -/
abbrev own (id : String) (log : List (Action V P)) : List (Action V P) :=
  History.proj Action.owner id log

theorem own_append (id : String) (log log' : List (Action V P)) :
    own id (log ++ log') = own id log ++ own id log' := History.proj_append ..

theorem own_cons_self {id : String} {a : Action V P} (ha : a.owner = some id)
    (log : List (Action V P)) : own id (a :: log) = a :: own id log := by
  simp [own, History.proj, ha]

/-- A block of the step's own actions. -/
theorem own_block {id : String} {as : List (Action V P)} (ho : ∀ a ∈ as, a.owner = some id)
    (log : List (Action V P)) : own id (log ++ as) = own id log ++ as := by
  rw [own, History.proj_append, History.proj_eq_self Action.owner ho]

theorem own_frame {id : String} {as : List (Action V P)} (ho : ∀ a ∈ as, a.owner ≠ some id)
    (log : List (Action V P)) : own id (log ++ as) = own id log := by
  rw [own, History.proj_append, History.proj_eq_nil Action.owner ho, List.append_nil]

/-- What the records say about one step. -/
structure StepView (V P : Type) where
  status : Option Status
  result : Option V := none
  error : Option String := none
  retryCount : Option ℕ
  attemptCount : Option ℕ
  deadLetters : List (DeadLetter P) := []
  calls : List (StepCall V) := []

def RunState.view (σ : RunState V P) (id : String) : StepView V P where
  status := σ.statuses.get id
  result := σ.results.get id
  error := σ.errors.get id
  retryCount := σ.retryCounts.get id
  attemptCount := σ.attemptCounts.get id
  deadLetters := σ.deadLetters.filter fun dl => dl.stepId = id
  calls := σ.calls.filter fun c => c.stepId = id

/-- The effect of a step's own action on its view. -/
def StepView.act (E : WorkflowExecutor V P) (w : StepView V P) : Action V P → StepView V P
  | .setStatus _ status => { w with status := some status }
  | .setAttempt _ n => { w with attemptCount := some n }
  | .invoke _ _ _ => w
  | .setResult _ res => { w with result := some res }
  | .setRetryCount _ n => { w with retryCount := some n }
  | .setError _ error => { w with error := some error }
  | .deadLetter id task error params =>
    { w with deadLetters := w.deadLetters ++ [⟨id, task, error, w.retryCount.getD 0, params⟩] }
  | .sleep _ _ => w
  | .trace _ _ _ _ => w
  | .emit id =>
    { w with calls := w.calls ++
        if E.onStep.isSome then [⟨id, w.status, w.result, w.error, w.retryCount⟩] else [] }

namespace WorkflowExecutor

variable (E : WorkflowExecutor V P)

/-- A hook call is recorded whether or not the hook raises. -/
theorem perform_emit (σ : RunState V P) (id : String) :
    E.perform σ (.emit id) =
      { σ with calls := σ.calls ++ if E.onStep.isSome then
          [⟨id, σ.statuses.get id, σ.results.get id, σ.errors.get id, σ.retryCounts.get id⟩]
        else [] } := by
  cases hook : E.onStep with
  | none => simp [perform, hook]
  | some f => simp only [perform, hook, Option.isSome_some, if_true]; split <;> rfl

/-- FRAME: an action of another step leaves the view alone. -/
theorem view_act_frame (σ : RunState V P) (a : Action V P) (id : String)
    (h : a.owner ≠ some id) : (E.act σ a).view id = σ.view id := by
  cases a with
  | emit i =>
    have hi : i ≠ id := fun he => h (congrArg some he)
    by_cases hs : E.onStep.isSome
    · simp [act, perform_emit, RunState.view, hs, hi]
    · simp [act, perform_emit, RunState.view, hs]
  | invoke | sleep | trace => rfl
  | setStatus i | setAttempt i | setResult i | setRetryCount i | setError i | deadLetter i =>
    have hi : id ≠ i := fun he => h (congrArg some he.symm)
    simp [act, perform, RunState.view, hi, Ne.symm hi]

theorem view_act_own (σ : RunState V P) (a : Action V P) (id : String)
    (h : a.owner = some id) : (E.act σ a).view id = (σ.view id).act E a := by
  cases a with
  | emit i =>
    obtain rfl : i = id := Option.some.inj h
    by_cases hs : E.onStep.isSome
    · simp [act, perform_emit, RunState.view, StepView.act, hs]
    · simp [act, perform_emit, RunState.view, StepView.act, hs]
  | invoke | sleep | trace => rfl
  | setStatus i | setAttempt i | setResult i | setRetryCount i | setError i | deadLetter i =>
    obtain rfl : i = id := Option.some.inj h
    simp [act, perform, RunState.view, StepView.act, RunState.retryCount]

theorem view_acts (σ : RunState V P) (as : List (Action V P)) (id : String) :
    (E.acts σ as).view id = (own id as).foldl (StepView.act E) (σ.view id) :=
  History.view_foldl Action.owner E.act (StepView.act E) (fun σ => σ.view id) id
    (fun σ a h => E.view_act_own σ a id h) (fun σ a h => E.view_act_frame σ a id h) as σ

/-- The view of a step before its first action. -/
def freshView : StepView V P where
  status := some .pending
  retryCount := some 0
  attemptCount := some 0

theorem view_init {s : StepConfig P} (hs : s ∈ E.config.steps) :
    E.init.view s.id = freshView := by
  have hid : s.id ∈ E.config.steps.map StepConfig.id := List.mem_map_of_mem hs
  simp only [RunState.view, init, Dict.get_ofList_map, if_pos hid, Dict.get_empty, freshView,
    List.filter_nil]

/-- A step's view after a run is the fold of its own actions. -/
theorem view_replay (log : List (Action V P)) {s : StepConfig P} (hs : s ∈ E.config.steps) :
    (E.replay log).view s.id = (own s.id log).foldl (StepView.act E) freshView := by
  rw [replay, view_acts, E.view_init hs]

end WorkflowExecutor

/-! ### The event trace -/

/-- An event as it is logged, before it gets its number. -/
structure Logged where
  kind : EventKind
  stepId : Option String
  attempt : Option ℕ
  details : List (String × String) := []
  deriving DecidableEq

def Action.event? : Action V P → Option Logged
  | .trace kind stepId attempt details => some ⟨kind, stepId, attempt, details⟩
  | _ => none

/-- The `i`-th logged event of a trace. -/
def TraceContext.number (t : TraceContext) (i : ℕ) (e : Logged) : ExecutionEvent where
  sequence := i + 1
  kind := e.kind
  triggerId := t.triggerId
  runId := t.runId
  stepId := e.stepId
  attempt := e.attempt
  details := e.details

/-- With a fresh trace, the events are the logged ones, numbered from 1. -/
theorem WorkflowExecutor.trace_replay (E : WorkflowExecutor V P) {t : TraceContext}
    (ht : E.trace = some t) (hfresh : t.events = []) (log : List (Action V P)) :
    (E.replay log).trace = some { t with events := (log.filterMap Action.event?).mapIdx t.number } := by
  induction log using List.reverseRecOn with
  | nil => simp [replay, init, ht, ← hfresh]
  | append_singleton log a ih =>
    rw [E.replay_concat, List.filterMap_append]
    cases a with
    | trace kind stepId attempt details =>
      simp [act, perform, ih, TraceContext.emit, Action.event?, List.mapIdx_concat,
        TraceContext.number]
    | emit id => simp [act, perform_emit, ih, Action.event?, List.filterMap_cons]
    | _ => simpa [act, perform, Action.event?, List.filterMap_cons] using ih

end WorkflowEngine
