import WorkflowEngine.Engine.Parser
import WorkflowEngine.Engine.Trace
import WorkflowEngine.Schemes.Run
import Mathlib.Data.Finset.Card
import Mathlib.Algebra.Order.Ring.Unbundled.Rat

/-! The DAG execution engine.

    The executor's records change by atomic actions, and the state keeps the list of the actions
    performed so far, so a run can be read back action by action. `runWithRetry` is the list of
    actions that one step's retry loop performs on the context it was given; sequential mode performs
    it at once, and a worker of the thread pool performs it one action at a time, between the actions
    of the submitting thread and of the other workers. -/

namespace WorkflowEngine
open Schemes

inductive Status where | pending | running | completed | failed | skipped
  deriving DecidableEq

structure DeadLetter (P : Type) where
  stepId : String
  task : String
  error : String
  attempts : ℕ
  params : P
  deriving DecidableEq

/-- The arguments of one `on_step` call. -/
structure StepCall (V : Type) where
  stepId : String
  status : Option Status
  result : Option V
  error : Option String
  retryCount : Option ℕ
  deriving DecidableEq

/-- The atomic actions of a run. `invoke` marks the `n`-th invocation of a step's task with a
    context, and changes nothing. -/
inductive Action (V P : Type) where
  | setStatus (id : String) (status : Status)
  | setAttempt (id : String) (n : ℕ)
  | invoke (id : String) (n : ℕ) (context : Context V)
  | setResult (id : String) (res : V)
  | setRetryCount (id : String) (n : ℕ)
  | setError (id : String) (error : String)
  | deadLetter (id task error : String) (params : P)
  | sleep (id : String) (seconds : ℚ)
  | trace (kind : EventKind) (stepId : Option String) (attempt : Option ℕ)
      (details : List (String × String))
  | emit (id : String)

/-- The step an action belongs to; only `run.started` and `run.finished` belong to none. -/
def Action.owner {V P : Type} : Action V P → Option String
  | .setStatus id _ | .setAttempt id _ | .invoke id _ _ | .setResult id _ | .setRetryCount id _
  | .setError id _ | .deadLetter id _ _ _ | .sleep id _ | .emit id => some id
  | .trace _ stepId _ _ => stepId

/-- The constructor arguments of the executor. -/
structure WorkflowExecutor (V P : Type) where
  config : WorkflowConfig P
  taskRegistry : Dict String (Task V P)
  onStep : Option (StepCall V → Except String Unit) := none
  maxBackoff : ℚ := 8
  concurrencyLimit : Option ℤ := none
  typedIo : Option Bool := none
  trace : Option TraceContext := none

/-- The executor's records. `calls` are the `on_step` calls made and `log` the actions performed. -/
structure RunState (V P : Type) where
  statuses : Dict String Status
  results : Dict String V := Dict.empty
  retryCounts : Dict String ℕ
  attemptCounts : Dict String ℕ
  errors : Dict String String := Dict.empty
  deadLetters : List (DeadLetter P) := []
  trace : Option TraceContext
  calls : List (StepCall V) := []
  log : List (Action V P) := []

variable {V P : Type} [PyValue V]

def RunState.retryCount (σ : RunState V P) (id : String) : ℕ := (σ.retryCounts.get id).getD 0

def RunState.attemptCount (σ : RunState V P) (id : String) : ℕ := (σ.attemptCounts.get id).getD 0

inductive OverallStatus where | failed | completed | incomplete
  deriving DecidableEq

def OverallStatus.text : OverallStatus → String
  | .failed => "failed"
  | .completed => "completed"
  | .incomplete => "partial"

/-- Aggregate run status from per-step statuses. -/
def RunState.overallStatus (σ : RunState V P) : OverallStatus :=
  if .failed ∈ σ.statuses.values then .failed
  else if ∀ st ∈ σ.statuses.values, st = .completed ∨ st = .skipped then .completed
  else .incomplete

namespace WorkflowExecutor

variable (E : WorkflowExecutor V P)

def typed : Bool := E.typedIo.getD E.config.typedIo

/-- `concurrency_limit is not None and concurrency_limit > 1`. -/
def parallel : Bool := E.concurrencyLimit.any fun n => decide (1 < n)

def total : ℕ := E.config.steps.length

/-- `__init__`. -/
def init : RunState V P where
  statuses := Dict.ofList ((E.config.steps.map StepConfig.id).map fun i => (i, .pending))
  retryCounts := Dict.ofList ((E.config.steps.map StepConfig.id).map fun i => (i, 0))
  attemptCounts := Dict.ofList ((E.config.steps.map StepConfig.id).map fun i => (i, 0))
  trace := E.trace

/-- The effect of one action on the records. -/
def perform (σ : RunState V P) : Action V P → RunState V P
  | .setStatus id status => { σ with statuses := σ.statuses.set id status }
  | .setAttempt id n => { σ with attemptCounts := σ.attemptCounts.set id n }
  | .invoke _ _ _ => σ
  | .setResult id res => { σ with results := σ.results.set id res }
  | .setRetryCount id n => { σ with retryCounts := σ.retryCounts.set id n }
  | .setError id error => { σ with errors := σ.errors.set id error }
  | .deadLetter id task error params =>
    { σ with deadLetters := σ.deadLetters ++ [⟨id, task, error, σ.retryCount id, params⟩] }
  | .sleep _ _ => σ
  | .trace kind stepId attempt details =>
    { σ with trace := σ.trace.map fun t => t.emit kind stepId attempt details }
  | .emit id =>
    match E.onStep with
    | none => σ
    | some hook =>
      let call : StepCall V := ⟨id, σ.statuses.get id, σ.results.get id, σ.errors.get id,
        σ.retryCounts.get id⟩
      let called := { σ with calls := σ.calls ++ [call] }
      match hook call with
      | .ok () => called
      | .error _ => called -- only a warning: a hook must never break a run

def act (σ : RunState V P) (a : Action V P) : RunState V P :=
  { E.perform σ a with log := σ.log ++ [a] }

def acts (σ : RunState V P) (as : List (Action V P)) : RunState V P := as.foldl E.act σ

/-- `validate_registry`: the task names that are missing, if any. -/
def validateRegistry : Except String Unit :=
  let missing := (E.config.steps.map StepConfig.task).filter fun t => (E.taskRegistry.get t).isNone
  if missing.isEmpty then .ok ()
  else
    let names := String.intercalate ", " ((missing.dedup).insertionSort (· ≤ ·))
    .error s!"Tasks not found in registry: {names}"

/-! ### The retry loop of one step -/

/-- `self.task_registry[step.task]`; `validate_registry` has made sure that it is there. -/
def taskFn (s : StepConfig P) : Task V P :=
  (E.taskRegistry.get s.task).getD { call := fun _ _ _ p => (.error s!"'{s.task}'", p) }

/-- The `n`-th invocation of the step's task. Typed tasks get a copy of the params, so the step's own
    mapping stays as it was. -/
def invoke (s : StepConfig P) (n : ℕ) (context : Context V) (p : P) : Except String V × P :=
  if E.typed then
    (match TaskRunner.run E.taskRegistry s.task s.id n ⟨context, p⟩ with
      | .ok r => r.unwrap
      | .error e => .error e, p)
  else (E.taskFn s).call s.id n context p

/-- `min(0.5 * 2**attempt, max_backoff)`, exactly. -/
def backoff (attempt : ℕ) : ℚ := min (2 ^ attempt / 2) E.maxBackoff

/-- The loop from `attempt` on, with `left` retries left and the step's params mapping `p`: the
    actions performed, and whether the step succeeded. What the `except` block raises on large
    numbers is in `attemptLoopFloat`. -/
def attemptLoop (s : StepConfig P) (context : Context V) (emitTrace : Bool) :
    ℕ → ℕ → P → List (Action V P) × Bool
  | left, attempt, p =>
    let tried : List (Action V P) :=
      [.setAttempt s.id (attempt + 1), .invoke s.id (attempt + 1) context]
    match E.invoke s (attempt + 1) context p with
    | (.ok res, _) => (tried ++ [.setResult s.id res, .setStatus s.id .completed], true)
    | (.error exc, p') =>
      match left with
      | 0 =>
        (tried ++ [.setRetryCount s.id (attempt + 1), .setStatus s.id .failed, .setError s.id exc,
          .deadLetter s.id s.task exc p'], false)
      | left + 1 =>
        let retry : List (Action V P) :=
          if emitTrace then [.trace .stepRetry (some s.id) (some (attempt + 1)) []] else []
        let rest := attemptLoop s context emitTrace left (attempt + 1) p'
        (tried ++ .setRetryCount s.id (attempt + 1) :: retry ++ .sleep s.id (E.backoff attempt) ::
          rest.1, rest.2)

/-- `_run_with_retry`. -/
def runWithRetry (s : StepConfig P) (context : Context V) (emitTrace : Bool) :
    List (Action V P) × Bool :=
  E.attemptLoop s context emitTrace s.retries 0 s.params

/-! ### The actions around the loop -/

def skipActs (s : StepConfig P) : List (Action V P) :=
  [.setStatus s.id .skipped, .trace .stepSkipped (some s.id) none [], .emit s.id]

def startActs (s : StepConfig P) : List (Action V P) :=
  [.setStatus s.id .running, .trace .stepStarted (some s.id) none []]

/-- The retry events that parallel mode reconstructs afterwards. -/
def retryActs (s : StepConfig P) (retryEvents : ℕ) : List (Action V P) :=
  (List.range retryEvents).map fun k => .trace .stepRetry (some s.id) (some (k + 1)) []

/-- The final event, `dlq.recorded` after a failure, and the hook. -/
def finishActs (s : StepConfig P) (succeeded : Bool) (attempts : ℕ) : List (Action V P) :=
  .trace (if succeeded then .stepCompleted else .stepFailed) (some s.id)
      (if attempts = 0 then none else some attempts) [] ::
    (if succeeded then [] else [.trace .dlqRecorded (some s.id) (some attempts) []]) ++ [.emit s.id]

/-! ### Choosing steps -/

inductive Gate where | pass | skip | run
  deriving DecidableEq

/-- Whether the step's condition, if any, is satisfied. -/
def holds (s : StepConfig P) (results : Context V) : Bool :=
  s.condition.all fun c => c.evaluate results

/-- The checks that both scheduling loops make on a step. -/
def gate (σ : RunState V P) (resolved : Finset String) (s : StepConfig P) : Gate :=
  if σ.statuses.get s.id ≠ some .pending then .pass
  else if ¬ ∀ dep ∈ s.listed, dep ∈ resolved then .pass
  else if s.condition.any fun c => decide (c.step ∉ resolved) then .pass
  else if holds s σ.results.get then .run
  else .skip

/-- What a scheduling pass carries from step to step. -/
structure Pass (V P : Type) where
  state : RunState V P
  resolved : Finset String
  executed : Bool := false
  runnable : List (StepConfig P) := []

def Pass.skip (p : Pass V P) (s : StepConfig P) : Pass V P :=
  { p with state := E.acts p.state (skipActs s), resolved := insert s.id p.resolved, executed := true }

/-- `_run_step`. -/
def runStep (σ : RunState V P) (s : StepConfig P) : RunState V P :=
  let σ := E.acts σ (startActs s)
  let job := E.runWithRetry s σ.results.get true
  let σ := E.acts σ job.1
  E.acts σ (finishActs s job.2 (σ.attemptCount s.id))

def legacyStep (p : Pass V P) (s : StepConfig P) : Pass V P :=
  match gate p.state p.resolved s with
  | .pass => p
  | .skip => Pass.skip E p s
  | .run =>
    { p with state := E.runStep p.state s, resolved := insert s.id p.resolved, executed := true }

/-- `_run_legacy_yaml_order`: a sequential pass that immediately exposes resolved dependencies. -/
def runLegacyYamlOrder (σ : RunState V P) (resolved : Finset String) : Pass V P :=
  E.config.steps.foldl E.legacyStep { state := σ, resolved := resolved }

def collectStep (p : Pass V P) (s : StepConfig P) : Pass V P :=
  match gate p.state p.resolved s with
  | .pass => p
  | .skip => Pass.skip E p s
  | .run => { p with runnable := p.runnable ++ [s] }

/-- `_collect_runnable`: resolve false branches and collect one ready layer. Here `executed` is
    the flag `skipped`. -/
def collectRunnable (σ : RunState V P) (resolved : Finset String) : Pass V P :=
  E.config.steps.foldl E.collectStep { state := σ, resolved := resolved }

/-! ### The thread pool -/

/-- A submitted call of `_run_with_retry`: the actions it has still to perform and its result. -/
structure Job (V P : Type) where
  id : String
  acts : List (Action V P)
  succeeded : Bool

/-- `ThreadPoolExecutor`: work items start in submission order, at most `limit` at a time. -/
structure Pool (V P : Type) where
  toSubmit : List (StepConfig P)
  queue : List (Job V P) := []
  busy : List (Job V P) := []
  outcomes : Dict String Bool := Dict.empty

/-- `pool.submit` takes the context snapshot `dict(self.results)`. -/
def submit (σ : RunState V P) (s : StepConfig P) : Job V P :=
  let run := E.runWithRetry s σ.results.get false
  ⟨s.id, run.1, run.2⟩

/-- `min(self._concurrency_limit or 1, len(steps))`. -/
def workers (layer : List (StepConfig P)) : ℕ :=
  min (E.concurrencyLimit.getD 1).toNat layer.length

/-- After the pool: the events of one step, and its hook. -/
def publish (outcomes : Dict String Bool) (σ : RunState V P) (s : StepConfig P) : RunState V P :=
  E.acts σ (retryActs s (min (σ.retryCount s.id) s.retries) ++
    finishActs s ((outcomes.get s.id).getD false) (σ.attemptCount s.id))

/-! ### `execute` -/

/-- Where `execute` stands: at the head of its loop, inside `_run_parallel`, or returned. -/
inductive Conf (V P : Type) where
  | loop (σ : RunState V P) (resolved : Finset String)
  | pool (σ : RunState V P) (resolved : Finset String) (layer : List (StepConfig P)) (p : Pool V P)
  | done (σ : RunState V P) (deadlock : Bool)

/-- Who moves next: the main thread, an idle worker that takes the oldest work item, or the `i`-th
    busy worker. -/
inductive Move where
  | main | start | work (i : ℕ)
  deriving DecidableEq

def finishRun (σ : RunState V P) : RunState V P :=
  E.act σ (.trace .runFinished none none [("status", σ.overallStatus.text)])

/-- The end of a round: stop if nothing was resolved while steps remain. -/
def endRound (σ : RunState V P) (resolved : Finset String) (executed : Bool) : Conf V P :=
  if !executed ∧ resolved.card < E.total then .done (E.finishRun σ) true else .loop σ resolved

/-- One move of a run, if it is possible. -/
def next : Move → Conf V P → Option (Conf V P)
  | .main, .loop σ resolved =>
    if resolved.card < E.total then
      if E.parallel then
        let c := E.collectRunnable σ resolved
        if c.runnable.isEmpty then some (E.endRound c.state c.resolved c.executed)
        else
          some (.pool (c.runnable.foldl (fun σ s => E.acts σ (startActs s)) c.state) c.resolved
            c.runnable { toSubmit := c.runnable })
      else
        let p := E.runLegacyYamlOrder σ resolved
        some (E.endRound p.state p.resolved p.executed)
    else some (.done (E.finishRun σ) false)
  | .main, .pool σ resolved layer p =>
    match p.toSubmit with
    | s :: rest =>
      some (.pool σ resolved layer { p with toSubmit := rest, queue := p.queue ++ [E.submit σ s] })
    | [] =>
      if p.queue.isEmpty ∧ p.busy.isEmpty then
        some (.loop (layer.foldl (E.publish p.outcomes) σ)
          (resolved ∪ (layer.map StepConfig.id).toFinset))
      else none
  | .start, .pool σ resolved layer p =>
    match p.queue with
    | [] => none
    | j :: rest =>
      if p.busy.length < E.workers layer then
        some (.pool σ resolved layer { p with queue := rest, busy := p.busy ++ [j] })
      else none
  | .work i, .pool σ resolved layer p =>
    match p.busy[i]? with
    | none => none
    | some j =>
      match j.acts with
      | [] =>
        some (.pool σ resolved layer
          { p with busy := p.busy.eraseIdx i, outcomes := p.outcomes.set j.id j.succeeded })
      | a :: rest =>
        some (.pool (E.act σ a) resolved layer
          { p with busy := p.busy.set i { j with acts := rest } })
  | _, _ => none

/-- The state in which the loop starts. -/
def start : RunState V P := E.act E.init (.trace .runStarted none none [])

/-- `execute`, up to its loop. -/
def execute : Except String (Conf V P) := do
  E.validateRegistry
  .ok (.loop E.start ∅)

/-- Some thread makes a move. -/
def Step (c c' : Conf V P) : Prop := ∃ m, E.next m c = some c'

/-- A run of `execute` that has come to `c`, whatever the order of the threads' moves. -/
def Reaches (c : Conf V P) : Prop :=
  Relation.ReflTransGen E.Step (.loop E.start ∅) c

/-- A run of `execute` that returned with the records `σ`. -/
def Finishes (σ : RunState V P) : Prop := ∃ deadlock, E.Reaches (.done σ deadlock)

/-- The moves of a run, made one after another. -/
def runMoves : List Move → Conf V P → Option (Conf V P) := Run.moves E.next

end WorkflowExecutor

end WorkflowEngine
