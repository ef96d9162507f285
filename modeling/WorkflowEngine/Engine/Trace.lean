import Mathlib.Data.Nat.Notation

/-! Execution events.

    A trace is an ordered sink without clocks: an event's sequence number is its position. -/

namespace WorkflowEngine

/-- The kinds of events, in the source `run.started`, `step.skipped` and so on. -/
inductive EventKind where
  | triggerReceived | runStarted | runFinished
  | stepSkipped | stepStarted | stepRetry | stepCompleted | stepFailed | dlqRecorded
  deriving DecidableEq

/-- One event; `attempt` is the actual task invocation number. -/
structure ExecutionEvent where
  sequence : ℕ
  kind : EventKind
  triggerId : Option String := none
  runId : Option String := none
  stepId : Option String := none
  attempt : Option ℕ := none
  details : List (String × String) := []
  deriving DecidableEq

structure TraceContext where
  triggerId : Option String := none
  runId : Option String := none
  events : List ExecutionEvent := []
  deriving DecidableEq

/-- Append an event with the next sequence number. -/
def TraceContext.emit (t : TraceContext) (kind : EventKind) (stepId : Option String)
    (attempt : Option ℕ) (details : List (String × String)) : TraceContext :=
  { t with events := t.events ++
      [{ sequence := t.events.length + 1, kind := kind, triggerId := t.triggerId, runId := t.runId,
         stepId := stepId, attempt := attempt, details := details }] }

end WorkflowEngine
