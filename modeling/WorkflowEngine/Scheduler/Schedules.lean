import WorkflowEngine.Schemes.Dict
import WorkflowEngine.Scheduler.Datetime
import Mathlib.Data.Finset.Insert

/-! The cron scheduler.

    A schedule store hands out its records when they are listed or looked up: the in-memory store the
    records themselves, which later writes change, the database copies. A tick takes the due
    schedules, claims each one's fire time, dispatches it and then advances it. -/

namespace WorkflowEngine
open Schemes

structure ScheduledWorkflow where
  name : String
  cron : String
  yamlDefinition : String
  lastRun : Option Datetime := none
  nextRun : Option Datetime := none
  enabled : Bool := true
  deriving DecidableEq

/-- The cron library: `croniter.is_valid` and `croniter(cron, base).get_next(datetime)`, for
    expressions that always have a next date. -/
structure Croniter where
  isValid : String → Bool
  getNext : String → Datetime → Datetime

/-! ### Stores -/

/-- Which store it is: `live` the in-memory one, `copies` the database. -/
inductive Sharing where | live | copies
  deriving DecidableEq

structure ScheduleStore where
  sharing : Sharing
  records : Dict String ScheduledWorkflow := Dict.empty

/-- A schedule in the hands of a caller: the store's own record, as it was when it was handed out, or
    a copy. -/
inductive Handle where
  | shared (seen : ScheduledWorkflow)
  | copy (record : ScheduledWorkflow)
  deriving DecidableEq

namespace ScheduleStore

def handle (store : ScheduleStore) (s : ScheduledWorkflow) : Handle :=
  match store.sharing with
  | .live => .shared s
  | .copies => .copy s

/-- The attributes of a schedule now. A shared record is the one stored under its name; once it has
    been deleted, it keeps the attributes it had. -/
def read (store : ScheduleStore) : Handle → ScheduledWorkflow
  | .shared seen => (store.records.get seen.name).getD seen
  | .copy record => record

def put (store : ScheduleStore) (schedule : ScheduledWorkflow) : ScheduleStore :=
  { store with records := store.records.set schedule.name schedule }

def get (store : ScheduleStore) (name : String) : Option Handle :=
  (store.records.get name).map store.handle

def delete (store : ScheduleStore) (name : String) : ScheduleStore × Bool :=
  ({ store with records := store.records.erase name }, (store.records.get name).isSome)

/-- In the order of the first `put`. The database's query has no order of its own. -/
def list (store : ScheduleStore) : List Handle := store.records.values.map store.handle

end ScheduleStore

/-! ### Claims -/

/-- The idempotency store: the pairs claimed so far. -/
structure IdempotencyStore where
  claims : Finset (String × String) := ∅

/-- `claim`: whether it is granted, and the store after it. -/
def IdempotencyStore.claim (store : IdempotencyStore) (ns : String) (key : Option String) :
    Bool × IdempotencyStore :=
  match key with
  | none => (true, store)
  | some key =>
    if key = "" then (true, store)
    else if (ns, key) ∈ store.claims then (false, store)
    else (true, ⟨insert (ns, key) store.claims⟩)

/-- `sched.next_run.isoformat() if sched.next_run else "unscheduled"`. -/
def fireText : Option Datetime → String
  | some t => t.isoformat
  | none => "unscheduled"

/-- The claim that stands for one fire time of a schedule. -/
def fireClaim (name : String) (fire : Option Datetime) : String × String :=
  ("schedule:" ++ name, fireText fire)

/-! ### The scheduler -/

namespace WorkflowScheduler

/-- Enabled, and `next_run` is at or before `now`. -/
def IsDue (now : Datetime) (s : ScheduledWorkflow) : Prop :=
  s.enabled = true ∧ ∃ t ∈ s.nextRun, t ≤ now

instance (now : Datetime) (s : ScheduledWorkflow) : Decidable (IsDue now s) :=
  inferInstanceAs (Decidable (s.enabled = true ∧ ∃ t ∈ s.nextRun, t ≤ now))

variable (cron : Croniter)

/-- The `ValueError` of `register`. -/
inductive ScheduleError where
  | invalidCron (cron : String)
  deriving DecidableEq

/-- The error text; `repr` is Python's rendering of a string. -/
def ScheduleError.message (repr : String → String) : ScheduleError → String
  | .invalidCron cron => s!"Invalid cron expression: {repr cron}"

def register (store : ScheduleStore) (name expression yamlDefinition : String) (now : Datetime) :
    Except ScheduleError ScheduleStore :=
  if cron.isValid expression then
    .ok (store.put { name := name, cron := expression, yamlDefinition := yamlDefinition,
                     nextRun := some (cron.getNext expression now) })
  else .error (.invalidCron expression)

def unregister (store : ScheduleStore) (name : String) : ScheduleStore × Bool := store.delete name

/-- Return enabled schedules whose `next_run` is at or before `now`. -/
def due (store : ScheduleStore) (now : Datetime) : List Handle :=
  store.list.filter fun h => IsDue now (store.read h)

/-- The writes of `mark_ran` on the record it has looked up. -/
def advance (store : ScheduleStore) (h : Handle) (now : Datetime) : ScheduleStore :=
  let sched := store.read h
  store.put { sched with lastRun := some now, nextRun := some (cron.getNext sched.cron now) }

/-- Advance a schedule after it has fired. -/
def markRan (store : ScheduleStore) (name : String) (now : Datetime) : ScheduleStore :=
  match store.get name with
  | some h => advance cron store h now
  | none => store

end WorkflowScheduler

/-- A scheduler's store, and the idempotency store its ticks are given. -/
structure Schedules where
  store : ScheduleStore
  idempotency : IdempotencyStore := {}

/-- The callback of one tick: what it does when called for the `n`-th time, with this definition. It
    returns the `run_id` of its result, or raises. -/
abbrev Dispatch := ℕ → String → Except String (Option String)

namespace WorkflowScheduler
variable (cron : Croniter) (now : Datetime) (dispatch : Dispatch)

/-- The loop of `dispatch_due`: the stores after it, and what it dispatched or the exception that
    ended it. -/
def dispatchLoop : List Handle → Schedules → List (String × Option String) →
    Schedules × Except String (List (String × Option String))
  | [], w, dispatched => (w, .ok dispatched)
  | h :: todo, w, dispatched =>
    let sched := w.store.read h
    let (granted, idempotency) :=
      w.idempotency.claim ("schedule:" ++ sched.name) (some (fireText sched.nextRun))
    if granted then
      match dispatch dispatched.length sched.yamlDefinition with
      | .error e => ({ w with idempotency := idempotency }, .error e)
      | .ok runId =>
        dispatchLoop todo ⟨markRan cron w.store sched.name now, idempotency⟩
          (dispatched ++ [(sched.name, runId)])
    else dispatchLoop todo { w with idempotency := idempotency } dispatched

/-- Dispatch due workflows once per scheduled fire time. -/
def dispatchDue (w : Schedules) : Schedules × Except String (List (String × Option String)) :=
  dispatchLoop cron now dispatch (due w.store now) w []

end WorkflowScheduler

end WorkflowEngine
