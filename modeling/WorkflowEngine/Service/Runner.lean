import WorkflowEngine.Service.Definitions
import WorkflowEngine.Service.Stores
import WorkflowEngine.Storage.Interchange
import WorkflowEngine.Scheduler.Firing

/-! `run_workflow`: parse, execute, persist.

    The world is everything a request can change. A request is served under circumstances that this
    code does not decide: which store operations raise, which ids are drawn, and how the threads of
    an execution are scheduled. What a call leaves is read off `runWorkflow_cases`: a world that it
    has not touched, one with a new version, or one in which the definition has run. -/

namespace WorkflowEngine
open Schemes

variable {D P V J : Type} {lib : YamlLibrary D P}

/-! ### Empty stores -/

def RunStore.empty : Backend → RunStore P J
  | .memory => .memory {}
  | .database => .database {}

def EventStore.empty : Backend → EventStore
  | .memory => .memory Dict.empty
  | .database => .database []

theorem RunStore.sound_empty (b : Backend) : (RunStore.empty b : RunStore P J).Sound := by
  cases b <;> simp [RunStore.empty, RunStore.Sound, DatabaseWorkflowStorage.stepsOf]

theorem RunStore.getRun_empty {column : JsonColumn J P} (b : Backend) (id : String) :
    (RunStore.empty b : RunStore P J).getRun column id = none := by
  cases b <;> rfl

/-! ### The world -/

/-- An execution of a definition that loaded, with a complete registry; it has returned. -/
structure Execution {D P : Type} (lib : YamlLibrary D P) (V : Type) [PyValue V] extends
    FinishedRun V P where
  loaded : lib.loadWorkflowYaml yamlDefinition = .ok executor.config
  registered : executor.validateRegistry = .ok ()

structure WebhookTrigger where
  name : String
  yamlDefinition : String
  description : String := ""
  secret : Option String := none
  deriving DecidableEq

/-- The arguments of a `run_workflow_task` that was enqueued. -/
structure Message where
  yamlDefinition : String
  runId : Option String
  versionHash : Option String
  concurrencyLimit : Option ℤ

/-- The stores and the queue. `queue` keeps all messages that were ever enqueued, since the broker
    may deliver any of them again, `executed` all executions, and `saved` the ids under which runs
    were saved. -/
structure World {D P : Type} (lib : YamlLibrary D P) (V J : Type) [PyValue V] where
  runs : RunStore P J
  versions : VersionStore lib
  events : EventStore
  schedules : Schedules
  webhooks : Dict String WebhookTrigger := Dict.empty
  queue : List Message := []
  executed : List (Execution lib V) := []
  saved : List String := []

/-- The installation: its libraries, its registry and its configuration. -/
structure Service (V P J : Type) where
  column : JsonColumn J P
  cron : Croniter
  hmac : String → List UInt8 → String -- `hmac.new(secret.encode("utf-8"), body, sha256).hexdigest()`
  taskRegistry : Dict String (Task V P)
  concurrencyLimit : ℤ := 1
  asyncEnabled : Bool := false
  lockingEnabled : Bool := false

/-- The statements that reach a store, the broker or the lock provider. -/
inductive Operation where
  | getVersion | putVersion | saveRun | saveEvents -- `run_workflow`
  | dispatchPut | delay | acquire | release -- `_dispatch`
  | workerGet | workerPut -- `run_workflow_task`
  | claim | getRun | listSchedules | putSchedule | deleteSchedule | markRan
  | getWebhook | verifyGet | putWebhook
  deriving DecidableEq

/-- Why `_check_access` refuses a request. -/
inductive Denial where | rateLimited | unauthorized | forbidden
  deriving DecidableEq

/-- Where an id is drawn. -/
inductive Draw where | run | trigger | trace | save
  deriving DecidableEq

/-- What this code does not decide about a request: which operations raise (nothing of HTTP), what
    `_check_access` raises, whether the lock is free, the ids drawn, in which order the database
    returns rows, and how each execution comes to its end. Executions are taken to return. -/
structure Circumstances (V P : Type) [PyValue V] where
  fails : Operation → Option Exn := fun _ => none
  plain : ∀ op e, fails op = some e → e.isHttp = false := by simp
  denied : Option Denial := none
  held : Bool := true
  uuid : Draw → String
  rows : List Handle → List Handle := fun rows => rows -- a query without `ORDER BY`
  rows_perm : ∀ l, (rows l).Perm l := by simp
  outcome : ∀ E : WorkflowExecutor V P, { records : RunState V P // E.Finishes records }

variable [PyValue V]

/-- The events of a returned execution. -/
def FinishedRun.events (x : FinishedRun V P) : List ExecutionEvent :=
  x.records.trace.elim [] TraceContext.events

namespace World

/-- The world after a text was put into the version store. -/
def withVersion (w : World lib V J) (text : String) : World lib V J :=
  { w with versions := w.versions.after text }

/-- One more execution. -/
def ran (w : World lib V J) (x : Execution lib V) : World lib V J :=
  { w with executed := w.executed ++ [x] }

/-- A returned execution is saved. -/
def recordRun (s : Service V P J) (w : World lib V J) (x : FinishedRun V P) : World lib V J :=
  { w with runs := (w.runs.saveRun s.column x.args x.uuid).1, saved := w.saved ++ [x.id] }

/-- The events of a returned execution are saved. -/
def recordEvents (w : World lib V J) (x : FinishedRun V P) : World lib V J :=
  { w with events := w.events.save x.id x.events }

end World

/-- Programs over the world. -/
abbrev Program (lib : YamlLibrary D P) (V J α : Type) [PyValue V] := Prog (World lib V J) Exn α

/-- A statement outside this code: it raises, or has its effect and returns. -/
def attempt (c : Circumstances V P) (op : Operation) : Program lib V J Unit :=
  Prog.lift (match c.fails op with
    | some e => .error e
    | none => .ok ())

/-! ### `run_workflow` -/

/-- `run_id or str(uuid.uuid4())`. -/
def idOr (runId : Option String) (uuid : String) : String := (truthy runId).getD uuid

/-- The arguments of a call; `versioned` and `recorded` are whether it is given the version store and
    the event store. -/
structure RunCall (V P : Type) where
  yamlDefinition : String
  runId : Option String := none
  taskRegistry : Option (Dict String (Task V P)) := none
  concurrencyLimit : Option ℤ := none
  typedIo : Option Bool := none
  trace : Option TraceContext := none
  versioned : Bool := true
  versionHash : Option String := none
  recorded : Bool := true

/-- The result dict. -/
structure RunResult (P : Type) where
  runId : String
  workflow : String
  status : String
  stepStatuses : Dict String Status
  results : Dict String String
  errors : Dict String String
  deadLetters : List (DeadLetter P)
  versionHash : Option String
  events : Option (List ExecutionEvent)

/-- A trace without a run id gets the run's, and a run without an id the trace's. -/
def RunCall.named (call : RunCall V P) (uuid : String) : RunCall V P :=
  match call.trace with
  | none => call
  | some t =>
    let runId := t.runId.getD (idOr call.runId uuid)
    { call with trace := some { t with runId := some runId }, runId := some (call.runId.getD runId) }

section Runner
variable (s : Service V P J) (c : Circumstances V P)

/-- The definition to run: the given one, or the one that is stored under the given hash. -/
def definitionOf (call : RunCall V P) : Program lib V J String :=
  match call.versionHash with
  | none => pure call.yamlDefinition
  | some versionHash =>
    if call.versioned then do
      attempt c .getVersion
      let version ← Prog.view fun w => w.versions.get versionHash
      match version with
      | none => Prog.raise (.value s!"Workflow version '{versionHash}' not found")
      | some version => pure version.yamlDefinition
    else Prog.raise (.value "version_hash requires a workflow version store")

/-- `versions.put`. -/
def putVersion (op : Operation) (text : String) : Program lib V J WorkflowVersion := do
  let put ← Prog.view fun w => w.versions.put text
  let (versions, version) ← Prog.lift put
  attempt c op
  Prog.change fun w => { w with versions := versions }
  pure version

/-- The version to pin, if a version store is given. -/
def pinVersion (call : RunCall V P) (text : String) : Program lib V J (Option WorkflowVersion) :=
  if call.versioned then do
    let version ← putVersion c .putVersion text
    pure (some version)
  else pure none

/-- The executor of a call: `task_registry or TASK_REGISTRY`, and the trace with its first event. -/
def RunCall.executor (call : RunCall V P) (config : WorkflowConfig P) : WorkflowExecutor V P where
  config := config
  taskRegistry := match call.taskRegistry with
    | some registry => if registry.entries = [] then s.taskRegistry else registry
    | none => s.taskRegistry
  concurrencyLimit := call.concurrencyLimit
  typedIo := some (call.typedIo.getD config.typedIo)
  trace := call.trace.map fun t => t.emit .triggerReceived none none []

/-- `load_workflow_yaml`, then `execute_config`. -/
def RunCall.execution (call : RunCall V P) (text : String) (versionHash : Option String) :
    Except Exn (Execution lib V) :=
  match hload : lib.loadWorkflowYaml text with
  | .error e => .error e
  | .ok config =>
    match hregistry : (call.executor s config).validateRegistry with
    | .error message => .error (.value message)
    | .ok () =>
      .ok { executor := call.executor s config
            accepted := YamlLibrary.accepted_of_load hload
            records := (c.outcome (call.executor s config)).1
            finished := (c.outcome (call.executor s config)).2
            yamlDefinition := text
            runId := call.runId
            versionHash := versionHash
            uuid := c.uuid .save
            loaded := hload
            registered := hregistry }

/-- `storage.save_run`. -/
def saveRun (x : Execution lib V) : Program lib V J Unit := do
  attempt c .saveRun
  Prog.change fun w => w.recordRun s x.toFinishedRun

/-- `event_store.save`, if the call has a trace and an event store. -/
def saveEvents (call : RunCall V P) (x : Execution lib V) : Program lib V J Unit :=
  if call.recorded ∧ call.trace.isSome then do
    attempt c .saveEvents
    Prog.change fun w => w.recordEvents x.toFinishedRun
  else pure ()

def RunCall.result (call : RunCall V P) (x : Execution lib V) (version : Option WorkflowVersion) :
    RunResult P where
  runId := x.id
  workflow := x.executor.config.name
  status := x.records.overallStatus.text
  stepStatuses := x.records.statuses
  results := x.records.results.mapValues PyValue.str
  errors := x.records.errors
  deadLetters := x.records.deadLetters
  versionHash := version.map WorkflowVersion.contentHash
  events := call.trace.map fun _ => x.events

/-- `run_workflow`, once the trace and the run have their ids. -/
def RunCall.run (call : RunCall V P) : Program lib V J (RunResult P) := do
  let text ← definitionOf c call
  let version ← pinVersion c call text
  let versionHash := (version.map WorkflowVersion.contentHash).or call.versionHash
  let x ← Prog.lift (call.execution s c text versionHash)
  Prog.change fun w => w.ran x
  saveRun s c x
  saveEvents c call x
  pure (call.result x version)

/-- Parse, execute, and persist a workflow run; return a result. -/
def runWorkflow (call : RunCall V P) : Program lib V J (RunResult P) :=
  (call.named (c.uuid .trace)).run s c

/-! ### What a call leaves -/

section Spec
variable {s c} {w w' : World lib V J} {call : RunCall V P} {op : Operation} {text : String}

@[simp] theorem attempt_of_some {e : Exn} (h : c.fails op = some e) :
    attempt c op w = (.error e, w) := by
  rw [attempt, h]
  rfl

@[simp] theorem attempt_of_none (h : c.fails op = none) : attempt c op w = (.ok (), w) := by
  rw [attempt, h]
  rfl

theorem attempt_raises {p : Exn → Prop} (h : ∀ e, c.fails op = some e → p e) :
    Prog.Raises p (attempt c op : Program lib V J Unit) := by
  intro w e w' he
  rcases hf : c.fails op with _ | e'
  · rw [attempt_of_none hf] at he
    exact absurd (Prod.mk.inj he).1 (by simp)
  · rw [attempt_of_some hf] at he
    exact h e (hf.trans (congrArg some (Except.error.inj (Prod.mk.inj he).1)))

theorem attempt_returns (h : c.fails op = none) :
    Prog.Returns (attempt c op : Program lib V J Unit) := fun w => ⟨(), w, attempt_of_none h⟩

/-- The definition a call runs. -/
inductive Chosen (w : World lib V J) (call : RunCall V P) : String → Prop
  | given (unpinned : call.versionHash = none) : Chosen w call call.yamlDefinition
  | pinned {hash : String} {version : WorkflowVersion} (versioned : call.versioned = true)
      (pinned : call.versionHash = some hash) (stored : w.versions.get hash = some version) :
      Chosen w call version.yamlDefinition

/-- Why no definition can be chosen. -/
inductive Unpinnable (c : Circumstances V P) (w : World lib V J) (call : RunCall V P) : Exn → Prop
  | store {hash : String} (pinned : call.versionHash = some hash) (versioned : call.versioned = false) :
      Unpinnable c w call (.value "version_hash requires a workflow version store")
  | failed {e : Exn} (fails : c.fails .getVersion = some e) : Unpinnable c w call e
  | missing {hash : String} (pinned : call.versionHash = some hash)
      (missing : w.versions.get hash = none) :
      Unpinnable c w call (.value s!"Workflow version '{hash}' not found")

theorem definitionOf_cases (c : Circumstances V P) (w : World lib V J) (call : RunCall V P) :
    (∃ text, definitionOf c call w = (.ok text, w) ∧ Chosen w call text) ∨
    ∃ e, definitionOf c call w = (.error e, w) ∧ Unpinnable c w call e := by
  rcases hpin : call.versionHash with _ | hash
  · exact .inl ⟨_, by simp [definitionOf, hpin], .given hpin⟩
  · rcases hv : call.versioned with _ | _
    · exact .inr ⟨_, by simp [definitionOf, hpin, hv], .store hpin hv⟩
    · rcases hf : c.fails .getVersion with _ | e
      · rcases hget : w.versions.get hash with _ | version
        · refine .inr ⟨_, ?_, .missing hpin hget⟩
          simp [definitionOf, hpin, hv, Prog.bind_of_ok (attempt_of_none hf), hget]
        · refine .inl ⟨_, ?_, .pinned hv hpin hget⟩
          simp [definitionOf, hpin, hv, Prog.bind_of_ok (attempt_of_none hf), hget]
      · refine .inr ⟨e, ?_, .failed hf⟩
        simp [definitionOf, hpin, hv, Prog.bind_of_error (attempt_of_some hf)]

/-- A `put` raises for a text without a hash, and where the store fails. -/
theorem putVersion_cases (c : Circumstances V P) (op : Operation) (w : World lib V J)
    (text : String) :
    (∃ e, putVersion c op text w = (.error e, w) ∧
      (lib.canonicalYamlHash text = .error e ∨
        (∃ hash, lib.canonicalYamlHash text = .ok hash) ∧ c.fails op = some e)) ∨
    ∃ version, putVersion c op text w = (.ok version, w.withVersion text) ∧
      lib.canonicalYamlHash text = .ok version.contentHash ∧ c.fails op = none := by
  unfold putVersion
  rw [Prog.view_bind_run]
  rcases hhash : lib.canonicalYamlHash text with e | hash
  · rw [VersionStore.put_error hhash]
    exact .inl ⟨e, rfl, .inl rfl⟩
  · rw [VersionStore.put_of_hash hhash, Prog.lift_ok_bind_run]
    cases hf : c.fails op with
    | some e => exact .inl ⟨e, Prog.bind_of_error (attempt_of_some hf), .inr ⟨⟨hash, rfl⟩, rfl⟩⟩
    | none =>
      refine .inr ⟨w.versions.returned hash text, Prog.bind_of_ok (attempt_of_none hf), ?_, rfl⟩
      rw [VersionStore.returned_hash]

/-- The world once a call has put its definition into the version store, if it is given one. -/
def RunCall.pin (call : RunCall V P) (w : World lib V J) (text : String) : World lib V J :=
  { w with versions := if call.versioned then w.versions.after text else w.versions }

/-- The version hash that a call records for a definition. -/
inductive Pinned (lib : YamlLibrary D P) (c : Circumstances V P) (call : RunCall V P)
    (text : String) : Option WorkflowVersion → Prop
  | put {version : WorkflowVersion} (versioned : call.versioned = true)
      (hash : lib.canonicalYamlHash text = .ok version.contentHash)
      (fails : c.fails .putVersion = none) : Pinned lib c call text (some version)
  | free (versioned : call.versioned = false) : Pinned lib c call text none

theorem Pinned.hash_ok {version : Option WorkflowVersion} (h : Pinned lib c call text version)
    (versioned : call.versioned = true) : ∃ hash, lib.canonicalYamlHash text = .ok hash := by
  rcases h with ⟨-, hash, -⟩ | hv
  · exact ⟨_, hash⟩
  · exact absurd (hv.symm.trans versioned) (by simp)

/-- Why a definition cannot be pinned. -/
def Unhashable (lib : YamlLibrary D P) (c : Circumstances V P) (op : Operation) (text : String)
    (e : Exn) : Prop :=
  lib.canonicalYamlHash text = .error e ∨
    (∃ hash, lib.canonicalYamlHash text = .ok hash) ∧ c.fails op = some e

theorem pinVersion_cases (c : Circumstances V P) (w : World lib V J) (call : RunCall V P)
    (text : String) :
    (∃ version, pinVersion c call text w = (.ok version, call.pin w text) ∧
      Pinned lib c call text version) ∨
    ∃ e, pinVersion c call text w = (.error e, w) ∧ call.versioned = true ∧
      Unhashable lib c .putVersion text e := by
  rcases hv : call.versioned with _ | _
  · refine .inl ⟨none, ?_, .free hv⟩
    simp [pinVersion, RunCall.pin, hv]
  · rcases putVersion_cases c .putVersion w text with ⟨e, hput, he⟩ | ⟨version, hput, hhash, hf⟩
    · exact .inr ⟨e, by simp [pinVersion, hv, Prog.bind_of_error hput], rfl, he⟩
    · refine .inl ⟨some version, ?_, .put hv hhash hf⟩
      simp [pinVersion, RunCall.pin, World.withVersion, hv, Prog.bind_of_ok hput]

/-! ### Executions -/

/-- An execution of a call is one of the definition it was asked for, under the call's ids. -/
structure RunCall.Runs (s : Service V P J) (c : Circumstances V P) (call : RunCall V P)
    (text : String) (versionHash : Option String) (x : Execution lib V) : Prop where
  text : x.yamlDefinition = text
  hash : x.versionHash = versionHash
  runId : x.runId = call.runId
  uuid : x.uuid = c.uuid .save
  executor : x.executor = call.executor s x.executor.config

/-- Why a definition does not run. -/
inductive RunCall.Rejects (lib : YamlLibrary D P) (s : Service V P J) (call : RunCall V P)
    (text : String) : Exn → Prop
  | load {e : Exn} (h : lib.loadWorkflowYaml text = .error e) : Rejects lib s call text e
  | registry {config : WorkflowConfig P} {message : String}
      (h : lib.loadWorkflowYaml text = .ok config)
      (missing : (call.executor s config).validateRegistry = .error message) :
      Rejects lib s call text (.value message)

theorem execution_cases (lib : YamlLibrary D P) (s : Service V P J) (c : Circumstances V P)
    (call : RunCall V P) (text : String) (hash : Option String) :
    (∃ x : Execution lib V, call.execution s c text hash = .ok x ∧ call.Runs s c text hash x) ∨
    ∃ e, (call.execution s c text hash : Except Exn (Execution lib V)) = .error e ∧
      call.Rejects lib s text e := by
  unfold RunCall.execution
  split
  · next e hload => exact .inr ⟨e, rfl, .load hload⟩
  · next config hload =>
    split
    · next message hregistry => exact .inr ⟨_, rfl, .registry hload hregistry⟩
    · next hregistry => exact .inl ⟨_, rfl, rfl, rfl, rfl, rfl, rfl⟩

theorem saveRun_cases (s : Service V P J) (c : Circumstances V P) (w : World lib V J)
    (x : Execution lib V) : saveRun s c x w = (.ok (), w.recordRun s x.toFinishedRun) ∨
    ∃ e, saveRun s c x w = (.error e, w) ∧ c.fails .saveRun = some e := by
  rcases hf : c.fails .saveRun with _ | e
  · exact .inl (Prog.bind_of_ok (attempt_of_none hf))
  · exact .inr ⟨e, Prog.bind_of_error (attempt_of_some hf), rfl⟩

theorem saveEvents_cases (c : Circumstances V P) (w : World lib V J) (call : RunCall V P)
    (x : Execution lib V) : saveEvents c call x w = (.ok (), { w with
      events := if call.recorded ∧ call.trace.isSome then w.events.save x.id x.events
        else w.events }) ∨
    ∃ e, saveEvents c call x w = (.error e, w) ∧ c.fails .saveEvents = some e := by
  unfold saveEvents
  split_ifs
  · rcases hf : c.fails .saveEvents with _ | e
    · exact .inl (Prog.bind_of_ok (attempt_of_none hf))
    · exact .inr ⟨e, Prog.bind_of_error (attempt_of_some hf), rfl⟩
  · exact .inl rfl

/-! ### The whole call -/

/-- What a call leaves of the world. -/
inductive RunCall.Leaves (s : Service V P J) (c : Circumstances V P) (call : RunCall V P)
    (w : World lib V J) : Except Exn (RunResult P) → World lib V J → Prop
  | unpinnable {e : Exn} (why : Unpinnable c w call e) : Leaves s c call w (.error e) w
  | unhashable {text : String} {e : Exn} (chosen : Chosen w call text)
      (versioned : call.versioned = true) (why : Unhashable lib c .putVersion text e) :
      Leaves s c call w (.error e) w
  | rejected {text : String} {version : Option WorkflowVersion} {e : Exn}
      (chosen : Chosen w call text) (pinned : Pinned lib c call text version)
      (why : call.Rejects lib s text e) : Leaves s c call w (.error e) (call.pin w text)
  | unsaved {text : String} {version : Option WorkflowVersion} {x : Execution lib V} {e : Exn}
      (chosen : Chosen w call text) (pinned : Pinned lib c call text version)
      (runs : call.Runs s c text ((version.map WorkflowVersion.contentHash).or call.versionHash) x)
      (fails : c.fails .saveRun = some e) : Leaves s c call w (.error e) ((call.pin w text).ran x)
  | unrecorded {text : String} {version : Option WorkflowVersion} {x : Execution lib V} {e : Exn}
      (chosen : Chosen w call text) (pinned : Pinned lib c call text version)
      (runs : call.Runs s c text ((version.map WorkflowVersion.contentHash).or call.versionHash) x)
      (fails : c.fails .saveEvents = some e) :
      Leaves s c call w (.error e) (((call.pin w text).ran x).recordRun s x.toFinishedRun)
  | finished {text : String} {version : Option WorkflowVersion} {x : Execution lib V}
      {events : EventStore} (chosen : Chosen w call text) (pinned : Pinned lib c call text version)
      (runs : call.Runs s c text ((version.map WorkflowVersion.contentHash).or call.versionHash) x)
      (recorded : events = if call.recorded ∧ call.trace.isSome then w.events.save x.id x.events
        else w.events) :
      Leaves s c call w (.ok (call.result x version))
        { ((call.pin w text).ran x).recordRun s x.toFinishedRun with events := events }

theorem run_cases (s : Service V P J) (c : Circumstances V P) (call : RunCall V P)
    (w : World lib V J) : call.Leaves s c w (call.run s c w).1 (call.run s c w).2 := by
  unfold RunCall.run
  rcases definitionOf_cases c w call with ⟨text, hdef, chosen⟩ | ⟨e, hdef, why⟩
  · rw [Prog.bind_of_ok hdef]
    rcases pinVersion_cases c w call text with ⟨version, hpin, pinned⟩ | ⟨e, hpin, hv, why⟩
    · rw [Prog.bind_of_ok hpin]
      rcases execution_cases lib s c call text
        ((version.map WorkflowVersion.contentHash).or call.versionHash) with
        ⟨x, hx, runs⟩ | ⟨e, hx, why⟩
      · simp only [hx, Prog.lift_ok_bind_run, Prog.change_bind_run]
        rcases saveRun_cases s c ((call.pin w text).ran x) x with hsave | ⟨e, hsave, fails⟩
        · rw [Prog.bind_of_ok hsave]
          rcases saveEvents_cases c (((call.pin w text).ran x).recordRun s x.toFinishedRun) call x
            with hevents | ⟨e, hevents, fails⟩
          · rw [Prog.bind_of_ok hevents]
            exact .finished chosen pinned runs rfl
          · rw [Prog.bind_of_error hevents]
            exact .unrecorded chosen pinned runs fails
        · rw [Prog.bind_of_error hsave]
          exact .unsaved chosen pinned runs fails
      · simp only [hx, Prog.lift_error_bind_run]
        exact .rejected chosen pinned why
    · rw [Prog.bind_of_error hpin]
      exact .unhashable chosen hv why
  · rw [Prog.bind_of_error hdef]
    exact .unpinnable why

theorem runWorkflow_cases (s : Service V P J) (c : Circumstances V P) (call : RunCall V P)
    (w : World lib V J) : (call.named (c.uuid .trace)).Leaves s c w
      (runWorkflow s c call w).1 (runWorkflow s c call w).2 := run_cases ..

theorem Chosen.unique {text' : String} (h : Chosen w call text) (h' : Chosen w call text') :
    text = text' := by
  cases h with
  | given hnone =>
    cases h' with
    | given => rfl
    | pinned _ hsome _ => exact absurd (hnone.symm.trans hsome) (by simp)
  | pinned _ hsome hget =>
    cases h' with
    | given hnone => exact absurd (hnone.symm.trans hsome) (by simp)
    | pinned _ hsome' hget' =>
      obtain rfl := Option.some.inj (hsome.symm.trans hsome')
      obtain rfl := Option.some.inj (hget.symm.trans hget')
      rfl

theorem Chosen.not_missing {hash : String} (h : Chosen w call text)
    (hpin : call.versionHash = some hash) : call.versioned = true ∧ w.versions.get hash ≠ none := by
  cases h with
  | given hnone => exact absurd (hnone.symm.trans hpin) (by simp)
  | pinned versioned hsome hget =>
    obtain rfl := Option.some.inj (hsome.symm.trans hpin)
    exact ⟨versioned, by simp [hget]⟩

/-- An executed definition is not a rejected one. -/
theorem RunCall.Runs.not_rejects {hash : Option String} {x : Execution lib V} {e : Exn}
    (h : call.Runs s c text hash x) : ¬ call.Rejects lib s text e := by
  have hload := x.loaded
  rw [h.text] at hload
  have hregistry := x.registered
  rw [h.executor] at hregistry
  rintro (hno | ⟨hconfig, hno⟩)
  · exact absurd (hload.symm.trans hno) (by simp)
  · obtain rfl := Except.ok.inj (hload.symm.trans hconfig)
    exact absurd (hregistry.symm.trans hno) (by simp)

/-! ### The ids of a call change nothing else about it -/

omit [PyValue V] in
theorem named_eq (call : RunCall V P) (uuid : String) :
    ∃ trace runId, call.named uuid = { call with trace := trace, runId := runId } := by
  unfold RunCall.named
  cases call.trace <;> exact ⟨_, _, rfl⟩

variable {uuid : String}

theorem chosen_named : Chosen w (call.named uuid) text ↔ Chosen w call text := by
  obtain ⟨trace, runId, he⟩ := named_eq call uuid
  rw [he]
  constructor
  · rintro (hnone | ⟨hv, hsome, hget⟩)
    exacts [.given hnone, .pinned hv hsome hget]
  · rintro (hnone | ⟨hv, hsome, hget⟩)
    exacts [.given hnone, .pinned hv hsome hget]

omit [PyValue V] in
theorem rejects_named {e : Exn} :
    (call.named uuid).Rejects lib s text e ↔ call.Rejects lib s text e := by
  obtain ⟨trace, runId, he⟩ := named_eq call uuid
  rw [he]
  constructor
  · rintro (h | ⟨h, hmissing⟩)
    exacts [.load h, .registry h hmissing]
  · rintro (h | ⟨h, hmissing⟩)
    exacts [.load h, .registry h hmissing]

end Spec

end Runner

/-! ### A quiet installation -/

/-- No tasks, and a column and a cron library that do what they are asked. -/
def quiet : Service String Unit (List (DeadLetter Unit)) where
  column := .plain
  cron := everyMinute
  hmac _ _ := ""
  taskRegistry := Dict.empty

/-- Nothing fails, ids are drawn with this prefix, and executions end in some way. -/
noncomputable def calm (tag : String) : Circumstances V P where
  uuid
    | .run => tag ++ "-run"
    | .trigger => tag ++ "-trigger"
    | .trace => tag ++ "-trace"
    | .save => tag ++ "-save"
  outcome _ := ⟨_, (WorkflowExecutor.exists_finish .refl).choose_spec.1⟩

/-- In memory, with nothing stored. -/
def blank : World documents String (List (DeadLetter Unit)) where
  runs := .memory {}
  versions := { backend := .memory }
  events := .memory Dict.empty
  schedules := { store := { sharing := .live } }

end WorkflowEngine
