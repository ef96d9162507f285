import WorkflowEngine.Service.Runner

/-! The requests of the service.

    Every endpoint is a program over the world, made of the same few parts: the access check, the claim
    of an idempotency key, `_dispatch`, and the handlers that turn exceptions into answers. The worker
    and the beat are served like requests. -/

namespace WorkflowEngine
open Schemes

variable {D P V J : Type} {lib : YamlLibrary D P} [PyValue V]

/-! ### Shared parts -/

def Denial.exn : Denial → Exn
  | .rateLimited => .http 429 "Rate limit exceeded" "rate_limited"
  | .unauthorized => .http 401 "Authentication required" "unauthorized"
  | .forbidden => .http 403 "Insufficient role" "forbidden"

section Parts
variable (s : Service V P J) (c : Circumstances V P)

def checkAccess : Program lib V J Unit :=
  match c.denied with
  | some denial => Prog.raise denial.exn
  | none => pure ()

/-- `except (WorkflowValidationError, ValueError)`. -/
def orInvalid {α : Type} (m : Program lib V J α) : Program lib V J α :=
  Prog.handle m fun e =>
    Prog.raise (if e.invalid then .http 422 e.text "validation_failed" else e)

/-- `except SQLAlchemyError`, as `_persistence_errors` has it too. -/
def orPersistence {α : Type} (m : Program lib V J α) : Program lib V J α :=
  Prog.handle m fun e => Prog.raise (match e with
    | .persistence message =>
      .http 503 s!"Persistence failed: {message}" "persistence_failed"
    | e => e)

/-- `idempotency.claim`. -/
def claim (ns key : String) : Program lib V J Bool := do
  attempt c .claim
  let (granted, idempotency) ←
    Prog.view fun w => w.schedules.idempotency.claim ns (some key)
  Prog.change fun w => { w with schedules := { w.schedules with idempotency := idempotency } }
  pure granted

/-- `_claim_idempotency`. -/
def claimIdempotency (ns : String) (key : Option String) : Program lib V J Unit :=
  match truthy key with
  | none => pure ()
  | some key => do
    let granted ← claim c ns key
    if granted then pure ()
    else Prog.raise (.http 409 "Duplicate idempotency key" "idempotency_conflict")

/-! ### `_dispatch` -/

/-- The answer of `_dispatch`, without the broker's task id. -/
inductive DispatchResult (P : Type) where
  | async (runId versionHash : String)
  | sync (result : RunResult P)

def DispatchResult.runId : DispatchResult P → String
  | .async runId _ => runId
  | .sync result => result.runId

structure DispatchCall where
  yamlDefinition : String
  runId : Option String := none
  forceAsync : Bool := false
  versionHash : Option String := none

/-- Pin the definition and enqueue the run. -/
def enqueue (call : DispatchCall) (runId : String) : Program lib V J (DispatchResult P) := do
  let version ← putVersion c .dispatchPut call.yamlDefinition
  attempt c .delay
  let versionHash := (truthy call.versionHash).getD version.contentHash
  let message : Message :=
    ⟨call.yamlDefinition, some runId, some versionHash, some s.concurrencyLimit⟩
  Prog.change fun w => { w with queue := w.queue ++ [message] }
  pure (.async runId version.contentHash)

/-- The call of the runner. -/
def DispatchCall.runCall (call : DispatchCall) (runId : String) : RunCall V P where
  yamlDefinition := call.yamlDefinition
  runId := some runId
  trace := some { triggerId := some (c.uuid .trigger), runId := some runId }
  versionHash := call.versionHash
  concurrencyLimit := some s.concurrencyLimit

def runInline (call : DispatchCall) (runId : String) : Program lib V J (DispatchResult P) := do
  let result ← runWorkflow s c (call.runCall s c runId)
  pure (.sync result)

/-- Run while holding the lock of the definition. -/
def runLocked (call : DispatchCall) (runId : String) : Program lib V J (DispatchResult P) := do
  let _ ← Prog.lift (lib.canonicalYamlHash call.yamlDefinition)
  attempt c .acquire
  if c.held then Prog.ensure (runInline s c call runId) (attempt c .release)
  else Prog.raise (.http 409 "Workflow is already running" "lock_conflict")

def DispatchCall.async (call : DispatchCall) : Bool := call.forceAsync || s.asyncEnabled

/-- Use the same runner for inline and broker-backed execution. -/
def dispatch (call : DispatchCall) : Program lib V J (DispatchResult P) :=
  let runId := idOr call.runId (c.uuid .run)
  if call.async s then
    Prog.handle (enqueue s c call runId) fun e =>
      Prog.raise (.http 503 s!"Async dispatch failed: {e.text}" "dispatch_failed")
  else if s.lockingEnabled then runLocked s c call runId
  else runInline s c call runId

/-! ### Workflow endpoints -/

/-- The answer to a valid definition. -/
structure Validated where
  workflow : String
  steps : List (String × String × Option (List String))

def validateWorkflow (yamlDefinition : String) : Program lib V J Validated := do
  checkAccess c
  orInvalid do
    let workflow ← Prog.lift (lib.loadWorkflowYaml yamlDefinition)
    let executor : WorkflowExecutor V P := { config := workflow, taskRegistry := s.taskRegistry }
    match executor.validateRegistry with
    | .error message => Prog.raise (.value message)
    | .ok () =>
      pure ⟨workflow.name, workflow.steps.map fun step => (step.id, step.task, step.dependsOn)⟩

def runWorkflowEndpoint (yamlDefinition : String) (asyncDispatch : Bool) (key : Option String) :
    Program lib V J (DispatchResult P) := do
  checkAccess c
  orPersistence (orInvalid do
    claimIdempotency c "workflow:run" key
    dispatch s c { yamlDefinition := yamlDefinition, forceAsync := asyncDispatch })

def rerunWorkflow (runId : String) (asyncDispatch : Bool) : Program lib V J (DispatchResult P) :=
  orPersistence do
    checkAccess c
    attempt c .getRun
    let record ← Prog.view fun w => w.runs.getRun s.column runId
    match record with
    | none => Prog.raise (.http 404 s!"Run '{runId}' not found" "not_found")
    | some record =>
      if record.yamlDefinition = "" then
        Prog.raise (.http 409 "Original run has no stored definition to rerun" "rerun_unavailable")
      else
        orInvalid (dispatch s c
          { yamlDefinition := record.yamlDefinition, runId := some runId, forceAsync := asyncDispatch,
            versionHash := record.versionHash })

/-! ### Webhooks -/

def registerWebhook (name yamlDefinition description : String) (secret : Option String) :
    Program lib V J Unit := do
  checkAccess c
  orPersistence (orInvalid do
    let _ ← Prog.lift (lib.loadWorkflowYaml yamlDefinition)
    attempt c .putWebhook
    Prog.change fun w =>
      { w with webhooks := w.webhooks.set name ⟨name, yamlDefinition, description, secret⟩ })

/-- `hmac.compare_digest`. -/
def compareDigest (a b : String) : Except Exn Bool :=
  if a.toList.all Char.isAscii && b.toList.all Char.isAscii then .ok (a = b)
  else .error (.other "comparing strings with non-ASCII characters is not supported")

/-- Verify the HMAC, only for registrations that have a secret. -/
def acceptsSignature (trigger : WebhookTrigger) (body : List UInt8) (signature : Option String) :
    Except Exn Bool :=
  match truthy trigger.secret with
  | none => .ok true
  | some secret =>
    match truthy signature with
    | none => .ok false
    | some signature =>
      if "sha256=".isPrefixOf signature then
        compareDigest (signature.drop 7).toString (s.hmac secret body)
      else .ok false

/-- `verify_signature`. -/
def verifySignature (name : String) (body : List UInt8) (signature : Option String) :
    Program lib V J Bool := do
  attempt c .verifyGet
  let trigger ← Prog.view fun w => w.webhooks.get name
  match trigger with
  | none => pure false
  | some trigger => Prog.lift (acceptsSignature s trigger body signature)

/-- The first read of `trigger_webhook`. -/
def findWebhook (name : String) : Program lib V J WebhookTrigger := do
  checkAccess c
  attempt c .getWebhook
  let trigger ← Prog.view fun w => w.webhooks.get name
  match trigger with
  | none => Prog.raise (.http 404 s!"Webhook '{name}' not registered" "not_found")
  | some trigger => pure trigger

/-- Its second read, after the body has arrived. -/
def checkSignature (name : String) (body : List UInt8) (signature : Option String) :
    Program lib V J Unit := do
  let accepted ← verifySignature s c name body signature
  if accepted then pure ()
  else Prog.raise (.http 401 "Webhook signature is invalid" "webhook_signature_invalid")

/-- What follows once the signature is accepted. -/
def fireWebhook (name : String) (trigger : WebhookTrigger) (key : Option String) :
    Program lib V J (DispatchResult P) := do
  claimIdempotency c ("webhook:" ++ name) key
  orInvalid (dispatch s c { yamlDefinition := trigger.yamlDefinition })

def triggerWebhook (name : String) (body : List UInt8) (signature key : Option String) :
    Program lib V J (DispatchResult P) :=
  orPersistence do
    let trigger ← findWebhook c name
    checkSignature s c name body signature
    fireWebhook s c name trigger key

/-! ### Schedules -/

/-- A `ValueError` of the scheduler, and success, as a program. -/
def registerSchedule (name cron yamlDefinition : String) (now : Datetime) :
    Program lib V J Unit := do
  let registered ← Prog.view fun w =>
    WorkflowScheduler.register s.cron w.schedules.store name cron yamlDefinition now
  match registered with
  | .error e => Prog.raise (.value (e.message fun text => s!"'{text}'"))
  | .ok store => do
    attempt c .putSchedule
    Prog.change fun w => { w with schedules := { w.schedules with store := store } }

/-- The answer repeats the name, the expression and the next run; it is left out. -/
def createSchedule (name cron yamlDefinition : String) (now : Datetime) : Program lib V J Unit := do
  checkAccess c
  if s.cron.isValid cron then
    orPersistence (orInvalid do
      let _ ← Prog.lift (lib.loadWorkflowYaml yamlDefinition)
      registerSchedule s c name cron yamlDefinition now)
  else Prog.raise (.http 422 s!"Invalid cron expression: {cron}" "validation_failed")

def deleteSchedule (name : String) : Program lib V J Unit :=
  orPersistence do
    checkAccess c
    attempt c .deleteSchedule
    let (store, deleted) ← Prog.view fun w => WorkflowScheduler.unregister w.schedules.store name
    Prog.change fun w => { w with schedules := { w.schedules with store := store } }
    if deleted then pure ()
    else Prog.raise (.http 404 s!"Schedule '{name}' not found" "not_found")

end Parts

section Ticks
variable (s : Service V P J) (cs : ℕ → Circumstances V P)

/-- The due schedules as the store lists them: in memory in the order in which they were registered,
    in the database in any order. -/
def listDue (c : Circumstances V P) (store : ScheduleStore) (now : Datetime) : List Handle :=
  match store.sharing with
  | .live => WorkflowScheduler.due store now
  | .copies => c.rows (WorkflowScheduler.due store now)

theorem listDue_perm (c : Circumstances V P) (store : ScheduleStore) (now : Datetime) :
    (listDue c store now).Perm (WorkflowScheduler.due store now) := by
  unfold listDue
  cases store.sharing with
  | live => exact .refl _
  | copies => exact c.rows_perm _

/-- The loop of `dispatch_due` from its `k`-th round on, for the callback `dispatch`. -/
def dispatchDueLoop (dispatch : Circumstances V P → String → Program lib V J String)
    (now : Datetime) : ℕ → List Handle → List (String × String) →
    Program lib V J (List (String × String))
  | _, [], dispatched => pure dispatched
  | k, h :: todo, dispatched => do
    let sched ← Prog.view fun w => w.schedules.store.read h
    let granted ← claim (cs k) ("schedule:" ++ sched.name) (fireText sched.nextRun)
    if granted then do
      let runId ← dispatch (cs k) sched.yamlDefinition
      attempt (cs k) .markRan
      Prog.change fun w => { w with schedules := { w.schedules with
        store := WorkflowScheduler.markRan s.cron w.schedules.store sched.name now } }
      dispatchDueLoop dispatch now (k + 1) todo (dispatched ++ [(sched.name, runId)])
    else dispatchDueLoop dispatch now (k + 1) todo dispatched

/-- One `now` for a tick. The callers give none, so `due` and every `mark_ran` read the clock. -/
def dispatchDue (dispatch : Circumstances V P → String → Program lib V J String) (now : Datetime) :
    Program lib V J (List (String × String)) := do
  attempt (cs 0) .listSchedules
  let todo ← Prog.view fun w => listDue (cs 0) w.schedules.store now
  dispatchDueLoop s cs dispatch now 0 todo []

/-- `_dispatch` as the callback of a tick. -/
def dispatchDefinition (c : Circumstances V P) (yamlDefinition : String) :
    Program lib V J String := do
  let dispatched ← dispatch s c { yamlDefinition := yamlDefinition }
  pure dispatched.runId

def runDueSchedules (now : Datetime) : Program lib V J (List (String × String)) :=
  orPersistence do
    checkAccess (cs 0)
    dispatchDue s cs (dispatchDefinition s) now

end Ticks

/-! ### The worker -/

section Worker
variable (s : Service V P J) (c : Circumstances V P)

def dueCall (yamlDefinition : String) : RunCall V P where
  yamlDefinition := yamlDefinition
  trace := some {}
  concurrencyLimit := some s.concurrencyLimit

/-- `_run_due_definition`, the callback of the beat's tick. -/
def runDueDefinition (yamlDefinition : String) : Program lib V J String := do
  let result ← runWorkflow s c (dueCall s yamlDefinition)
  pure result.runId

/-- Make sure that the version of a message is there. -/
def ensureVersion (m : Message) : Program lib V J Unit :=
  match m.versionHash with
  | none => pure ()
  | some versionHash => do
    attempt c .workerGet
    let version ← Prog.view fun w => w.versions.get versionHash
    match version with
    | some _ => pure ()
    | none => do
      let _ ← putVersion c .workerPut m.yamlDefinition
      pure ()

/-- The call of the runner for a message. -/
def Message.runCall (m : Message) : RunCall V P where
  yamlDefinition := m.yamlDefinition
  runId := m.runId
  trace := some { runId := m.runId }
  versionHash := m.versionHash
  concurrencyLimit := some (m.concurrencyLimit.getD s.concurrencyLimit)

/-- Execute a workflow in the background and persist the result. What it raises makes the broker
    deliver the message again. -/
def runWorkflowTask (m : Message) : Program lib V J (RunResult P) := do
  ensureVersion c m
  runWorkflow s c (m.runCall s)

end Worker

/-! ### What the shared parts do -/

section Spec
variable {s : Service V P J} {c : Circumstances V P} {w : World lib V J} {α : Type}

/-- The world in which a key is claimed. -/
def World.claimed (w : World lib V J) (ns key : String) : World lib V J :=
  { w with schedules := { w.schedules with
    idempotency := ⟨insert (ns, key) w.schedules.idempotency.claims⟩ } }

theorem checkAccess_granted (h : c.denied = none) :
    (checkAccess c : Program lib V J Unit) w = (.ok (), w) := by
  rw [checkAccess, h]
  rfl

theorem checkAccess_raises {p : Exn → Prop} (h : ∀ denial : Denial, p denial.exn) :
    Prog.Raises p (checkAccess c : Program lib V J Unit) := by
  unfold checkAccess
  cases c.denied with
  | none => exact .pure ()
  | some denial => exact .raise (h denial)

theorem checkAccess_denied {denial : Denial} (h : c.denied = some denial) :
    (checkAccess c : Program lib V J Unit) w = (.error denial.exn, w) := by
  rw [checkAccess, h]
  rfl

theorem orInvalid_run (m : Program lib V J α) : orInvalid m w = ((m w).1.mapError fun e =>
    if e.invalid then .http 422 e.text "validation_failed" else e, (m w).2) :=
  Prog.handle_raise_run _

theorem orPersistence_run (m : Program lib V J α) :
    orPersistence m w = ((m w).1.mapError fun e => match e with
      | .persistence message => .http 503 s!"Persistence failed: {message}" "persistence_failed"
      | e => e, (m w).2) :=
  Prog.handle_raise_run _

/-- A nonempty key is granted once. -/
theorem claim_cases (c : Circumstances V P) (w : World lib V J) (ns : String) {key : String}
    (hkey : key ≠ "") :
    (∃ e, claim c ns key w = (.error e, w) ∧ c.fails .claim = some e) ∨
    (claim c ns key w = (.ok false, w) ∧ (ns, key) ∈ w.schedules.idempotency.claims) ∨
    (claim c ns key w = (.ok true, w.claimed ns key) ∧
      (ns, key) ∉ w.schedules.idempotency.claims) := by
  unfold claim
  rcases hf : c.fails .claim with _ | e
  · rw [Prog.bind_of_ok (attempt_of_none hf), Prog.view_bind_run, IdempotencyStore.claim,
      if_neg hkey]
    by_cases hmem : (ns, key) ∈ w.schedules.idempotency.claims
    · rw [if_pos hmem]
      exact .inr (.inl ⟨rfl, hmem⟩)
    · rw [if_neg hmem]
      exact .inr (.inr ⟨rfl, hmem⟩)
  · exact .inl ⟨e, Prog.bind_of_error (attempt_of_some hf), rfl⟩

/-- What `_claim_idempotency` does: nothing without a key; else it is refused, or it claims the key. -/
inductive Claims (c : Circumstances V P) (ns : String) (key : Option String) (w : World lib V J) :
    Except Exn Unit → World lib V J → Prop
  | keyless (none : truthy key = none) : Claims c ns key w (.ok ()) w
  | failed {e : Exn} (fails : c.fails .claim = some e) : Claims c ns key w (.error e) w
  | refused {k : String} (given : truthy key = some k)
      (taken : (ns, k) ∈ w.schedules.idempotency.claims) :
      Claims c ns key w (.error (.http 409 "Duplicate idempotency key" "idempotency_conflict")) w
  | granted {k : String} (given : truthy key = some k)
      (fresh : (ns, k) ∉ w.schedules.idempotency.claims) :
      Claims c ns key w (.ok ()) (w.claimed ns k)

theorem truthy_ne_empty {key : Option String} {k : String} (h : truthy key = some k) : k ≠ "" := by
  obtain ⟨-, hk⟩ := Option.filter_eq_some_iff.mp h
  exact of_decide_eq_true hk

theorem claimIdempotency_cases (c : Circumstances V P) (w : World lib V J) (ns : String)
    (key : Option String) :
    Claims c ns key w (claimIdempotency c ns key w).1 (claimIdempotency c ns key w).2 := by
  unfold claimIdempotency
  rcases hkey : truthy key with _ | k
  · exact .keyless hkey
  · rcases claim_cases c w ns (truthy_ne_empty hkey) with ⟨e, he, fails⟩ | ⟨he, hmem⟩ | ⟨he, hmem⟩
    · dsimp only
      rw [Prog.bind_of_error he]
      exact .failed fails
    · dsimp only
      rw [Prog.bind_of_ok he]
      exact .refused hkey hmem
    · dsimp only
      rw [Prog.bind_of_ok he]
      exact .granted hkey hmem

theorem runInline_run (call : DispatchCall) (runId : String) : runInline s c call runId w =
    ((runWorkflow s c (call.runCall s c runId) w).1.map .sync,
      (runWorkflow s c (call.runCall s c runId) w).2) :=
  Prog.bind_pure_run _

variable {call : DispatchCall}

theorem dispatch_async (h : call.async s = true) : (dispatch s c call : Program lib V J _) =
    Prog.handle (enqueue s c call (idOr call.runId (c.uuid .run))) fun e =>
      Prog.raise (.http 503 s!"Async dispatch failed: {e.text}" "dispatch_failed") := by
  rw [dispatch, if_pos h]

theorem dispatch_locked (h : call.async s = false) (hlock : s.lockingEnabled = true) :
    (dispatch s c call : Program lib V J _) =
      runLocked s c call (idOr call.runId (c.uuid .run)) := by
  rw [dispatch, h, hlock]
  rfl

theorem dispatch_inline (h : call.async s = false) (hlock : s.lockingEnabled = false) :
    (dispatch s c call : Program lib V J _) =
      runInline s c call (idOr call.runId (c.uuid .run)) := by
  rw [dispatch, h, hlock]
  rfl

end Spec

/-! ### Requests -/

inductive ServiceRequest where
  | validate (yamlDefinition : String)
  | run (yamlDefinition : String) (asyncDispatch : Bool) (key : Option String)
  | rerun (runId : String) (asyncDispatch : Bool)
  | registerWebhook (name yamlDefinition description : String) (secret : Option String)
  | triggerWebhook (name : String) (body : List UInt8) (signature key : Option String)
  | createSchedule (name cron yamlDefinition : String) (now : Datetime)
  | deleteSchedule (name : String)
  | runDue (now : Datetime)
  | beat (now : Datetime) -- the beat's tick in the worker
  | deliver (i : ℕ) -- the broker gives the worker a message that was enqueued

/-- What a request is answered, if it does not raise. -/
inductive Answer (P : Type) where
  | valid (workflow : Validated)
  | dispatched (run : DispatchResult P)
  | ran (result : RunResult P)
  | due (runs : List (String × String))
  | done

/-- Serve one request; `cs k` are the circumstances of its `k`-th dispatch. -/
def serve (s : Service V P J) (cs : ℕ → Circumstances V P) :
    ServiceRequest → Program lib V J (Answer P)
  | .validate yamlDefinition => do
    let workflow ← validateWorkflow s (cs 0) yamlDefinition
    pure (.valid workflow)
  | .run yamlDefinition asyncDispatch key => do
    let run ← runWorkflowEndpoint s (cs 0) yamlDefinition asyncDispatch key
    pure (.dispatched run)
  | .rerun runId asyncDispatch => do
    let run ← rerunWorkflow s (cs 0) runId asyncDispatch
    pure (.dispatched run)
  | .registerWebhook name yamlDefinition description secret => do
    registerWebhook (cs 0) name yamlDefinition description secret
    pure .done
  | .triggerWebhook name body signature key => do
    let run ← triggerWebhook s (cs 0) name body signature key
    pure (.dispatched run)
  | .createSchedule name cron yamlDefinition now => do
    createSchedule s (cs 0) name cron yamlDefinition now
    pure .done
  | .deleteSchedule name => do
    deleteSchedule (cs 0) name
    pure .done
  | .runDue now => do
    let runs ← runDueSchedules s cs now
    pure (.due runs)
  | .beat now => do
    let runs ← dispatchDue s cs (runDueDefinition s) now
    pure (.due runs)
  | .deliver i => do
    let message ← Prog.view fun w => w.queue[i]?
    match message with
    | none => pure .done
    | some message => do
      let result ← runWorkflowTask s (cs 0) message
      pure (.ran result)

end WorkflowEngine
