import WorkflowEngine.Service.Access
import WorkflowEngine.Schemes.Agreement

/-! Several processes of one service.

    Every process has stores of its own in memory, for as long as it lives, and uses the database
    instead where its probe has reached it. A process of the API probes once, when it starts; the
    worker probes before every task, and before every run of a tick. What they share is the database
    and the queue of the broker. Rate limiters and in-memory locks belong to one process; what they
    decide about a request is given with the request (`Circumstances.denied`, `Circumstances.held`),
    as is the order in which the database lists its schedules. -/

namespace WorkflowEngine
open Schemes

variable {D P V J A B : Type} {lib : YamlLibrary D P}

/-! ### Processes -/

/-- Where the stores are: in the database, or in the memory of a process. -/
inductive Place (A B : Type) where
  | database
  | api (a : A)
  | worker (b : B)
  deriving DecidableEq

/-- `db_available` in a process of the API, and whether its `services`, `scheduler` and `webhooks`
    are those of the database. -/
structure Runtime where
  dbAvailable : Bool := false
  durable : Bool := false
  coherent : durable = dbAvailable := by rfl

/-- `lifespan`, by what `probe_database` returns. -/
def lifespan (reachable : Bool) : Runtime where
  dbAvailable := reachable
  durable := reachable

namespace Runtime
variable (r : Runtime) (own : Place A B)

/-- `get_storage`. -/
def getStorage : Place A B := if r.dbAvailable then .database else own

/-- `_active_services`. -/
def activeServices : Place A B :=
  if r.dbAvailable then .database else if r.durable then .database else own

/-- `scheduler` and `webhooks`. -/
def registries : Place A B := if r.durable then .database else own

/-- A process of the API has all its stores in one place. -/
theorem one_place : r.activeServices own = r.getStorage own ∧
    r.registries own = r.getStorage own := by
  unfold activeServices registries getStorage
  rw [r.coherent]
  cases r.dbAvailable <;> simp

end Runtime

/-- `probe_database` before `get_storage` and `get_runtime_services` in the worker. -/
def workerPlace (b : B) (reachable : Bool) : Place A B := if reachable then .database else .worker b

variable [PyValue V]

/-- All stores, what the API's processes have found, the messages that the broker was ever given,
    and all executions of all processes. -/
structure Deployment {D P : Type} (lib : YamlLibrary D P) (V J A B : Type) [PyValue V] where
  stores : Place A B → World lib V J
  runtime : A → Runtime
  queue : List Message := []
  executed : List (Execution lib V) := []

/-- Everything is empty, and every process of the API has probed. -/
def Deployment.boot (lib : YamlLibrary D P) (V J : Type) [PyValue V] (reachable : A → Bool) :
    Deployment lib V J A B where
  stores
    | .database => World.booted lib V J .database
    | .api _ | .worker _ => World.booted lib V J .memory
  runtime a := lifespan (reachable a)

section Places
variable [DecidableEq A] [DecidableEq B]

namespace Deployment
variable (d : Deployment lib V J A B)

/-- The stores of a place are replaced, and what is new in them is known. -/
def put (π : Place A B) (w : World lib V J) : Deployment lib V J A B where
  stores := Function.update d.stores π w
  runtime := d.runtime
  queue := d.queue ++ w.queue.drop (d.stores π).queue.length
  executed := d.executed ++ w.executed.drop (d.stores π).executed.length

theorem put_self (π : Place A B) (w : World lib V J) : (d.put π w).stores π = w :=
  Function.update_self ..

theorem put_ne {π ρ : Place A B} (h : ρ ≠ π) (w : World lib V J) :
    (d.put π w).stores ρ = d.stores ρ :=
  Function.update_of_ne h ..

/-- A new process has nothing in its memory. -/
def fresh (π : Place A B) : Deployment lib V J A B :=
  { d with stores := Function.update d.stores π (World.booted lib V J .memory) }

theorem fresh_self (π : Place A B) : (d.fresh π).stores π = World.booted lib V J .memory :=
  Function.update_self ..

theorem fresh_ne {π ρ : Place A B} (h : ρ ≠ π) : (d.fresh π).stores ρ = d.stores ρ :=
  Function.update_of_ne h ..

def startApi (a : A) (reachable : Bool) : Deployment lib V J A B :=
  { d.fresh (.api a) with runtime := Function.update d.runtime a (lifespan reachable) }

/-- The stores of a process of the API. -/
def apiPlace (a : A) : Place A B := (d.runtime a).getStorage (.api a)

end Deployment

/-- Programs over the deployment. -/
abbrev Deployed (lib : YamlLibrary D P) (V J A B α : Type) [PyValue V] :=
  Prog (Deployment lib V J A B) Exn α

/-- Run a program of the service over the stores of a place. -/
def Place.run {α : Type} (π : Place A B) (m : Program lib V J α) : Deployed lib V J A B α :=
  fun d => ((m (d.stores π)).1, d.put π (m (d.stores π)).2)

/-! ### Ticks of the beat -/

section Beat
variable (s : Service V P J) (cs : ℕ → Circumstances V P) (home : Place A B)
  (again : ℕ → Place A B) (now : Datetime)

/-- The loop of `dispatch_due` in the worker: the services of the tick are at `home`, and
    `_run_due_definition` has probed again before its `k`-th run. -/
def beatLoop : ℕ → List Handle → List (String × String) →
    Deployed lib V J A B (List (String × String))
  | _, [], dispatched => pure dispatched
  | k, h :: todo, dispatched => do
    let sched ← home.run (Prog.view fun w => w.schedules.store.read h)
    let granted ← home.run (claim (cs k) ("schedule:" ++ sched.name) (fireText sched.nextRun))
    if granted then do
      let runId ← (again k).run (runDueDefinition s (cs k) sched.yamlDefinition)
      home.run (attempt (cs k) .markRan)
      home.run (Prog.change fun w => { w with schedules := { w.schedules with
        store := WorkflowScheduler.markRan s.cron w.schedules.store sched.name now } })
      beatLoop (k + 1) todo (dispatched ++ [(sched.name, runId)])
    else beatLoop (k + 1) todo dispatched

/-- `run_due_schedules` of the worker. -/
def beatTick : Deployed lib V J A B (List (String × String)) := do
  home.run (attempt (cs 0) .listSchedules)
  let todo ← home.run (Prog.view fun w => listDue (cs 0) w.schedules.store now)
  beatLoop s cs home again now 0 todo []

end Beat

/-- The broker gives the worker the `i`-th message. -/
def deliverTask (s : Service V P J) (c : Circumstances V P) (π : Place A B) (i : ℕ) :
    Deployed lib V J A B (Answer P) := do
  let message ← Prog.view fun d => d.queue[i]?
  match message with
  | none => pure .done
  | some message => do
    let result ← π.run (runWorkflowTask s c message)
    pure (.ran result)

def beatAnswer (s : Service V P J) (cs : ℕ → Circumstances V P) (home : Place A B)
    (again : ℕ → Place A B) (now : Datetime) : Deployed lib V J A B (Answer P) := do
  let runs ← beatTick s cs home again now
  pure (.due runs)

/-! ### Steps of the processes -/

/-- A request or a read. -/
inductive Ask (V P : Type) [PyValue V] where
  | serve (arrival : Arrival V P)
  | read (request : ReadRequest) (circumstances : ReadCircumstances)

def Ask.program (s : Service V P J) : Ask V P → Program lib V J (CallAnswer P)
  | .serve arrival => do
    let answer ← WorkflowEngine.serve s arrival.circumstances arrival.request
    pure (.inl answer)
  | .read request circumstances => do
    let answer ← serveRead s circumstances request
    pure (.inr answer)

def Ask.arrival : Ask V P → Option (Arrival V P)
  | .serve arrival => some arrival
  | .read .. => none

/-- What passes by an endpoint. -/
def Ask.web : Ask V P → Bool
  | .serve arrival => arrival.request.minimumRole.isSome
  | .read .. => true

/-- A process starts, a process of the API is asked something, or the worker gets a message or a
    tick. `reachable` and `again` are what the probes return. -/
inductive ProcessStep (A B V P : Type) [PyValue V] where
  | startApi (a : A) (reachable : Bool)
  | startWorker (b : B)
  | web (a : A) (ask : Ask V P) (web : ask.web = true)
  | task (b : B) (reachable : Bool) (i : ℕ) (circumstances : ℕ → Circumstances V P)
  | beat (b : B) (reachable : Bool) (again : ℕ → Bool) (now : Datetime)
      (circumstances : ℕ → Circumstances V P)

namespace ProcessStep

/-- What the step asks of the service. -/
def ask : ProcessStep A B V P → Option (Ask V P)
  | .startApi .. | .startWorker _ => none
  | .web _ ask _ => some ask
  | .task _ _ i cs => some (.serve ⟨.deliver i, cs⟩)
  | .beat _ _ _ now cs => some (.serve ⟨.beat now, cs⟩)

/-- The request of the step, and its circumstances. -/
def arrival (step : ProcessStep A B V P) : Option (Arrival V P) := step.ask.bind Ask.arrival

/-- Every probe of the step reaches the database. -/
def Connected : ProcessStep A B V P → Prop
  | .startApi _ reachable | .task _ reachable _ _ => reachable = true
  | .startWorker _ | .web .. => True
  | .beat _ reachable again _ _ => reachable = true ∧ ∀ k, again k = true

/-- One step; nobody is answered when a process starts. -/
def serve (s : Service V P J) : ProcessStep A B V P → Deployed lib V J A B (CallAnswer P)
  | .startApi a reachable => do
    Prog.change fun d => d.startApi a reachable
    pure (.inl .done)
  | .startWorker b => do
    Prog.change fun d => d.fresh (.worker b)
    pure (.inl .done)
  | .web a ask _ => do
    let π ← Prog.view fun d => d.apiPlace a
    π.run (ask.program s)
  | .task b reachable i cs => do
    let answer ← deliverTask s (cs 0) (workerPlace b reachable) i
    pure (.inl answer)
  | .beat b reachable again now cs => do
    let answer ← beatAnswer s cs (workerPlace b reachable) (fun k => workerPlace b (again k)) now
    pure (.inl answer)

/-- What the step asks the process `a` of the API. -/
def askOf (a : A) : ProcessStep A B V P → Option (Ask V P)
  | .web a' ask _ => if a' = a then some ask else none
  | _ => none

omit [DecidableEq B] in
theorem eq_web_of_askOf {a : A} {step : ProcessStep A B V P} {ask : Ask V P}
    (h : step.askOf a = some ask) : ∃ web, step = .web a ask web := by
  cases step with
  | web a' ask' web =>
    rw [askOf, Option.ite_none_right_eq_some] at h
    obtain ⟨rfl, h⟩ := h
    obtain rfl := Option.some.inj h
    exact ⟨web, rfl⟩
  | startApi | startWorker | task | beat => exact absurd h (by simp [askOf])

end ProcessStep

/-! ### Programs only add to the queue -/

/-- What was enqueued and what was executed stays at the front. -/
def Grows {α : Type} (m : Program lib V J α) : Prop :=
  ∀ w, w.queue <+: (m w).2.queue ∧ w.executed <+: (m w).2.executed

section Growth
variable {s : Service V P J} {c : Circumstances V P} {α β : Type} {m : Program lib V J α}

theorem growth_lasts (s : Service V P J) (w : World lib V J) :
    Lasts s fun w' => w.queue <+: w'.queue ∧ w.executed <+: w'.executed where
  version _ h := h
  queue _ h := ⟨h.1.trans (List.prefix_append _ _), h.2⟩
  ran _ h := ⟨h.1, h.2.trans (List.prefix_append _ _)⟩
  run _ h := h
  events _ h := h
  schedules _ h := h
  webhooks _ h := h

/-- What keeps every property that lasts only adds. -/
theorem grows_of_lasts (s : Service V P J)
    (h : ∀ I : World lib V J → Prop, Lasts s I → Prog.Keeps I m) : Grows m :=
  fun w => h _ (growth_lasts s w) w ⟨List.prefix_rfl, List.prefix_rfl⟩

theorem Ask.grows (s : Service V P J) (ask : Ask V P) :
    Grows (ask.program s : Program lib V J (CallAnswer P)) := by
  refine grows_of_lasts s fun I hI => ?_
  cases ask with
  | serve arrival => exact (hI.serve arrival.circumstances arrival.request).bind fun _ => .pure _
  | read request circumstances => exact (serveRead_keeps request).bind fun _ => .pure _

theorem claim_grows (s : Service V P J) (ns : String) {key : String} (hkey : key ≠ "") :
    Grows (claim c ns key : Program lib V J Bool) :=
  grows_of_lasts s fun _ hI => claim_keeps hkey fun _ hw => hI.schedules _ hw

theorem due_grows (text : String) :
    Grows (runDueDefinition s c text : Program lib V J String) :=
  grows_of_lasts s fun _ hI => (hI.runWorkflow ⟨rfl, rfl⟩).bind fun _ => .pure _

theorem runWorkflowTask_grows (message : Message) :
    Grows (runWorkflowTask s c message : Program lib V J (RunResult P)) :=
  grows_of_lasts s fun _ hI => hI.runWorkflowTask message

theorem attempt_grows (s : Service V P J) (op : Operation) :
    Grows (attempt c op : Program lib V J Unit) :=
  grows_of_lasts s fun _ _ => attempt_keeps op

theorem view_grows (f : World lib V J → α) : Grows (Prog.view f : Program lib V J α) :=
  fun _ => ⟨List.prefix_rfl, List.prefix_rfl⟩

end Growth

/-! ### One service -/

/-- Every process of the API uses the database, and so does the single service `w`. -/
structure Deployment.Serves (d : Deployment lib V J A B) (w : World lib V J) : Prop where
  available : ∀ a, (d.runtime a).dbAvailable = true
  stores : d.stores .database = w
  queue : d.queue = w.queue
  executed : d.executed = w.executed

section Serving
variable {s : Service V P J} {d : Deployment lib V J A B} {w : World lib V J}
open Prog (Agree)

/-- SPEC: a program that runs over the database. -/
theorem Deployment.Serves.run {α : Type} (h : d.Serves w) {m : Program lib V J α} (hm : Grows m) :
    Agree Deployment.Serves Eq (Place.database.run m d) (m w) := by
  obtain ⟨available, rfl, queue, executed⟩ := h
  obtain ⟨hqueue, hexecuted⟩ := hm (d.stores .database)
  have hleft : (d.put .database (m (d.stores .database)).2).Serves (m (d.stores .database)).2 := by
    refine ⟨available, put_self .., ?_, ?_⟩
    · rw [Deployment.put, queue]
      exact List.prefix_iff_eq_append.mp hqueue
    · rw [Deployment.put, executed]
      exact List.prefix_iff_eq_append.mp hexecuted
  unfold Place.run
  rcases hrun : m (d.stores .database) with ⟨e | a, t⟩
  · rw [hrun] at hleft
    exact .error hleft
  · rw [hrun] at hleft
    exact .ok rfl hleft

omit [DecidableEq A] [DecidableEq B] in
theorem Deployment.Serves.apiPlace (h : d.Serves w) (a : A) : d.apiPlace a = .database := by
  rw [Deployment.apiPlace, Runtime.getStorage, if_pos (h.available a)]

/-- STEP: the rounds of a tick. -/
theorem beatLoop_agree (s : Service V P J) (cs : ℕ → Circumstances V P) (now : Datetime) :
    ∀ (k : ℕ) (todo : List Handle) (dispatched : List (String × String))
      {d : Deployment lib V J A B} {w : World lib V J}, d.Serves w →
      Agree Deployment.Serves Eq
        (beatLoop s cs .database (fun _ => .database) now k todo dispatched d)
        (dispatchDueLoop s cs (runDueDefinition s) now k todo dispatched w)
  | _, [], _, _, _, h => .ok rfl h
  | k, handle :: todo, dispatched, _, _, h => by
    refine (h.run (view_grows _)).bind_eq fun sched _ _ h => ?_
    refine (h.run (claim_grows s _ (fireText_ne_empty _))).bind_eq fun granted _ _ h => ?_
    cases granted with
    | false => exact beatLoop_agree s cs now (k + 1) todo dispatched h
    | true =>
      refine (h.run (due_grows _)).bind_eq fun runId _ _ h => ?_
      refine (h.run (attempt_grows s _)).bind_eq fun _ _ _ h => ?_
      refine (h.run fun _ => ⟨List.prefix_rfl, List.prefix_rfl⟩).bind_eq fun _ _ _ h => ?_
      exact beatLoop_agree s cs now (k + 1) todo _ h

theorem beatAnswer_agree (s : Service V P J) (cs : ℕ → Circumstances V P) (now : Datetime)
    (h : d.Serves w) : Agree Deployment.Serves Eq
      (beatAnswer s cs .database (fun _ => .database) now d) (serve s cs (.beat now) w) := by
  refine Agree.map (Q := Eq) ?_ fun _ _ hruns => congrArg Answer.due hruns
  refine (h.run (attempt_grows s _)).bind_eq fun _ _ _ h => ?_
  refine (h.run (view_grows _)).bind_eq fun todo _ _ h => ?_
  exact beatLoop_agree s cs now 0 todo [] h

theorem deliverTask_agree (s : Service V P J) (cs : ℕ → Circumstances V P) (i : ℕ)
    (h : d.Serves w) : Agree Deployment.Serves Eq
      (deliverTask s (cs 0) .database i d) (serve s cs (.deliver i) w) := by
  rw [deliverTask, serve, Prog.view_bind_run, Prog.view_bind_run, h.queue]
  rcases w.queue[i]? with _ | message
  · exact .ok rfl h
  · exact Agree.map (h.run (runWorkflowTask_grows message)) fun _ _ hr => congrArg Answer.ran hr

/-- STEP: where every probe reaches the database, a step is answered as the single service answers
    what it asks. -/
theorem ProcessStep.serve_agree {step : ProcessStep A B V P} (hstep : step.Connected)
    {ask : Ask V P} (hask : step.ask = some ask) (h : d.Serves w) :
    Agree Deployment.Serves Eq (step.serve s d) (ask.program s w) := by
  cases step with
  | startApi | startWorker => exact absurd hask (by simp [ProcessStep.ask])
  | web a ask' web =>
    obtain rfl := Option.some.inj hask
    change Agree _ _ ((d.apiPlace a).run (ask'.program s) d) _
    rw [h.apiPlace]
    exact h.run (ask'.grows s)
  | task b reachable i cs =>
    obtain rfl := Option.some.inj hask
    obtain rfl : reachable = true := hstep
    exact (deliverTask_agree s cs i h).map fun _ _ ha => congrArg Sum.inl ha
  | beat b reachable again now cs =>
    obtain rfl := Option.some.inj hask
    obtain ⟨rfl, hagain⟩ := hstep
    obtain rfl : again = fun _ => true := funext hagain
    exact (beatAnswer_agree s cs now h).map fun _ _ ha => congrArg Sum.inl ha

/-- A start leaves the database alone. -/
theorem ProcessStep.serve_start {step : ProcessStep A B V P} (hstep : step.Connected)
    (hask : step.ask = none) (h : d.Serves w) : (step.serve s d).2.Serves w := by
  obtain ⟨available, stores, queue, executed⟩ := h
  cases step with
  | startApi a reachable =>
    obtain rfl : reachable = true := hstep
    refine ⟨fun a' => ?_, ?_, queue, executed⟩
    · change (Function.update d.runtime a (lifespan true) a').dbAvailable = true
      rcases eq_or_ne a' a with rfl | hne
      · rw [Function.update_self]
        rfl
      · rw [Function.update_of_ne hne]
        exact available a'
    · exact (d.fresh_ne (π := .api a) (by simp)).trans stores
  | startWorker b =>
    exact ⟨available, (d.fresh_ne (π := .worker b) (by simp)).trans stores, queue, executed⟩
  | web | task | beat => exact absurd hask (by simp [ProcessStep.ask])

omit [DecidableEq A] [DecidableEq B] in
/-- Reads leave what the requests leave. -/
theorem series_after (s : Service V P J) (asks : List (Ask V P)) (w : World lib V J) :
    (Prog.series (Ask.program s) asks w).2 = w.after s (asks.filterMap Ask.arrival) := by
  induction asks generalizing w with
  | nil => rfl
  | cons ask asks ih =>
    rw [Prog.series, ih]
    cases ask with
    | serve arrival =>
      have hleft : ((Ask.serve arrival).program s w).2 = (arrival.exchange s w).after := by
        rw [Ask.program, Prog.bind_pure_run]
        rfl
      rw [hleft, List.filterMap_cons_some (f := Ask.arrival) rfl]
      rfl
    | read request circumstances =>
      have hleft : ((Ask.read request circumstances).program s w).2 = w :=
        (serveRead_keeps request).bind (fun _ => .pure _) (I := (· = w)) w rfl
      rw [hleft, List.filterMap_cons_none (f := Ask.arrival) rfl]

end Serving

section Runs
variable (s : Service V P J) (steps : List (ProcessStep A B V P)) {d : Deployment lib V J A B}

/-- REFINES: where every probe reaches the database, the API's processes and the workers, started
    and restarted at any time, answer as one service that is asked the same in the same order, and
    leave in the database and in the queue what it leaves. -/
theorem processes_serve_one {w : World lib V J} (hconnected : ∀ step ∈ steps, step.Connected)
    (h : d.Serves w) :
    ((Prog.series (ProcessStep.serve s) steps d).1.filterMap fun p =>
      p.1.ask.map fun ask => (ask, p.2)) =
        (Prog.series (Ask.program s) (steps.filterMap ProcessStep.ask) w).1 ∧
    (Prog.series (ProcessStep.serve s) steps d).2.Serves
      (w.after s (steps.filterMap ProcessStep.arrival)) := by
  have harrivals : steps.filterMap ProcessStep.arrival =
      (steps.filterMap ProcessStep.ask).filterMap Ask.arrival := by
    rw [List.filterMap_filterMap]
    rfl
  rw [harrivals, ← series_after]
  refine Prog.series_agree (R := Deployment.Serves) (fun step hstep ask d w hask h => ?_)
    (fun step hstep d w hask h => ?_) h
  · have hagree := ProcessStep.serve_agree (s := s) (hconnected step hstep) hask h
    exact ⟨hagree.answers, hagree.states⟩
  · exact ProcessStep.serve_start (hconnected step hstep) hask h

end Runs

/-! ### A process without the database -/

/-- The process `a` of the API has not reached the database, and its memory is `w`. -/
structure Deployment.Offline (a : A) (d : Deployment lib V J A B) (w : World lib V J) : Prop where
  unavailable : (d.runtime a).dbAvailable = false
  stores : d.stores (.api a) = w

section Offline
variable {s : Service V P J} {d : Deployment lib V J A B} {w : World lib V J} {a : A}

/-- What runs elsewhere leaves the process alone. -/
theorem Place.run_offline {α : Type} {π : Place A B} (hπ : π ≠ .api a) (m : Program lib V J α) :
    Prog.Keeps (fun d => d.Offline a w) (π.run m) :=
  fun d h => ⟨h.unavailable, (d.put_ne hπ.symm _).trans h.stores⟩

omit [DecidableEq A] [DecidableEq B] in
theorem workerPlace_ne (b : B) (reachable : Bool) : workerPlace b reachable ≠ Place.api a := by
  unfold workerPlace
  split_ifs <;> simp

theorem beatLoop_offline (s : Service V P J) (cs : ℕ → Circumstances V P) {home : Place A B}
    {again : ℕ → Place A B} (now : Datetime) (hhome : home ≠ .api a)
    (hagain : ∀ k, again k ≠ .api a) :
    ∀ (k : ℕ) (todo : List Handle) (dispatched : List (String × String)),
      Prog.Keeps (fun d : Deployment lib V J A B => d.Offline a w)
        (beatLoop s cs home again now k todo dispatched)
  | _, [], _ => .pure _
  | k, _ :: todo, dispatched => by
    have hrest := beatLoop_offline s cs now hhome hagain (k + 1) todo
    refine (Place.run_offline hhome _).bind fun _ =>
      (Place.run_offline hhome _).bind fun granted => ?_
    cases granted with
    | false => exact hrest dispatched
    | true =>
      exact (Place.run_offline (hagain k) _).bind fun _ => (Place.run_offline hhome _).bind fun _ =>
        (Place.run_offline hhome _).bind fun _ => hrest _

/-- STEP: no other process changes what is in the memory of this one. -/
theorem ProcessStep.serve_offline {step : ProcessStep A B V P}
    (hlives : ∀ reachable, step ≠ .startApi a reachable) (hother : step.askOf a = none)
    (h : d.Offline a w) : (step.serve s d).2.Offline a w := by
  cases step with
  | startApi a' reachable =>
    have hne : a ≠ a' := by
      rintro rfl
      exact hlives reachable rfl
    refine ⟨?_, (d.fresh_ne (π := .api a') (by simpa using hne)).trans h.stores⟩
    change (Function.update d.runtime a' (lifespan reachable) a).dbAvailable = false
    rw [Function.update_of_ne hne]
    exact h.unavailable
  | startWorker b =>
    exact ⟨h.unavailable, (d.fresh_ne (π := .worker b) (by simp)).trans h.stores⟩
  | web a' ask =>
    have hne : a' ≠ a := by
      rintro rfl
      exact absurd hother (by simp [ProcessStep.askOf])
    have hplace : d.apiPlace a' ≠ .api a := by
      unfold Deployment.apiPlace Runtime.getStorage
      split_ifs
      · simp
      · simpa using hne
    exact Place.run_offline hplace (ask.program s) d h
  | task b reachable i cs =>
    refine Prog.Keeps.bind (I := fun d => d.Offline a w)
      (Prog.Keeps.bind (.view _) fun message => ?_) (fun _ => .pure _) d h
    cases message with
    | none => exact .pure _
    | some message =>
      exact (Place.run_offline (workerPlace_ne b reachable) _).bind fun _ => .pure _
  | beat b reachable again now cs =>
    have hhome := workerPlace_ne (A := A) (a := a) b reachable
    refine Prog.Keeps.bind (I := fun d => d.Offline a w) (Prog.Keeps.bind ?_ fun _ => .pure _)
      (fun _ => .pure _) d h
    exact (Place.run_offline hhome _).bind fun _ => (Place.run_offline hhome _).bind fun todo =>
      beatLoop_offline s cs now hhome (fun k => workerPlace_ne b (again k)) 0 todo []

/-- ISOLATES: until it starts again, a process of the API without the database answers as one
    service that is asked nothing but what it is asked. So it never sees what the workers do with
    the messages that it enqueues, nor what any other process stores. -/
theorem offline_alone (s : Service V P J) (steps : List (ProcessStep A B V P))
    (hoffline : (d.runtime a).dbAvailable = false)
    (hlives : ∀ reachable, ProcessStep.startApi a reachable ∉ steps) :
    ((Prog.series (ProcessStep.serve s) steps d).1.filterMap fun p =>
      (p.1.askOf a).map fun ask => (ask, p.2)) =
        (Prog.series (Ask.program s) (steps.filterMap (ProcessStep.askOf a))
          (d.stores (.api a))).1 ∧
    (Prog.series (ProcessStep.serve s) steps d).2.stores (.api a) =
      (d.stores (.api a)).after s
        ((steps.filterMap (ProcessStep.askOf a)).filterMap Ask.arrival) := by
  rw [← series_after]
  refine (Prog.series_agree (R := Deployment.Offline a) (fun step _ ask d w hask h => ?_)
    (fun step hstep d w hask h => ?_) ⟨hoffline, rfl⟩).imp_right Deployment.Offline.stores
  · obtain ⟨web, rfl⟩ := ProcessStep.eq_web_of_askOf hask
    have hplace : d.apiPlace a = .api a := by
      rw [Deployment.apiPlace, Runtime.getStorage, if_neg (by simp [h.unavailable])]
    rw [ProcessStep.serve, Prog.view_bind_run, hplace, ← h.stores]
    exact ⟨rfl, h.unavailable, d.put_self ..⟩
  · exact ProcessStep.serve_offline (fun reachable he => hlives reachable (he ▸ hstep)) hask h

end Offline

end Places

/-! ### An example -/

/-- A run is enqueued, and its message is taken by a worker that reaches the database. -/
noncomputable def enqueuedEtl : List (ProcessStep Unit Unit String Unit) :=
  [.web () (.serve ⟨.run "etl" true none, fun _ => calm "first"⟩) rfl,
    .task () true 0 fun _ => calm "second"]

/-- Then the run is asked for. -/
def askedEtl : ProcessStep Unit Unit String Unit := .web () (.read (.run "first-run") {}) rfl

/-- Over the database the run is shown, also by a process of the API that was restarted. -/
theorem restarted_shows : ∃ queued ran record events,
    ((Prog.series (ProcessStep.serve etlService) (enqueuedEtl ++ [.startApi () true, askedEtl])
      (Deployment.boot etlLibrary String (List (DeadLetter Unit)) fun _ => true)).1.filterMap
        fun p => p.1.ask.map fun ask => (ask, p.2)).map Prod.snd =
      [queued, ran, .ok (.inr (.run record events))] := by
  have hserves : (Deployment.boot etlLibrary String (List (DeadLetter Unit)) fun _ => true :
      Deployment etlLibrary String _ Unit Unit).Serves
        (World.booted etlLibrary String _ .database) := ⟨fun _ => rfl, rfl, rfl, rfl⟩
  have hconnected : ∀ step ∈ enqueuedEtl ++ [.startApi () true, askedEtl], step.Connected := by
    simp [enqueuedEtl, askedEtl, ProcessStep.Connected]
  rw [(processes_serve_one etlService _ hconnected hserves).1]
  exact ⟨_, _, _, _, rfl⟩

/-- Without the database it is not found, though the worker has run it. -/
theorem enqueued_unseen : ∃ queued,
    ((Prog.series (ProcessStep.serve etlService) (enqueuedEtl ++ [askedEtl])
      (Deployment.boot etlLibrary String (List (DeadLetter Unit)) fun _ => false)).1.filterMap
        fun p => (p.1.askOf ()).map fun ask => (ask, p.2)).map Prod.snd =
      [queued, .error (.http 404 "Run 'first-run' not found" "not_found")] := by
  have hlives : ∀ reachable, ProcessStep.startApi () reachable ∉ enqueuedEtl ++ [askedEtl] := by
    simp [enqueuedEtl, askedEtl]
  rw [(offline_alone etlService _ rfl hlives).1]
  exact ⟨_, rfl⟩

end WorkflowEngine
