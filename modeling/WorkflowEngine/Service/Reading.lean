import WorkflowEngine.Service.Archive
import WorkflowEngine.Dashboard.Dag

/-! The reads of the service.

    A read changes nothing, and shows what the requests before it left in the stores; listings have
    the order of the rows. `GET /workflows`, `GET /tasks` and `GET /health` are not among the reads
    here. Since a stored record is always that of an execution that has returned, its graph can be
    drawn, with every node in its final status, and its dead letters are those of its failed
    steps. -/

namespace WorkflowEngine
open Schemes

variable {D P V J : Type} {lib : YamlLibrary D P} [PyValue V]

/-! ### The endpoints -/

/-- A status in a record. -/
def Status.text : Status → String
  | .pending => "PENDING"
  | .running => "RUNNING"
  | .completed => "COMPLETED"
  | .failed => "FAILED"
  | .skipped => "SKIPPED"

/-- The statements of a read that reach a store. -/
inductive Lookup where | getRun | listEvents | getDeadLetters | listTriggers | listSchedules
  deriving DecidableEq

/-- What this code does not decide about a read. -/
structure ReadCircumstances where
  fails : Lookup → Option Exn := fun _ => none
  denied : Option Denial := none

/-- The read is allowed, and no store fails. -/
structure ReadCircumstances.Granted (r : ReadCircumstances) : Prop where
  allowed : r.denied = none
  works : ∀ op, r.fails op = none

/-- An entry of `list_schedules`. -/
structure ListedSchedule where
  name : String
  cron : String
  enabled : Bool
  lastRun : Option String
  nextRun : Option String

def RunStore.getDeadLetters (column : JsonColumn J P) (runId : Option String) :
    RunStore P J → List (FoundLetter P)
  | .memory store => store.getDeadLetters runId
  | .database store => store.getDeadLetters column runId

section Endpoints
variable (s : Service V P J) (r : ReadCircumstances)

def readAccess : Program lib V J Unit :=
  match r.denied with
  | some denial => Prog.raise denial.exn
  | none => pure ()

/-- What a store answers, if it does not raise. -/
def look {α : Type} (op : Lookup) (answer : World lib V J → α) : Program lib V J α :=
  match r.fails op with
  | some e => Prog.raise e
  | none => Prog.view answer

/-- `get_run`, or the answer that there is no such run. -/
def findRun (runId : String) : Program lib V J (RunRecord P) := do
  let record ← look r .getRun fun w => w.runs.getRun s.column runId
  match record with
  | none => Prog.raise (.http 404 s!"Run '{runId}' not found" "not_found")
  | some record => pure record

def getWorkflowRun (runId : String) : Program lib V J (RunRecord P × List ExecutionEvent) :=
  orPersistence do
    readAccess r
    let record ← findRun s r runId
    let events ← look r .listEvents fun w => w.events.list runId
    pure (record, events)

def getWorkflowDag (runId : String) : Program lib V J Dag :=
  orPersistence do
    readAccess r
    let record ← findRun s r runId
    if record.yamlDefinition = "" then
      Prog.raise (.http 409 "Run has no stored definition" "dag_unavailable")
    else do
      let config ← Prog.lift (lib.loadWorkflowYaml record.yamlDefinition)
      pure (buildDag config (some (record.stepStatuses.mapValues Status.text)))

def listDeadLetters (runId : Option String) : Program lib V J (List (FoundLetter P)) :=
  orPersistence do
    readAccess r
    look r .getDeadLetters fun w => w.runs.getDeadLetters s.column runId

/-- The names and descriptions of the webhooks. -/
def listWebhooks : Program lib V J (List (String × String)) :=
  orPersistence do
    readAccess r
    look r .listTriggers fun w => w.webhooks.values.map fun t => (t.name, t.description)

def ScheduledWorkflow.listed (sched : ScheduledWorkflow) : ListedSchedule where
  name := sched.name
  cron := sched.cron
  enabled := sched.enabled
  lastRun := sched.lastRun.map Datetime.isoformat
  nextRun := sched.nextRun.map Datetime.isoformat

def listSchedules : Program lib V J (List ListedSchedule) :=
  orPersistence do
    readAccess r
    look r .listSchedules fun w => w.schedules.store.records.values.map ScheduledWorkflow.listed

end Endpoints

/-! ### What a granted read answers -/

section Granted
variable {s : Service V P J} {r : ReadCircumstances} {w : World lib V J} {runId : String}

theorem ReadCircumstances.Granted.access (h : r.Granted) :
    (readAccess r : Program lib V J Unit) w = (.ok (), w) := by
  rw [readAccess, h.allowed]
  rfl

theorem ReadCircumstances.Granted.look {α : Type} (h : r.Granted) (op : Lookup)
    (answer : World lib V J → α) : look r op answer w = (.ok (answer w), w) := by
  rw [WorkflowEngine.look, h.works]
  rfl

theorem findRun_some (h : r.Granted) {record : RunRecord P}
    (hget : w.runs.getRun s.column runId = some record) :
    findRun s r runId w = (.ok record, w) := by
  rw [findRun, Prog.bind_of_ok (h.look _ _), hget]
  rfl

theorem findRun_none (h : r.Granted) (hget : w.runs.getRun s.column runId = none) :
    findRun s r runId w =
      (.error (.http 404 s!"Run '{runId}' not found" "not_found"), w) := by
  rw [findRun, Prog.bind_of_ok (h.look _ _), hget]
  rfl

theorem getWorkflowRun_some (h : r.Granted) {record : RunRecord P}
    (hget : w.runs.getRun s.column runId = some record) :
    getWorkflowRun s r runId w = (.ok (record, w.events.list runId), w) := by
  rw [getWorkflowRun, orPersistence_run, Prog.bind_of_ok h.access,
    Prog.bind_of_ok (findRun_some h hget), Prog.bind_of_ok (h.look _ _)]
  rfl

theorem getWorkflowDag_some (h : r.Granted) {record : RunRecord P} {config : WorkflowConfig P}
    (hget : w.runs.getRun s.column runId = some record) (hyaml : record.yamlDefinition ≠ "")
    (hload : lib.loadWorkflowYaml record.yamlDefinition = .ok config) :
    getWorkflowDag s r runId w =
      (.ok (buildDag config (some (record.stepStatuses.mapValues Status.text))), w) := by
  rw [getWorkflowDag, orPersistence_run, Prog.bind_of_ok h.access,
    Prog.bind_of_ok (findRun_some h hget), if_neg hyaml, hload]
  rfl

theorem getWorkflowDag_none (h : r.Granted) (hget : w.runs.getRun s.column runId = none) :
    getWorkflowDag s r runId w =
      (.error (.http 404 s!"Run '{runId}' not found" "not_found"), w) := by
  rw [getWorkflowDag, orPersistence_run, Prog.bind_of_ok h.access,
    Prog.bind_of_error (findRun_none h hget)]
  rfl

theorem listDeadLetters_granted (h : r.Granted) (runId : Option String) :
    listDeadLetters s r runId w = (.ok (w.runs.getDeadLetters s.column runId), w) := by
  rw [listDeadLetters, orPersistence_run, Prog.bind_of_ok h.access, h.look]
  rfl

end Granted

/-! ### A run that was stored -/

theorem Status.text_injective : Function.Injective Status.text := by
  intro a b h
  revert h
  cases a <;> cases b <;> decide

namespace FinishedRun
variable (x : FinishedRun V P)

/-- Every step of a returned run has a final status, and nothing else has one. -/
theorem status_cases (id : String) :
    (∃ step ∈ x.executor.config.steps, step.id = id ∧
      ∃ status, x.records.statuses.get id = some status ∧ status.Terminal) ∨
    ((∀ step ∈ x.executor.config.steps, step.id ≠ id) ∧ x.records.statuses.get id = none) := by
  obtain ⟨hended, hreplay⟩ :=
    WorkflowExecutor.ended_of_finishes (acyclic_of_accepted x.accepted) x.finished
  have hcases := hended.records_cases id
  rw [hreplay] at hcases
  rcases hcases with ⟨step, hstep, rfl, -⟩ | ⟨hno, hstatus, -⟩
  · have hclosed := hended.closed step hstep
    rw [hreplay] at hclosed
    exact .inl ⟨step, hstep, rfl, hclosed.status⟩
  · exact .inr ⟨hno, hstatus⟩

theorem failed_iff : x.records.overallStatus.text = "failed" ↔
    ∃ id, x.records.statuses.get id = some .failed := by
  rw [← Dict.mem_values_iff]
  unfold RunState.overallStatus
  split_ifs with hfailed hok
  · exact iff_of_true rfl hfailed
  · exact iff_of_false (by decide) hfailed
  · exact iff_of_false (by decide) hfailed

theorem completed_iff : x.records.overallStatus.text = "completed" ↔
    ¬ ∃ id, x.records.statuses.get id = some .failed := by
  rw [← Dict.mem_values_iff]
  unfold RunState.overallStatus
  split_ifs with hfailed hok
  · exact iff_of_false (by decide) (not_not.mpr hfailed)
  · exact iff_of_true rfl hfailed
  · refine absurd (fun status hstatus => ?_) hok
    obtain ⟨id, hid⟩ := (Dict.mem_values_iff _ status).mp hstatus
    rcases x.status_cases id with ⟨-, -, -, status', hget, hterminal⟩ | ⟨-, hnone⟩
    · obtain rfl := Option.some.inj (hid.symm.trans hget)
      rcases hterminal with rfl | rfl | rfl
      · exact .inl rfl
      · exact absurd hstatus hfailed
      · exact .inr rfl
    · exact absurd (hid.symm.trans hnone) (by simp)

end FinishedRun

/-! ### The graph of a stored run -/

/-- The graph shows the record: its nodes are the record's steps in their final statuses, and the
    run failed exactly if a node did. -/
structure Dag.Draws (dag : Dag) (record : RunRecord P) : Prop where
  node : ∀ node ∈ dag.nodes, ∃ status, record.stepStatuses.get node.id = some status ∧
    status.Terminal ∧ node.status = status.text
  complete : ∀ id status, record.stepStatuses.get id = some status →
    ∃ node ∈ dag.nodes, node.id = id
  failed : record.status = "failed" ↔ ∃ node ∈ dag.nodes, node.status = Status.failed.text
  completed : record.status = "completed" ↔ ∀ node ∈ dag.nodes, node.status ≠ Status.failed.text
  joined : ∀ e ∈ dag.edges, e.fromId ∈ dag.nodes.map DagNode.id ∧ e.toId ∈ dag.nodes.map DagNode.id

section Drawing
variable {s : Service V P J} {w : World lib V J}

theorem draws_shown (store : RunStore P J) (x : FinishedRun V P) (id : String) :
    (buildDag x.executor.config
      (some ((store.shown s.column x.args id).stepStatuses.mapValues Status.text))).Draws
      (store.shown s.column x.args id) := by
  obtain ⟨-, -, hsame⟩ := @RunStore.shown_fields _ _ _ s.column _ store x.args id
  have hstatus : (store.shown s.column x.args id).status = x.records.overallStatus.text := by
    cases store <;> rfl
  generalize store.shown s.column x.args id = record at hsame hstatus
  have hget : ∀ id, record.stepStatuses.get id = x.records.statuses.get id := hsame
  have hnode : ∀ step ∈ x.executor.config.steps, ∃ status,
      record.stepStatuses.get step.id = some status ∧ status.Terminal ∧
      (step.dagNode (record.stepStatuses.mapValues Status.text)).status = status.text := by
    intro step hstep
    rcases x.status_cases step.id with ⟨-, -, -, status, hst, hterminal⟩ | ⟨hno, -⟩
    · have hrecord := (hget step.id).trans hst
      refine ⟨status, hrecord, hterminal, ?_⟩
      rw [StepConfig.dagNode, Dict.get_mapValues, hrecord]
      rfl
    · exact absurd rfl (hno step hstep)
  have hnodes : (∃ node ∈ (buildDag x.executor.config
      (some (record.stepStatuses.mapValues Status.text))).nodes,
      node.status = Status.failed.text) ↔ ∃ id, x.records.statuses.get id = some .failed := by
    constructor
    · rintro ⟨node, hmem, hfailed⟩
      obtain ⟨step, hstep, rfl⟩ := List.mem_map.mp hmem
      obtain ⟨status, hst, -, htext⟩ := hnode step hstep
      obtain rfl := Status.text_injective (htext.symm.trans hfailed)
      exact ⟨step.id, (hget _).symm.trans hst⟩
    · rintro ⟨id, hid⟩
      rcases x.status_cases id with ⟨step, hstep, rfl, -⟩ | ⟨-, hnone⟩
      · obtain ⟨status, hst, -, htext⟩ := hnode step hstep
        obtain rfl := Option.some.inj (hst.symm.trans ((hget _).trans hid))
        exact ⟨_, List.mem_map_of_mem hstep, htext⟩
      · exact absurd (hid.symm.trans hnone) (by simp)
  refine ⟨fun node hmem => ?_, fun id status hst => ?_, ?_, ?_,
    fun e he => edge_joins_nodes _ _ x.accepted he⟩
  · obtain ⟨step, hstep, rfl⟩ := List.mem_map.mp hmem
    exact hnode step hstep
  · rcases x.status_cases id with ⟨step, hstep, rfl, -⟩ | ⟨-, hnone⟩
    · exact ⟨_, List.mem_map_of_mem hstep, rfl⟩
    · exact absurd (hst.symm.trans ((hget _).trans hnone)) (by simp)
  · rw [hstatus, x.failed_iff, hnodes]
  · rw [hstatus, x.completed_iff, ← hnodes]
    push Not
    rfl

/-- CORRECT (graphs): whatever was served and whatever failed, the graph of a stored run is drawn from
    its own definition and shows its record, and there is no graph exactly where there is no run. -/
theorem dag_drawn (s : Service V P J) (b : Backend) (arrivals : List (Arrival V P))
    (empty : ∀ config, lib.loadWorkflowYaml "" ≠ .ok config) (r : ReadCircumstances)
    (granted : r.Granted) (runId : String) :
    (∀ record, ((World.booted lib V J b).after s arrivals).runs.getRun s.column runId =
        some record → ∃ config dag, lib.loadWorkflowYaml record.yamlDefinition = .ok config ∧
      (getWorkflowDag s r runId ((World.booted lib V J b).after s arrivals)).1 = .ok dag ∧
      dag.nodes.map DagNode.id = config.steps.map StepConfig.id ∧
      (∀ d x, dag.Joins d x ↔ Dep config.steps d x) ∧ dag.Draws record) ∧
    (((World.booted lib V J b).after s arrivals).runs.getRun s.column runId = none →
      (getWorkflowDag s r runId ((World.booted lib V J b).after s arrivals)).1 =
        .error (.http 404 s!"Run '{runId}' not found" "not_found")) := by
  refine ⟨fun record hget => ?_, fun hget => ?_⟩
  · obtain ⟨x, -, -, hrecord⟩ := (recorded_after s b arrivals).record runId record hget
    have hyaml : record.yamlDefinition = x.yamlDefinition := by
      rw [hrecord]
      exact (RunStore.shown_fields x.args runId).1
    have hload : lib.loadWorkflowYaml record.yamlDefinition = .ok x.executor.config :=
      hyaml ▸ x.loaded
    have hne : record.yamlDefinition ≠ "" := fun he => empty _ (he ▸ hload)
    refine ⟨x.executor.config, _, hload,
      congrArg Prod.fst (getWorkflowDag_some granted hget hne hload), buildDag_ids _ _,
      joins_iff _ _, ?_⟩
    rw [hrecord]
    exact draws_shown _ _ _
  · rw [getWorkflowDag_none granted hget]

theorem granted_default : ({} : ReadCircumstances).Granted := ⟨rfl, fun _ => rfl⟩

theorem ranEtl_drawn : ∃ dag, (getWorkflowDag etlService {} "1-run"
    ((World.booted etlLibrary String _ .database).after etlService [ranEtl "1"])).1 = .ok dag ∧
    dag.nodes.map DagNode.id = ["load", "extract"] := by
  obtain ⟨config, dag, hload, hdag, hids, -⟩ := (dag_drawn etlService .database [ranEtl "1"]
    etlLibrary_empty {} granted_default "1-run").1 _ rfl
  obtain rfl : WorkflowExecutor.etl.config = config := Except.ok.inj
    (show Except.ok WorkflowExecutor.etl.config = Except.ok config from hload)
  exact ⟨dag, hdag, hids⟩

end Drawing

/-! ### The dead letters of the stored runs -/

section Letters
variable {s : Service V P J} {w : World lib V J}

theorem flatMap_filter_of_nil {A B : Type} {f : A → List B} {p : A → Bool}
    (h : ∀ a, p a = false → f a = []) (l : List A) : (l.filter p).flatMap f = l.flatMap f := by
  induction l with
  | nil => rfl
  | cons a l ih =>
    rw [List.filter_cons]
    split_ifs with ha
    · rw [List.flatMap_cons, List.flatMap_cons, ih]
    · rw [List.flatMap_cons, h a (Bool.eq_false_iff.mpr ha), ih]
      rfl

/-- The letters of one run, as the listing of all runs has them. -/
def RunRecord.found (id : String) (record : RunRecord P) : List (FoundLetter P) :=
  record.deadLetters.map fun dl => ⟨dl, some id⟩

/-- SPEC: the listing of all runs is made of the letters of the stored runs, each under its id. -/
theorem getDeadLetters_filter (h : w.Recorded s) (id : String) :
    ((w.runs.getDeadLetters s.column none).filter fun f => f.runId = some id) =
      (w.runs.getRun s.column id).elim [] (RunRecord.found id) := by
  have htag : ∀ (letters : List (DeadLetter P)) (id : String),
      ∀ f ∈ letters.map fun dl => (⟨dl, some id⟩ : FoundLetter P), f.runId = some id := by
    intro letters id f hf
    obtain ⟨dl, -, rfl⟩ := List.mem_map.mp hf
    rfl
  have hrecord := h.record
  have hsound := h.sound
  rcases hruns : w.runs with store | store <;> rw [hruns] at hrecord hsound
  · -- a record carries the id it is stored under
    have hid : ∀ e ∈ store.records.entries, e.2.runId = e.1 := by
      intro e he
      obtain ⟨x, -, -, hx⟩ := hrecord e.1 e.2 ((Dict.mem_entries_iff _ _ _).mp he)
      rw [hx]
      rfl
    have hlist : (RunStore.memory store).getDeadLetters s.column none =
        store.records.entries.flatMap fun e => e.2.found e.1 := by
      change (store.records.entries.map Prod.snd).flatMap _ = _
      rw [List.flatMap_map]
      refine List.flatMap_congr fun e he => ?_
      rw [RunRecord.found, hid e he]
    rw [hlist]
    exact Dict.filter_flatMap (f := RunRecord.found) (Option.some_injective _)
      (fun id record => htag _ id) _ id
  · have hlist : (RunStore.database store).getDeadLetters s.column none =
        store.runs.entries.flatMap fun e =>
          (e.2.deadLetters.elim [] s.column.load).map fun dl => ⟨dl, some e.1⟩ := by
      change (store.runs.values.filter _).flatMap _ = _
      rw [flatMap_filter_of_nil, Dict.values, List.flatMap_map]
      · refine List.flatMap_congr fun e he => ?_
        rw [hsound.1 e.1 e.2 ((Dict.mem_entries_iff _ _ _).mp he)]
      · intro run hnone
        rw [Option.isSome_eq_false_iff, Option.isNone_iff_eq_none] at hnone
        rw [hnone]
        rfl
    rw [hlist]
    refine (Dict.filter_flatMap (f := fun id (run : WorkflowRun J) =>
      (run.deadLetters.elim [] s.column.load).map fun dl => (⟨dl, some id⟩ : FoundLetter P))
      (Option.some_injective _) (fun id run => htag _ id) _ id).trans ?_
    change _ = ((store.runs.get id).map _).elim [] _
    cases store.runs.get id <;> rfl

/-- The letters of one run, on their own. -/
theorem getDeadLetters_some (id : String) : w.runs.getDeadLetters s.column (some id) =
    (w.runs.getRun s.column id).elim [] fun record => record.deadLetters.map fun dl => ⟨dl, none⟩ := by
  rcases w.runs with store | store
  · rw [RunStore.getDeadLetters, RunStore.getRun, InMemoryWorkflowStorage.getRun]
    cases hget : store.records.get id <;> simp [InMemoryWorkflowStorage.getDeadLetters, hget]
  · rw [RunStore.getDeadLetters, RunStore.getRun, DatabaseWorkflowStorage.getRun]
    cases hget : store.runs.get id <;>
      simp [DatabaseWorkflowStorage.getDeadLetters, DatabaseWorkflowStorage.toRecord, hget]

theorem shown_failures (hkeeps : s.column.KeepsFailures) (store : RunStore P J)
    (x : FinishedRun V P) (id : String) :
    (store.shown s.column x.args id).deadLetters.map DeadLetter.failure =
      x.records.deadLetters.map DeadLetter.failure := by
  cases store with
  | memory store => rfl
  | database store => exact hkeeps _

theorem length_filter_failure (letters : List (DeadLetter P)) (step : String) :
    (letters.filter fun dl => dl.stepId = step).length =
      ((letters.map DeadLetter.failure).filter fun f => f.1 = step).length := by
  rw [List.filter_map, List.length_map]; rfl

namespace FinishedRun
variable (x : FinishedRun V P)

/-- A failed step has one dead letter, any other id none. -/
theorem letters_count (id : String) :
    (x.records.deadLetters.filter fun dl => dl.stepId = id).length =
      if x.records.statuses.get id = some .failed then 1 else 0 := by
  obtain ⟨hended, hreplay⟩ :=
    WorkflowExecutor.ended_of_finishes (acyclic_of_accepted x.accepted) x.finished
  have hcount := hended.letters_count id
  rwa [hreplay] at hcount

theorem letter_of_failure {dl : DeadLetter P}
    (hdl : dl.failure ∈ x.records.deadLetters.map DeadLetter.failure) :
    ∃ step ∈ x.executor.config.steps, step.id = dl.stepId ∧ dl.task = step.task ∧
      dl.attempts = step.retries + 1 := by
  obtain ⟨hended, hreplay⟩ :=
    WorkflowExecutor.ended_of_finishes (acyclic_of_accepted x.accepted) x.finished
  obtain ⟨dl', hdl', hfailure⟩ := List.mem_map.mp hdl
  rw [← hreplay] at hdl'
  obtain ⟨step, hstep, hid, htask, -, -, hattempts, -⟩ := hended.letter hdl'
  obtain ⟨hstepId, hsame⟩ := Prod.mk.inj hfailure
  obtain ⟨htask', hattempts'⟩ := Prod.mk.inj hsame
  exact ⟨step, hstep, hid.trans hstepId, htask'.symm.trans htask, hattempts'.symm.trans hattempts⟩

end FinishedRun

/-- The listed letters are those of the failed steps of the stored runs, one for each. -/
structure ListsFailures (s : Service V P J) (w : World lib V J) (letters : List (FoundLetter P)) :
    Prop where
  count : ∀ id step, (letters.filter fun f => f.runId = some id ∧ f.letter.stepId = step).length =
    if (w.runs.getRun s.column id).bind (fun record => record.stepStatuses.get step) =
      some .failed then 1 else 0
  letter : ∀ f ∈ letters, ∃ id record config, f.runId = some id ∧
    w.runs.getRun s.column id = some record ∧
    lib.loadWorkflowYaml record.yamlDefinition = .ok config ∧
    ∃ step ∈ config.steps, step.id = f.letter.stepId ∧ f.letter.task = step.task ∧
      f.letter.attempts = step.retries + 1

theorem lists_failures (hkeeps : s.column.KeepsFailures) (h : w.Recorded s) :
    ListsFailures s w (w.runs.getDeadLetters s.column none) where
  count id step := by
    have hsplit : ((w.runs.getDeadLetters s.column none).filter fun f =>
        f.runId = some id ∧ f.letter.stepId = step) =
        ((w.runs.getDeadLetters s.column none).filter fun f => f.runId = some id).filter
          fun f => f.letter.stepId = step := by
      rw [List.filter_filter]
      refine List.filter_congr fun f _ => ?_
      rw [Bool.decide_and, Bool.and_comm]
    rw [hsplit, getDeadLetters_filter h]
    cases hget : w.runs.getRun s.column id with
    | none => rfl
    | some record =>
      obtain ⟨x, -, -, hrecord⟩ := h.record id record hget
      have hstatus : record.stepStatuses.get step = x.records.statuses.get step := by
        rw [hrecord]
        exact (RunStore.shown_fields x.args id).2.2 step
      have hletters : record.deadLetters.map DeadLetter.failure =
          x.records.deadLetters.map DeadLetter.failure := by
        rw [hrecord, shown_failures hkeeps]
      rw [Option.bind_some, hstatus, ← x.letters_count step, length_filter_failure, ← hletters,
        ← length_filter_failure]
      change ((RunRecord.found id record).filter _).length = _
      rw [RunRecord.found, List.filter_map, List.length_map]
      rfl
  letter f hf := by
    obtain ⟨id, hid⟩ : ∃ id, f.runId = some id := by
      rcases hruns : w.runs with store | store <;> rw [hruns] at hf
      · obtain ⟨record, -, hfound⟩ := List.mem_flatMap.mp hf
        obtain ⟨dl, -, rfl⟩ := List.mem_map.mp hfound
        exact ⟨record.runId, rfl⟩
      · obtain ⟨run, -, hfound⟩ := List.mem_flatMap.mp hf
        obtain ⟨dl, -, rfl⟩ := List.mem_map.mp hfound
        exact ⟨run.id, rfl⟩
    have hmem : f ∈ (w.runs.getDeadLetters s.column none).filter fun f => f.runId = some id :=
      List.mem_filter.mpr ⟨hf, decide_eq_true hid⟩
    rw [getDeadLetters_filter h] at hmem
    cases hget : w.runs.getRun s.column id with
    | none => rw [hget] at hmem; exact absurd hmem List.not_mem_nil
    | some record =>
      rw [hget] at hmem
      obtain ⟨dl, hdl, rfl⟩ := List.mem_map.mp hmem
      obtain ⟨x, -, -, hrecord⟩ := h.record id record hget
      have hyaml : record.yamlDefinition = x.yamlDefinition := by
        rw [hrecord]
        exact (RunStore.shown_fields x.args id).1
      have hfailure := List.mem_map_of_mem (f := DeadLetter.failure) hdl
      rw [hrecord, shown_failures hkeeps] at hfailure
      exact ⟨id, record, x.executor.config, rfl, hget, hyaml ▸ x.loaded,
        x.letter_of_failure hfailure⟩

/-- CORRECT (dead letters): whatever was served and whatever failed, the dead letters are listed
    without loss and without repetition, and those of one run are listed under its id. -/
theorem dead_letters_listed (s : Service V P J) (b : Backend) (arrivals : List (Arrival V P))
    (hkeeps : s.column.KeepsFailures) (r : ReadCircumstances) (granted : r.Granted) :
    ∃ letters, (listDeadLetters s r none ((World.booted lib V J b).after s arrivals)).1 =
        .ok letters ∧
      ListsFailures s ((World.booted lib V J b).after s arrivals) letters ∧
      ∀ id, (listDeadLetters s r (some id) ((World.booted lib V J b).after s arrivals)).1 =
        .ok ((letters.filter fun f => f.runId = some id).map fun f => { f with runId := none }) := by
  have hrecorded : ((World.booted lib V J b).after s arrivals).Recorded s :=
    recorded_after s b arrivals
  refine ⟨_, congrArg Prod.fst (listDeadLetters_granted granted none),
    lists_failures hkeeps hrecorded, fun id => ?_⟩
  rw [listDeadLetters_granted granted, getDeadLetters_some, getDeadLetters_filter hrecorded]
  cases ((World.booted lib V J b).after s arrivals).runs.getRun s.column id with
  | none => rfl
  | some record =>
    refine congrArg Except.ok ?_
    change _ = (RunRecord.found id record).map _
    rw [RunRecord.found, List.map_map]
    rfl

theorem ranEtl_listed : ∃ letters, (listDeadLetters etlService {} none
    ((World.booted etlLibrary String _ .database).after etlService [ranEtl "1"])).1 = .ok letters ∧
    ListsFailures etlService ((World.booted etlLibrary String _ .database).after etlService
      [ranEtl "1"]) letters :=
  (dead_letters_listed etlService .database [ranEtl "1"] (fun _ => rfl) {} granted_default).imp
    fun _ h => ⟨h.1, h.2.1⟩

end Letters

end WorkflowEngine
