import WorkflowEngine.Service.Definitions
import WorkflowEngine.Storage.Interchange
import WorkflowEngine.Engine.Trace

/-! The stores of runs and of execution events, in memory or in the database.

    Both kinds of either store answer by the last save under the id they are asked for. What they
    answer differs in two things only: the database drops empty texts, and it has the dead letters
    from its JSON column. -/

namespace WorkflowEngine
open Schemes

variable {V P J : Type}

/-! ### Runs -/

/-- The run store in use. -/
inductive RunStore (P J : Type) where
  | memory (store : InMemoryWorkflowStorage P)
  | database (store : DatabaseWorkflowStorage J)

namespace RunStore
variable (column : JsonColumn J P)

/-- Persist a run and return its id. -/
def saveRun [PyValue V] (args : SaveArgs V P) (uuid : String) :
    RunStore P J → RunStore P J × String
  | .memory store => ((.memory (store.saveRun args uuid).1), (store.saveRun args uuid).2)
  | .database store =>
    ((.database (store.saveRun column args uuid).1), (store.saveRun column args uuid).2)

def getRun (runId : String) : RunStore P J → Option (RunRecord P)
  | .memory store => store.getRun runId
  | .database store => store.getRun column runId

def backend : RunStore P J → Backend
  | .memory _ => .memory
  | .database _ => .database

/-- In the database a row carries the key it is stored under, and only saved runs have step rows. -/
def Sound : RunStore P J → Prop
  | .memory _ => True
  | .database store => (∀ id run, store.runs.get id = some run → run.id = id) ∧
      ∀ id, store.runs.get id = none → store.stepsOf id = []

/-- What `get_run` makes of a save under `id`. -/
def shown [PyValue V] (args : SaveArgs V P) (id : String) : RunStore P J → RunRecord P
  | .memory _ => args.record id
  | .database _ =>
    DatabaseWorkflowStorage.toRecord column (args.runRow column id) (args.stepRows id)

variable {column} [PyValue V] {store : RunStore P J} {args : SaveArgs V P} {uuid id : String}

theorem Sound.saveRun (h : store.Sound) : (store.saveRun column args uuid).1.Sound := by
  cases store with
  | memory store => trivial
  | database store =>
    refine ⟨fun id run hrun => ?_, fun id hrun => ?_⟩
    · change (store.saveRun column args uuid).1.runs.get id = some run at hrun
      rw [DatabaseWorkflowStorage.saveRun_get] at hrun
      split_ifs at hrun with hid
      · obtain rfl := Option.some.inj hrun; rfl
      · exact h.1 id run hrun
    · change (store.saveRun column args uuid).1.runs.get id = none at hrun
      rw [DatabaseWorkflowStorage.saveRun_get] at hrun
      split_ifs at hrun with hid
      rw [DatabaseWorkflowStorage.saveRun_stepsOf _ _ _ _ h.2, if_neg hid]
      exact h.2 id hrun

theorem shown_saveRun {args' : SaveArgs V P} :
    (store.saveRun column args uuid).1.shown column args' id = store.shown column args' id := by
  cases store <;> rfl

/-- After a save the run's id shows the save, and every other id what it showed. -/
theorem getRun_saveRun (h : store.Sound) : (store.saveRun column args uuid).1.getRun column id =
    if id = args.chosenId uuid then some (store.shown column args id)
    else store.getRun column id := by
  cases store with
  | memory store => exact InMemoryWorkflowStorage.saveRun_get args uuid store id
  | database store =>
    have hsteps := DatabaseWorkflowStorage.saveRun_stepsOf args uuid column store h.2
    change ((store.saveRun column args uuid).1.runs.get id).map _ = _
    rw [DatabaseWorkflowStorage.saveRun_get]
    split_ifs with hid
    · rw [Option.map_some, hsteps, if_pos (show (args.runRow column id).id = _ from hid)]
      rfl
    · change _ = (store.runs.get id).map _
      cases hrun : store.runs.get id with
      | none => rfl
      | some run =>
        rw [Option.map_some, Option.map_some, hsteps, h.1 id run hrun, if_neg hid]

/-- Either store gives back the definition, the version hash and the status of every step. -/
theorem shown_fields (args : SaveArgs V P) (id : String) :
    (store.shown column args id).yamlDefinition = args.yamlDefinition ∧
    (store.shown column args id).versionHash = args.versionHash ∧
    (store.shown column args id).stepStatuses.Same args.statuses := by
  cases store with
  | memory store => exact ⟨rfl, rfl, fun _ => rfl⟩
  | database store =>
    refine ⟨rfl, rfl, fun k => ?_⟩
    exact (stepMap_get args (fun s => some s.status) id k).trans (Option.bind_fun_some _)

@[simp] theorem backend_saveRun : (store.saveRun column args uuid).1.backend = store.backend := by
  cases store <;> rfl

end RunStore

/-! ### What a kind of store keeps -/

/-- A text as it comes back: the database drops an empty one. -/
def Backend.text : Backend → Option String → Option String
  | .memory, text => text
  | .database, text => truthy text

/-- Dead letters as they come back: the database has them from its JSON column. -/
def Backend.letters (column : JsonColumn J P) :
    Backend → List (DeadLetter P) → List (DeadLetter P)
  | .memory, letters => letters
  | .database, letters => column.load (column.dump letters)

/-- A store of this kind shows the run `kept` as `r`. -/
structure Backend.Keeps (b : Backend) (column : JsonColumn J P) (kept r : RunRecord P) : Prop where
  runId : r.runId = kept.runId
  workflowName : r.workflowName = kept.workflowName
  yamlDefinition : r.yamlDefinition = kept.yamlDefinition
  status : r.status = kept.status
  stepStatuses : r.stepStatuses.Same kept.stepStatuses
  results : ∀ id, r.results.get id = b.text (kept.results.get id)
  errors : ∀ id, r.errors.get id = b.text (kept.errors.get id)
  taskNames : ∀ id, r.taskNames.get id = b.text (kept.taskNames.get id)
  deadLetters : r.deadLetters = b.letters column kept.deadLetters
  versionHash : r.versionHash = kept.versionHash

/-- A text read through the row of its step. -/
theorem bind_truthy_text {A : Type} {a : Option A} {text : Option String}
    (h : text ≠ none → a ≠ none) : (a.bind fun _ => truthy text) = truthy text := by
  cases a with
  | some a => rfl
  | none =>
    have htext : text = none := by
      by_contra hne
      exact h hne rfl
    rw [htext]
    rfl

/-- What a store shows of a save. -/
theorem RunStore.keeps_shown [PyValue V] {args : SaveArgs V P} (h : args.Covered)
    (column : JsonColumn J P) (store : RunStore P J) (id : String) :
    store.backend.Keeps column (args.record id) (store.shown column args id) := by
  cases store with
  | memory store =>
    exact ⟨rfl, rfl, rfl, rfl, fun _ => rfl, fun _ => rfl, fun _ => rfl, fun _ => rfl, rfl, rfl⟩
  | database store =>
    refine ⟨rfl, rfl, rfl, rfl, (shown_fields args id).2.2, fun k => ?_, fun k => ?_, fun k => ?_,
      rfl, rfl⟩
    · change (stepMap _ _).get k = truthy (((args.results.getD Dict.empty).mapValues _).get k)
      rw [stepMap_get, Dict.get_mapValues]
      simp only [stepRow_result]
      exact bind_truthy_text fun hk => h.results k fun hn => hk (congrArg (Option.map _) hn)
    · change (stepMap _ _).get k = truthy ((args.errors.getD Dict.empty).get k)
      rw [stepMap_get]
      exact bind_truthy_text (h.errors k)
    · change (stepMap _ _).get k = truthy ((args.taskNames.getD Dict.empty).get k)
      rw [stepMap_get]
      simp only [SaveArgs.stepRow, truthy_getD]
      exact bind_truthy_text (h.taskNames k)

/-! ### Events -/

/-- A row of the event table; its own key is left out. -/
structure ExecutionEventRecord where
  runId : String
  sequence : ℕ
  kind : EventKind
  triggerId : Option String
  stepId : Option String
  attempt : Option ℕ
  details : List (String × String)

/-- The row that `save` adds for an event: the run id is the one the events are saved under. -/
def ExecutionEvent.row (runId : String) (e : ExecutionEvent) : ExecutionEventRecord :=
  ⟨runId, e.sequence, e.kind, e.triggerId, e.stepId, e.attempt, e.details⟩

def ExecutionEventRecord.event (r : ExecutionEventRecord) : ExecutionEvent :=
  ⟨r.sequence, r.kind, r.triggerId, some r.runId, r.stepId, r.attempt, r.details⟩

/-- The event store in use. -/
inductive EventStore where
  | memory (records : Dict String (List ExecutionEvent))
  | database (rows : List ExecutionEventRecord)

namespace EventStore

/-- Replace the events of a run. -/
def save (runId : String) (events : List ExecutionEvent) : EventStore → EventStore
  | .memory records => .memory (records.set runId events)
  | .database rows =>
    .database ((rows.filter fun r => r.runId ≠ runId) ++ events.map fun e => e.row runId)

/-- The events of a run; the database orders its rows by `sequence`. -/
def list (runId : String) : EventStore → List ExecutionEvent
  | .memory records => (records.get runId).getD []
  | .database rows =>
    ((rows.filter fun r => r.runId = runId).insertionSort
      fun r r' => r.sequence ≤ r'.sequence).map ExecutionEventRecord.event

/-- What `list` makes of events saved under `runId`: the database has their run id from its key. -/
def shown (runId : String) (events : List ExecutionEvent) : EventStore → List ExecutionEvent
  | .memory _ => events
  | .database _ => events.map fun e => { e with runId := some runId }

variable {store : EventStore} {runId id : String} {events : List ExecutionEvent}

theorem shown_save {runId' : String} {events' : List ExecutionEvent} :
    (store.save runId' events').shown runId events = store.shown runId events := by
  cases store <;> rfl

/-- After a save of events in order, the run's id lists them and every other id what it listed. -/
theorem list_save (h : events.Pairwise fun e e' => e.sequence ≤ e'.sequence) :
    (store.save runId events).list id =
      if id = runId then store.shown runId events else store.list id := by
  cases store with
  | memory records =>
    rw [save, list, Dict.get_set]
    split_ifs <;> rfl
  | database rows =>
    have hnew : (events.map fun e => e.row runId).filter (fun r => r.runId = id) =
        if id = runId then events.map fun e => e.row runId else [] := by
      rw [List.filter_map]
      rcases eq_or_ne id runId with rfl | hid
      · simp [Function.comp_def, ExecutionEvent.row]
      · simp [Function.comp_def, ExecutionEvent.row, hid, hid.symm]
    rw [save, list, List.filter_append, List.filter_filter, hnew]
    rcases eq_or_ne id runId with rfl | hid
    · have hold : rows.filter (fun r => decide (r.runId = id) && decide (r.runId ≠ id)) = [] := by
        refine List.filter_eq_nil_iff.mpr fun r _ => ?_
        by_cases hr : r.runId = id <;> simp [hr]
      rw [hold, if_pos rfl, if_pos rfl, List.nil_append, List.Pairwise.insertionSort_eq]
      · rw [List.map_map]; rfl
      · exact List.pairwise_map.mpr h
    · rw [if_neg hid, if_neg hid, List.append_nil, list]
      congr 2
      refine List.filter_congr fun r _ => ?_
      by_cases hr : r.runId = id <;> simp [hr, hid]

end EventStore

end WorkflowEngine
