import WorkflowEngine.Engine.Executor

/-! The two run stores.

    The in-memory store keeps one record for each run. The database keeps a row for the run, with its
    dead letters in a JSON column, and a row for each step, from which `get_run` rebuilds the
    mappings. A save is one transaction, and deleting a run deletes its step rows. Timestamps and the
    step rows' own keys are left out. -/

namespace WorkflowEngine
open Schemes

variable {V P J : Type}

/-- The arguments of `save_run`. -/
structure SaveArgs (V P : Type) where
  workflowName : String
  yamlDefinition : String
  statuses : Dict String Status
  results : Option (Dict String V) := none
  status : String := "completed"
  errors : Option (Dict String String) := none
  deadLetters : Option (List (DeadLetter P)) := none
  taskNames : Option (Dict String String) := none
  runId : Option String := none
  versionHash : Option String := none

/-- `run_id or str(uuid.uuid4())`, where `uuid` is the id that would be drawn. -/
def SaveArgs.chosenId (args : SaveArgs V P) (uuid : String) : String :=
  match args.runId with
  | some runId => if runId = "" then uuid else runId
  | none => uuid

/-- What `get_run` returns. -/
structure RunRecord (P : Type) where
  runId : String
  workflowName : String
  yamlDefinition : String
  status : String
  stepStatuses : Dict String Status
  results : Dict String String
  errors : Dict String String
  taskNames : Dict String String
  deadLetters : List (DeadLetter P)
  versionHash : Option String

/-- An entry that `get_dead_letters` returns, with the `run_id` it adds when asked for all runs. -/
structure FoundLetter (P : Type) where
  letter : DeadLetter P
  runId : Option String := none

/-! ### In memory -/

structure InMemoryWorkflowStorage (P : Type) where
  records : Dict String (RunRecord P) := Dict.empty

/-- The record that `save_run` stores. -/
def SaveArgs.record [PyValue V] (args : SaveArgs V P) (runId : String) : RunRecord P where
  runId := runId
  workflowName := args.workflowName
  yamlDefinition := args.yamlDefinition
  status := args.status
  stepStatuses := args.statuses
  results := (args.results.getD Dict.empty).mapValues PyValue.str
  errors := args.errors.getD Dict.empty
  taskNames := args.taskNames.getD Dict.empty
  deadLetters := args.deadLetters.getD []
  versionHash := args.versionHash

namespace InMemoryWorkflowStorage

/-- Persist a run and return its id. -/
def saveRun [PyValue V] (store : InMemoryWorkflowStorage P) (args : SaveArgs V P) (uuid : String) :
    InMemoryWorkflowStorage P × String :=
  let runId := args.chosenId uuid
  ({ records := store.records.set runId (args.record runId) }, runId)

def getRun (store : InMemoryWorkflowStorage P) (runId : String) : Option (RunRecord P) :=
  store.records.get runId

def getDeadLetters (store : InMemoryWorkflowStorage P) : Option String → List (FoundLetter P)
  | some runId =>
    match store.records.get runId with
    | some record => record.deadLetters.map fun dl => ⟨dl, none⟩
    | none => []
  | none => store.records.values.flatMap fun r => r.deadLetters.map fun dl => ⟨dl, some r.runId⟩

end InMemoryWorkflowStorage

/-! ### Database -/

/-- The JSON column: what it keeps of a list of dead letters, and what it gives back. -/
structure JsonColumn (J P : Type) where
  dump : List (DeadLetter P) → J
  load : J → List (DeadLetter P)

/-- Which step failed, its task and after how many attempts. -/
def DeadLetter.failure (dl : DeadLetter P) : String × String × ℕ :=
  (dl.stepId, dl.task, dl.attempts)

/-- The column gives back which failure every letter is about, whatever becomes of the rest. -/
def JsonColumn.KeepsFailures (column : JsonColumn J P) : Prop :=
  ∀ letters, (column.load (column.dump letters)).map DeadLetter.failure =
    letters.map DeadLetter.failure

structure WorkflowRun (J : Type) where
  id : String
  workflowName : String
  yamlDefinition : String
  status : String
  deadLetters : Option J
  versionHash : Option String

structure StepExecution where
  runId : String
  stepId : String
  taskName : String
  status : Status
  result : Option String
  error : Option String
  attempt : ℕ

/-- The tables; `runs` is keyed by the primary key. -/
structure DatabaseWorkflowStorage (J : Type) where
  runs : Dict String (WorkflowRun J) := Dict.empty
  steps : List StepExecution := []

/-- The row that `save_run` adds for a run. -/
def SaveArgs.runRow (column : JsonColumn J P) (args : SaveArgs V P) (runId : String) :
    WorkflowRun J where
  id := runId
  workflowName := args.workflowName
  yamlDefinition := args.yamlDefinition
  status := args.status
  deadLetters := some (column.dump (args.deadLetters.getD []))
  versionHash := args.versionHash

/-- The row that `save_run` adds for one step of a run. -/
def SaveArgs.stepRow [PyValue V] (args : SaveArgs V P) (runId stepId : String) (status : Status) :
    StepExecution where
  runId := runId
  stepId := stepId
  taskName := ((args.taskNames.getD Dict.empty).get stepId).getD ""
  status := status
  result := args.results.bind fun results => (results.get stepId).map PyValue.str
  error := (args.errors.getD Dict.empty).get stepId
  attempt := 0

def SaveArgs.stepRows [PyValue V] (args : SaveArgs V P) (runId : String) : List StepExecution :=
  args.statuses.entries.map fun e => args.stepRow runId e.1 e.2

/-- A string that is there and not empty. -/
def truthy (s : Option String) : Option String := s.filter fun s => s ≠ ""

/-- `{s.step_id: w for s in steps if …}`, where `f s` is the `w` to keep, if any. -/
def stepMap {W : Type} (f : StepExecution → Option W) (steps : List StepExecution) : Dict String W :=
  Dict.ofList (steps.filterMap fun s => (f s).map fun w => (s.stepId, w))

namespace DatabaseWorkflowStorage

/-- `session.delete(run)`; the step rows cascade. -/
def delete (store : DatabaseWorkflowStorage J) (runId : String) : DatabaseWorkflowStorage J where
  runs := store.runs.erase runId
  steps := store.steps.filter fun s => s.runId ≠ runId

/-- Persist a run and return its id: a run saved under the same id is deleted first. -/
def saveRun [PyValue V] (column : JsonColumn J P) (store : DatabaseWorkflowStorage J)
    (args : SaveArgs V P) (uuid : String) : DatabaseWorkflowStorage J × String :=
  let runId := args.chosenId uuid
  let cleared := match store.runs.get runId with
    | some _ => store.delete runId
    | none => store
  ({ runs := cleared.runs.set runId (args.runRow column runId)
     steps := cleared.steps ++ args.stepRows runId }, runId)

/-- `run.steps`. -/
def stepsOf (store : DatabaseWorkflowStorage J) (runId : String) : List StepExecution :=
  store.steps.filter fun s => s.runId = runId

/-- What `get_run` makes of a run's row and its step rows. -/
def toRecord (column : JsonColumn J P) (run : WorkflowRun J) (steps : List StepExecution) :
    RunRecord P where
  runId := run.id
  workflowName := run.workflowName
  yamlDefinition := run.yamlDefinition
  status := run.status
  stepStatuses := stepMap (fun s => some s.status) steps
  results := stepMap (fun s => truthy s.result) steps
  errors := stepMap (fun s => truthy s.error) steps
  taskNames := stepMap (fun s => truthy (some s.taskName)) steps
  deadLetters := run.deadLetters.elim [] column.load
  versionHash := run.versionHash

def getRun (column : JsonColumn J P) (store : DatabaseWorkflowStorage J) (runId : String) :
    Option (RunRecord P) :=
  (store.runs.get runId).map fun run => toRecord column run (store.stepsOf run.id)

def getDeadLetters (column : JsonColumn J P) (store : DatabaseWorkflowStorage J) :
    Option String → List (FoundLetter P)
  | some runId =>
    match store.runs.get runId with
    | some run => (run.deadLetters.elim [] column.load).map fun dl => ⟨dl, none⟩
    | none => []
  | none => (store.runs.values.filter fun run => run.deadLetters.isSome).flatMap fun run =>
      (run.deadLetters.elim [] column.load).map fun dl => ⟨dl, some run.id⟩

end DatabaseWorkflowStorage

/-! ### What a save leaves -/

section Saves
variable [PyValue V] (args : SaveArgs V P) (uuid : String)

@[simp] theorem InMemoryWorkflowStorage.saveRun_get (store : InMemoryWorkflowStorage P)
    (id : String) : (store.saveRun args uuid).1.records.get id =
      if id = args.chosenId uuid then some (args.record id) else store.records.get id := by
  rw [saveRun, Dict.get_set]
  split_ifs with h
  · rw [h]
  · rfl

namespace DatabaseWorkflowStorage
variable (column : JsonColumn J P) (store : DatabaseWorkflowStorage J)

@[simp] theorem saveRun_get (id : String) : (store.saveRun column args uuid).1.runs.get id =
    if id = args.chosenId uuid then some (args.runRow column id) else store.runs.get id := by
  rw [saveRun, Dict.get_set]
  split_ifs with h
  · rw [h]
  · cases store.runs.get (args.chosenId uuid) with
    | none => rfl
    | some run => simp [delete, h]

theorem stepRows_filter (runId id : String) : ((args.stepRows runId).filter fun s => s.runId = id) =
    if id = runId then args.stepRows runId else [] := by
  split_ifs with h
  · refine List.filter_eq_self.mpr fun s hs => ?_
    obtain ⟨e, -, rfl⟩ := List.mem_map.mp hs
    exact decide_eq_true h.symm
  · refine List.filter_eq_nil_iff.mpr fun s hs => ?_
    obtain ⟨e, -, rfl⟩ := List.mem_map.mp hs
    exact fun hd => h (of_decide_eq_true hd).symm

/-- The rows of a run are those of its last save, provided only saved runs have rows. -/
theorem saveRun_stepsOf (horphan : ∀ id, store.runs.get id = none → store.stepsOf id = [])
    (id : String) : (store.saveRun column args uuid).1.stepsOf id =
      if id = args.chosenId uuid then args.stepRows id else store.stepsOf id := by
  rw [saveRun, stepsOf, List.filter_append, stepRows_filter]
  rcases eq_or_ne id (args.chosenId uuid) with rfl | h
  · rw [if_pos rfl, if_pos rfl]
    cases hrun : store.runs.get (args.chosenId uuid) with
    | none => rw [← stepsOf, horphan _ hrun, List.nil_append]
    | some run => simp [delete, List.filter_filter]
  · rw [if_neg h, if_neg h, List.append_nil]
    cases store.runs.get (args.chosenId uuid) with
    | none => rfl
    | some run =>
      rw [delete, List.filter_filter, stepsOf]
      refine List.filter_congr fun s _ => ?_
      by_cases hs : s.runId = id
      · simp [hs, h]
      · simp [hs]

end DatabaseWorkflowStorage

theorem stepMap_get {W : Type} (f : StepExecution → Option W) (runId id : String) :
    (stepMap f (args.stepRows runId)).get id =
      (args.statuses.get id).bind fun status => f (args.stepRow runId id status) := by
  rw [stepMap, SaveArgs.stepRows, List.filterMap_map]
  exact Dict.get_ofList_filterMap (fun k v => f (args.stepRow runId k v)) args.statuses id

theorem truthy_eq_self (s : Option String) : truthy s = s ↔ s ≠ some "" := by
  cases s with
  | none => simp [truthy]
  | some s => simp [truthy, Option.filter]

end Saves

end WorkflowEngine
