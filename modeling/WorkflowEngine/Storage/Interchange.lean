import WorkflowEngine.Runs.Records
import WorkflowEngine.Storage.RunStores

/-! The two run stores under the same history of saves.

    What either store knows of a run id is determined by the last save under that id (`Stored`). So
    the stores are compared save by save: the database gives back every field, except that its
    filters drop an empty text. -/

namespace WorkflowEngine
open Schemes

variable {V P J : Type}

/-! ### One save -/

/-- The same record: mappings are compared by their lookups. -/
structure SameRecord (r r' : RunRecord P) : Prop where
  runId : r.runId = r'.runId
  workflowName : r.workflowName = r'.workflowName
  yamlDefinition : r.yamlDefinition = r'.yamlDefinition
  status : r.status = r'.status
  stepStatuses : r.stepStatuses.Same r'.stepStatuses
  results : r.results.Same r'.results
  errors : r.errors.Same r'.errors
  taskNames : r.taskNames.Same r'.taskNames
  deadLetters : r.deadLetters = r'.deadLetters
  versionHash : r.versionHash = r'.versionHash

section OneSave
variable [PyValue V] (args : SaveArgs V P)

/-- Every step with a result, an error or a task name has a status. -/
structure SaveArgs.Covered (args : SaveArgs V P) : Prop where
  results : ∀ id, (args.results.getD Dict.empty).get id ≠ none → args.statuses.get id ≠ none
  errors : ∀ id, (args.errors.getD Dict.empty).get id ≠ none → args.statuses.get id ≠ none
  taskNames : ∀ id, (args.taskNames.getD Dict.empty).get id ≠ none → args.statuses.get id ≠ none

/-- No result is the empty string as a text, and no error message or task name is empty. -/
structure SaveArgs.NoEmptyText (args : SaveArgs V P) : Prop where
  results : ∀ id, ((args.results.getD Dict.empty).get id).map PyValue.str ≠ some ""
  errors : ∀ id, (args.errors.getD Dict.empty).get id ≠ some ""
  taskNames : ∀ id, (args.taskNames.getD Dict.empty).get id ≠ some ""

/-- A text read back through a step's row: it survives unless it is empty. -/
theorem bind_truthy {status : Option Status} {text : Option String}
    (h : text ≠ none → status ≠ none) :
    text = (status.bind fun _ => truthy text) ↔ text ≠ some "" := by
  rw [← truthy_eq_self, eq_comm]
  cases status with
  | some st => rfl
  | none =>
    have htext : text = none := by
      by_contra hne
      exact h hne rfl
    simp [htext, truthy]

theorem truthy_getD (text : Option String) : truthy (some (text.getD "")) = truthy text := by
  cases text <;> simp [truthy]

theorem stepRow_result (runId id : String) (status : Status) :
    (args.stepRow runId id status).result =
      ((args.results.getD Dict.empty).get id).map PyValue.str := by
  rw [SaveArgs.stepRow]
  cases args.results <;> rfl

variable {args} {column : JsonColumn J P}

/-- The record read back from the rows of a save is the one the in-memory store keeps, exactly when
    the save has no empty text. -/
theorem record_same_iff (hjson : ∀ letters, column.load (column.dump letters) = letters)
    (hcov : args.Covered) (id : String) :
    SameRecord (args.record id)
      (DatabaseWorkflowStorage.toRecord column (args.runRow column id) (args.stepRows id)) ↔
    args.NoEmptyText := by
  have hresult : ∀ k, (args.record id).results.get k =
      (stepMap (fun s => truthy s.result) (args.stepRows id)).get k ↔
      ((args.results.getD Dict.empty).get k).map PyValue.str ≠ some "" := by
    intro k
    rw [stepMap_get, SaveArgs.record, Dict.get_mapValues]
    simp only [stepRow_result]
    exact bind_truthy fun hk => hcov.results k fun hn => hk (by rw [hn]; rfl)
  have herror : ∀ k, (args.record id).errors.get k =
      (stepMap (fun s => truthy s.error) (args.stepRows id)).get k ↔
      (args.errors.getD Dict.empty).get k ≠ some "" := by
    intro k
    rw [stepMap_get]
    exact bind_truthy (hcov.errors k)
  have htask : ∀ k, (args.record id).taskNames.get k =
      (stepMap (fun s => truthy (some s.taskName)) (args.stepRows id)).get k ↔
      (args.taskNames.getD Dict.empty).get k ≠ some "" := by
    intro k
    rw [stepMap_get]
    simp only [SaveArgs.stepRow, truthy_getD]
    exact bind_truthy (hcov.taskNames k)
  constructor
  · intro h
    exact ⟨fun k => (hresult k).mp (h.results k), fun k => (herror k).mp (h.errors k),
      fun k => (htask k).mp (h.taskNames k)⟩
  · intro h
    refine ⟨rfl, rfl, rfl, rfl, fun k => ?_, fun k => (hresult k).mpr (h.results k),
      fun k => (herror k).mpr (h.errors k), fun k => (htask k).mpr (h.taskNames k), ?_, rfl⟩
    · have hstatus := stepMap_get args (fun s => some s.status) id k
      exact hstatus.symm ▸ (Option.bind_fun_some _).symm
    · exact (hjson _).symm

end OneSave

/-! ### A history of saves -/

/-- One call of `run_workflow`: the finished executor of an accepted definition, and what it is saved
    with. `uuid` is the id drawn if none is given. -/
structure FinishedRun (V P : Type) [PyValue V] where
  executor : WorkflowExecutor V P
  accepted : detectCycles executor.config.steps = .ok ()
  records : RunState V P
  finished : executor.Finishes records
  yamlDefinition : String
  runId : Option String
  versionHash : Option String
  uuid : String

section Histories
variable [PyValue V]

namespace FinishedRun

/-- The arguments `run_workflow` passes to `save_run`. -/
def args (run : FinishedRun V P) : SaveArgs V P where
  workflowName := run.executor.config.name
  yamlDefinition := run.yamlDefinition
  statuses := run.records.statuses
  results := some run.records.results
  status := run.records.overallStatus.text
  errors := some run.records.errors
  deadLetters := some run.records.deadLetters
  taskNames := some (Dict.ofList (run.executor.config.steps.map fun s => (s.id, s.task)))
  runId := run.runId
  versionHash := run.versionHash

/-- The id the run is saved under. -/
def id (run : FinishedRun V P) : String := run.args.chosenId run.uuid

theorem covered (run : FinishedRun V P) : run.args.Covered := by
  obtain ⟨hended, hreplay⟩ :=
    WorkflowExecutor.ended_of_finishes (acyclic_of_accepted run.accepted) run.finished
  have hcompleted := hended.completed_iff
  have hfailed := hended.failed_iff
  rw [hreplay] at hcompleted hfailed
  refine ⟨fun id hid hno => ?_, fun id hid hno => ?_, fun id hid hno => ?_⟩
  · obtain ⟨v, hv⟩ := Option.ne_none_iff_exists'.mp hid
    have hst := (hcompleted id).mpr ((Dict.mem_keys_iff _ id).mpr ⟨v, hv⟩)
    exact absurd (hno.symm.trans hst) (by simp)
  · obtain ⟨e, he⟩ := Option.ne_none_iff_exists'.mp hid
    have hst := (hfailed id).mpr ((Dict.mem_keys_iff _ id).mpr ⟨e, he⟩)
    exact absurd (hno.symm.trans hst) (by simp)
  · obtain ⟨task, htask⟩ := Option.ne_none_iff_exists'.mp hid
    have hunique : ((run.executor.config.steps.map fun s => (s.id, s.task)).map Prod.fst).Nodup := by
      rw [List.map_map]
      exact run.executor.config.uniqueStepIds
    obtain ⟨s, hs, he⟩ := List.mem_map.mp ((Dict.get_ofList_iff _ hunique id task).mp htask)
    obtain ⟨rfl, -⟩ := Prod.mk.inj he
    obtain ⟨status, hst, -⟩ := (hended.closed s hs).status
    rw [hreplay] at hst
    exact absurd (hno.symm.trans hst) (by simp)

end FinishedRun

/-- The in-memory store after saving these runs, in order. -/
def memoryAfter (runs : List (FinishedRun V P)) : InMemoryWorkflowStorage P :=
  runs.foldl (fun store run => (store.saveRun run.args run.uuid).1) {}

/-- The database after saving these runs, in order. -/
def databaseAfter (column : JsonColumn J P) (runs : List (FinishedRun V P)) :
    DatabaseWorkflowStorage J :=
  runs.foldl (fun store run => (store.saveRun column run.args run.uuid).1) {}

/-- The last run saved under an id. -/
def latest (runs : List (FinishedRun V P)) (id : String) : Option (FinishedRun V P) :=
  runs.reverse.find? fun run => run.id = id

theorem latest_concat (runs : List (FinishedRun V P)) (run : FinishedRun V P) (id : String) :
    latest (runs ++ [run]) id = if id = run.id then some run else latest runs id :=
  History.lastOf_concat FinishedRun.id runs run id

/-- What the stores hold: of every run id, what its last save left. -/
structure Stored (column : JsonColumn J P) (last : String → Option (FinishedRun V P))
    (mem : InMemoryWorkflowStorage P) (db : DatabaseWorkflowStorage J) : Prop where
  records : ∀ id, mem.records.get id = (last id).map fun run => run.args.record id
  rows : ∀ id, db.runs.get id = (last id).map fun run => run.args.runRow column id
  steps : ∀ id, db.stepsOf id = (last id).elim [] fun run => run.args.stepRows id

section
variable {column : JsonColumn J P} {last last' : String → Option (FinishedRun V P)}
  {mem : InMemoryWorkflowStorage P} {db : DatabaseWorkflowStorage J}

theorem Stored.save (h : Stored column last mem db) (run : FinishedRun V P)
    (hlast : ∀ id, last' id = if id = run.id then some run else last id) :
    Stored column last' (mem.saveRun run.args run.uuid).1
      (db.saveRun column run.args run.uuid).1 where
  records id := by
    rw [InMemoryWorkflowStorage.saveRun_get, hlast, h.records, FinishedRun.id]
    split_ifs <;> rfl
  rows id := by
    rw [DatabaseWorkflowStorage.saveRun_get, hlast, h.rows, FinishedRun.id]
    split_ifs <;> rfl
  steps id := by
    have horphan : ∀ k, db.runs.get k = none → db.stepsOf k = [] := by
      intro k hk
      rw [h.rows, Option.map_eq_none_iff] at hk
      rw [h.steps, hk]; rfl
    rw [DatabaseWorkflowStorage.saveRun_stepsOf _ _ _ _ horphan, hlast, h.steps, FinishedRun.id]
    split_ifs <;> rfl

end

theorem stored_after (column : JsonColumn J P) (runs : List (FinishedRun V P)) :
    Stored column (latest runs) (memoryAfter runs) (databaseAfter column runs) := by
  induction runs using List.reverseRecOn with
  | nil => exact ⟨fun _ => rfl, fun _ => rfl, fun _ => rfl⟩
  | append_singleton runs run ih =>
    rw [memoryAfter, databaseAfter, List.foldl_append, List.foldl_append]
    exact ih.save run (latest_concat runs run)

/-! ### Interchangeable stores -/

/-- The stores answer every query alike: records by `SameRecord`, dead letters as multisets. -/
structure Interchangeable (column : JsonColumn J P) (mem : InMemoryWorkflowStorage P)
    (db : DatabaseWorkflowStorage J) : Prop where
  runs : ∀ id, Option.Rel SameRecord (mem.getRun id) (db.getRun column id)
  letters : ∀ runId, (mem.getDeadLetters runId).Perm (db.getDeadLetters column runId)

section
variable {column : JsonColumn J P} {last : String → Option (FinishedRun V P)}
  {mem : InMemoryWorkflowStorage P} {db : DatabaseWorkflowStorage J}

theorem Stored.getRun (h : Stored column last mem db) (id : String) :
    mem.getRun id = (last id).map (fun run => run.args.record id) ∧
    db.getRun column id = (last id).map fun run =>
      DatabaseWorkflowStorage.toRecord column (run.args.runRow column id)
        (run.args.stepRows id) := by
  refine ⟨h.records id, ?_⟩
  rw [DatabaseWorkflowStorage.getRun, h.rows, Option.map_map]
  cases hlast : last id with
  | none => rfl
  | some run =>
    have hsteps : db.stepsOf id = run.args.stepRows id := by rw [h.steps, hlast]; rfl
    rw [Option.map_some, Option.map_some, ← hsteps]; rfl

/-- The dead letters are the same whatever the texts are. -/
theorem Stored.letters (hjson : ∀ letters, column.load (column.dump letters) = letters)
    (h : Stored column last mem db) (runId : Option String) :
    (mem.getDeadLetters runId).Perm (db.getDeadLetters column runId) := by
  cases runId with
  | some id =>
    rw [InMemoryWorkflowStorage.getDeadLetters, DatabaseWorkflowStorage.getDeadLetters,
      h.records, h.rows]
    cases last id with
    | none => exact .refl _
    | some run =>
      refine .of_eq ?_
      simp [SaveArgs.record, SaveArgs.runRow, hjson]
  | none =>
    have hfull : (db.runs.values.filter fun run => run.deadLetters.isSome) = db.runs.values := by
      refine List.filter_eq_self.mpr fun row hrow => ?_
      obtain ⟨id, hid⟩ := (Dict.mem_values_iff _ row).mp hrow
      rw [h.rows] at hid
      obtain ⟨run, -, rfl⟩ := Option.map_eq_some_iff.mp hid
      rfl
    rw [InMemoryWorkflowStorage.getDeadLetters, DatabaseWorkflowStorage.getDeadLetters, hfull]
    refine Dict.values_flatMap_perm fun id => ?_
    rw [h.records, h.rows, Option.map_map, Option.map_map]
    refine congrArg (fun f => (last id).map f) (funext fun run => ?_)
    simp [SaveArgs.record, SaveArgs.runRow, hjson]

/-- EXACT (interchange): after any history of saved runs the two stores are interchangeable if and
    only if no last save of a run id holds an empty text. -/
theorem interchangeable_iff (hjson : ∀ letters, column.load (column.dump letters) = letters)
    (runs : List (FinishedRun V P)) :
    Interchangeable column (memoryAfter runs) (databaseAfter column runs) ↔
      ∀ id run, latest runs id = some run → run.args.NoEmptyText := by
  have h := stored_after column runs
  constructor
  · intro hsame id run hrun
    have hget := hsame.runs id
    rw [(h.getRun id).1, (h.getRun id).2, hrun] at hget
    cases hget with
    | some hrec => exact (record_same_iff hjson run.covered id).mp hrec
  · intro htexts
    refine ⟨fun id => ?_, h.letters hjson⟩
    rw [(h.getRun id).1, (h.getRun id).2]
    cases hrun : latest runs id with
    | none => exact .none
    | some run => exact .some ((record_same_iff hjson run.covered id).mpr (htexts id run hrun))

end

end Histories

/-- A JSON column that keeps the list as it is. -/
def JsonColumn.plain : JsonColumn (List (DeadLetter P)) P := ⟨fun letters => letters, fun j => j⟩

/-- One step, whose task returns the empty string. -/
def silent : WorkflowExecutor String Unit where
  config := { name := "silent", steps := [{ id := "notify", task := "notify", params := () }],
              uniqueStepIds := by decide }
  taskRegistry := Dict.ofList [("notify", { call := fun _ _ _ _ => (.ok "", ()) })]

/-- The in-memory store has a result for the step, the database has none. -/
theorem silent_not_interchangeable : ∃ run : FinishedRun String Unit, run.executor = silent ∧
    ((memoryAfter [run]).getRun "r1").bind (fun r => r.results.get "notify") = some "" ∧
    ((databaseAfter .plain [run]).getRun .plain "r1").bind (fun r => r.results.get "notify") = none ∧
    ¬ Interchangeable .plain (memoryAfter [run]) (databaseAfter .plain [run]) := by
  obtain ⟨σ, hσ, hp⟩ := WorkflowExecutor.finishes_of_runMoves (E := silent) [.main, .main]
    (p := fun σ => decide (σ.results.get "notify" = some "")) rfl
  have hresult : σ.results.get "notify" = some "" := of_decide_eq_true hp
  let run : FinishedRun String Unit := ⟨silent, rfl, σ, hσ, "", some "r1", none, ""⟩
  have hstored := stored_after (.plain : JsonColumn _ Unit) [run]
  have hmem : ((memoryAfter [run]).getRun "r1").bind (fun r => r.results.get "notify") = some "" := by
    rw [(hstored.getRun "r1").1]
    change (σ.results.mapValues PyValue.str).get "notify" = some ""
    rw [Dict.get_mapValues, hresult]; rfl
  have hdb : ((databaseAfter .plain [run]).getRun .plain "r1").bind
      (fun r => r.results.get "notify") = none := by
    rw [(hstored.getRun "r1").2]
    change (stepMap (fun s => truthy s.result) (run.args.stepRows "r1")).get "notify" = none
    rw [stepMap_get]
    simp only [stepRow_result]
    change (σ.statuses.get "notify").bind (fun _ =>
      truthy ((σ.results.get "notify").map PyValue.str)) = none
    rw [hresult]
    exact Option.bind_eq_none_iff.mpr fun _ _ => rfl
  refine ⟨run, rfl, hmem, hdb, fun h => ?_⟩
  have hrel := h.runs "r1"
  generalize (memoryAfter [run]).getRun "r1" = a at hmem hrel
  generalize (databaseAfter .plain [run]).getRun .plain "r1" = b at hdb hrel
  cases hrel with
  | some hrec => exact absurd (hmem.symm.trans ((hrec.results "notify").trans hdb)) (by simp)
  | none => exact absurd hmem (by simp)

theorem etl_interchangeable_iff : ∃ run : FinishedRun String Unit,
    run.executor = WorkflowExecutor.etl ∧
    (Interchangeable .plain (memoryAfter [run, run]) (databaseAfter .plain [run, run]) ↔
      ∀ id last, latest [run, run] id = some last → last.args.NoEmptyText) := by
  obtain ⟨σ, hσ, -⟩ := WorkflowExecutor.exists_finish (E := WorkflowExecutor.etl)
    (c := .loop WorkflowExecutor.etl.start ∅) .refl
  let run : FinishedRun String Unit := ⟨_, rfl, σ, hσ, "", some "r1", none, ""⟩
  exact ⟨run, rfl, interchangeable_iff (fun _ => rfl) [run, run]⟩

end WorkflowEngine
