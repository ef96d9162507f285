import WorkflowEngine.Storage.Interchange
import WorkflowEngine.Scheduler.Datetime
import WorkflowEngine.Schemes.History
import Mathlib.Data.List.Dedup

/-! The listing of runs.

    Both stores stamp a run when they save it, the one with the text that `isoformat` makes of the
    time and the other with the time itself, and list the newest runs first. The texts are ordered like
    the times, so the orders agree. A rerun takes the place of the run it overwrites, with a new stamp:
    in the dictionary at the old position, in the table as a new row. -/

namespace WorkflowEngine
open Schemes

variable {V P J : Type}

/-! ### Stamped stores -/

/-- What `datetime.now(timezone.utc)` returns; a Python datetime has no year above 9999. -/
abbrev Timestamp := { t : Datetime // t.year ≤ 9999 }

/-- An entry of a listing. -/
structure RunSummary where
  runId : String
  workflowName : String
  status : String
  createdAt : String

/-- A record with its `created_at`. -/
structure StampedRecord (P : Type) extends RunRecord P where
  createdAt : String

/-- A row with its `created_at`. -/
structure StampedRow (J : Type) extends WorkflowRun J where
  createdAt : Timestamp

/-- `InMemoryWorkflowStorage`, with the stamps. -/
structure StampedMemory (P : Type) where
  records : Dict String (StampedRecord P) := Dict.empty

/-- The tables of `DatabaseWorkflowStorage`, with the stamps of the runs. -/
structure StampedDatabase (J : Type) where
  runs : Dict String (StampedRow J) := Dict.empty
  steps : List StepExecution := []

namespace StampedMemory

def saveRun [PyValue V] (store : StampedMemory P) (args : SaveArgs V P) (uuid : String)
    (now : Timestamp) : StampedMemory P × String :=
  let runId := args.chosenId uuid
  ({ records := store.records.set runId
      { args.record runId with createdAt := now.1.isoformat } }, runId)

/-- `list_runs`: `sorted` is stable, and so it is in reverse. -/
def listRuns (store : StampedMemory P) (limit : ℕ) : List RunSummary :=
  let runs := store.records.values.mergeSort fun a b => b.createdAt ≤ a.createdAt
  (runs.take limit).map fun r => ⟨r.runId, r.workflowName, r.status, r.createdAt⟩

/-- The store of the other modules, which looks at no stamp. -/
def forget (store : StampedMemory P) : InMemoryWorkflowStorage P where
  records := store.records.mapValues StampedRecord.toRunRecord

/-- REFINEMENT: a stamped save is a save. -/
theorem forget_saveRun [PyValue V] (store : StampedMemory P) (args : SaveArgs V P) (uuid : String)
    (now : Timestamp) :
    (store.saveRun args uuid now).1.forget = (store.forget.saveRun args uuid).1 := by
  simp only [forget, saveRun, InMemoryWorkflowStorage.saveRun, Dict.mapValues_set]

end StampedMemory

namespace StampedDatabase

def delete (store : StampedDatabase J) (runId : String) : StampedDatabase J where
  runs := store.runs.erase runId
  steps := store.steps.filter fun s => s.runId ≠ runId

/-- The new row is stamped by the default of its column, whether it replaces one or not. -/
def saveRun [PyValue V] (column : JsonColumn J P) (store : StampedDatabase J) (args : SaveArgs V P)
    (uuid : String) (now : Timestamp) : StampedDatabase J × String :=
  let runId := args.chosenId uuid
  let cleared := match store.runs.get runId with
    | some _ => store.delete runId
    | none => store
  ({ runs := cleared.runs.set runId { args.runRow column runId with createdAt := now }
     steps := cleared.steps ++ args.stepRows runId }, runId)

/-- What `list_runs` may return: rows in descending `created_at`, up to the limit. The database
    chooses the order of equal ones. `text` is what `isoformat` makes of a stamp as the driver gives
    it back. -/
def Lists (text : Timestamp → String) (store : StampedDatabase J) (limit : ℕ)
    (out : List RunSummary) : Prop :=
  ∃ runs : List (StampedRow J), runs.Perm store.runs.values ∧
    runs.Pairwise (fun a b => b.createdAt ≤ a.createdAt) ∧
    out = (runs.take limit).map fun run => ⟨run.id, run.workflowName, run.status, text run.createdAt⟩

def forget (store : StampedDatabase J) : DatabaseWorkflowStorage J where
  runs := store.runs.mapValues StampedRow.toWorkflowRun
  steps := store.steps

/-- REFINEMENT: a stamped save is a save. -/
theorem forget_saveRun [PyValue V] (column : JsonColumn J P) (store : StampedDatabase J)
    (args : SaveArgs V P) (uuid : String) (now : Timestamp) :
    (store.saveRun column args uuid now).1.forget = (store.forget.saveRun column args uuid).1 := by
  have hget : store.forget.runs.get (args.chosenId uuid) =
      (store.runs.get (args.chosenId uuid)).map StampedRow.toWorkflowRun :=
    Dict.get_mapValues _ _ _
  simp only [saveRun, DatabaseWorkflowStorage.saveRun, hget]
  cases store.runs.get (args.chosenId uuid) with
  | none => simp only [Option.map_none, forget, Dict.mapValues_set]
  | some run =>
    simp only [Option.map_some, forget, delete, DatabaseWorkflowStorage.delete,
      Dict.mapValues_set, Dict.mapValues_erase]

end StampedDatabase

/-! ### A history of saves -/

/-- A save, by a run or a rerun, with the id drawn if none is given and the time. -/
structure StampedSave (V P : Type) where
  args : SaveArgs V P
  uuid : String
  now : Timestamp

namespace StampedSave

/-- The id the run is saved under. -/
def id (save : StampedSave V P) : String := save.args.chosenId save.uuid

/-- The entry of a run, with `text` as what is made of its stamp. -/
def summary (text : Timestamp → String) (save : StampedSave V P) : RunSummary :=
  ⟨save.id, save.args.workflowName, save.args.status, text save.now⟩

/-- The record that the save leaves in memory. -/
def record [PyValue V] (save : StampedSave V P) : StampedRecord P :=
  { save.args.record save.id with createdAt := save.now.1.isoformat }

/-- The row that the save leaves in the database. -/
def row (column : JsonColumn J P) (save : StampedSave V P) : StampedRow J :=
  { save.args.runRow column save.id with createdAt := save.now }

end StampedSave

section Histories
variable [PyValue V]

def StampedMemory.after (saves : List (StampedSave V P)) : StampedMemory P :=
  saves.foldl (fun store s => (store.saveRun s.args s.uuid s.now).1) {}

def StampedDatabase.after (column : JsonColumn J P) (saves : List (StampedSave V P)) :
    StampedDatabase J :=
  saves.foldl (fun store s => (store.saveRun column s.args s.uuid s.now).1) {}

end Histories

/-- The latest save of every run. -/
def latestSaves (saves : List (StampedSave V P)) : Dict String (StampedSave V P) :=
  saves.foldl (fun d s => d.set s.id s) Dict.empty

/-- The `limit` runs whose latest saves are the most recent, newest first: all of them if there are no
    more than that, and otherwise any run left out is older than any that is listed. -/
structure Newest (saves : List (StampedSave V P)) (limit : ℕ) (recent : List (StampedSave V P)) :
    Prop where
  latest : ∀ s ∈ recent, History.lastOf StampedSave.id saves s.id = some s
  once : (recent.map StampedSave.id).Nodup
  descending : recent.Pairwise fun a b => b.now < a.now
  length : recent.length = min limit (saves.map StampedSave.id).dedup.length
  older : ∀ s, History.lastOf StampedSave.id saves s.id = some s → s ∉ recent →
    ∀ r ∈ recent, s.now < r.now

/-! ### The latest saves -/

section Latest
variable (saves : List (StampedSave V P))

theorem latestSaves_concat (save : StampedSave V P) :
    latestSaves (saves ++ [save]) = (latestSaves saves).set save.id save := by
  rw [latestSaves, List.foldl_append]
  rfl

theorem get_latestSaves (runId : String) :
    (latestSaves saves).get runId = History.lastOf StampedSave.id saves runId := by
  induction saves using List.reverseRecOn with
  | nil => rfl
  | append_singleton saves save ih =>
    rw [latestSaves_concat, Dict.get_set, History.lastOf_concat, ih]

theorem id_of_lastOf {save : StampedSave V P} {runId : String}
    (h : History.lastOf StampedSave.id saves runId = some save) : save.id = runId := by
  have hfound := List.find?_some (p := fun s : StampedSave V P => decide (s.id = runId)) h
  exact of_decide_eq_true hfound

theorem mem_latestSaves (save : StampedSave V P) :
    save ∈ (latestSaves saves).values ↔ History.lastOf StampedSave.id saves save.id = some save := by
  rw [Dict.mem_values_iff]
  constructor
  · rintro ⟨runId, hget⟩
    rw [get_latestSaves] at hget
    rw [id_of_lastOf saves hget, hget]
  · exact fun h => ⟨save.id, (get_latestSaves saves save.id).trans h⟩

theorem lastOf_mem {save : StampedSave V P} {runId : String}
    (h : History.lastOf StampedSave.id saves runId = some save) : save ∈ saves :=
  List.mem_reverse.mp (List.mem_of_find?_eq_some h)

/-- The entries stand under their own ids. -/
theorem ids_latestSaves : (latestSaves saves).values.map StampedSave.id = (latestSaves saves).keys := by
  rw [Dict.values, List.map_map, Dict.keys]
  refine List.map_congr_left fun e he => ?_
  have hget := (Dict.mem_entries_iff _ e.1 e.2).mp he
  rw [get_latestSaves] at hget
  exact id_of_lastOf saves hget

theorem length_latestSaves :
    (latestSaves saves).values.length = (saves.map StampedSave.id).dedup.length := by
  rw [← List.length_map StampedSave.id, ids_latestSaves]
  refine List.Perm.length_eq ((List.perm_ext_iff_of_nodup (latestSaves saves).nodup
    (List.nodup_dedup _)).mpr fun runId => ?_)
  rw [List.mem_dedup, ← Dict.keys, Dict.mem_keys_iff]
  simp only [get_latestSaves, ← Option.isSome_iff_exists, History.lastOf, List.find?_isSome,
    List.mem_reverse, decide_eq_true_eq, List.mem_map]

variable {saves}

/-- Different runs have different latest times. -/
theorem latestSaves_now_injective (hdistinct : (saves.map StampedSave.now).Nodup)
    {a b : StampedSave V P} (ha : a ∈ (latestSaves saves).values)
    (hb : b ∈ (latestSaves saves).values) (h : a.now = b.now) : a = b :=
  List.inj_on_of_nodup_map hdistinct (lastOf_mem saves ((mem_latestSaves saves a).mp ha))
    (lastOf_mem saves ((mem_latestSaves saves b).mp hb)) h

end Latest

/-- `sorted` by a key, in reverse. -/
theorem pairwise_sorted {R K : Type} [LinearOrder K] (key : R → K) (rows : List R) :
    (rows.mergeSort fun a b => key b ≤ key a).Pairwise fun a b => key b ≤ key a := by
  have hsorted : (rows.mergeSort fun a b => key b ≤ key a).Pairwise
      fun a b => decide (key b ≤ key a) = true := by
    refine List.pairwise_mergeSort (fun a b c hab hbc => ?_) (fun a b => ?_) rows
    · simp only [decide_eq_true_eq] at hab hbc ⊢
      exact hbc.trans hab
    · simpa using le_total (key b) (key a)
  exact hsorted.imp of_decide_eq_true

/-- The latest saves, newest first. -/
def newestFirst (saves : List (StampedSave V P)) : List (StampedSave V P) :=
  (latestSaves saves).values.mergeSort fun a b => b.now ≤ a.now

section Sorted
variable {saves : List (StampedSave V P)}

theorem newestFirst_perm (saves : List (StampedSave V P)) :
    (newestFirst saves).Perm (latestSaves saves).values :=
  List.mergeSort_perm _ _

theorem newestFirst_pairwise (saves : List (StampedSave V P)) :
    (newestFirst saves).Pairwise fun a b => b.now ≤ a.now :=
  pairwise_sorted StampedSave.now _

theorem newestFirst_strict (hdistinct : (saves.map StampedSave.now).Nodup) :
    (newestFirst saves).Pairwise fun a b => b.now < a.now := by
  have hnodup : (newestFirst saves).Nodup := by
    have hids := (latestSaves saves).nodup
    rw [← Dict.keys, ← ids_latestSaves] at hids
    exact (newestFirst_perm saves).nodup_iff.mpr hids.of_map
  refine List.Pairwise.imp_of_mem (fun {a b} ha hb h => ?_)
    (hnodup.and (newestFirst_pairwise saves))
  refine lt_of_le_of_ne h.2 fun heq => h.1 ?_
  exact latestSaves_now_injective hdistinct ((newestFirst_perm saves).mem_iff.mp ha)
    ((newestFirst_perm saves).mem_iff.mp hb) heq.symm

/-- SPEC: cut at the limit, they are the most recent runs. -/
theorem newest_take (hdistinct : (saves.map StampedSave.now).Nodup) (limit : ℕ) :
    Newest saves limit ((newestFirst saves).take limit) := by
  have hstrict := newestFirst_strict hdistinct
  have hmem : ∀ s, s ∈ newestFirst saves ↔ History.lastOf StampedSave.id saves s.id = some s :=
    fun s => (newestFirst_perm saves).mem_iff.trans (mem_latestSaves saves s)
  refine ⟨fun s hs => (hmem s).mp (List.mem_of_mem_take hs), ?_,
    hstrict.sublist (List.take_sublist _ _), ?_, fun s hs hno r hr => ?_⟩
  · have hids : ((newestFirst saves).map StampedSave.id).Nodup := by
      rw [((newestFirst_perm saves).map _).nodup_iff, ids_latestSaves]
      exact (latestSaves saves).nodup
    exact hids.sublist ((List.take_sublist _ _).map _)
  · rw [List.length_take, (newestFirst_perm saves).length_eq, length_latestSaves]
  · -- what the cut drops stands after what it keeps
    rw [← List.take_append_drop limit (newestFirst saves), List.pairwise_append] at hstrict
    have hall := (hmem s).mpr hs
    rw [← List.take_append_drop limit (newestFirst saves), List.mem_append] at hall
    exact hstrict.2.2 r hr s (hall.resolve_left hno)

/-- Rows that are the latest saves' and descend like them stand in their order. -/
theorem rows_eq {R K : Type} [LinearOrder K] (hdistinct : (saves.map StampedSave.now).Nodup)
    {row : StampedSave V P → R} {key : R → K}
    (hkey : ∀ a b, key (row a) ≤ key (row b) ↔ a.now ≤ b.now) {rows : List R}
    (hperm : rows.Perm ((latestSaves saves).values.map row))
    (hsorted : rows.Pairwise fun a b => key b ≤ key a) : rows = (newestFirst saves).map row := by
  have hperm' := hperm.trans ((newestFirst_perm saves).symm.map row)
  refine List.Perm.eq_of_pairwise ?_ hsorted ?_ hperm'
  · intro a b ha hb hab hba
    obtain ⟨s, hs, rfl⟩ := List.mem_map.mp (hperm.mem_iff.mp ha)
    obtain ⟨t, ht, rfl⟩ := List.mem_map.mp hb
    rw [hkey] at hab hba
    rw [latestSaves_now_injective hdistinct hs ((newestFirst_perm saves).mem_iff.mp ht)
      (le_antisymm hba hab)]
  · rw [List.pairwise_map]
    exact (newestFirst_pairwise saves).imp fun h => (hkey _ _).mpr h

/-- A dictionary that holds a row for every latest save. -/
theorem values_perm {R : Type} {d : Dict String R} {row : StampedSave V P → R}
    (h : ∀ runId, d.get runId = (History.lastOf StampedSave.id saves runId).map row) :
    d.values.Perm ((latestSaves saves).values.map row) := by
  have hsame : d.Same ((latestSaves saves).mapValues row) := fun runId => by
    rw [h, Dict.get_mapValues, get_latestSaves]
  have hvalues := hsame.perm.map Prod.snd
  simpa [Dict.values, Dict.mapValues, Function.comp_def] using hvalues

end Sorted

/-! ### The stores after a history -/

section Stores
variable [PyValue V]

/-- STEP: a save leaves its record under its id. -/
theorem StampedMemory.get_saveRun (store : StampedMemory P) (save : StampedSave V P)
    (runId : String) : (store.saveRun save.args save.uuid save.now).1.records.get runId =
      if runId = save.id then some save.record else store.records.get runId :=
  Dict.get_set ..

/-- STEP: a save leaves its row under its id, whether a row was there or not. -/
theorem StampedDatabase.get_saveRun (column : JsonColumn J P) (store : StampedDatabase J)
    (save : StampedSave V P) (runId : String) :
    (store.saveRun column save.args save.uuid save.now).1.runs.get runId =
      if runId = save.id then some (save.row column) else store.runs.get runId := by
  rw [saveRun, Dict.get_set]
  change (if runId = save.id then _ else _) = _
  split_ifs with h
  · rfl
  · cases store.runs.get (save.args.chosenId save.uuid) with
    | none => rfl
    | some run => exact (Dict.get_erase ..).trans (if_neg h)

theorem StampedMemory.get_after (saves : List (StampedSave V P)) (runId : String) :
    (StampedMemory.after saves).records.get runId =
      (History.lastOf StampedSave.id saves runId).map StampedSave.record := by
  induction saves using List.reverseRecOn with
  | nil => rfl
  | append_singleton saves save ih =>
    rw [StampedMemory.after, List.foldl_append, List.foldl_cons, List.foldl_nil, get_saveRun,
      ← StampedMemory.after, ih, History.lastOf_concat]
    split_ifs <;> rfl

theorem StampedDatabase.get_after (column : JsonColumn J P) (saves : List (StampedSave V P))
    (runId : String) : (StampedDatabase.after column saves).runs.get runId =
      (History.lastOf StampedSave.id saves runId).map (StampedSave.row column) := by
  induction saves using List.reverseRecOn with
  | nil => rfl
  | append_singleton saves save ih =>
    rw [StampedDatabase.after, List.foldl_append, List.foldl_cons, List.foldl_nil, get_saveRun,
      ← StampedDatabase.after, ih, History.lastOf_concat]
    split_ifs <;> rfl

/-- EXACT (listing): after any history of saves at distinct times both stores list the most recent
    runs, newest first and each once, up to the limit; and the texts of the stamps are ordered like
    the times. -/
theorem listings_agree (column : JsonColumn J P) (text : Timestamp → String)
    (saves : List (StampedSave V P)) (hdistinct : (saves.map StampedSave.now).Nodup) (limit : ℕ) :
    (∃ recent, Newest saves limit recent ∧
      (StampedMemory.after saves).listRuns limit =
        recent.map (StampedSave.summary fun t => t.1.isoformat) ∧
      ∀ out, (StampedDatabase.after column saves).Lists text limit out ↔
        out = recent.map (StampedSave.summary text)) ∧
    ∀ s t : Timestamp, s.1.isoformat < t.1.isoformat ↔ s < t := by
  have horder : ∀ s t : Timestamp, s.1.isoformat < t.1.isoformat ↔ s < t :=
    fun s t => Datetime.isoformat_lt_iff s.2 t.2
  refine ⟨⟨_, newest_take hdistinct limit, ?_, fun out => ?_⟩, horder⟩
  · have hkey : ∀ a b : StampedSave V P,
        a.record.createdAt ≤ b.record.createdAt ↔ a.now ≤ b.now := by
      intro a b
      rw [← not_lt, ← not_lt]
      exact not_congr (horder b.now a.now)
    have hrows := rows_eq hdistinct hkey
      ((List.mergeSort_perm _ _).trans (values_perm (StampedMemory.get_after saves)))
      (pairwise_sorted StampedRecord.createdAt _)
    rw [StampedMemory.listRuns, hrows, ← List.map_take, List.map_map]
    rfl
  · have hperm := values_perm (StampedDatabase.get_after column saves)
    constructor
    · rintro ⟨runs, hruns, hsorted, rfl⟩
      have hkey : ∀ a b : StampedSave V P,
          (a.row column).createdAt ≤ (b.row column).createdAt ↔ a.now ≤ b.now :=
        fun _ _ => Iff.rfl
      have hrows := rows_eq hdistinct hkey (hruns.trans hperm) hsorted
      rw [hrows, ← List.map_take, List.map_map]
      rfl
    · rintro rfl
      refine ⟨_, ((newestFirst_perm saves).map _).trans hperm.symm, ?_, ?_⟩
      · rw [List.pairwise_map]
        exact newestFirst_pairwise saves
      · rw [← List.map_take, List.map_map]
        rfl

end Stores

/-- Two runs, the first at a full second, and a rerun of the first. -/
def rerunSaves : List (StampedSave String Unit) :=
  [{ args := { workflowName := "etl", yamlDefinition := "", statuses := Dict.empty,
               runId := some "r1" }
     uuid := "u1"
     now := ⟨{ year := 2025, month := 6, day := 2, hour := 9 }, by decide⟩ },
   { args := { workflowName := "report", yamlDefinition := "", statuses := Dict.empty }
     uuid := "u2"
     now := ⟨{ year := 2025, month := 6, day := 2, hour := 9, microsecond := 1 }, by decide⟩ },
   { args := { workflowName := "etl", yamlDefinition := "", statuses := Dict.empty
               status := "failed", runId := some "r1" }
     uuid := "u3"
     now := ⟨{ year := 2025, month := 6, day := 2, hour := 9, second := 1 }, by decide⟩ }]

theorem rerun_listings_agree : ∃ recent, Newest rerunSaves 1 recent ∧
    (StampedMemory.after rerunSaves).listRuns 1 =
      recent.map (StampedSave.summary fun t => t.1.isoformat) ∧
    ∀ out, (StampedDatabase.after .plain rerunSaves).Lists (fun t => t.1.isoformat) 1 out ↔
      out = recent.map (StampedSave.summary fun t => t.1.isoformat) :=
  (listings_agree JsonColumn.plain (fun t => t.1.isoformat) rerunSaves (by decide) 1).1

end WorkflowEngine
