import WorkflowEngine.Service.Archive
import WorkflowEngine.Service.Pinning
import WorkflowEngine.Runs.Reference

/-! Runs can be repeated.

    All executions under one run id are of one workflow, whether they come from a request, from the
    worker or from a rerun. Where the tasks look at their ancestors' results only, they all end in the
    reference of that workflow. So a redelivered message or a rerun saves what is already there. -/

namespace WorkflowEngine
open Schemes

variable {D P V J : Type} {lib : YamlLibrary D P}

/-! ### Equal records -/

/-- The same records of the steps; the dead letters may come in another order. -/
structure RunState.Same (σ σ' : RunState V P) : Prop where
  statuses : σ.statuses.Same σ'.statuses
  results : σ.results.Same σ'.results
  errors : σ.errors.Same σ'.errors
  retryCounts : σ.retryCounts.Same σ'.retryCounts
  deadLetters : σ.deadLetters.Perm σ'.deadLetters

/-- The overall status looks at which statuses there are. -/
theorem RunState.Same.overallStatus {σ σ' : RunState V P} (h : σ.Same σ') :
    σ.overallStatus = σ'.overallStatus := by
  have hmem : ∀ status, status ∈ σ.statuses.values ↔ status ∈ σ'.statuses.values := by
    intro status
    rw [Dict.mem_values_iff, Dict.mem_values_iff]
    exact exists_congr fun id => by rw [h.statuses id]
  unfold RunState.overallStatus
  simp only [hmem]

/-- What a later execution of a run has in common with an earlier one; the text may be another
    writing of the same definition. -/
structure RunRecord.Repeats (record record' : RunRecord P) : Prop where
  workflowName : record.workflowName = record'.workflowName
  status : record.status = record'.status
  stepStatuses : record.stepStatuses.Same record'.stepStatuses
  results : record.results.Same record'.results
  errors : record.errors.Same record'.errors
  taskNames : record.taskNames.Same record'.taskNames
  deadLetters : record.deadLetters.Perm record'.deadLetters
  versionHash : record.versionHash = record'.versionHash

variable [PyValue V]

/-- An execution that repeats another one. -/
structure FinishedRun.Repeats (x y : FinishedRun V P) : Prop where
  config : x.executor.config = y.executor.config
  versionHash : x.versionHash = y.versionHash
  records : x.records.Same y.records

/-- Either store shows a repeated execution as it showed the first one. -/
theorem FinishedRun.Repeats.shown {column : JsonColumn J P}
    (hjson : ∀ letters, column.load (column.dump letters) = letters) {x y : FinishedRun V P}
    (h : x.Repeats y) (store store' : RunStore P J) (kind : ∀ args : SaveArgs V P, ∀ id,
      store.shown column args id = store'.shown column args id) (id : String) :
    (store.shown column x.args id).Repeats (store'.shown column y.args id) := by
  have hname : x.args.workflowName = y.args.workflowName :=
    congrArg WorkflowConfig.name h.config
  have hstatus : x.args.status = y.args.status :=
    congrArg OverallStatus.text h.records.overallStatus
  have htasks : x.args.taskNames = y.args.taskNames := by
    rw [FinishedRun.args, FinishedRun.args, h.config]
  rw [kind]
  cases store' with
  | memory store' =>
    refine ⟨hname, hstatus, h.records.statuses, fun k => ?_, h.records.errors, fun k => ?_,
      h.records.deadLetters, h.versionHash⟩
    · change (x.records.results.mapValues PyValue.str).get k =
        (y.records.results.mapValues PyValue.str).get k
      rw [Dict.get_mapValues, Dict.get_mapValues, h.records.results]
    · change (x.args.taskNames.getD Dict.empty).get k = (y.args.taskNames.getD Dict.empty).get k
      rw [htasks]
  | database store' =>
    -- a column of a step's row is read off the step's status and one of the mappings
    have hcolumn : ∀ {W : Type} (f : StepExecution → Option W) (k : String),
        (∀ status, f (x.args.stepRow id k status) = f (y.args.stepRow id k status)) →
        (stepMap f (x.args.stepRows id)).get k = (stepMap f (y.args.stepRows id)).get k := by
      intro W f k hf
      rw [stepMap_get, stepMap_get, show x.args.statuses.get k = y.args.statuses.get k from
        h.records.statuses k]
      simp only [hf]
    refine ⟨hname, hstatus, fun k => hcolumn _ k fun _ => rfl, fun k => hcolumn _ k fun status => ?_,
      fun k => hcolumn _ k fun status => ?_, fun k => hcolumn _ k fun status => ?_, ?_,
      h.versionHash⟩
    · rw [stepRow_result, stepRow_result]
      exact congrArg (fun v : Option V => truthy (v.map PyValue.str)) (h.records.results k)
    · exact congrArg truthy (h.records.errors k)
    · rw [SaveArgs.stepRow, SaveArgs.stepRow, htasks]
    · change (column.load (column.dump _)).Perm (column.load (column.dump _))
      rw [hjson, hjson]
      exact h.records.deadLetters

/-! ### Executions of the service -/

/-- Every task that the service has looks at its step's ancestors only. -/
def Service.LocalTasks (lib : YamlLibrary D P) (s : Service V P J) : Prop :=
  ∀ text config, lib.loadWorkflowYaml text = .ok config →
    ({ config := config, taskRegistry := s.taskRegistry } : WorkflowExecutor V P).LocalTasks

/-- Hashes do not collide. -/
def YamlLibrary.Collisionless (lib : YamlLibrary D P) : Prop :=
  ∀ d d' hash, lib.digest d = .ok hash → lib.digest d' = .ok hash → d = d'

section Executions
variable {s : Service V P J} {w w' : World lib V J}

/-- Two executions of one workflow end alike. -/
theorem Execution.Standard.same (hlocal : s.LocalTasks lib) {x y : Execution lib V}
    (hx : x.Standard s) (hy : y.Standard s) (hconfig : x.executor.config = y.executor.config) :
    x.records.Same y.records := by
  -- the plain executor of the workflow, whose reference both of them match
  let E : WorkflowExecutor V P := { config := x.executor.config, taskRegistry := s.taskRegistry }
  have hdag : Acyclic E.config.steps := acyclic_of_accepted x.accepted
  have hE : E.LocalTasks := hlocal _ _ x.loaded
  have hre : x.executor.Reorders E := ⟨.refl _, hx.registry, hx.typed⟩
  have hre' : y.executor.Reorders E :=
    ⟨by rw [← hconfig], hy.registry, hy.typed.trans (by rw [← hconfig]; rfl)⟩
  have hmatch := WorkflowExecutor.matchesReference hE hdag (WorkflowExecutor.wf_ancestor hdag) hre
    x.finished
  have hmatch' := WorkflowExecutor.matchesReference hE hdag (WorkflowExecutor.wf_ancestor hdag) hre'
    y.finished
  exact ⟨fun k => (hmatch.statuses k).trans (hmatch'.statuses k).symm,
    fun k => (hmatch.results k).trans (hmatch'.results k).symm,
    fun k => (hmatch.errors k).trans (hmatch'.errors k).symm,
    fun k => (hmatch.retryCounts k).trans (hmatch'.retryCounts k).symm,
    hmatch.deadLetters.trans hmatch'.deadLetters.symm⟩

/-- Every execution is one of the service's. -/
theorem standard_lasts (s : Service V P J) :
    Lasts s fun w : World lib V J => ∀ x ∈ w.executed, x.Standard s where
  version _ h := h
  queue _ h := h
  ran hx h := fun y hy => by
    rcases List.mem_append.mp hy with hy | hy
    · exact h y hy
    · rw [List.mem_singleton.mp hy]
      exact hx
  run _ h := h
  events _ h := h
  schedules _ h := h
  webhooks _ h := h

/-- The executions so far, and what kind of run store there is, do not change. -/
theorem executed_lasts (s : Service V P J) (w : World lib V J) :
    Lasts s fun w' => (∀ x ∈ w.executed, x ∈ w'.executed) ∧ ∀ (args : SaveArgs V P) (id : String),
      w'.runs.shown s.column args id = w.runs.shown s.column args id where
  version _ h := h
  queue _ h := h
  ran _ h := ⟨fun x hx => List.mem_append_left _ (h.1 x hx), h.2⟩
  run _ h := ⟨h.1, fun args id => RunStore.shown_saveRun.trans (h.2 args id)⟩
  events _ h := ⟨h.1, fun args id => RunStore.shown_saveRun.trans (h.2 args id)⟩
  schedules _ h := h
  webhooks _ h := h

/-- Executions under one run id repeat each other. -/
theorem World.Bound.repeats (h : w.Bound s) (hlocal : s.LocalTasks lib)
    (collisionless : lib.Collisionless) (hstandard : ∀ x ∈ w.executed, x.Standard s)
    {x y : Execution lib V} (hx : x ∈ w.executed) (hy : y ∈ w.executed) (hid : x.id = y.id) :
    x.toFinishedRun.Repeats y.toFinishedRun := by
  have hux : w.Uses s x.id x.yamlDefinition x.versionHash := .executed hx
  have huy : w.Uses s x.id y.yamlDefinition y.versionHash := hid ▸ .executed hy
  have hagree := h.agree _ _ _ _ _ hux huy
  obtain ⟨hash, hhash, htext, -⟩ := h.pins _ _ _ hux
  obtain ⟨hash', hhash', htext', -⟩ := h.pins _ _ _ huy
  obtain rfl := Option.some.inj (hhash.symm.trans (hagree.trans hhash'))
  have hconfig := config_eq_of_hash collisionless htext htext'
  exact ⟨hconfig, hagree, (hstandard x hx).same hlocal (hstandard y hy) hconfig⟩

end Executions

/-- CORRECT (repeatable): from empty stores, whatever requests are served and whatever fails, all
    executions under one run id end alike, and whenever the run is stored, its record repeats the one
    that was stored first. -/
theorem runs_repeatable (s : Service V P J) (b : Backend) (arrivals : List (Arrival V P))
    (hdrawn : Drawn arrivals) (collisionless : lib.Collisionless) (hlocal : s.LocalTasks lib)
    (hjson : ∀ letters, s.column.load (s.column.dump letters) = letters) :
    (∀ x ∈ ((World.booted lib V J b).after s arrivals).executed,
      ∀ y ∈ ((World.booted lib V J b).after s arrivals).executed, x.id = y.id →
        x.toFinishedRun.Repeats y.toFinishedRun) ∧
    ∀ pre post, arrivals = pre ++ post → ∀ id record record',
      ((World.booted lib V J b).after s pre).runs.getRun s.column id = some record →
      ((World.booted lib V J b).after s arrivals).runs.getRun s.column id = some record' →
      record.Repeats record' := by
  obtain ⟨hbound, -⟩ : ((World.booted lib V J b).after s arrivals).Bound s ∧ _ :=
    bound_after s (World.booted lib V J b) b b hdrawn
  have hstandard : ∀ x ∈ ((World.booted lib V J b).after s arrivals).executed, x.Standard s :=
    (standard_lasts s).after (fun x hx => absurd hx List.not_mem_nil) arrivals
  have hrepeats : ∀ x ∈ ((World.booted lib V J b).after s arrivals).executed,
      ∀ y ∈ ((World.booted lib V J b).after s arrivals).executed, x.id = y.id →
        x.toFinishedRun.Repeats y.toFinishedRun :=
    fun x hx y hy hid => hbound.repeats hlocal collisionless hstandard hx hy hid
  refine ⟨hrepeats, ?_⟩
  rintro pre post rfl id record record' hget hget'
  obtain ⟨x, hx, hxid, rfl⟩ := (recorded_after s b pre).record id record hget
  obtain ⟨y, hy, hyid, rfl⟩ := (recorded_after s b (pre ++ post)).record id record' hget'
  obtain ⟨hkept, hkind⟩ := (executed_lasts s ((World.booted lib V J b).after s pre)).after
    ⟨fun _ hx => hx, fun _ _ => rfl⟩ post
  rw [← World.after_append] at hkept hkind
  exact (hrepeats x (hkept x hx) y hy (hxid.trans hyid.symm)).shown hjson _ _
    (fun args id => (hkind args id).symm) id

/-! ### An example -/

theorem etlService_local : etlService.LocalTasks etlLibrary := by
  intro text config hload
  have hconfig : config = WorkflowExecutor.etl.config := by
    unfold YamlLibrary.loadWorkflowYaml YamlLibrary.parse at hload
    by_cases htext : text = "etl"
    · subst htext
      exact (Except.ok.inj hload).symm
    · have hno : etlLibrary.safeLoad text = .error (.malformed "while parsing") := if_neg htext
      rw [hno] at hload
      exact absurd hload (by simp [bind, Except.bind])
  rw [hconfig]
  exact WorkflowExecutor.etl_localTasks

/-- The requests come with an id each, so no id is drawn twice. -/
theorem drawn_lettered {requests : List (Char × ServiceRequest)}
    (h : (requests.map Prod.fst).Nodup) :
    Drawn (requests.map fun p => (⟨p.2, lettered (String.singleton p.1)⟩ : Arrival String Unit)) where
  nonempty x hx k d := by
    obtain ⟨p, -, rfl⟩ := List.mem_map.mp hx
    have hchars : ((lettered (String.singleton p.1) k).uuid d).toList ≠ [] := by
      rw [lettered_uuid]
      simp
    exact fun he => hchars (by rw [he]; rfl)
  rounds x hx k k' d d' he := by
    obtain ⟨p, -, rfl⟩ := List.mem_map.mp hx
    have hletter : ∀ d : Draw, d.letter.toList.length = 1 := by rintro (_ | _) <;> rfl
    have hlength := congrArg (fun t : String => t.toList.length) he
    simp only [lettered_uuid, List.length_append, hletter, List.length_replicate] at hlength
    omega
  apart := by
    refine List.pairwise_map.mpr ((List.pairwise_map.mp h).imp fun hne k k' d d' he => hne ?_)
    have hhead := congrArg (fun t : String => t.toList.head?) he
    simpa [lettered_uuid] using hhead

/-- A run is enqueued, and its message is delivered twice. -/
noncomputable def redelivered : List (Arrival String Unit) :=
  [('1', ServiceRequest.run "etl" true none), ('2', .deliver 0), ('3', .deliver 0)].map
    fun p => ⟨p.2, lettered (String.singleton p.1)⟩

/-- Both deliveries executed the run, and ended alike. -/
theorem redelivered_repeats : ∃ x y,
    ((World.booted etlLibrary String _ .memory).after etlService redelivered).executed = [x, y] ∧
      x.toFinishedRun.Repeats y.toFinishedRun := by
  obtain ⟨x, y, hexecuted, hid⟩ : ∃ x y,
      ((World.booted etlLibrary String _ .memory).after etlService redelivered).executed = [x, y] ∧
        x.id = y.id := ⟨_, _, rfl, rfl⟩
  refine ⟨x, y, hexecuted, (runs_repeatable etlService .memory redelivered
    (drawn_lettered (by decide)) (fun _ _ _ _ _ => rfl) etlService_local fun _ => rfl).1 x ?_ y ?_ hid⟩
  · rw [hexecuted]
    exact List.mem_pair.mpr (.inl rfl)
  · rw [hexecuted]
    exact List.mem_pair.mpr (.inr rfl)

end WorkflowEngine
