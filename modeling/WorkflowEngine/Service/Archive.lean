import WorkflowEngine.Service.Requests

/-! What stays in the stores.

    Every write of the service is one of a few kinds, so a property that each kind keeps holds after
    every sequence of requests (`Lasts`). One such property is that the run store shows executions:
    whatever was served and whatever failed, a stored record is that of an execution under its id
    that has returned. -/

namespace WorkflowEngine
open Schemes

variable {D P V J : Type} {lib : YamlLibrary D P} [PyValue V]

/-! ### Properties that last -/

/-- The service runs its own tasks, and `typed_io` is as the definition has it. -/
structure Execution.Standard (s : Service V P J) (x : Execution lib V) : Prop where
  registry : x.executor.taskRegistry = s.taskRegistry
  typed : x.executor.typed = x.executor.config.typedIo

/-- A call that gives neither a registry nor `typed_io`. -/
structure RunCall.Standard (call : RunCall V P) : Prop where
  registry : call.taskRegistry = none
  typed : call.typedIo = none

theorem RunCall.Standard.runs {s : Service V P J} {c : Circumstances V P} {call : RunCall V P}
    (h : call.Standard) {uuid text : String} {hash : Option String} {x : Execution lib V}
    (runs : (call.named uuid).Runs s c text hash x) : x.Standard s := by
  obtain ⟨trace, runId, hnamed⟩ := named_eq call uuid
  have hexecutor := runs.executor
  rw [hnamed, RunCall.executor, h.registry, h.typed] at hexecutor
  refine ⟨by rw [hexecutor], ?_⟩
  rw [WorkflowExecutor.typed, hexecutor]
  rfl

/-- Each kind of write of a dispatch and of the worker keeps `I`. Events are saved only for the run
    that was saved just before. -/
structure Endures (s : Service V P J) (I : World lib V J → Prop) : Prop where
  version : ∀ {w} (text : String), I w → I (w.withVersion text)
  queue : ∀ {w} (m : Message), I w → I { w with queue := w.queue ++ [m] }
  ran : ∀ {w} {x : Execution lib V}, x.Standard s → I w → I (w.ran x)
  run : ∀ {w} {x : Execution lib V}, x ∈ w.executed → I w → I (w.recordRun s x.toFinishedRun)
  events : ∀ {w} {x : Execution lib V}, x ∈ w.executed → I w →
    I ((w.recordRun s x.toFinishedRun).recordEvents x.toFinishedRun)

/-- Every kind of write keeps `I`. -/
structure Lasts (s : Service V P J) (I : World lib V J → Prop) : Prop extends Endures s I where
  schedules : ∀ {w} (schedules : Schedules), I w → I { w with schedules := schedules }
  webhooks : ∀ {w} (webhooks : Dict String WebhookTrigger), I w → I { w with webhooks := webhooks }

namespace Endures
variable {s : Service V P J} {c : Circumstances V P} {I : World lib V J → Prop}

theorem pin (h : Endures s I) (call : RunCall V P) (text : String) {w : World lib V J} (hw : I w) :
    I (call.pin w text) := by
  unfold RunCall.pin
  split_ifs
  · exact h.version text hw
  · exact hw

theorem runWorkflow (h : Endures s I) {call : RunCall V P} (hcall : call.Standard) :
    Prog.Keeps I (runWorkflow s c call : Program lib V J (RunResult P)) := by
  intro w hw
  have hleaves := runWorkflow_cases s c call w
  generalize (WorkflowEngine.runWorkflow s c call w).1 = r at hleaves
  generalize (WorkflowEngine.runWorkflow s c call w).2 = w' at hleaves
  have hran : ∀ {text : String} {hash : Option String} {x : Execution lib V},
      (call.named (c.uuid .trace)).Runs s c text hash x →
      I (((call.named (c.uuid .trace)).pin w text).ran x) :=
    fun runs => h.ran (hcall.runs runs) (h.pin _ _ hw)
  have hmem : ∀ (text : String) (x : Execution lib V),
      x ∈ (((call.named (c.uuid .trace)).pin w text).ran x).executed :=
    fun text x => List.mem_append_right _ (List.mem_singleton_self x)
  cases hleaves with
  | unpinnable | unhashable => exact hw
  | @rejected text => exact h.pin _ text hw
  | unsaved _ _ runs => exact hran runs
  | @unrecorded text _ x _ _ _ runs => exact h.run (hmem text x) (hran runs)
  | @finished text _ x _ _ _ runs recorded =>
    subst recorded
    split_ifs
    · exact h.events (hmem text x) (hran runs)
    · exact h.run (hmem text x) (hran runs)

theorem dispatch (h : Endures s I) (call : DispatchCall) :
    Prog.Keeps I (dispatch s c call : Program lib V J (DispatchResult P)) := by
  intro w hw
  have hrun : ∀ runId, I (WorkflowEngine.runWorkflow s c (call.runCall s c runId) w).2 :=
    fun runId => h.runWorkflow ⟨rfl, rfl⟩ w hw
  have hleaves := dispatch_cases s c call w
  generalize (WorkflowEngine.dispatch s c call w).1 = r at hleaves
  generalize (WorkflowEngine.dispatch s c call w).2 = w' at hleaves
  cases hleaves with
  | unpinned | unhashable | unlocked | locked => exact hw
  | undelivered => exact h.version _ hw
  | enqueued => exact h.queue _ (h.version _ hw)
  | ran | unreleased => exact hrun _

theorem runWorkflowTask (h : Endures s I) (m : Message) :
    Prog.Keeps I (runWorkflowTask s c m : Program lib V J (RunResult P)) :=
  Prog.Keeps.bind (ensureVersion_keeps fun _ hw => h.version _ hw) fun _ =>
    h.runWorkflow ⟨rfl, rfl⟩

end Endures

namespace Lasts
variable {s : Service V P J} {I : World lib V J → Prop}

theorem survives (h : Lasts s I) (cs : ℕ → Circumstances V P) (request : ServiceRequest) :
    Survives s cs request fun _ => I where
  next hw := hw
  claimed _ hw := h.schedules _ hw
  store _ hw := h.schedules _ hw
  webhooks _ hw := h.webhooks _ hw
  fresh _ _ hw := h.dispatch _ _ hw
  rerun _ _ hw := h.dispatch _ _ hw
  due _ hw := h.runWorkflow ⟨rfl, rfl⟩ _ hw
  delivered _ hw := h.runWorkflowTask _ _ hw

theorem serve (h : Lasts s I) (cs : ℕ → Circumstances V P) (request : ServiceRequest) :
    Prog.Keeps I (serve s cs request : Program lib V J (Answer P)) := fun w hw =>
  (h.survives cs request).serve w hw |>.choose_spec

/-- RUN: what lasts holds after every sequence of requests. -/
theorem after (h : Lasts s I) {w : World lib V J} (hw : I w) (arrivals : List (Arrival V P)) :
    I (w.after s arrivals) := by
  induction arrivals using List.reverseRecOn with
  | nil => exact hw
  | append_singleton past x ih =>
    rw [World.after_concat]
    exact h.serve x.circumstances x.request _ ih

end Lasts

/-! ### The run store shows executions -/

/-- Every stored record is that of an execution under its id. -/
structure World.Recorded (s : Service V P J) (w : World lib V J) : Prop where
  sound : w.runs.Sound
  record : ∀ id record, w.runs.getRun s.column id = some record →
    ∃ x ∈ w.executed, x.id = id ∧ record = w.runs.shown s.column x.args id

section Recorded
variable {s : Service V P J} {w w' : World lib V J}

theorem World.Recorded.extend (h : w.Recorded s) (runs : w'.runs = w.runs)
    (executed : ∀ x ∈ w.executed, x ∈ w'.executed) : w'.Recorded s where
  sound := by rw [runs]; exact h.sound
  record id record hget := by
    rw [runs] at hget ⊢
    obtain ⟨x, hx, hid, hrecord⟩ := h.record id record hget
    exact ⟨x, executed x hx, hid, hrecord⟩

theorem World.Recorded.recordRun (h : w.Recorded s) {x : Execution lib V} (hx : x ∈ w.executed) :
    (w.recordRun s x.toFinishedRun).Recorded s where
  sound := h.sound.saveRun
  record id record hget := by
    rw [World.recordRun] at hget ⊢
    dsimp only at hget ⊢
    rw [RunStore.getRun_saveRun h.sound] at hget
    split_ifs at hget with hid
    · exact ⟨x, hx, hid.symm, (Option.some.inj hget).symm.trans RunStore.shown_saveRun.symm⟩
    · obtain ⟨y, hy, hid, hrecord⟩ := h.record id record hget
      exact ⟨y, hy, hid, hrecord.trans RunStore.shown_saveRun.symm⟩

theorem recorded_lasts (s : Service V P J) :
    Lasts s (World.Recorded s : World lib V J → Prop) where
  version _ h := h.extend rfl fun _ hx => hx
  queue _ h := h.extend rfl fun _ hx => hx
  ran _ h := h.extend rfl fun _ hx => List.mem_append_left _ hx
  run hx h := h.recordRun hx
  events hx h := (h.recordRun hx).extend rfl fun _ hx => hx
  schedules _ h := h.extend rfl fun _ hx => hx
  webhooks _ h := h.extend rfl fun _ hx => hx

end Recorded

/-! ### From the first request on -/

/-- An empty table pins nothing. -/
theorem pinned_empty (lib : YamlLibrary D P) : ∀ hash v,
    (Dict.empty : Dict String WorkflowVersion).get hash = some v →
      v.contentHash = hash ∧ lib.canonicalYamlHash v.yamlDefinition = .ok hash := by
  simp

/-- `RuntimeServices.in_memory` with the in-memory run store, or `RuntimeServices.database` with the
    database one, before anything is stored. -/
def World.booted (lib : YamlLibrary D P) (V J : Type) [PyValue V] (b : Backend) : World lib V J where
  runs := .empty b
  versions := { backend := b, pinned := pinned_empty lib }
  events := .empty b
  schedules := { store := { sharing := match b with
    | .memory => .live
    | .database => .copies } }

/-- INVARIANT: no record was ever stored that is not of an execution. -/
theorem recorded_after (s : Service V P J) (b : Backend) (arrivals : List (Arrival V P)) :
    ((World.booted lib V J b).after s arrivals).Recorded s := by
  refine (recorded_lasts s).after ⟨RunStore.sound_empty b, fun id record hget => ?_⟩ arrivals
  exact absurd ((RunStore.getRun_empty b id).symm.trans hget) (by simp)

theorem backend_lasts (s : Service V P J) (b : Backend) :
    Lasts s fun w : World lib V J => w.runs.backend = b where
  version _ h := h
  queue _ h := h
  ran _ h := h
  run _ h := RunStore.backend_saveRun.trans h
  events _ h := RunStore.backend_saveRun.trans h
  schedules _ h := h
  webhooks _ h := h

/-- The run store is of the kind it was when the service started. -/
theorem backend_after (s : Service V P J) (b : Backend) (arrivals : List (Arrival V P)) :
    ((World.booted lib V J b).after s arrivals).runs.backend = b :=
  (backend_lasts s b).after (by cases b <;> rfl) arrivals

/-! ### An example -/

/-- One definition, of a step that loads what another one extracts. -/
def etlLibrary : YamlLibrary Unit Unit where
  safeLoad text := if text = "etl" then .ok () else .error (.malformed "while parsing")
  isMapping _ := true
  workflowConfig _ := .ok WorkflowExecutor.etl.config
  digest _ := .ok "e71"
  repr _ := ""
  plainLoad text e h := by
    split_ifs at h
    exact absurd (Except.error.inj h) (by simp)
  plainConfig _ _ h := absurd h (by simp)
  plainDigest _ _ h := absurd h (by simp)

def etlService : Service String Unit (List (DeadLetter Unit)) :=
  { quiet with taskRegistry := WorkflowExecutor.etl.taskRegistry }

theorem etlLibrary_empty (config : WorkflowConfig Unit) :
    etlLibrary.loadWorkflowYaml "" ≠ .ok config := by
  have hload : etlLibrary.loadWorkflowYaml "" =
      .error (.validation "Invalid YAML: while parsing") := rfl
  rw [hload]
  simp

/-- The definition was run. -/
noncomputable def ranEtl (tag : String) : Arrival String Unit :=
  ⟨.run "etl" false none, fun _ => calm tag⟩

end WorkflowEngine
