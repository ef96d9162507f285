import WorkflowEngine.Service.Archive
import WorkflowEngine.Service.Tracing
import WorkflowEngine.Service.Idempotency
import WorkflowEngine.Schemes.Agreement

/-! The service over either kind of stores.

    Each store is in memory or in the database. Two worlds are alike when their stores show the same
    runs, each as its kind of store keeps them, and the same of everything else. A request is
    answered alike in alike worlds and leaves them alike, so no sequence of requests can tell the
    stores apart, as long as the database lists its schedules in the order of their registration
    (which its query does not promise: what is due is dispatched in the order listed). The in-memory
    schedule store hands out its own records and the database copies of them; a tick makes nothing
    of the difference, since it takes up every due schedule before that schedule is advanced. -/

namespace WorkflowEngine
open Schemes Prog

variable {D P V J : Type} {lib : YamlLibrary D P}

/-! ### Alike worlds -/

/-- Stores of kinds `b` and `b'` show one run as `r` and `r'`. -/
def SameRun (column : JsonColumn J P) (b b' : Backend) (r r' : RunRecord P) : Prop :=
  ∃ kept, b.Keeps column kept r ∧ b'.Keeps column kept r'

/-- Schedule stores with the same schedules. -/
structure ScheduleStore.Alike (store store' : ScheduleStore) : Prop where
  records : store.records = store'.records
  named : store.Named

theorem ScheduleStore.Alike.put {store store' : ScheduleStore} (h : store.Alike store')
    (sched : ScheduledWorkflow) : (store.put sched).Alike (store'.put sched) where
  records := congrArg (fun records => records.set sched.name sched) h.records
  named := h.named.put sched

theorem ScheduleStore.Alike.erase {store store' : ScheduleStore} (h : store.Alike store')
    (name : String) : ({ store with records := store.records.erase name } : ScheduleStore).Alike
      { store' with records := store'.records.erase name } where
  records := congrArg (fun records => records.erase name) h.records
  named name' sched hsched := by
    rw [Dict.get_erase] at hsched
    split_ifs at hsched
    exact h.named name' sched hsched

variable [PyValue V]

/-- The database lists its schedules in the order in which they were registered. -/
def Circumstances.Ordered (c : Circumstances V P) : Prop := ∀ l, c.rows l = l

structure World.Alike (s : Service V P J) (w w' : World lib V J) : Prop where
  runs : ∀ id, Option.Rel (SameRun s.column w.runs.backend w'.runs.backend)
    (w.runs.getRun s.column id) (w'.runs.getRun s.column id)
  sound : w.runs.Sound ∧ w'.runs.Sound
  versions : w.versions.versions = w'.versions.versions
  events : ∀ id, w.events.list id = w'.events.list id
  schedules : w.schedules.store.Alike w'.schedules.store
  idempotency : w.schedules.idempotency = w'.schedules.idempotency
  webhooks : w.webhooks = w'.webhooks
  queue : w.queue = w'.queue
  named : ∀ m ∈ w.queue, m.runId ≠ some ""
  executed : w.executed = w'.executed
  saved : w.saved = w'.saved

section Changes
variable {s : Service V P J} {w w' : World lib V J}

theorem World.Alike.recordRun (h : w.Alike s w') (x : FinishedRun V P) :
    (w.recordRun s x).Alike s (w'.recordRun s x) where
  runs id := by
    rw [World.recordRun, World.recordRun]
    dsimp only
    rw [RunStore.getRun_saveRun h.sound.1, RunStore.getRun_saveRun h.sound.2]
    split_ifs
    · refine .some ⟨x.args.record id, ?_, ?_⟩
      · rw [RunStore.backend_saveRun]
        exact w.runs.keeps_shown x.covered s.column id
      · rw [RunStore.backend_saveRun]
        exact w'.runs.keeps_shown x.covered s.column id
    · rw [RunStore.backend_saveRun, RunStore.backend_saveRun]
      exact h.runs id
  sound := ⟨h.sound.1.saveRun, h.sound.2.saveRun⟩
  versions := h.versions
  events := h.events
  schedules := h.schedules
  idempotency := h.idempotency
  webhooks := h.webhooks
  queue := h.queue
  named := h.named
  executed := h.executed
  saved := congrArg (· ++ [x.id]) h.saved

theorem World.Alike.recordEvents (h : w.Alike s w') {x : FinishedRun V P} (hx : x.Traced) :
    (w.recordEvents x).Alike s (w'.recordEvents x) :=
  { h with
    events := fun id => by
      rw [World.recordEvents, World.recordEvents]
      dsimp only
      rw [hx.list_save, hx.list_save, h.events] }

theorem World.Alike.ran (h : w.Alike s w') (x : Execution lib V) :
    (w.ran x).Alike s (w'.ran x) :=
  { h with executed := congrArg (· ++ [x]) h.executed }

theorem World.Alike.claimed (h : w.Alike s w') (ns key : String) :
    (w.claimed ns key).Alike s (w'.claimed ns key) :=
  { h with idempotency := by rw [World.claimed, World.claimed, h.idempotency] }

theorem World.Alike.enqueue (h : w.Alike s w') {m : Message} (hm : m.runId ≠ some "") :
    ({ w with queue := w.queue ++ [m] } : World lib V J).Alike s
      { w' with queue := w'.queue ++ [m] } :=
  { h with
    queue := congrArg (· ++ [m]) h.queue
    named := fun m' hm' => by
      rcases List.mem_append.mp hm' with hm' | hm'
      · exact h.named m' hm'
      · rw [List.mem_singleton.mp hm']; exact hm }

theorem World.Alike.setStore (h : w.Alike s w') {store store' : ScheduleStore}
    (hs : store.Alike store') :
    ({ w with schedules := { w.schedules with store := store } } : World lib V J).Alike s
      { w' with schedules := { w'.schedules with store := store' } } :=
  { h with schedules := hs }

/-- The versions after a `put` are those that were there and the new one. -/
theorem World.Alike.setVersions (h : w.Alike s w') {versions versions' : VersionStore lib}
    (hv : versions.versions = versions'.versions) :
    ({ w with versions := versions } : World lib V J).Alike s { w' with versions := versions' } :=
  { h with versions := hv }

end Changes

/-! ### The runner -/

section Runner
variable {s : Service V P J} {c : Circumstances V P} {w w' : World lib V J}

theorem attempt_agree (h : w.Alike s w') (op : Operation) :
    Agree (World.Alike s) Eq (attempt c op w) (attempt c op w') :=
  .lift _ h

theorem definitionOf_agree (h : w.Alike s w') (call : RunCall V P) :
    Agree (World.Alike s) Eq (definitionOf c call w) (definitionOf c call w') := by
  unfold definitionOf
  cases call.versionHash with
  | none => exact .ok rfl h
  | some versionHash =>
    dsimp only
    split_ifs
    · refine (attempt_agree h _).bind_eq fun _ t t' h => ?_
      rw [view_bind_run, view_bind_run, VersionStore.get, VersionStore.get, h.versions]
      cases t'.versions.versions.get versionHash with
      | none => exact .error h
      | some version => exact .ok rfl h
    · exact .error h

/-- The versions that two stores with the same versions have after a `put`. -/
theorem VersionStore.after_congr {store store' : VersionStore lib}
    (h : store.versions = store'.versions) (text : String) :
    (store.after text).versions = (store'.after text).versions := by
  rcases hhash : lib.canonicalYamlHash text with e | hash
  · rw [after_of_error hhash, after_of_error hhash, h]
  · rw [after_of_ok hhash, after_of_ok hhash]
    have hget : store.versions.get hash = store'.versions.get hash := by rw [h]
    unfold add
    split
    · next v hv =>
      split
      · exact h
      · next hnone => exact absurd (hv.symm.trans (hget.trans hnone)) (by simp)
    · next hnone =>
      split
      · next v hv => exact absurd (hv.symm.trans (hget.symm.trans hnone)) (by simp)
      · exact congrArg (fun versions => versions.set hash ⟨hash, text⟩) h

/-- The stores may return different texts, but the same hash. -/
theorem putVersion_agree (h : w.Alike s w') (op : Operation) (text : String) :
    Agree (World.Alike s) (fun v v' : WorkflowVersion => v.contentHash = v'.contentHash)
      (putVersion c op text w) (putVersion c op text w') := by
  unfold putVersion
  rw [view_bind_run, view_bind_run]
  rcases hhash : lib.canonicalYamlHash text with e | hash
  · rw [VersionStore.put_error hhash, VersionStore.put_error hhash]
    exact .error h
  · rw [VersionStore.put_of_hash hhash, VersionStore.put_of_hash hhash, lift_ok_bind_run,
      lift_ok_bind_run]
    have hafter := VersionStore.after_congr h.versions text
    refine (attempt_agree h op).bind_eq fun _ t t' h => ?_
    rw [change_bind_run, change_bind_run]
    refine .ok ?_ (h.setVersions hafter)
    rw [VersionStore.returned_hash, VersionStore.returned_hash]

theorem pinVersion_agree (h : w.Alike s w') (call : RunCall V P) (text : String) :
    Agree (World.Alike s) (fun v v' : Option WorkflowVersion =>
        v.map WorkflowVersion.contentHash = v'.map WorkflowVersion.contentHash)
      (pinVersion c call text w) (pinVersion c call text w') := by
  unfold pinVersion
  split_ifs
  · exact (putVersion_agree h .putVersion text).map fun _ _ hv => congrArg some hv
  · exact .ok rfl h

theorem saveRun_agree (h : w.Alike s w') (x : Execution lib V) :
    Agree (World.Alike s) Eq (saveRun s c x w) (saveRun s c x w') :=
  (attempt_agree h _).bind_eq fun _ _ _ h => .ok rfl (h.recordRun x.toFinishedRun)

theorem saveEvents_agree (h : w.Alike s w') (call : RunCall V P) {x : Execution lib V}
    (hx : x.toFinishedRun.Traced) :
    Agree (World.Alike s) Eq (saveEvents c call x w) (saveEvents c call x w') := by
  unfold saveEvents
  split_ifs
  · exact (attempt_agree h _).bind_eq fun _ _ _ h => .ok rfl (h.recordEvents hx)
  · exact .ok rfl h

/-- A call with a fresh trace gives the same result in alike worlds. -/
theorem runWorkflow_agree (h : w.Alike s w') (hc : c.Drawn) {call : RunCall V P}
    (hcall : call.OwnTrace) :
    Agree (World.Alike s) Eq (runWorkflow s c call w) (runWorkflow s c call w') := by
  unfold runWorkflow RunCall.run
  refine (definitionOf_agree h _).bind_eq fun text t t' h => ?_
  refine (pinVersion_agree h _ text).bind fun v v' t t' hv h => ?_
  have hresult : ∀ x : Execution lib V, (call.named (c.uuid .trace)).result x v =
      (call.named (c.uuid .trace)).result x v' := fun x => by
    rw [RunCall.result, RunCall.result, hv]
  rw [hv]
  rcases execution_cases lib s c (call.named (c.uuid .trace)) text
    ((v'.map WorkflowVersion.contentHash).or (call.named (c.uuid .trace)).versionHash) with
    ⟨x, hx, runs⟩ | ⟨e, hx, -⟩
  · rw [hx, lift_ok_bind_run, lift_ok_bind_run, change_bind_run, change_bind_run]
    have htraced := hcall.traced (hc .trace) runs
    refine (saveRun_agree (h.ran x) x).bind_eq fun _ t t' h => ?_
    refine (saveEvents_agree h _ htraced).bind_eq fun _ t t' h => ?_
    exact .ok (hresult x) h
  · rw [hx]
    exact .error h

end Runner

/-! ### Dispatch -/

section Endpoints
variable {s : Service V P J} {c : Circumstances V P} {w w' : World lib V J}

theorem runInline_agree (h : w.Alike s w') (hc : c.Drawn) (call : DispatchCall) {runId : String}
    (hid : runId ≠ "") :
    Agree (World.Alike s) Eq (runInline s c call runId w) (runInline s c call runId w') :=
  (runWorkflow_agree h hc (call.ownTrace_runCall hid)).map fun _ _ he =>
    congrArg DispatchResult.sync he

theorem enqueue_agree (h : w.Alike s w') (call : DispatchCall) {runId : String} (hid : runId ≠ "") :
    Agree (World.Alike s) Eq (enqueue s c call runId w) (enqueue s c call runId w') := by
  unfold enqueue
  refine (putVersion_agree h _ _).bind fun v v' t t' hv h => ?_
  refine (attempt_agree h _).bind_eq fun _ t t' h => ?_
  rw [hv, change_bind_run, change_bind_run]
  exact .ok rfl (h.enqueue fun he => hid (Option.some.inj he))

theorem runLocked_agree (h : w.Alike s w') (hc : c.Drawn) (call : DispatchCall) {runId : String}
    (hid : runId ≠ "") :
    Agree (World.Alike s) Eq (runLocked s c call runId w) (runLocked s c call runId w') := by
  unfold runLocked
  refine Agree.bind_eq (.lift _ h) fun _ t t' h => ?_
  refine (attempt_agree h _).bind_eq fun _ t t' h => ?_
  cases c.held with
  | true => exact (runInline_agree h hc call hid).ensure fun _ _ h => attempt_agree h _
  | false => exact .error h

theorem dispatch_agree (h : w.Alike s w') (hc : c.Drawn) (call : DispatchCall) :
    Agree (World.Alike s) Eq (dispatch s c call w) (dispatch s c call w') := by
  have hid : idOr call.runId (c.uuid .run) ≠ "" := idOr_ne_empty (hc .run)
  rcases hasync : call.async s with _ | _
  · rcases hlock : s.lockingEnabled with _ | _
    · rw [dispatch_inline hasync hlock]
      exact runInline_agree h hc call hid
    · rw [dispatch_locked hasync hlock]
      exact runLocked_agree h hc call hid
  · rw [dispatch_async hasync]
    exact (enqueue_agree h call hid).handle fun _ _ _ h => .error h

/-! ### Shared parts -/

theorem checkAccess_agree (h : w.Alike s w') :
    Agree (World.Alike s) Eq (checkAccess c w) (checkAccess c w') := by
  unfold checkAccess
  cases c.denied with
  | none => exact .ok rfl h
  | some denial => exact .error h

theorem orInvalid_agree {α : Type} {m : Program lib V J α}
    (hm : Agree (World.Alike s) Eq (m w) (m w')) :
    Agree (World.Alike s) Eq (orInvalid m w) (orInvalid m w') :=
  hm.handle fun _ _ _ h => .error h

theorem orPersistence_agree {α : Type} {m : Program lib V J α}
    (hm : Agree (World.Alike s) Eq (m w) (m w')) :
    Agree (World.Alike s) Eq (orPersistence m w) (orPersistence m w') :=
  hm.handle fun _ _ _ h => .error h

theorem claim_agree (h : w.Alike s w') (ns key : String) :
    Agree (World.Alike s) Eq (claim c ns key w) (claim c ns key w') := by
  unfold claim
  refine (attempt_agree h _).bind_eq fun _ t t' h => ?_
  rw [view_bind_run, view_bind_run, h.idempotency]
  exact .ok rfl { h with idempotency := rfl }

theorem claimIdempotency_agree (h : w.Alike s w') (ns : String) (key : Option String) :
    Agree (World.Alike s) Eq (claimIdempotency c ns key w) (claimIdempotency c ns key w') := by
  unfold claimIdempotency
  cases truthy key with
  | none => exact .ok rfl h
  | some k =>
    refine (claim_agree h ns k).bind_eq fun granted t t' h => ?_
    cases granted with
    | true => exact .ok rfl h
    | false => exact .error h

/-! ### Endpoints -/

theorem validateWorkflow_agree (h : w.Alike s w') (text : String) :
    Agree (World.Alike s) Eq (validateWorkflow s c text w) (validateWorkflow s c text w') := by
  refine (checkAccess_agree h).bind_eq fun _ t t' h => orInvalid_agree ?_
  refine Agree.bind_eq (.lift _ h) fun workflow t t' h => ?_
  rcases ({ config := workflow, taskRegistry := s.taskRegistry } :
    WorkflowExecutor V P).validateRegistry with message | ⟨⟩
  · exact .error h
  · exact .ok rfl h

theorem runWorkflowEndpoint_agree (h : w.Alike s w') (hc : c.Drawn) (text : String)
    (asyncDispatch : Bool) (key : Option String) :
    Agree (World.Alike s) Eq (runWorkflowEndpoint s c text asyncDispatch key w)
      (runWorkflowEndpoint s c text asyncDispatch key w') :=
  (checkAccess_agree h).bind_eq fun _ _ _ h =>
    orPersistence_agree (orInvalid_agree ((claimIdempotency_agree h _ key).bind_eq
      fun _ _ _ h => dispatch_agree h hc _))

theorem rerunWorkflow_agree (h : w.Alike s w') (hc : c.Drawn) (runId : String)
    (asyncDispatch : Bool) :
    Agree (World.Alike s) Eq (rerunWorkflow s c runId asyncDispatch w)
      (rerunWorkflow s c runId asyncDispatch w') := by
  refine orPersistence_agree ((checkAccess_agree h).bind_eq fun _ t t' h => ?_)
  refine (attempt_agree h _).bind_eq fun _ t t' h => ?_
  rw [view_bind_run, view_bind_run]
  have hrun := h.runs runId
  generalize t.runs.getRun s.column runId = r at hrun
  generalize t'.runs.getRun s.column runId = r' at hrun
  cases hrun with
  | none => exact .error h
  | some same =>
    dsimp only
    obtain ⟨kept, hr, hr'⟩ := same
    rw [hr.yamlDefinition.trans hr'.yamlDefinition.symm, hr.versionHash.trans hr'.versionHash.symm]
    split_ifs
    · exact .error h
    · exact orInvalid_agree (dispatch_agree h hc _)

theorem registerWebhook_agree (h : w.Alike s w') (name text description : String)
    (secret : Option String) :
    Agree (World.Alike s) Eq (registerWebhook c name text description secret w)
      (registerWebhook c name text description secret w') := by
  refine (checkAccess_agree h).bind_eq fun _ t t' h => orPersistence_agree (orInvalid_agree ?_)
  refine Agree.bind_eq (.lift _ h) fun _ t t' h => ?_
  refine (attempt_agree h _).bind_eq fun _ t t' h => ?_
  rw [change_run, change_run, h.webhooks]
  exact .ok rfl { h with webhooks := rfl }

theorem triggerWebhook_agree (h : w.Alike s w') (hc : c.Drawn) (name : String) (body : List UInt8)
    (signature key : Option String) :
    Agree (World.Alike s) Eq (triggerWebhook s c name body signature key w)
      (triggerWebhook s c name body signature key w') := by
  have hfind : Agree (World.Alike s) Eq (findWebhook c name w) (findWebhook c name w') := by
    refine (checkAccess_agree h).bind_eq fun _ t t' h => ?_
    refine (attempt_agree h _).bind_eq fun _ t t' h => ?_
    rw [view_bind_run, view_bind_run, h.webhooks]
    cases t'.webhooks.get name with
    | none => exact .error h
    | some trigger => exact .ok rfl h
  refine orPersistence_agree (hfind.bind_eq fun trigger t t' h => ?_)
  refine Agree.bind_eq ?_ fun _ t t' h => ?_
  · refine Agree.bind_eq (S := Eq) ?_ fun accepted t t' h => ?_
    · refine (attempt_agree h _).bind_eq fun _ t t' h => ?_
      rw [view_bind_run, view_bind_run, h.webhooks]
      cases t'.webhooks.get name with
      | none => exact .ok rfl h
      | some trigger => exact .lift _ h
    · cases accepted with
      | true => exact .ok rfl h
      | false => exact .error h
  · exact (claimIdempotency_agree h _ key).bind_eq fun _ _ _ h =>
      orInvalid_agree (dispatch_agree h hc _)

theorem createSchedule_agree (h : w.Alike s w') (name cron text : String) (now : Datetime) :
    Agree (World.Alike s) Eq (createSchedule s c name cron text now w)
      (createSchedule s c name cron text now w') := by
  unfold createSchedule
  refine (checkAccess_agree h).bind_eq fun _ t t' h => ?_
  by_cases hvalid : s.cron.isValid cron = true
  · rw [if_pos hvalid]
    refine orPersistence_agree (orInvalid_agree (Agree.bind_eq (.lift _ h) fun _ t t' h => ?_))
    unfold registerSchedule
    rw [view_bind_run, view_bind_run, WorkflowScheduler.register, WorkflowScheduler.register,
      if_pos hvalid, if_pos hvalid]
    have hput := h.schedules.put { name := name, cron := cron, yamlDefinition := text,
                                   nextRun := some (s.cron.getNext cron now) }
    exact (attempt_agree h _).bind_eq fun _ t t' h => .ok rfl (h.setStore hput)
  · rw [if_neg hvalid]
    exact .error h

theorem deleteSchedule_agree (h : w.Alike s w') (name : String) :
    Agree (World.Alike s) Eq (deleteSchedule c name w) (deleteSchedule c name w') := by
  refine orPersistence_agree ((checkAccess_agree h).bind_eq fun _ t t' h => ?_)
  refine (attempt_agree h _).bind_eq fun _ t t' h => ?_
  rw [view_bind_run, view_bind_run, WorkflowScheduler.unregister, WorkflowScheduler.unregister,
    ScheduleStore.delete, ScheduleStore.delete]
  have hdeleted : (t.schedules.store.records.get name).isSome =
      (t'.schedules.store.records.get name).isSome := by rw [h.schedules.records]
  rw [hdeleted]
  refine Agree.bind_eq (.ok rfl (h.setStore (h.schedules.erase name))) fun _ t t' h => ?_
  split_ifs
  · exact .ok rfl h
  · exact .error h

end Endpoints

/-! ### Ticks -/

section Ticks
variable {s : Service V P J} {cs : ℕ → Circumstances V P}
  {callback : Circumstances V P → String → Program lib V J String}

/-- A callback that a tick may be given: it agrees in alike worlds and leaves the schedules alone. -/
structure TickCallback (s : Service V P J) (cs : ℕ → Circumstances V P)
    (callback : Circumstances V P → String → Program lib V J String) : Prop where
  agree : ∀ {k w w'} (text : String), w.Alike s w' →
    Agree (World.Alike s) Eq (callback (cs k) text w) (callback (cs k) text w')
  frame : ∀ k text w, (callback (cs k) text w).2.schedules = w.schedules

theorem claim_store (c : Circumstances V P) (ns key : String) (w : World lib V J) (hkey : key ≠ "") :
    (claim c ns key w).2.schedules.store = w.schedules.store := by
  rcases claim_cases c w ns hkey with ⟨e, he, -⟩ | ⟨he, -⟩ | ⟨he, -⟩
  · rw [he]
  · rw [he]
  · rw [he]; rfl

theorem WorkflowScheduler.Snapshot.rest {now : Datetime} {store : ScheduleStore} {x : Handle}
    {todo : List Handle} (h : Snapshot now store (x :: todo)) : Snapshot now store todo where
  nodup := (List.nodup_cons.mp h.nodup).2
  stored y hy := h.stored y (List.mem_cons_of_mem _ hy)
  due y hy := h.due y (List.mem_cons_of_mem _ hy)

/-- A handle of either store for a schedule that the tick has yet to take up reads alike. -/
theorem read_agree {w w' : World lib V J} {now : Datetime} {x x' : Handle}
    {todo todo' : List Handle} (h : w.Alike s w')
    (hsnap : WorkflowScheduler.Snapshot now w.schedules.store (x :: todo))
    (hsnap' : WorkflowScheduler.Snapshot now w'.schedules.store (x' :: todo'))
    (hname : x.name = x'.name) : w.schedules.store.read x = w'.schedules.store.read x' := by
  have hx := hsnap.stored x List.mem_cons_self
  rw [hname, h.schedules.records] at hx
  exact Option.some.inj (hx.symm.trans (hsnap'.stored x' List.mem_cons_self))

/-- STEP AND RUN: the loop over the due schedules. The schedules still to come are stored as they were
    when the tick began, so it makes no difference whose records the handles are. -/
theorem dispatchDueLoop_agree (hcallback : TickCallback s cs callback) (now : Datetime) :
    ∀ (k : ℕ) (todo todo' : List Handle) (dispatched : List (String × String))
      {w w' : World lib V J}, w.Alike s w' →
      WorkflowScheduler.Snapshot now w.schedules.store todo →
      WorkflowScheduler.Snapshot now w'.schedules.store todo' →
      todo.map Handle.name = todo'.map Handle.name →
      Agree (World.Alike s) Eq (dispatchDueLoop s cs callback now k todo dispatched w)
        (dispatchDueLoop s cs callback now k todo' dispatched w')
  | _, [], [], _, _, _, h, _, _, _ => .ok rfl h
  | _, [], _ :: _, _, _, _, _, _, _, hnames => by simp at hnames
  | _, _ :: _, [], _, _, _, _, _, _, hnames => by simp at hnames
  | k, x :: todo, x' :: todo', dispatched, w, w', h, hsnap, hsnap', hnames => by
      obtain ⟨hname, hnames⟩ := List.cons.inj hnames
      have hread := read_agree h hsnap hsnap' hname
      have hsched := ScheduleStore.read_name h.schedules.named x
      have hx := hsnap.stored x List.mem_cons_self
      have hx' := hsnap'.stored x' List.mem_cons_self
      rw [← hsched] at hx
      rw [← hname, ← hsched, ← hread] at hx'
      unfold dispatchDueLoop
      rw [view_bind_run, view_bind_run, ← hread]
      generalize hs : w.schedules.store.read x = sched at hsched hx hx' hread
      have hclaim := (claim_agree (c := cs k) h ("schedule:" ++ sched.name)
        (fireText sched.nextRun)).keeping
        (I := fun t => t.schedules.store = w.schedules.store)
        (K := fun t => t.schedules.store = w'.schedules.store)
        (claim_store _ _ _ w (fireText_ne_empty _)) (claim_store _ _ _ w' (fireText_ne_empty _))
      refine hclaim.seq (fun _ _ h => h.1) fun granted granted' t t' hgranted ht => ?_
      subst hgranted
      obtain ⟨h, hstore, hstore'⟩ := ht
      -- the rest of the tick, from stores that differ from these at most at this schedule
      cases granted with
      | false =>
        refine dispatchDueLoop_agree hcallback now (k + 1) todo todo' dispatched h ?_ ?_ hnames
        · rw [hstore]; exact hsnap.rest
        · rw [hstore']; exact hsnap'.rest
      | true =>
        rw [if_pos rfl, if_pos rfl]
        have hrun := (hcallback.agree (k := k) sched.yamlDefinition h).keeping
          (I := fun u => u.schedules.store = w.schedules.store)
          (K := fun u => u.schedules.store = w'.schedules.store)
          (by rw [hcallback.frame, hstore]) (by rw [hcallback.frame, hstore'])
        refine hrun.seq (fun _ _ h => h.1) fun runId runId' u u' hrunId hu => ?_
        subst hrunId
        obtain ⟨h, hstore, hstore'⟩ := hu
        have hmark := (attempt_agree (c := cs k) h .markRan).keeping
          (I := fun u : World lib V J => u.schedules.store = w.schedules.store)
          (K := fun u : World lib V J => u.schedules.store = w'.schedules.store) hstore hstore'
        refine hmark.seq (fun _ _ h => h.1) fun _ _ v v' _ hv => ?_
        obtain ⟨h, hstore, hstore'⟩ := hv
        have hran : (WorkflowScheduler.ran s.cron now sched).name = x.name := hsched
        rw [change_bind_run, change_bind_run, hstore, hstore',
          WorkflowScheduler.markRan_eq hx, WorkflowScheduler.markRan_eq hx']
        have hput := h.schedules.put (WorkflowScheduler.ran s.cron now sched)
        rw [hstore, hstore'] at hput
        exact dispatchDueLoop_agree hcallback now (k + 1) todo todo' _ (h.setStore hput)
          (hsnap.tail hran).2 (hsnap'.tail (hran.trans hname)).2 hnames

omit [PyValue V] in
/-- The due schedules, in the order of the records. -/
theorem due_names {store : ScheduleStore} (h : store.Named) (now : Datetime) :
    (WorkflowScheduler.due store now).map Handle.name =
      (store.records.values.filter fun sched => WorkflowScheduler.IsDue now sched).map
        ScheduledWorkflow.name := by
  have hread : ∀ sched ∈ store.records.values, store.read (store.handle sched) = sched := by
    intro sched hsched
    obtain ⟨name, hget⟩ := (Dict.mem_values_iff _ sched).mp hsched
    obtain rfl := h _ _ hget
    exact ScheduleStore.read_handle hget
  rw [WorkflowScheduler.due, ScheduleStore.list, List.filter_map, List.map_map]
  have hfilter : store.records.values.filter
      ((fun x => decide (WorkflowScheduler.IsDue now (store.read x))) ∘ store.handle) =
      store.records.values.filter fun sched => WorkflowScheduler.IsDue now sched :=
    List.filter_congr fun sched hsched => by rw [Function.comp, hread sched hsched]
  rw [hfilter]
  exact List.map_congr_left fun sched _ => ScheduleStore.handle_name sched

theorem listDue_ordered {c : Circumstances V P} (h : c.Ordered) (store : ScheduleStore)
    (now : Datetime) : listDue c store now = WorkflowScheduler.due store now := by
  unfold listDue
  cases store.sharing with
  | live => rfl
  | copies => exact h _

theorem dispatchDue_agree (hcallback : TickCallback s cs callback) (hrows : (cs 0).Ordered)
    (now : Datetime) {w w' : World lib V J} (h : w.Alike s w') :
    Agree (World.Alike s) Eq (dispatchDue s cs callback now w)
      (dispatchDue s cs callback now w') := by
  refine (attempt_agree h _).bind_eq fun _ t t' h => ?_
  rw [view_bind_run, view_bind_run, listDue_ordered hrows, listDue_ordered hrows]
  have hnamed' : t'.schedules.store.Named := by
    have hnamed := h.schedules.named
    rwa [ScheduleStore.Named, h.schedules.records] at hnamed
  refine dispatchDueLoop_agree hcallback now 0 _ _ [] h
    (WorkflowScheduler.snapshot_due h.schedules.named) (WorkflowScheduler.snapshot_due hnamed') ?_
  rw [due_names h.schedules.named, due_names hnamed', h.schedules.records]

theorem dispatches_definition (hc : ∀ k, (cs k).Drawn) :
    TickCallback s cs (dispatchDefinition s : Circumstances V P → String → Program lib V J String)
    where
  agree text h := (dispatch_agree h (hc _) _).map fun _ _ he => congrArg DispatchResult.runId he
  frame k text w := by
    rw [dispatchDefinition, bind_pure_run]
    exact dispatch_schedules _ w

theorem dispatches_due (hc : ∀ k, (cs k).Drawn) :
    TickCallback s cs (runDueDefinition s : Circumstances V P → String → Program lib V J String)
    where
  agree text h := (runWorkflow_agree h (hc _) (ownTrace_dueCall text)).map
    fun _ _ he => congrArg RunResult.runId he
  frame k text w := by
    rw [runDueDefinition, bind_pure_run]
    exact runWorkflow_schedules _ w

end Ticks

/-! ### Requests -/

section Requests
variable {s : Service V P J} {w w' : World lib V J}

theorem runWorkflowTask_agree {c : Circumstances V P} (h : w.Alike s w') (hc : c.Drawn) {m : Message}
    (hm : m.runId ≠ some "") :
    Agree (World.Alike s) Eq (runWorkflowTask s c m w) (runWorkflowTask s c m w') := by
  have hensure : Agree (World.Alike s) Eq (ensureVersion c m w) (ensureVersion c m w') := by
    unfold ensureVersion
    cases m.versionHash with
    | none => exact .ok rfl h
    | some versionHash =>
      refine (attempt_agree h _).bind_eq fun _ t t' h => ?_
      rw [view_bind_run, view_bind_run, VersionStore.get, VersionStore.get, h.versions]
      cases t'.versions.versions.get versionHash with
      | some version => exact .ok rfl h
      | none => exact (putVersion_agree h _ _).bind fun _ _ _ _ _ h => .ok rfl h
  exact hensure.bind_eq fun _ t t' h => runWorkflow_agree h hc (m.ownTrace_runCall hm)

/-- STEP: one request. -/
theorem serve_agree (h : w.Alike s w') {cs : ℕ → Circumstances V P} (hc : ∀ k, (cs k).Drawn)
    (hrows : (cs 0).Ordered) (request : ServiceRequest) :
    Agree (World.Alike s) Eq (serve s cs request w) (serve s cs request w') := by
  cases request with
  | validate text => exact (validateWorkflow_agree h text).map fun _ _ he => congrArg _ he
  | run text asyncDispatch key =>
    exact (runWorkflowEndpoint_agree h (hc 0) text asyncDispatch key).map
      fun _ _ he => congrArg _ he
  | rerun runId asyncDispatch =>
    exact (rerunWorkflow_agree h (hc 0) runId asyncDispatch).map fun _ _ he => congrArg _ he
  | registerWebhook name text description secret =>
    exact (registerWebhook_agree h name text description secret).map fun _ _ _ => rfl
  | triggerWebhook name body signature key =>
    exact (triggerWebhook_agree h (hc 0) name body signature key).map fun _ _ he => congrArg _ he
  | createSchedule name cron text now =>
    exact (createSchedule_agree h name cron text now).map fun _ _ _ => rfl
  | deleteSchedule name => exact (deleteSchedule_agree h name).map fun _ _ _ => rfl
  | runDue now =>
    exact (orPersistence_agree ((checkAccess_agree h).bind_eq fun _ _ _ h =>
      dispatchDue_agree (dispatches_definition hc) hrows now h)).map fun _ _ he => congrArg _ he
  | beat now =>
    exact (dispatchDue_agree (dispatches_due hc) hrows now h).map fun _ _ he => congrArg _ he
  | deliver i =>
    rw [serve, view_bind_run, view_bind_run, ← h.queue]
    rcases hget : w.queue[i]? with _ | m
    · exact .ok rfl h
    · exact (runWorkflowTask_agree h (hc 0) (h.named m (List.mem_of_getElem? hget))).map
        fun _ _ he => congrArg _ he

/-- RUN: any number of requests. -/
theorem transcript_agree (arrivals : List (Arrival V P))
    (hdrawn : ∀ a ∈ arrivals, ∀ k, (a.circumstances k).Drawn)
    (hrows : ∀ a ∈ arrivals, (a.circumstances 0).Ordered) (h : w.Alike s w') :
    (transcript s w arrivals).map Exchange.answer = (transcript s w' arrivals).map Exchange.answer ∧
      (w.after s arrivals).Alike s (w'.after s arrivals) := by
  induction arrivals generalizing w w' with
  | nil => exact ⟨rfl, h⟩
  | cons a arrivals ih =>
    have hserve := serve_agree h (hdrawn a List.mem_cons_self) (hrows a List.mem_cons_self)
      a.request
    obtain ⟨hanswers, hafter⟩ := ih (fun b hb => hdrawn b (List.mem_cons_of_mem _ hb))
      (fun b hb => hrows b (List.mem_cons_of_mem _ hb)) hserve.states
    refine ⟨?_, hafter⟩
    rw [transcript, transcript, List.map_cons, List.map_cons]
    exact congrArg₂ List.cons hserve.answers hanswers

end Requests

/-! ### Either kind of stores -/

theorem booted_alike (s : Service V P J) (b b' : Backend) :
    (World.booted lib V J b).Alike s (World.booted lib V J b') where
  runs id := by
    change Option.Rel _ ((RunStore.empty b : RunStore P J).getRun s.column id)
      ((RunStore.empty b' : RunStore P J).getRun s.column id)
    rw [RunStore.getRun_empty, RunStore.getRun_empty]
    exact .none
  sound := ⟨RunStore.sound_empty b, RunStore.sound_empty b'⟩
  versions := rfl
  events id := by cases b <;> cases b' <;> rfl
  schedules := ⟨rfl, fun _ _ hget => by simp [World.booted] at hget⟩
  idempotency := rfl
  webhooks := rfl
  queue := rfl
  named m hm := by simp [World.booted] at hm
  executed := rfl
  saved := rfl

/-- CORRECT (interchangeable): over in-memory stores and over the database, every sequence of requests
    is answered alike and leaves worlds that are alike, each with its own kind of run store. -/
theorem requests_backend_free (s : Service V P J) (arrivals : List (Arrival V P))
    (hdrawn : ∀ a ∈ arrivals, ∀ k, (a.circumstances k).Drawn)
    (hrows : ∀ a ∈ arrivals, (a.circumstances 0).Ordered) (b b' : Backend) :
    (transcript s (World.booted lib V J b) arrivals).map Exchange.answer =
      (transcript s (World.booted lib V J b') arrivals).map Exchange.answer ∧
    ((World.booted lib V J b).after s arrivals).Alike s
      ((World.booted lib V J b').after s arrivals) ∧
    ((World.booted lib V J b).after s arrivals).runs.backend = b ∧
    ((World.booted lib V J b').after s arrivals).runs.backend = b' := by
  obtain ⟨hanswers, halike⟩ := transcript_agree arrivals hdrawn hrows (booted_alike s b b')
  exact ⟨hanswers, halike, backend_after s b arrivals, backend_after s b' arrivals⟩

theorem calm_drawn {tag : String} (h : tag ≠ "") : (calm tag : Circumstances V P).Drawn := by
  have hne : ∀ suffix : String, tag ++ suffix ≠ "" := fun suffix he =>
    h ((String.append_eq_empty_iff.mp he).1)
  intro draw
  cases draw <;> exact hne _

/-- A schedule is registered and falls due; its definition is also run, and the run repeated. -/
noncomputable def nightly : List (Arrival String Unit) :=
  [⟨.createSchedule "nightly" "* * * * *" Document.idle.text newYear, fun _ => calm "a"⟩,
   ⟨.runDue newYear.nextMinute, fun _ => calm "b"⟩,
   ⟨.run Document.idle.text false (some "k1"), fun _ => calm "c"⟩,
   ⟨.rerun "c-run" false, fun _ => calm "d"⟩]

theorem nightly_backend_free :
    (transcript quiet (World.booted documents String _ .memory) nightly).map Exchange.answer =
      (transcript quiet (World.booted documents String _ .database) nightly).map Exchange.answer := by
  have hdrawn : ∀ a ∈ nightly, ∀ k, (a.circumstances k).Drawn := by
    intro a ha k
    simp only [nightly, List.mem_cons, List.not_mem_nil, or_false] at ha
    rcases ha with rfl | rfl | rfl | rfl <;> exact calm_drawn (by decide)
  have hrows : ∀ a ∈ nightly, (a.circumstances 0).Ordered := by
    intro a ha
    simp only [nightly, List.mem_cons, List.not_mem_nil, or_false] at ha
    rcases ha with rfl | rfl | rfl | rfl <;> exact fun _ => rfl
  exact (requests_backend_free quiet nightly hdrawn hrows .memory .database).1

end WorkflowEngine
