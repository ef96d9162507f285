import WorkflowEngine.Service.Access
import WorkflowEngine.Scheduler.Firing

/-! Where definitions come from.

    Three requests bring a definition into the service: one that runs it, and those that register it
    for a webhook or a schedule. Everything else, the reruns, the ticks, the worker and the pinned
    versions included, takes its definition from a store that one of them has filled. All three ask
    for an operator, so the service never holds a definition, nor runs one, that no operator sent. -/

namespace WorkflowEngine
open Schemes

variable {D P V J T : Type} {lib : YamlLibrary D P} [PyValue V]

/-- The definition that a request brings. -/
def ServiceRequest.submitted : ServiceRequest → Option String
  | .run yamlDefinition _ _ | .registerWebhook _ yamlDefinition _ _
  | .createSchedule _ _ yamlDefinition _ => some yamlDefinition
  | _ => none

/-- Every definition in the world is one of these texts. -/
structure World.Within (s : Service V P J) (texts : String → Prop) (w : World lib V J) : Prop where
  executed : ∀ x ∈ w.executed, texts x.yamlDefinition
  sound : w.runs.Sound
  record : ∀ id record, w.runs.getRun s.column id = some record → texts record.yamlDefinition
  version : ∀ hash v, w.versions.get hash = some v → texts v.yamlDefinition
  queued : ∀ m ∈ w.queue, texts m.yamlDefinition
  webhook : ∀ name trigger, w.webhooks.get name = some trigger → texts trigger.yamlDefinition
  schedule : ∀ name r, w.schedules.store.records.get name = some r → texts r.yamlDefinition

/-- The schedule that was handed out has one of these texts. -/
def Handle.Within (texts : String → Prop) : Handle → Prop
  | .shared seen => texts seen.yamlDefinition
  | .copy record => texts record.yamlDefinition

section Writes
variable {s : Service V P J} {texts : String → Prop} {w : World lib V J}

/-- A version that is there after a `put` was there before, or is the text put. -/
theorem VersionStore.get_after_cases {store : VersionStore lib} {text hash : String}
    {v : WorkflowVersion} (h : (store.after text).get hash = some v) :
    store.get hash = some v ∨ v.yamlDefinition = text := by
  rcases hhash : lib.canonicalYamlHash text with e | own
  · rw [after_of_error hhash] at h
    exact .inl h
  · rw [after_of_ok hhash] at h
    unfold add at h
    split at h
    · exact .inl h
    · have hset : (store.versions.set own ⟨own, text⟩).get hash = some v := h
      rw [Dict.get_set] at hset
      split_ifs at hset
      · exact .inr (congrArg WorkflowVersion.yamlDefinition (Option.some.inj hset)).symm
      · exact .inl hset

namespace World.Within

theorem withVersion (h : w.Within s texts) {text : String} (ht : texts text) :
    (w.withVersion text).Within s texts where
  executed := h.executed
  sound := h.sound
  record := h.record
  version hash v hv := (VersionStore.get_after_cases hv).elim (h.version hash v) fun he => he ▸ ht
  queued := h.queued
  webhook := h.webhook
  schedule := h.schedule

theorem pin (h : w.Within s texts) (call : RunCall V P) {text : String} (ht : texts text) :
    (call.pin w text).Within s texts := by
  unfold RunCall.pin
  split_ifs
  · exact h.withVersion ht
  · exact h

theorem ran (h : w.Within s texts) {x : Execution lib V} (ht : texts x.yamlDefinition) :
    (w.ran x).Within s texts where
  executed y hy := by
    rcases List.mem_append.mp hy with hy | hy
    · exact h.executed y hy
    · exact List.mem_singleton.mp hy ▸ ht
  sound := h.sound
  record := h.record
  version := h.version
  queued := h.queued
  webhook := h.webhook
  schedule := h.schedule

theorem recordRun (h : w.Within s texts) {x : FinishedRun V P} (ht : texts x.yamlDefinition) :
    (w.recordRun s x).Within s texts where
  executed := h.executed
  sound := h.sound.saveRun
  record id record hget := by
    rw [World.recordRun] at hget
    dsimp only at hget
    rw [RunStore.getRun_saveRun h.sound] at hget
    split_ifs at hget
    · rw [← Option.some.inj hget, (RunStore.shown_fields x.args id).1]
      exact ht
    · exact h.record id record hget
  version := h.version
  queued := h.queued
  webhook := h.webhook
  schedule := h.schedule

theorem withEvents (h : w.Within s texts) (events : EventStore) :
    World.Within s texts { w with events := events } :=
  ⟨h.executed, h.sound, h.record, h.version, h.queued, h.webhook, h.schedule⟩

theorem claimed (h : w.Within s texts) (ns key : String) : (w.claimed ns key).Within s texts :=
  ⟨h.executed, h.sound, h.record, h.version, h.queued, h.webhook, h.schedule⟩

theorem enqueued (h : w.Within s texts) {m : Message} (ht : texts m.yamlDefinition) :
    World.Within s texts { w with queue := w.queue ++ [m] } where
  executed := h.executed
  sound := h.sound
  record := h.record
  version := h.version
  queued m' hm := by
    rcases List.mem_append.mp hm with hm | hm
    · exact h.queued m' hm
    · exact List.mem_singleton.mp hm ▸ ht
  webhook := h.webhook
  schedule := h.schedule

theorem withWebhook (h : w.Within s texts) {name : String} {trigger : WebhookTrigger}
    (ht : texts trigger.yamlDefinition) :
    World.Within s texts { w with webhooks := w.webhooks.set name trigger } where
  executed := h.executed
  sound := h.sound
  record := h.record
  version := h.version
  queued := h.queued
  webhook name' trigger' hget := by
    dsimp only at hget
    rw [Dict.get_set] at hget
    split_ifs at hget
    · exact Option.some.inj hget ▸ ht
    · exact h.webhook name' trigger' hget
  schedule := h.schedule

theorem withStore (h : w.Within s texts) {store : ScheduleStore}
    (ht : ∀ name r, store.records.get name = some r → texts r.yamlDefinition) :
    World.Within s texts { w with schedules := { w.schedules with store := store } } :=
  ⟨h.executed, h.sound, h.record, h.version, h.queued, h.webhook, ht⟩

theorem put (h : w.Within s texts) {r : ScheduledWorkflow} (ht : texts r.yamlDefinition) :
    World.Within s texts
      { w with schedules := { w.schedules with store := w.schedules.store.put r } } := by
  refine h.withStore fun name r' hget => ?_
  rw [ScheduleStore.get_put] at hget
  split_ifs at hget
  · exact Option.some.inj hget ▸ ht
  · exact h.schedule name r' hget

theorem read (h : w.Within s texts) {x : Handle} (hx : x.Within texts) :
    texts (w.schedules.store.read x).yamlDefinition := by
  cases x with
  | copy record => exact hx
  | shared seen =>
    rw [ScheduleStore.read]
    cases hget : w.schedules.store.records.get seen.name with
    | none => exact hx
    | some r => exact h.schedule _ r hget

theorem handle (h : w.Within s texts) {name : String} {r : ScheduledWorkflow}
    (hget : w.schedules.store.records.get name = some r) :
    (w.schedules.store.handle r).Within texts := by
  unfold ScheduleStore.handle
  cases w.schedules.store.sharing <;> exact h.schedule name r hget

theorem markRan (h : w.Within s texts) (name : String) (now : Datetime) :
    World.Within s texts { w with schedules := { w.schedules with
      store := WorkflowScheduler.markRan s.cron w.schedules.store name now } } := by
  unfold WorkflowScheduler.markRan ScheduleStore.get
  rcases hget : w.schedules.store.records.get name with _ | r
  · exact h
  · exact h.put (h.read (h.handle hget))

theorem register (h : w.Within s texts) {name expression yamlDefinition : String} {now : Datetime}
    {store : ScheduleStore} (ht : texts yamlDefinition)
    (hregister : WorkflowScheduler.register s.cron w.schedules.store name expression yamlDefinition
      now = .ok store) : ∀ name r, store.records.get name = some r → texts r.yamlDefinition := by
  unfold WorkflowScheduler.register at hregister
  split_ifs at hregister
  obtain rfl := Except.ok.inj hregister
  exact (h.put (r := ⟨name, expression, yamlDefinition, none, _, true⟩) ht).schedule

theorem unregister (h : w.Within s texts) (name : String) : World.Within s texts
    { w with schedules := { w.schedules with
      store := (WorkflowScheduler.unregister w.schedules.store name).1 } } := by
  refine h.withStore fun name' r hget => ?_
  rw [WorkflowScheduler.unregister, ScheduleStore.delete, Dict.get_erase] at hget
  split_ifs at hget
  exact h.schedule name' r hget

theorem chosen (h : w.Within s texts) {call : RunCall V P} {text : String}
    (ht : texts call.yamlDefinition) (hchosen : Chosen w call text) : texts text := by
  cases hchosen with
  | given => exact ht
  | pinned _ _ stored => exact h.version _ _ stored

end World.Within

end Writes

/-! ### What a request leaves -/

section Programs
variable {s : Service V P J} {c : Circumstances V P} {cs : ℕ → Circumstances V P}
  {texts : String → Prop}

theorem runWorkflow_within (call : RunCall V P) (ht : texts call.yamlDefinition) :
    Prog.Keeps (World.Within s texts) (runWorkflow s c call : Program lib V J (RunResult P)) := by
  intro w h
  have htext : ∀ {text : String}, Chosen w (call.named (c.uuid .trace)) text → texts text :=
    fun hchosen => h.chosen ht (chosen_named.mp hchosen)
  have hleaves := runWorkflow_cases s c call w
  generalize (runWorkflow s c call w).1 = r at hleaves
  generalize (runWorkflow s c call w).2 = w' at hleaves
  cases hleaves with
  | unpinnable | unhashable => exact h
  | rejected chosen => exact h.pin _ (htext chosen)
  | unsaved chosen _ runs => exact (h.pin _ (htext chosen)).ran (runs.text ▸ htext chosen)
  | unrecorded chosen _ runs =>
    have ht := runs.text ▸ htext chosen
    exact ((h.pin _ (htext chosen)).ran ht).recordRun ht
  | finished chosen _ runs =>
    have ht := runs.text ▸ htext chosen
    exact (((h.pin _ (htext chosen)).ran ht).recordRun ht).withEvents _

theorem dispatch_within {call : DispatchCall} (ht : texts call.yamlDefinition) :
    Prog.Keeps (World.Within s texts) (dispatch s c call : Program lib V J (DispatchResult P)) := by
  intro w h
  have hrun : ∀ runId, (runWorkflow s c (call.runCall s c runId) w).2.Within s texts :=
    fun runId => runWorkflow_within (call.runCall s c runId) ht w h
  have hleaves := dispatch_cases s c call w
  generalize (dispatch s c call w).1 = r at hleaves
  generalize (dispatch s c call w).2 = w' at hleaves
  cases hleaves with
  | unpinned | unhashable | unlocked | locked => exact h
  | undelivered => exact h.withVersion ht
  | enqueued => exact (h.withVersion ht).enqueued ht
  | ran | unreleased => exact hrun _

theorem dispatchDueLoop_within
    {dispatch : Circumstances V P → String → Program lib V J String}
    (hdispatch : ∀ k text, texts text → Prog.Keeps (World.Within s texts) (dispatch (cs k) text))
    (now : Datetime) : ∀ (todo : List Handle) (k : ℕ) (dispatched : List (String × String)),
      (∀ x ∈ todo, x.Within texts) →
      Prog.Keeps (World.Within s texts) (dispatchDueLoop s cs dispatch now k todo dispatched)
  | [], k, dispatched, _ => .pure _
  | x :: todo, k, dispatched, htodo => by
    intro w h
    have hrest := fun dispatched => dispatchDueLoop_within hdispatch now todo (k + 1) dispatched
      fun y hy => htodo y (List.mem_cons_of_mem x hy)
    have htext := h.read (htodo x List.mem_cons_self)
    rw [dispatchDueLoop, Prog.view_bind_run]
    refine Prog.Keeps.bind (I := World.Within s texts) ?_ (fun granted => ?_) w h
    · exact claim_keeps (fireText_ne_empty _) fun _ h => h.claimed _ _
    · cases granted with
      | false => exact hrest _
      | true =>
        refine Prog.Keeps.bind (hdispatch k _ htext) fun runId => (attempt_keeps _).bind fun _ => ?_
        exact Prog.Keeps.bind (.change fun _ h => h.markRan _ now) fun _ => hrest _

theorem dispatchDue_within {dispatch : Circumstances V P → String → Program lib V J String}
    (hdispatch : ∀ k text, texts text → Prog.Keeps (World.Within s texts) (dispatch (cs k) text))
    (now : Datetime) : Prog.Keeps (World.Within s texts) (dispatchDue s cs dispatch now) := by
  refine (attempt_keeps _).bind fun _ w h => ?_
  rw [Prog.view_bind_run]
  refine dispatchDueLoop_within hdispatch now _ 0 [] (fun x hx => ?_) w h
  obtain ⟨r, hr, rfl⟩ := List.mem_map.mp
    (List.mem_of_mem_filter ((listDue_perm (cs 0) w.schedules.store now).subset hx))
  obtain ⟨name, hget⟩ := (Dict.mem_values_iff _ r).mp hr
  exact h.handle hget

theorem claimIdempotency_within (ns : String) (key : Option String) :
    Prog.Keeps (World.Within s texts) (claimIdempotency c ns key : Program lib V J Unit) :=
  claimIdempotency_keeps fun _ _ _ h => h.claimed _ _

theorem createSchedule_within {name cron yamlDefinition : String} {now : Datetime}
    (ht : texts yamlDefinition) : Prog.Keeps (World.Within s texts)
      (createSchedule s c name cron yamlDefinition now : Program lib V J Unit) := by
  refine checkAccess_keeps.bind fun _ => ?_
  split_ifs
  · refine orPersistence_leads (orInvalid_leads (Prog.Keeps.bind (.lift _) fun _ w h => ?_))
    rw [registerSchedule, Prog.view_bind_run]
    rcases hregister : WorkflowScheduler.register s.cron w.schedules.store name cron yamlDefinition
      now with e | store
    · exact h
    · exact Prog.Keeps.bind (I := World.Within s texts) (attempt_keeps _)
        (fun _ => .change fun _ h' => h'.withStore (h.register ht hregister)) w h
  · exact .lift _

/-- The first read of a trigger, if it finds the webhook. -/
theorem findWebhook_found {name : String} {trigger : WebhookTrigger} {w w' : World lib V J}
    (hrun : findWebhook c name w = (.ok trigger, w')) :
    w' = w ∧ w.webhooks.get name = some trigger := by
  have hsame : w' = w := by
    have hkept := findWebhook_keeps (c := c) (I := (· = w)) name w rfl
    rwa [hrun] at hkept
  obtain ⟨_, w₁, hcheck, hrest⟩ := Prog.bind_ok.mp hrun
  obtain ⟨_, w₂, hattempt, hlook⟩ := Prog.bind_ok.mp hrest
  have hfirst : w₁ = w := by
    have hkept := checkAccess_keeps (c := c) (I := (· = w)) w rfl
    rwa [hcheck] at hkept
  have hsecond : w₂ = w₁ := by
    have hkept := attempt_keeps (c := c) (I := (· = w₁)) .getWebhook w₁ rfl
    rwa [hattempt] at hkept
  subst hsecond hfirst
  rw [Prog.view_bind_run] at hlook
  rcases htrigger : w₂.webhooks.get name with _ | found
  · rw [htrigger] at hlook
    exact absurd (Prod.mk.inj hlook).1 (by simp)
  · rw [htrigger] at hlook
    exact ⟨hsame, congrArg some (Except.ok.inj (Prod.mk.inj hlook).1)⟩

theorem triggerWebhook_within (name : String) (body : List UInt8) (signature key : Option String) :
    Prog.Keeps (World.Within s texts)
      (triggerWebhook s c name body signature key : Program lib V J (DispatchResult P)) := by
  refine orPersistence_leads fun w h => ?_
  rcases hfind : findWebhook c name w with ⟨e | trigger, w'⟩
  · have hkept := findWebhook_keeps (c := c) name w h
    rw [hfind] at hkept
    rwa [Prog.bind_of_error hfind]
  · obtain ⟨rfl, htrigger⟩ := findWebhook_found hfind
    rw [Prog.bind_of_ok hfind]
    refine Prog.Keeps.bind (I := World.Within s texts) (checkSignature_keeps name body signature)
      (fun _ => (claimIdempotency_within _ key).bind fun _ => orInvalid_leads ?_) w' h
    exact dispatch_within (h.webhook name trigger htrigger)

/-- STEP: a request whose own definition is one of the texts keeps the world within them. -/
theorem serve_within {request : ServiceRequest}
    (ht : ∀ text, request.submitted = some text → texts text) : Prog.Keeps (World.Within s texts)
      (serve s cs request : Program lib V J (Answer P)) := by
  cases request with
  | validate text =>
    exact Prog.Keeps.bind (Survives.validateWorkflow_keeps _ text) fun _ => .pure _
  | run text asyncDispatch key =>
    refine Prog.Keeps.bind (checkAccess_keeps.bind fun _ => orPersistence_leads (orInvalid_leads
      ((claimIdempotency_within _ key).bind fun _ => ?_))) fun _ => .pure _
    exact dispatch_within (ht text rfl)
  | rerun runId asyncDispatch =>
    refine Prog.Keeps.bind (rerunWorkflow_leads (fun _ h => h) fun w record hget h => ?_) fun _ =>
      .pure _
    exact dispatch_within (h.record runId record hget) w h
  | registerWebhook name text description secret =>
    refine Prog.Keeps.bind (checkAccess_keeps.bind fun _ => orPersistence_leads (orInvalid_leads
      ?_)) fun _ => .pure _
    exact Prog.Keeps.bind (.lift _) fun _ => (attempt_keeps _).bind fun _ =>
      .change fun _ h => h.withWebhook (ht text rfl)
  | triggerWebhook name body signature key =>
    exact Prog.Keeps.bind (triggerWebhook_within name body signature key) fun _ => .pure _
  | createSchedule name cron text now =>
    exact Prog.Keeps.bind (createSchedule_within (ht text rfl)) fun _ => .pure _
  | deleteSchedule name =>
    refine Prog.Keeps.bind (orPersistence_leads (checkAccess_keeps.bind fun _ =>
      (attempt_keeps _).bind fun _ w h => ?_)) fun _ => .pure _
    have herased := h.unregister name
    rw [Prog.view_bind_run]
    dsimp only [WorkflowScheduler.unregister, ScheduleStore.delete] at herased ⊢
    rw [Prog.change_bind_run]
    split_ifs
    · exact herased
    · exact herased
  | runDue now =>
    refine Prog.Keeps.bind (orPersistence_leads (checkAccess_keeps.bind fun _ =>
      dispatchDue_within (fun k text ht => ?_) now)) fun _ => .pure _
    exact (dispatch_within ht).bind fun _ => .pure _
  | beat now =>
    refine Prog.Keeps.bind (dispatchDue_within (fun k text ht => ?_) now) fun _ => .pure _
    exact Prog.Keeps.bind (runWorkflow_within _ ht) fun _ => .pure _
  | deliver i =>
    intro w h
    rw [serve, Prog.view_bind_run]
    rcases hget : w.queue[i]? with _ | m
    · exact h
    · have ht := h.queued m (List.mem_of_getElem? hget)
      refine Prog.Keeps.bind (I := World.Within s texts) (Prog.Keeps.bind (ensureVersion_keeps
        fun _ h => h.withVersion ht) fun _ => ?_) (fun _ => .pure _) w h
      exact runWorkflow_within _ ht

end Programs

/-! ### Sequences of calls -/

/-- The call brought this definition with a key that lets its caller operate. -/
def Call.Submits (policy : AuthPolicy) (text : String) : Call V P T → Prop
  | .serve caller arrival =>
    arrival.request.submitted = some text ∧ policy.authorize caller.apiKey .operator = true
  | .read .. => False

section Calls
variable [CommRing T] [LinearOrder T] {s : Service V P J} {policy : AuthPolicy}
  {texts : String → Prop}

/-- Definitions are taken from operators only. -/
theorem ServiceRequest.minimumRole_of_submitted {request : ServiceRequest} {text : String}
    (h : request.submitted = some text) : request.minimumRole = some .operator := by
  cases request with
  | run | registerWebhook | createSchedule => rfl
  | _ => exact absurd h (by simp [submitted])

/-- STEP: a call keeps the world within the texts if they include what it submits. -/
theorem Site.call_within {site : Site lib V J T} {x : Call V P T} (h : site.world.Within s texts)
    (ht : ∀ text, x.Submits policy text → texts text) :
    (site.call s policy x).2.world.Within s texts := by
  cases x with
  | read caller request circumstances => exact serveRead_keeps request site.world h
  | serve caller arrival =>
    rcases hrole : arrival.request.minimumRole with _ | role
    · rw [Site.call_own hrole]
      refine serve_within (fun text hsubmitted => ?_) site.world h
      exact absurd (hrole.symm.trans (arrival.request.minimumRole_of_submitted hsubmitted)) (by simp)
    · rcases hdenied : accessDenial site.limiter policy role caller with _ | denial
      · have hallowed := ((accessDenial_cases site.limiter policy role caller).2.mp hdenied).2
        rw [Site.call_serve hrole]
        refine serve_within (fun text hsubmitted => ht text ⟨hsubmitted, ?_⟩) site.world h
        have hoperator := arrival.request.minimumRole_of_submitted hsubmitted
        rwa [← Option.some.inj (hrole.symm.trans hoperator)]
      · rw [Site.call_denied hrole hdenied]
        exact h

/-- RUN: so does a sequence of calls. -/
theorem Site.calls_within (calls : List (Call V P T)) {site : Site lib V J T}
    (h : site.world.Within s texts) (ht : ∀ x ∈ calls, ∀ text, x.Submits policy text → texts text) :
    (site.calls s policy calls).2.world.Within s texts := by
  induction calls generalizing site with
  | nil => exact h
  | cons x calls ih =>
    exact ih (Site.call_within h (ht x List.mem_cons_self))
      fun y hy => ht y (List.mem_cons_of_mem x hy)

omit [CommRing T] [LinearOrder T] in
theorem booted_within (b : Backend) : (World.booted lib V J b).Within s texts where
  executed _ hx := absurd hx List.not_mem_nil
  sound := RunStore.sound_empty b
  record id record hget := absurd ((RunStore.getRun_empty b id).symm.trans hget) (by simp)
  version _ _ hget := nomatch hget
  queued _ hm := absurd hm List.not_mem_nil
  webhook _ _ hget := nomatch hget
  schedule _ _ hget := nomatch hget

/-- INVARIANT (provenance): whatever was called and whatever failed, every definition that was executed,
    and every one that is stored, pinned, queued or registered, was submitted in one of the calls by
    someone whose key lets them operate. -/
theorem definitions_submitted (s : Service V P J) (a : AccessSettings T) (b : Backend)
    (calls : List (Call V P T)) :
    let site : Site lib V J T := ⟨World.booted lib V J b, a.rateLimiter⟩
    (site.calls s a.authPolicy calls).2.world.Within s
      fun text => ∃ x ∈ calls, x.Submits a.authPolicy text := by
  intro site
  exact Site.calls_within calls (booted_within b) fun x hx text h => ⟨x, hx, h⟩

end Calls

end WorkflowEngine
