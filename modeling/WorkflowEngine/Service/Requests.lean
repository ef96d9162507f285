import WorkflowEngine.Service.Endpoints
import WorkflowEngine.Schemes.History

/-! Sequences of requests.

    What a request leaves is put together from what its dispatches leave (`DispatchCall.Leaves`), so a
    property of the world that survives the parts of a request survives the request (`Survives`). A
    transcript is what a sequence of requests did and was answered, one after the other. -/

namespace WorkflowEngine
open Schemes

variable {D P V J : Type} {lib : YamlLibrary D P} [PyValue V]

section Parts
variable {s : Service V P J} {c : Circumstances V P} {w : World lib V J} {α : Type}
  {I I' : World lib V J → Prop}

/-! ### Handlers -/

theorem orInvalid_leads {m : Program lib V J α} (h : Prog.Leads I I' m) :
    Prog.Leads I I' (orInvalid m) := by
  intro w hw
  rw [orInvalid_run]
  exact h w hw

theorem orPersistence_leads {m : Program lib V J α} (h : Prog.Leads I I' m) :
    Prog.Leads I I' (orPersistence m) := by
  intro w hw
  rw [orPersistence_run]
  exact h w hw

theorem attempt_keeps (op : Operation) : Prog.Keeps I (attempt c op : Program lib V J Unit) :=
  .lift _

theorem checkAccess_keeps : Prog.Keeps I (checkAccess c : Program lib V J Unit) := by
  unfold checkAccess
  cases c.denied with
  | none => exact .pure ()
  | some denial => exact .lift _

theorem findWebhook_keeps (name : String) :
    Prog.Keeps I (findWebhook c name : Program lib V J WebhookTrigger) := by
  refine checkAccess_keeps.bind fun _ => (attempt_keeps _).bind fun _ =>
    (Prog.Keeps.view _).bind fun trigger => ?_
  cases trigger with
  | none => exact .lift _
  | some trigger => exact .pure _

theorem checkSignature_keeps (name : String) (body : List UInt8) (signature : Option String) :
    Prog.Keeps I (checkSignature s c name body signature : Program lib V J Unit) := by
  refine Prog.Keeps.bind ?_ fun accepted => ?_
  · refine (attempt_keeps _).bind fun _ => (Prog.Keeps.view _).bind fun trigger => ?_
    cases trigger with
    | none => exact .pure _
    | some trigger => exact .lift _
  · cases accepted with
    | false => exact .lift _
    | true => exact .pure ()

theorem claim_keeps {ns key : String} (hkey : key ≠ "") (h : ∀ w, I w → I (w.claimed ns key)) :
    Prog.Keeps I (claim c ns key : Program lib V J Bool) := by
  intro w hw
  rcases claim_cases c w ns hkey with ⟨e, he, -⟩ | ⟨he, -⟩ | ⟨he, -⟩ <;> rw [he]
  · exact hw
  · exact hw
  · exact h w hw

theorem claimIdempotency_keeps {ns : String} {key : Option String}
    (h : ∀ k, truthy key = some k → ∀ w, I w → I (w.claimed ns k)) :
    Prog.Keeps I (claimIdempotency c ns key : Program lib V J Unit) := by
  intro w hw
  have hclaims := claimIdempotency_cases c w ns key
  generalize (claimIdempotency c ns key w).1 = r at hclaims
  generalize (claimIdempotency c ns key w).2 = w' at hclaims
  cases hclaims with
  | keyless | failed | refused => exact hw
  | granted given => exact h _ given w hw

/-! ### What a dispatch leaves -/

/-- The message that `_dispatch` enqueues once it has put the version `contentHash`. -/
def DispatchCall.message (s : Service V P J) (call : DispatchCall) (runId contentHash : String) :
    Message :=
  ⟨call.yamlDefinition, some runId, some ((truthy call.versionHash).getD contentHash),
    some s.concurrencyLimit⟩

/-- What a dispatch leaves of the world, and what it answers. -/
inductive DispatchCall.Leaves (s : Service V P J) (c : Circumstances V P) (call : DispatchCall)
    (runId : String) (w : World lib V J) : Except Exn (DispatchResult P) → World lib V J → Prop
  | unpinned {e : Exn} : Leaves s c call runId w
      (.error (.http 503 s!"Async dispatch failed: {e.text}" "dispatch_failed")) w
  | undelivered {e : Exn} : Leaves s c call runId w
      (.error (.http 503 s!"Async dispatch failed: {e.text}" "dispatch_failed"))
      (w.withVersion call.yamlDefinition)
  | enqueued {hash : String} (hash_ok : lib.canonicalYamlHash call.yamlDefinition = .ok hash) :
      Leaves s c call runId w (.ok (.async runId hash))
        { w.withVersion call.yamlDefinition with queue := w.queue ++ [call.message s runId hash] }
  | unhashable {e : Exn} (why : lib.canonicalYamlHash call.yamlDefinition = .error e) :
      Leaves s c call runId w (.error e) w
  | unlocked {e : Exn} (fails : c.fails .acquire = some e) : Leaves s c call runId w (.error e) w
  | locked : Leaves s c call runId w
      (.error (.http 409 "Workflow is already running" "lock_conflict")) w
  | ran : Leaves s c call runId w ((runWorkflow s c (call.runCall s c runId) w).1.map .sync)
      (runWorkflow s c (call.runCall s c runId) w).2
  | unreleased {e : Exn} (fails : c.fails .release = some e) : Leaves s c call runId w (.error e)
      (runWorkflow s c (call.runCall s c runId) w).2

theorem dispatch_cases (s : Service V P J) (c : Circumstances V P) (call : DispatchCall)
    (w : World lib V J) : call.Leaves s c (idOr call.runId (c.uuid .run)) w
      (dispatch s c call w).1 (dispatch s c call w).2 := by
  rcases hasync : call.async s with _ | _
  · rcases hlock : s.lockingEnabled with _ | _
    · rw [dispatch_inline hasync hlock, runInline_run]
      exact .ran
    · rw [dispatch_locked hasync hlock, runLocked]
      rcases hhash : lib.canonicalYamlHash call.yamlDefinition with e | hash
      · exact .unhashable hhash
      · rw [Prog.lift_ok_bind_run]
        rcases hacquire : c.fails .acquire with _ | e
        · rw [Prog.bind_of_ok (attempt_of_none hacquire)]
          split_ifs
          · rw [Prog.ensure, runInline_run]
            rcases hrelease : c.fails .release with _ | e
            · rw [attempt_of_none hrelease]
              exact .ran
            · rw [attempt_of_some hrelease]
              exact .unreleased hrelease
          · exact .locked
        · rw [Prog.bind_of_error (attempt_of_some hacquire)]
          exact .unlocked hacquire
  · rw [dispatch_async hasync, Prog.handle_raise_run, enqueue]
    rcases putVersion_cases c .dispatchPut w call.yamlDefinition with ⟨e, hput, -⟩ |
      ⟨version, hput, hash, -⟩
    · rw [Prog.bind_of_error hput]
      exact .unpinned
    · rw [Prog.bind_of_ok hput]
      rcases hdelay : c.fails .delay with _ | e
      · rw [Prog.bind_of_ok (attempt_of_none hdelay)]
        exact .enqueued hash
      · rw [Prog.bind_of_error (attempt_of_some hdelay)]
        exact .undelivered

theorem ensureVersion_keeps {m : Message} (h : ∀ w, I w → I (w.withVersion m.yamlDefinition)) :
    Prog.Keeps I (ensureVersion c m : Program lib V J Unit) := by
  unfold ensureVersion
  cases m.versionHash with
  | none => exact .pure ()
  | some versionHash =>
    refine (attempt_keeps _).bind fun _ => (Prog.Keeps.view _).bind fun version => ?_
    cases version with
    | some version => exact .pure ()
    | none =>
      refine Prog.Keeps.bind (fun w hw => ?_) fun _ => .pure ()
      rcases putVersion_cases c .workerPut w m.yamlDefinition with ⟨e, hput, -⟩ |
        ⟨version, hput, -⟩ <;> rw [hput]
      · exact hw
      · exact h w hw

/-- A rerun dispatches the record of its run, if there is one. -/
theorem rerunWorkflow_leads {runId : String} {asyncDispatch : Bool} (stays : ∀ w, I w → I' w)
    (h : ∀ w record, w.runs.getRun s.column runId = some record → I w → I' (dispatch s c
      { yamlDefinition := record.yamlDefinition, runId := some runId, forceAsync := asyncDispatch,
        versionHash := record.versionHash } w).2) :
    Prog.Leads I I' (rerunWorkflow s c runId asyncDispatch) := by
  refine orPersistence_leads (Prog.Leads.bind checkAccess_keeps stays fun _ =>
    Prog.Leads.bind (attempt_keeps _) stays fun _ => ?_)
  intro w hw
  rw [Prog.view_bind_run]
  rcases hget : w.runs.getRun s.column runId with _ | record
  · exact stays w hw
  · dsimp only
    split_ifs
    · exact stays w hw
    · rw [orInvalid_run]
      exact h w record hget hw

/-! ### What a run and a dispatch raise -/

/-- An exception of a store, of the broker or of the lock provider, or of the libraries that read
    definitions. -/
inductive Foreign (lib : YamlLibrary D P) (c : Circumstances V P) (e : Exn) : Prop
  | operation {op : Operation} (fails : c.fails op = some e)
  | hash {text : String} (h : lib.canonicalYamlHash text = .error e)
  | load {text : String} (h : lib.loadWorkflowYaml text = .error e)

def notFound (hash : String) : String := s!"Workflow version '{hash}' not found"

/-- What a call of the runner raises. -/
inductive RunCall.Raised (c : Circumstances V P) (call : RunCall V P) (w : World lib V J) (e : Exn) :
    Prop
  | foreign (h : Foreign lib c e)
  | unversioned (versioned : call.versioned = false)
      (h : e = .value "version_hash requires a workflow version store")
  | missing {hash : String} (pinned : call.versionHash = some hash)
      (missing : w.versions.get hash = none) (h : e = .value (notFound hash))
  | registry {names : String} (h : e = .value s!"Tasks not found in registry: {names}")

/-- What a dispatch raises. -/
inductive DispatchCall.Raised (s : Service V P J) (c : Circumstances V P) (call : DispatchCall)
    (w : World lib V J) (e : Exn) : Prop
  | undispatched {detail : String} (h : e = .http 503 detail "dispatch_failed")
  | locked (h : e = .http 409 "Workflow is already running" "lock_conflict")
  | run {runId : String} (h : (call.runCall s c runId).Raised c w e)

variable {e : Exn}

theorem Foreign.plain (h : Foreign lib c e) : e.isHttp = false := by
  rcases h with hf | hh | hl
  · exact c.plain _ _ hf
  · exact YamlLibrary.hash_plain hh
  · exact YamlLibrary.load_plain hl

/-- The runner raises nothing of HTTP. -/
theorem RunCall.Raised.plain {call : RunCall V P} (h : call.Raised c w e) : e.isHttp = false := by
  rcases h with hf | ⟨-, rfl⟩ | ⟨-, -, rfl⟩ | rfl
  · exact hf.plain
  all_goals rfl

theorem runWorkflow_raised {call : RunCall V P} (h : (runWorkflow s c call w).1 = .error e) :
    call.Raised c w e := by
  obtain ⟨trace, runId, hnamed⟩ := named_eq call (c.uuid .trace)
  have hleaves := runWorkflow_cases s c call w
  rw [h, hnamed] at hleaves
  generalize (runWorkflow s c call w).2 = w' at hleaves
  cases hleaves with
  | unpinnable why =>
    cases why with
    | store _ hfree => exact .unversioned hfree rfl
    | failed hf => exact .foreign (.operation hf)
    | missing hpin hmissing => exact .missing hpin hmissing rfl
  | unhashable _ _ why =>
    rcases why with hno | ⟨-, hf⟩
    · exact .foreign (.hash hno)
    · exact .foreign (.operation hf)
  | rejected _ _ why =>
    cases why with
    | load hload => exact .foreign (.load hload)
    | registry _ hmissing =>
      unfold WorkflowExecutor.validateRegistry at hmissing
      dsimp only at hmissing
      split_ifs at hmissing
      exact .registry (congrArg Exn.value (Except.error.inj hmissing).symm)
  | unsaved _ _ _ hf | unrecorded _ _ _ hf => exact .foreign (.operation hf)

theorem dispatch_raised {call : DispatchCall} (h : (dispatch s c call w).1 = .error e) :
    call.Raised s c w e := by
  have hforeign : Foreign lib c e → call.Raised s c w e := fun hf =>
    .run (show (call.runCall s c "").Raised c w e from .foreign hf)
  have hleaves := dispatch_cases s c call w
  rw [h] at hleaves
  generalize he : (Except.error e : Except Exn (DispatchResult P)) = r at hleaves
  generalize (dispatch s c call w).2 = w' at hleaves
  cases hleaves with
  | unpinned | undelivered => exact .undispatched (Except.error.inj he)
  | locked => exact .locked (Except.error.inj he)
  | enqueued => exact absurd he (by simp)
  | unhashable why => exact hforeign (.hash (Except.error.inj he ▸ why))
  | unlocked hf | unreleased hf => exact hforeign (.operation (Except.error.inj he ▸ hf))
  | ran =>
    rcases hrun : (runWorkflow s c (call.runCall s c (idOr call.runId (c.uuid .run))) w).1 with
      e' | result
    · rw [hrun] at he
      obtain rfl := Except.error.inj he
      exact .run (runWorkflow_raised hrun)
    · rw [hrun] at he
      exact absurd he (by simp [Except.map])

end Parts

/-! ### What survives a request -/

/-- The namespace and the key that a request carries. -/
def ServiceRequest.key : ServiceRequest → Option (String × String)
  | .run _ _ key => (truthy key).map fun k => ("workflow:run", k)
  | .triggerWebhook name _ _ key => (truthy key).map fun k => ("webhook:" ++ name, k)
  | _ => none

/-- A request claims its own key, and a tick claims fire times. -/
def ServiceRequest.Claims (request : ServiceRequest) (claim : String × String) : Prop :=
  request.key = some claim ∨ ∃ name, claim.1 = "schedule:" ++ name

/-- `K k` survives the parts of a request, when `k` counts its dispatches. -/
structure Survives (s : Service V P J) (cs : ℕ → Circumstances V P) (request : ServiceRequest)
    (K : ℕ → World lib V J → Prop) : Prop where
  next : ∀ {k w}, K k w → K (k + 1) w
  claimed : ∀ {k w ns key}, request.Claims (ns, key) → K k w → K k (w.claimed ns key)
  store : ∀ {k w} (store : ScheduleStore), K k w →
    K k { w with schedules := { w.schedules with store := store } }
  webhooks : ∀ {k w} (webhooks : Dict String WebhookTrigger), K k w →
    K k { w with webhooks := webhooks }
  fresh : ∀ {k w} (text : String) (asyncDispatch : Bool), K k w → K (k + 1)
    (dispatch s (cs k) { yamlDefinition := text, forceAsync := asyncDispatch } w).2
  rerun : ∀ {w runId record} (asyncDispatch : Bool), w.runs.getRun s.column runId = some record →
    K 0 w → K 1 (dispatch s (cs 0)
      { yamlDefinition := record.yamlDefinition, runId := some runId, forceAsync := asyncDispatch,
        versionHash := record.versionHash } w).2
  due : ∀ {k w} (text : String), K k w → K (k + 1) (runWorkflow s (cs k) (dueCall s text) w).2
  delivered : ∀ {w} {m : Message}, m ∈ w.queue → K 0 w → K 1 (runWorkflowTask s (cs 0) m w).2

namespace Survives
variable {s : Service V P J} {cs : ℕ → Circumstances V P} {request : ServiceRequest}
  {K : ℕ → World lib V J → Prop}

/-- The property holds after some number of dispatches. -/
def Eventually (K : ℕ → World lib V J → Prop) (w : World lib V J) : Prop := ∃ k, K k w

theorem dispatchDueLoop_leads (h : Survives s cs request K)
    {dispatch : Circumstances V P → String → Program lib V J String}
    (hdispatch : ∀ k text, Prog.Leads (K k) (K (k + 1)) (dispatch (cs k) text)) (now : Datetime) :
    ∀ (k : ℕ) (todo : List Handle) (dispatched : List (String × String)),
      Prog.Leads (K k) (Eventually K) (dispatchDueLoop s cs dispatch now k todo dispatched)
  | k, [], dispatched => (Prog.Keeps.pure _).leads fun _ hw => ⟨k, hw⟩
  | k, x :: todo, dispatched => by
    refine Prog.Leads.bind (.view _) (fun _ hw => ⟨k, hw⟩) fun sched => ?_
    refine Prog.Leads.bind ?_ (fun _ hw => ⟨k, hw⟩) fun granted => ?_
    · exact claim_keeps (fireText_ne_empty _) fun w hw => h.claimed (.inr ⟨_, rfl⟩) hw
    · have hrest := dispatchDueLoop_leads h hdispatch now (k + 1) todo
      cases granted with
      | false => exact fun w hw => hrest dispatched w (h.next hw)
      | true =>
        -- the dispatch leads to the next round, and what follows it keeps that
        intro w hw
        have hw' := hdispatch k sched.yamlDefinition w hw
        rcases hrun : dispatch (cs k) sched.yamlDefinition w with ⟨e | runId, w'⟩
        · rw [hrun] at hw'
          rw [if_pos rfl, Prog.bind_of_error hrun]
          exact ⟨k + 1, hw'⟩
        · rw [hrun] at hw'
          rw [if_pos rfl, Prog.bind_of_ok hrun]
          refine Prog.Leads.bind (I := K (k + 1)) (attempt_keeps _) (fun _ hw => ⟨k + 1, hw⟩)
            (fun _ => ?_) w' hw'
          exact Prog.Leads.bind (.change fun _ hw => h.store _ hw) (fun _ hw => ⟨k + 1, hw⟩)
            fun _ => hrest _

theorem dispatchDue_leads (h : Survives s cs request K)
    {dispatch : Circumstances V P → String → Program lib V J String}
    (hdispatch : ∀ k text, Prog.Leads (K k) (K (k + 1)) (dispatch (cs k) text)) (now : Datetime) :
    Prog.Leads (K 0) (Eventually K) (dispatchDue s cs dispatch now) :=
  Prog.Leads.bind (attempt_keeps _) (fun _ hw => ⟨0, hw⟩) fun _ =>
    Prog.Leads.bind (.view _) (fun _ hw => ⟨0, hw⟩) fun todo =>
      h.dispatchDueLoop_leads hdispatch now 0 todo []

/-- A program followed by one that only looks at its value. -/
theorem answer_leads {α β : Type} {I I' : World lib V J → Prop} {m : Program lib V J α}
    (hm : Prog.Leads I I' m) (f : α → β) :
    Prog.Leads I I' (do let a ← m; pure (f a)) := hm.bind_keeps fun _ => .pure _

theorem fresh_leads (h : Survives s cs request K) (text : String) (asyncDispatch : Bool) :
    Prog.Leads (K 0) (Eventually K)
      (dispatch s (cs 0) { yamlDefinition := text, forceAsync := asyncDispatch }) :=
  fun _ hw => ⟨1, h.fresh text asyncDispatch hw⟩

theorem rerun_leads (h : Survives s cs request K) (runId : String) (asyncDispatch : Bool) :
    Prog.Leads (K 0) (Eventually K) (rerunWorkflow s (cs 0) runId asyncDispatch) :=
  rerunWorkflow_leads (fun _ hw => ⟨0, hw⟩) fun _ _ hget hw => ⟨1, h.rerun asyncDispatch hget hw⟩

theorem createSchedule_keeps (h : Survives s cs request K) (name cron text : String)
    (now : Datetime) : Prog.Keeps (K 0) (createSchedule s (cs 0) name cron text now) := by
  refine checkAccess_keeps.bind fun _ => ?_
  split_ifs
  · refine orPersistence_leads (orInvalid_leads (Prog.Keeps.bind (.lift _) fun _ =>
      Prog.Keeps.bind (.view _) fun registered => ?_))
    cases registered with
    | error e => exact .lift _
    | ok store => exact (attempt_keeps _).bind fun _ => .change fun _ hw => h.store _ hw
  · exact .lift _

theorem deleteSchedule_keeps (h : Survives s cs request K) (name : String) :
    Prog.Keeps (K 0) (deleteSchedule (cs 0) name) := by
  refine orPersistence_leads (checkAccess_keeps.bind fun _ => (attempt_keeps _).bind fun _ =>
    Prog.Keeps.bind (.view _) fun unregistered => ?_)
  refine Prog.Keeps.bind (.change fun _ hw => h.store _ hw) fun _ => ?_
  split_ifs
  · exact .pure ()
  · exact .lift _

theorem validateWorkflow_keeps {I : World lib V J → Prop} (c : Circumstances V P) (text : String) :
    Prog.Keeps I (validateWorkflow s c text) := by
  refine checkAccess_keeps.bind fun _ => orInvalid_leads ?_
  refine Prog.Keeps.bind (.lift _) fun workflow => ?_
  dsimp only
  split
  · exact .lift _
  · exact .pure _

/-- What survives the parts of a request survives the request. -/
theorem serve (h : Survives s cs request K) :
    Prog.Leads (K 0) (Eventually K) (WorkflowEngine.serve s cs request) := by
  have stays : ∀ w, K 0 w → Eventually K w := fun _ hw => ⟨0, hw⟩
  cases request with
  | validate text => exact answer_leads ((validateWorkflow_keeps _ text).leads stays) _
  | run text asyncDispatch key =>
    refine answer_leads (Prog.Leads.bind checkAccess_keeps stays fun _ =>
      orPersistence_leads (orInvalid_leads (Prog.Leads.bind ?_ stays fun _ => ?_))) _
    · refine claimIdempotency_keeps fun k hk w hw => h.claimed (.inl ?_) hw
      rw [ServiceRequest.key, hk, Option.map_some]
    · exact h.fresh_leads text asyncDispatch
  | rerun runId asyncDispatch => exact answer_leads (h.rerun_leads runId asyncDispatch) _
  | registerWebhook name text description secret =>
    refine answer_leads (Prog.Keeps.leads (checkAccess_keeps.bind fun _ =>
      orPersistence_leads (orInvalid_leads ?_)) stays) _
    exact Prog.Keeps.bind (.lift _) fun _ => (attempt_keeps _).bind fun _ =>
      .change fun _ hw => h.webhooks _ hw
  | triggerWebhook name body signature key =>
    refine answer_leads (orPersistence_leads (Prog.Leads.bind (findWebhook_keeps name) stays
      fun trigger => Prog.Leads.bind (checkSignature_keeps name body signature) stays fun _ =>
        Prog.Leads.bind ?_ stays fun _ => orInvalid_leads ?_)) _
    · refine claimIdempotency_keeps fun k hk w hw => h.claimed (.inl ?_) hw
      rw [ServiceRequest.key, hk, Option.map_some]
    · exact h.fresh_leads trigger.yamlDefinition false
  | createSchedule name cron text now =>
    exact answer_leads ((h.createSchedule_keeps name cron text now).leads stays) _
  | deleteSchedule name => exact answer_leads ((h.deleteSchedule_keeps name).leads stays) _
  | runDue now =>
    refine answer_leads (orPersistence_leads (Prog.Leads.bind checkAccess_keeps stays fun _ =>
      h.dispatchDue_leads (fun k text => ?_) now)) _
    exact answer_leads (fun _ hw => h.fresh text false hw) _
  | beat now =>
    refine answer_leads (h.dispatchDue_leads (fun k text => ?_) now) _
    exact answer_leads (fun _ hw => h.due text hw) _
  | deliver i =>
    intro w hw
    rw [WorkflowEngine.serve, Prog.view_bind_run]
    rcases hget : w.queue[i]? with _ | m
    · exact ⟨0, hw⟩
    · exact answer_leads (fun w' hw' => ⟨1, hw'⟩) _ w
        (h.delivered (List.mem_of_getElem? hget) hw)

end Survives

/-! ### Transcripts -/

/-- A request, and the circumstances in which it is served. -/
structure Arrival (V P : Type) [PyValue V] where
  request : ServiceRequest
  circumstances : ℕ → Circumstances V P

/-- A request that was served. -/
structure Exchange {D P : Type} (lib : YamlLibrary D P) (V J : Type) [PyValue V] extends
    Arrival V P where
  before : World lib V J
  answer : Except Exn (Answer P)
  after : World lib V J

/-- Serve a request. -/
def Arrival.exchange (x : Arrival V P) (s : Service V P J) (w : World lib V J) :
    Exchange lib V J where
  toArrival := x
  before := w
  answer := (serve s x.circumstances x.request w).1
  after := (serve s x.circumstances x.request w).2

/-- The world after these requests. -/
def World.after (s : Service V P J) (w : World lib V J) (arrivals : List (Arrival V P)) :
    World lib V J :=
  arrivals.foldl (fun w x => (x.exchange s w).after) w

/-- Serve these requests, one after the other. -/
def transcript (s : Service V P J) : World lib V J → List (Arrival V P) → List (Exchange lib V J)
  | _, [] => []
  | w, x :: arrivals => x.exchange s w :: transcript s (x.exchange s w).after arrivals

section Transcripts
variable (s : Service V P J) (w : World lib V J)

theorem World.after_concat (arrivals : List (Arrival V P)) (x : Arrival V P) :
    w.after s (arrivals ++ [x]) = (x.exchange s (w.after s arrivals)).after := by
  rw [World.after, List.foldl_append]
  rfl

theorem transcript_concat (arrivals : List (Arrival V P)) (x : Arrival V P) :
    transcript s w (arrivals ++ [x]) =
      transcript s w arrivals ++ [x.exchange s (w.after s arrivals)] := by
  induction arrivals generalizing w with
  | nil => rfl
  | cons a arrivals ih =>
    rw [List.cons_append, transcript, ih]
    rfl

theorem World.after_append (pre post : List (Arrival V P)) :
    w.after s (pre ++ post) = (w.after s pre).after s post :=
  List.foldl_append

variable {s w} in
/-- Every exchange of a transcript is that of a request in the world that the earlier ones left. -/
theorem exists_of_mem_transcript {arrivals : List (Arrival V P)} {x : Exchange lib V J}
    (hx : x ∈ transcript s w arrivals) : ∃ pre a post, arrivals = pre ++ a :: post ∧
      x = a.exchange s (w.after s pre) := by
  induction arrivals generalizing w with
  | nil => exact absurd hx (by simp [transcript])
  | cons a arrivals ih =>
    rcases List.mem_cons.mp hx with rfl | hx
    · exact ⟨[], a, arrivals, rfl, rfl⟩
    · obtain ⟨pre, b, post, rfl, rfl⟩ := ih hx
      exact ⟨a :: pre, b, post, rfl, rfl⟩

end Transcripts

end WorkflowEngine
