import WorkflowEngine.Service.Backends
import WorkflowEngine.Service.Reading

/-! What a run was answered can be read again.

    The answer to a request that ran a workflow is what the run endpoint shows of that run, directly
    after the request and for as long as no run is saved under the same id. -/

namespace WorkflowEngine
open Schemes Prog

variable {D P V J : Type} {lib : YamlLibrary D P}

/-! ### The record and the answer -/

/-- A store of kind `b` shows the result of a run as this record. -/
structure RunRecord.Matches (column : JsonColumn J P) (b : Backend) (record : RunRecord P)
    (result : RunResult P) : Prop where
  runId : record.runId = result.runId
  workflow : record.workflowName = result.workflow
  status : record.status = result.status
  stepStatuses : record.stepStatuses.Same result.stepStatuses
  results : ∀ id, record.results.get id = b.text (result.results.get id)
  errors : ∀ id, record.errors.get id = b.text (result.errors.get id)
  deadLetters : record.deadLetters = b.letters column result.deadLetters
  versionHash : record.versionHash = result.versionHash

/-- The result that an answer carries. -/
def Answer.result? : Answer P → Option (RunResult P)
  | .dispatched (.sync result) => some result
  | .ran result => some result
  | _ => none

variable [PyValue V]

/-- The world shows the result: the run's record and its events are as in the result. -/
def World.Shows (s : Service V P J) (w : World lib V J) (result : RunResult P) : Prop :=
  (∃ record, w.runs.getRun s.column result.runId = some record ∧
    record.Matches s.column w.runs.backend result) ∧
    result.events = some (w.events.list result.runId)

section Shows
variable {s : Service V P J} {w w' : World lib V J}

theorem matches_shown (store : RunStore P J) (x : Execution lib V) {call : RunCall V P}
    {version : Option WorkflowVersion} (hversion : x.versionHash = version.map (·.contentHash)) :
    (store.shown s.column x.args x.id).Matches s.column store.backend (call.result x version) := by
  have hkeeps := store.keeps_shown x.covered s.column x.id
  exact ⟨hkeeps.runId, hkeeps.workflowName, hkeeps.status, hkeeps.stepStatuses, hkeeps.results,
    hkeeps.errors, hkeeps.deadLetters, hkeeps.versionHash.trans hversion⟩

/-! ### Messages name their runs -/

/-- Every message that was ever enqueued names its run. -/
def World.Named (w : World lib V J) : Prop := ∀ m ∈ w.queue, m.runId ≠ some ""

theorem runWorkflow_queue (s : Service V P J) (c : Circumstances V P) (call : RunCall V P)
    (w : World lib V J) : (runWorkflow s c call w).2.queue = w.queue := by
  have hleaves := runWorkflow_cases s c call w
  generalize (runWorkflow s c call w).1 = r at hleaves
  generalize (runWorkflow s c call w).2 = w' at hleaves
  cases hleaves with
  | finished _ _ _ recorded => rw [recorded]; split_ifs <;> rfl
  | _ => rfl

theorem dispatch_named {c : Circumstances V P} (hc : c.Drawn) (call : DispatchCall) :
    Prog.Keeps World.Named (dispatch s c call : Program lib V J (DispatchResult P)) := by
  intro w hw
  have hrun : ∀ call, (runWorkflow s c call w).2.Named := fun call => by
    rw [World.Named, runWorkflow_queue]; exact hw
  have hleaves := dispatch_cases s c call w
  generalize (dispatch s c call w).1 = r at hleaves
  generalize (dispatch s c call w).2 = w' at hleaves
  cases hleaves with
  | unpinned | undelivered | unhashable | unlocked | locked => exact hw
  | enqueued =>
    intro m hm
    rcases List.mem_append.mp hm with hm | hm
    · exact hw m hm
    · rw [List.mem_singleton.mp hm]
      exact fun he => idOr_ne_empty (hc .run) (Option.some.inj he)
  | ran | unreleased => exact hrun _

/-- RUN: it stays so. -/
theorem named_after {w : World lib V J} (hw : w.Named) (arrivals : List (Arrival V P))
    (hdrawn : ∀ a ∈ arrivals, ∀ k, (a.circumstances k).Drawn) : (w.after s arrivals).Named := by
  have hserve : ∀ a ∈ arrivals,
      Survives s a.circumstances a.request fun _ => (World.Named : World lib V J → Prop) := by
    intro a ha
    have hrun : ∀ (c : Circumstances V P) (call : RunCall V P),
        Prog.Keeps World.Named (runWorkflow s c call : Program lib V J (RunResult P)) :=
      fun c call w hw => by rw [World.Named, runWorkflow_queue]; exact hw
    exact
      { next := fun hw => hw
        claimed := fun _ hw => hw
        store := fun _ hw => hw
        webhooks := fun _ hw => hw
        fresh := fun _ _ hw => dispatch_named (hdrawn a ha _) _ _ hw
        rerun := fun _ _ hw => dispatch_named (hdrawn a ha _) _ _ hw
        due := fun _ hw => hrun _ _ _ hw
        delivered := fun _ hw =>
          Prog.Keeps.bind (ensureVersion_keeps fun _ hw => hw) (fun _ => hrun _ _) _ hw }
  induction arrivals using List.reverseRecOn with
  | nil => exact hw
  | append_singleton past a ih =>
    rw [World.after_concat]
    have hpast := ih (fun b hb => hdrawn b (List.mem_append_left _ hb)) fun b hb =>
      hserve b (List.mem_append_left _ hb)
    exact ((hserve a (by simp)).serve _ hpast).choose_spec

/-! ### An answer shows what was saved -/

/-- The run store is sound, and every message names its run. -/
def World.Orderly (w : World lib V J) : Prop := w.runs.Sound ∧ w.Named

/-- What the service shows once a program has returned an answer. -/
abbrev Shown {α : Type} (s : Service V P J) (result? : α → Option (RunResult P))
    (m : Program lib V J α) : Prop :=
  Yields World.Orderly (fun a w => ∀ result ∈ result? a, w.Shows s result) m

def DispatchResult.result? : DispatchResult P → Option (RunResult P)
  | .async _ _ => none
  | .sync result => some result

variable {c : Circumstances V P}

/-- SPEC: a versioned and recorded call with a trace of its own. -/
theorem runWorkflow_shown (hc : c.Drawn) {call : RunCall V P} (hcall : call.OwnTrace)
    (hversioned : call.versioned = true) (hrecorded : call.recorded = true)
    (htrace : call.trace.isSome) :
    Shown s some (runWorkflow s c call : Program lib V J (RunResult P)) := by
  intro w result w' hw hrun result' hresult
  obtain rfl := Option.some.inj hresult
  have hleaves := runWorkflow_cases s c call w
  rw [hrun] at hleaves
  obtain ⟨trace, runId, hnamed⟩ := named_eq call (c.uuid .trace)
  have hsome : (call.named (c.uuid .trace)).trace.isSome := by
    unfold RunCall.named
    cases ht : call.trace with
    | none => rw [ht] at htrace; exact absurd htrace (by simp)
    | some t => rfl
  have hflags : (call.named (c.uuid .trace)).versioned = true ∧
      (call.named (c.uuid .trace)).recorded = true := by
    rw [hnamed]
    exact ⟨hversioned, hrecorded⟩
  generalize hcase : Except.ok result = answer at hleaves
  cases hleaves with
  | unpinnable | unhashable | rejected | unsaved | unrecorded => exact absurd hcase (by simp)
  | @finished text version x events chosen pinned runs recorded =>
    obtain rfl := Except.ok.inj hcase
    subst recorded
    rw [if_pos ⟨hflags.2, hsome⟩]
    have hpin : ((call.named (c.uuid .trace)).pin w text).runs.Sound := hw.1
    obtain ⟨v, rfl⟩ : ∃ v, version = some v := by
      cases pinned with
      | put => exact ⟨_, rfl⟩
      | free hfree => exact absurd (hfree.symm.trans hflags.1) (by simp)
    have hmatches : (w.runs.shown s.column x.args x.id).Matches s.column w.runs.backend
        ((call.named (c.uuid .trace)).result x (some v)) := matches_shown w.runs x runs.hash
    have hbackend : (w.recordRun s x.toFinishedRun).runs.backend = w.runs.backend :=
      RunStore.backend_saveRun
    rw [← hbackend] at hmatches
    refine ⟨⟨_, ?_, hmatches⟩, ?_⟩
    · change ((call.named (c.uuid .trace)).pin w text).runs.saveRun s.column x.args x.uuid
        |>.1.getRun s.column x.id = _
      rw [RunStore.getRun_saveRun hpin]
      exact if_pos rfl
    · have htraced := hcall.traced (hc .trace) runs
      obtain ⟨t, ht⟩ := Option.isSome_iff_exists.mp hsome
      change (call.named (c.uuid .trace)).trace.map _ = some ((w.events.save x.id x.events).list x.id)
      rw [htraced.list_save, if_pos rfl, ht]
      rfl

theorem runInline_shown (hc : c.Drawn) (call : DispatchCall) {runId : String} (hid : runId ≠ "") :
    Shown s DispatchResult.result?
      (runInline s c call runId : Program lib V J (DispatchResult P)) :=
  (runWorkflow_shown hc (call.ownTrace_runCall hid) rfl rfl rfl).map fun _ _ h => h

theorem dispatch_shown (hc : c.Drawn) (call : DispatchCall) :
    Shown s DispatchResult.result? (dispatch s c call : Program lib V J (DispatchResult P)) := by
  have hid : idOr call.runId (c.uuid .run) ≠ "" := idOr_ne_empty (hc .run)
  rcases hasync : call.async s with _ | _
  · rcases hlock : s.lockingEnabled with _ | _
    · rw [dispatch_inline hasync hlock]
      exact runInline_shown hc call hid
    · rw [dispatch_locked hasync hlock]
      refine Yields.bind (.lift _) fun _ => Yields.bind (attempt_keeps _) fun _ => ?_
      split_ifs
      · exact (runInline_shown hc call hid).ensure fun _ => rfl
      · exact Yields.raise _
  · rw [dispatch_async hasync]
    refine Yields.handle_raise fun w a w' _ hrun result hresult => ?_
    -- a message was enqueued, and the answer carries no result
    obtain ⟨version, t, -, hrest⟩ := bind_ok.mp hrun
    obtain ⟨-, u, -, hrest⟩ := bind_ok.mp hrest
    obtain ⟨ha, -⟩ := Prod.mk.inj hrest
    rw [← Except.ok.inj ha] at hresult
    exact absurd hresult (by simp [DispatchResult.result?])

theorem orInvalid_shown {α : Type} {result? : α → Option (RunResult P)} {m : Program lib V J α}
    (hm : Shown s result? m) : Shown s result? (orInvalid m) := hm.handle_raise

theorem orPersistence_shown {α : Type} {result? : α → Option (RunResult P)} {m : Program lib V J α}
    (hm : Shown s result? m) : Shown s result? (orPersistence m) := hm.handle_raise

theorem claimIdempotency_orderly (ns : String) (key : Option String) :
    Prog.Keeps World.Orderly (claimIdempotency c ns key : Program lib V J Unit) :=
  claimIdempotency_keeps fun _ _ _ hw => hw

/-- Other answers carry no result. -/
theorem shown_of_none {α : Type} {m : Program lib V J α} {f : α → Answer P}
    (h : ∀ a, (f a).result? = none) : Shown s Answer.result? (do let a ← m; return f a) := by
  refine Yields.trivial.map fun a w _ result hresult => ?_
  rw [h a] at hresult
  exact absurd hresult (by simp)

theorem dispatched_shown {m : Program lib V J (DispatchResult P)}
    (hm : Shown s DispatchResult.result? m) :
    Shown s Answer.result? (do let run ← m; return .dispatched run) := by
  refine hm.map fun run w h result hresult => h result ?_
  cases run with
  | async => exact absurd hresult (by simp [Answer.result?])
  | sync => exact hresult

/-- STEP: a request. -/
theorem serve_shown {cs : ℕ → Circumstances V P} (hc : ∀ k, (cs k).Drawn)
    (request : ServiceRequest) :
    Shown s Answer.result? (serve s cs request : Program lib V J (Answer P)) := by
  have hdispatch : ∀ call, Shown s DispatchResult.result?
      (dispatch s (cs 0) call : Program lib V J (DispatchResult P)) :=
    dispatch_shown (hc 0)
  cases request with
  | validate | registerWebhook | createSchedule | deleteSchedule | runDue | beat =>
    exact shown_of_none fun _ => rfl
  | run text asyncDispatch key =>
    exact dispatched_shown (Yields.bind checkAccess_keeps fun _ => orPersistence_shown
      (orInvalid_shown (Yields.bind (claimIdempotency_orderly _ key) fun _ => hdispatch _)))
  | rerun runId asyncDispatch =>
    refine dispatched_shown (orPersistence_shown (Yields.bind checkAccess_keeps fun _ =>
      Yields.bind (attempt_keeps _) fun _ => Yields.bind (.view _) fun record => ?_))
    cases record with
    | none => exact Yields.raise _
    | some record =>
      dsimp only
      split_ifs
      · exact Yields.raise _
      · exact orInvalid_shown (hdispatch _)
  | triggerWebhook name body signature key =>
    exact dispatched_shown (orPersistence_shown (Yields.bind (findWebhook_keeps name) fun trigger =>
      Yields.bind (checkSignature_keeps name body signature) fun _ =>
        Yields.bind (claimIdempotency_orderly _ key) fun _ => orInvalid_shown (hdispatch _)))
  | deliver i =>
    intro w a w' hw hrun
    rw [serve, view_bind_run] at hrun
    rcases hm : w.queue[i]? with _ | m
    · rw [hm] at hrun
      rw [← Except.ok.inj (Prod.mk.inj hrun).1]
      exact fun result hresult => absurd hresult (by simp [Answer.result?])
    · rw [hm] at hrun
      have hmessage : Shown s some (runWorkflowTask s (cs 0) m : Program lib V J (RunResult P)) :=
        Yields.bind (ensureVersion_keeps fun _ hw => hw) fun _ => runWorkflow_shown (hc 0)
          (m.ownTrace_runCall (hw.2 m (List.mem_of_getElem? hm))) rfl rfl rfl
      have hanswer : Shown s Answer.result?
          (do let result ← runWorkflowTask s (cs 0) m; return .ran result) :=
        hmessage.map fun _ _ h => h
      exact hanswer w a w' hw hrun

/-! ### Until the next save -/

/-- Runs were saved under these ids only, and all other ids show what they showed. -/
structure World.SavedOnly (s : Service V P J) (w w' : World lib V J) (ids : List String) : Prop where
  sound : w'.runs.Sound
  backend : w'.runs.backend = w.runs.backend
  saved : w'.saved = w.saved ++ ids
  run : ∀ id, id ∉ ids → w'.runs.getRun s.column id = w.runs.getRun s.column id
  events : ∀ id, id ∉ ids → w'.events.list id = w.events.list id

theorem World.SavedOnly.recordRun {ids : List String} (h : w.SavedOnly s w' ids)
    (x : FinishedRun V P) : w.SavedOnly s (w'.recordRun s x) (ids ++ [x.id]) where
  sound := h.sound.saveRun
  backend := RunStore.backend_saveRun.trans h.backend
  saved := (congrArg (· ++ [x.id]) h.saved).trans (List.append_assoc ..)
  run id hid := by
    rw [List.mem_append, not_or, List.mem_singleton] at hid
    refine Eq.trans ?_ (h.run id hid.1)
    rw [World.recordRun]
    dsimp only
    rw [RunStore.getRun_saveRun h.sound]
    exact if_neg hid.2
  events id hid := h.events id fun hmem => hid (List.mem_append_left _ hmem)

/-- A save of events changes what is listed under no other id. -/
theorem list_save_ne (store : EventStore) {runId id : String} (events : List ExecutionEvent)
    (h : id ≠ runId) : (store.save runId events).list id = store.list id := by
  cases store with
  | memory records => rw [EventStore.save, EventStore.list, Dict.get_set, if_neg h]; rfl
  | database rows =>
    have hnew : (events.map fun e => e.row runId).filter (fun r => r.runId = id) = [] := by
      simp [List.filter_eq_nil_iff, ExecutionEvent.row, h.symm]
    rw [EventStore.save, EventStore.list, List.filter_append, hnew, List.append_nil,
      List.filter_filter, EventStore.list]
    congr 2
    refine List.filter_congr fun r _ => ?_
    by_cases hr : r.runId = id <;> simp [hr, h]

/-- Worlds in which, since `w`, only the recorded saves have changed anything that a run shows. -/
theorem savedOnly_lasts (s : Service V P J) (w : World lib V J) :
    Lasts s fun w' => ∃ ids, w.SavedOnly s w' ids where
  version _ h := h.imp fun _ h => ⟨h.sound, h.backend, h.saved, h.run, h.events⟩
  queue _ h := h.imp fun _ h => ⟨h.sound, h.backend, h.saved, h.run, h.events⟩
  ran _ h := h.imp fun _ h => ⟨h.sound, h.backend, h.saved, h.run, h.events⟩
  run {w' x} _ := by
    rintro ⟨ids, h⟩
    exact ⟨_, h.recordRun x.toFinishedRun⟩
  events {w' x} _ := by
    rintro ⟨ids, h⟩
    have hrun := h.recordRun x.toFinishedRun
    refine ⟨_, hrun.sound, hrun.backend, hrun.saved, hrun.run, fun id hid => ?_⟩
    refine (list_save_ne _ _ fun he => hid ?_).trans (hrun.events id hid)
    exact List.mem_append_right _ (List.mem_singleton.mpr he)
  schedules _ h := h.imp fun _ h => ⟨h.sound, h.backend, h.saved, h.run, h.events⟩
  webhooks _ h := h.imp fun _ h => ⟨h.sound, h.backend, h.saved, h.run, h.events⟩

theorem World.Shows.later {result : RunResult P} {ids : List String} (h : w.Shows s result)
    (hlater : w.SavedOnly s w' ids) (hid : result.runId ∉ ids) : w'.Shows s result := by
  obtain ⟨⟨record, hget, hmatches⟩, hevents⟩ := h
  refine ⟨⟨record, ?_, ?_⟩, ?_⟩
  · rw [hlater.run _ hid, hget]
  · rw [hlater.backend]; exact hmatches
  · rw [hlater.events _ hid, hevents]

/-- CORRECT (answers): what a request was answered about a run is what the run endpoint shows,
    until a run is saved under the same id; the database shows it without empty texts, and its dead
    letters as they come out of the JSON column. -/
theorem answers_last (s : Service V P J) (b : Backend) (pre post : List (Arrival V P))
    (a : Arrival V P) (hdrawn : ∀ x ∈ pre ++ a :: post, ∀ k, (x.circumstances k).Drawn)
    {answer : Answer P} {result : RunResult P}
    (hanswer : (a.exchange s ((World.booted lib V J b).after s pre)).answer = .ok answer)
    (hresult : answer.result? = some result)
    (hsaved : result.runId ∉ ((World.booted lib V J b).after s (pre ++ a :: post)).saved.drop
      ((World.booted lib V J b).after s (pre ++ [a])).saved.length)
    (r : ReadCircumstances) (granted : r.Granted) :
    ∃ record events,
      (getWorkflowRun s r result.runId ((World.booted lib V J b).after s (pre ++ a :: post))).1 =
        .ok (record, events) ∧ record.Matches s.column b result ∧ result.events = some events := by
  have hnamed : ((World.booted lib V J b).after s pre).Named :=
    named_after (fun _ hm => absurd hm List.not_mem_nil) pre fun x hx =>
      hdrawn x (List.mem_append_left _ hx)
  have hshows : ((World.booted lib V J b).after s (pre ++ [a])).Shows s result := by
    rw [World.after_concat]
    exact serve_shown (hdrawn a (by simp)) a.request _ answer _
      ⟨(recorded_after s b pre).sound, hnamed⟩
      (Prod.ext hanswer rfl) result hresult
  obtain ⟨ids, hlater⟩ := (savedOnly_lasts s ((World.booted lib V J b).after s (pre ++ [a]))).after
    ⟨[], (recorded_after s b _).sound, rfl, (List.append_nil _).symm, fun _ _ => rfl,
      fun _ _ => rfl⟩ post
  rw [← World.after_append, ← List.append_cons] at hlater
  rw [hlater.saved, List.drop_left] at hsaved
  obtain ⟨⟨record, hget, hmatches⟩, hevents⟩ := hshows.later hlater hsaved
  rw [backend_after] at hmatches
  exact ⟨record, _, congrArg Prod.fst (getWorkflowRun_some granted hget), hmatches, hevents⟩

end Shows

/-- A definition was run, and run again under another id. -/
theorem ranEtl_lasts : ∃ record events,
    (getWorkflowRun etlService {} "1-run" ((World.booted etlLibrary String _ .database).after
      etlService [ranEtl "1", ranEtl "2"])).1 = .ok (record, events) ∧ record.workflowName = "etl" := by
  have hdrawn : ∀ x ∈ [ranEtl "1", ranEtl "2"], ∀ k, (x.circumstances k).Drawn := by
    intro x hx k
    rcases List.mem_pair.mp hx with rfl | rfl <;> exact calm_drawn (by decide)
  obtain ⟨result, hanswer, hid, hworkflow⟩ : ∃ result, ((ranEtl "1").exchange etlService
      (World.booted etlLibrary String _ .database)).answer = .ok (.dispatched (.sync result)) ∧
      result.runId = "1-run" ∧ result.workflow = "etl" := ⟨_, rfl, rfl, rfl⟩
  have hsaved : ((World.booted etlLibrary String (List (DeadLetter Unit)) .database).after etlService
      [ranEtl "1", ranEtl "2"]).saved.drop 1 = ["2-run"] := rfl
  obtain ⟨record, events, hget, hmatches, -⟩ := answers_last etlService .database [] [ranEtl "2"]
    (ranEtl "1") hdrawn hanswer rfl
    (fun hmem => absurd (List.mem_singleton.mp (hsaved ▸ hid ▸ hmem)) (by decide)) {}
    granted_default
  rw [hid] at hget
  exact ⟨record, events, hget, hmatches.workflow.trans hworkflow⟩

end WorkflowEngine
