import WorkflowEngine.Service.Requests
import WorkflowEngine.Service.Recording

/-! The events of a run carry its id.

    Every call that the service makes of the runner has a fresh trace, of the run that the call is
    for. So the events that are saved under an id are numbered and name that id, and both event
    stores give them back as they were. -/

namespace WorkflowEngine
open Schemes

variable {D P V J : Type} {lib : YamlLibrary D P}

/-- A trace of one run. -/
structure TraceContext.Of (t : TraceContext) (id : String) : Prop where
  runId : t.runId = some id
  numbered : t.Numbered
  named : ∀ e ∈ t.events, e.runId = some id

theorem TraceContext.Of.emit {t : TraceContext} {id : String} (h : t.Of id) (kind : EventKind)
    (stepId : Option String) (attempt : Option ℕ) (details : List (String × String)) :
    (t.emit kind stepId attempt details).Of id where
  runId := h.runId
  numbered := h.numbered.emit kind stepId attempt details
  named e he := by
    rcases List.mem_append.mp he with he | he
    · exact h.named e he
    · rw [List.mem_singleton.mp he]
      exact h.runId

/-- A run's events are of the run its trace is of. -/
theorem WorkflowExecutor.of_replay {E : WorkflowExecutor V P} {id : String}
    (h : ∀ t ∈ E.trace, t.Of id) (log : List (Action V P)) :
    ∀ t ∈ (E.replay log).trace, t.Of id := by
  induction log using List.reverseRecOn with
  | nil => exact h
  | append_singleton log a ih =>
    rw [E.replay_concat]
    intro t ht
    cases a with
    | trace kind stepId attempt details =>
      obtain ⟨t', ht', rfl⟩ := Option.map_eq_some_iff.mp ht
      exact (ih t' ht').emit kind stepId attempt details
    | emit id =>
      rw [act, perform_emit] at ht
      exact ih t ht
    | _ => exact ih t ht

variable [PyValue V]

namespace FinishedRun
variable {x : FinishedRun V P}

/-- The run's trace is of the id it is saved under. -/
def Traced (x : FinishedRun V P) : Prop := ∀ t ∈ x.executor.trace, t.Of x.id

theorem Traced.of_records (h : x.Traced) : ∀ t ∈ x.records.trace, t.Of x.id := by
  obtain ⟨-, hreplay⟩ :=
    WorkflowExecutor.ended_of_finishes (acyclic_of_accepted x.accepted) x.finished
  have hof := WorkflowExecutor.of_replay h x.records.log
  rwa [hreplay] at hof

theorem Traced.sorted (h : x.Traced) :
    x.events.Pairwise fun e e' => e.sequence ≤ e'.sequence := by
  have hof := h.of_records
  rw [FinishedRun.events]
  cases ht : x.records.trace with
  | none => exact List.Pairwise.nil
  | some t => exact (hof t (by rw [ht]; rfl)).numbered.sorted

/-- Both event stores give back the events as they were. -/
theorem Traced.shown (h : x.Traced) (store : EventStore) : store.shown x.id x.events = x.events := by
  cases store with
  | memory records => rfl
  | database rows =>
    have hnamed : ∀ e ∈ x.events, e.runId = some x.id := by
      have hof := h.of_records
      rw [FinishedRun.events]
      cases ht : x.records.trace with
      | none => exact fun e he => absurd he List.not_mem_nil
      | some t => exact (hof t (by rw [ht]; rfl)).named
    rw [EventStore.shown]
    refine (List.map_congr_left fun e he => ?_).trans (List.map_id _)
    rw [← hnamed e he]
    rfl

/-- SPEC: after the events of a run are saved, they are listed under its id, and every other id lists
    what it listed. -/
theorem Traced.list_save (h : x.Traced) (store : EventStore) (id : String) :
    (store.save x.id x.events).list id = if id = x.id then x.events else store.list id := by
  rw [EventStore.list_save h.sorted, h.shown]

end FinishedRun

/-! ### The calls of the service -/

omit [PyValue V] in
theorem idOr_ne_empty {runId : Option String} {uuid : String} (huuid : uuid ≠ "") :
    idOr runId uuid ≠ "" := by
  rw [idOr]
  cases h : truthy runId with
  | none => exact huuid
  | some r => exact truthy_ne_empty h

/-- A call with a trace, if any, that is fresh and of the call's own run. -/
structure RunCall.OwnTrace (call : RunCall V P) : Prop where
  runId : call.runId ≠ some ""
  trace : ∀ t ∈ call.trace, t.runId = call.runId ∧ t.events = []

/-- Every drawn id is a nonempty text. -/
def Circumstances.Drawn (c : Circumstances V P) : Prop := ∀ draw, c.uuid draw ≠ ""

section Calls
variable {s : Service V P J} {c : Circumstances V P} {call : RunCall V P}

theorem RunCall.OwnTrace.traced (h : call.OwnTrace) {uuid text : String} {hash : Option String}
    {x : Execution lib V} (huuid : uuid ≠ "")
    (runs : (call.named uuid).Runs s c text hash x) : x.toFinishedRun.Traced := by
  intro t ht
  rw [runs.executor] at ht
  have hid := runs.runId
  unfold RunCall.named at ht hid
  cases hcall : call.trace with
  | none => rw [hcall] at ht; exact absurd ht (by simp [RunCall.executor, hcall])
  | some t₀ =>
    obtain ⟨hrun, hevents⟩ := h.trace t₀ (by rw [hcall]; rfl)
    rw [hcall] at ht hid
    obtain rfl := Option.some.inj ht
    -- the trace, the call and the record get one id, which is not empty
    obtain ⟨r, hr, hne⟩ : ∃ r, t₀.runId.getD (idOr call.runId uuid) = r ∧ r ≠ "" := by
      cases hc : call.runId with
      | none => exact ⟨uuid, by rw [hrun, hc]; rfl, huuid⟩
      | some r => exact ⟨r, by rw [hrun, hc]; rfl, fun he => h.runId (by rw [hc, he])⟩
    have hx : x.runId = some r := by
      rw [hid, ← hr]
      cases hc : call.runId with
      | none => rfl
      | some r' => rw [hrun, hc]; rfl
    have hxid : x.id = r := by
      rw [FinishedRun.id, FinishedRun.args, SaveArgs.chosenId, hx]
      exact if_neg hne
    rw [hxid]
    refine TraceContext.Of.emit ⟨congrArg some hr, ?_, fun e he => ?_⟩ ..
    · rw [TraceContext.Numbered, hevents]
      rfl
    · rw [hevents] at he
      exact absurd he List.not_mem_nil

omit [PyValue V] in
theorem ownTrace_dueCall (text : String) : (dueCall s text : RunCall V P).OwnTrace where
  runId := by simp [dueCall]
  trace t ht := by
    obtain rfl := Option.some.inj ht
    exact ⟨rfl, rfl⟩

theorem DispatchCall.ownTrace_runCall {call : DispatchCall} {runId : String} (h : runId ≠ "") :
    (call.runCall s c runId).OwnTrace where
  runId he := h (Option.some.inj he)
  trace t ht := by
    obtain rfl := Option.some.inj ht
    exact ⟨rfl, rfl⟩

omit [PyValue V] in
theorem Message.ownTrace_runCall {m : Message} (h : m.runId ≠ some "") :
    (m.runCall s : RunCall V P).OwnTrace where
  runId := h
  trace t ht := by
    obtain rfl := Option.some.inj ht
    exact ⟨rfl, rfl⟩

end Calls

end WorkflowEngine
