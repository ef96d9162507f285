import WorkflowEngine.Service.Runner
import WorkflowEngine.Schemes.History
import Mathlib.Logic.Function.Basic

/-! A run's record and its events, written by calls that overlap.

    A call of `run_workflow` writes its record and then its events, each in one atomic step that may
    fail, and reruns write under an id that other calls use too. What the stores show under an id was
    written by the last call that wrote each of them (`Shows`); the two calls are the same one as long
    as no call writes its events over those of a later record. -/

namespace WorkflowEngine
open Schemes

variable {V P J ι : Type} [PyValue V]

/-! ### Traces -/

/-- Events are numbered from 1. -/
def TraceContext.Numbered (t : TraceContext) : Prop :=
  t.events.map ExecutionEvent.sequence = List.range' 1 t.events.length

theorem TraceContext.Numbered.emit {t : TraceContext} (h : t.Numbered) (kind : EventKind)
    (stepId : Option String) (attempt : Option ℕ) (details : List (String × String)) :
    (t.emit kind stepId attempt details).Numbered := by
  rw [TraceContext.Numbered, TraceContext.emit, List.map_append, h, List.length_append,
    List.length_singleton, List.range'_1_concat, Nat.add_comm 1]
  rfl

theorem TraceContext.Numbered.sorted {t : TraceContext} (h : t.Numbered) :
    t.events.Pairwise fun e e' => e.sequence ≤ e'.sequence := by
  refine List.pairwise_map.mp ?_
  rw [h]
  exact (List.pairwise_lt_range' 1).imp Nat.le_of_lt

omit [PyValue V] in
/-- A run numbers its events. -/
theorem WorkflowExecutor.numbered_replay {E : WorkflowExecutor V P} (h : ∀ t ∈ E.trace, t.Numbered)
    (log : List (Action V P)) : ∀ t ∈ (E.replay log).trace, t.Numbered := by
  induction log using List.reverseRecOn with
  | nil => exact h
  | append_singleton log a ih =>
    rw [E.replay_concat]
    intro t ht
    cases a with
    | trace kind stepId attempt details =>
      obtain ⟨t', ht', rfl⟩ := Option.map_eq_some_iff.mp ht
      exact (ih t' ht').emit kind stepId attempt details
    | emit id =>
      rw [act, perform_emit] at ht
      exact ih t ht
    | _ => exact ih t ht

/-- A call of `run_workflow` with a trace and an event store, once its execution has returned. -/
structure TracedRun (V P : Type) [PyValue V] extends FinishedRun V P where
  numbered : ∀ t ∈ executor.trace, t.Numbered

theorem TracedRun.events_sorted (x : TracedRun V P) :
    x.events.Pairwise fun e e' => e.sequence ≤ e'.sequence := by
  obtain ⟨-, hreplay⟩ :=
    WorkflowExecutor.ended_of_finishes (acyclic_of_accepted x.accepted) x.finished
  have hnumbered := WorkflowExecutor.numbered_replay x.numbered x.records.log
  rw [hreplay] at hnumbered
  rw [FinishedRun.events]
  cases ht : x.records.trace with
  | none => exact List.Pairwise.nil
  | some t => exact (hnumbered t (by rw [ht]; rfl)).sorted

/-- An event without its run id, which the database takes from the key. -/
def ExecutionEvent.unnamed (e : ExecutionEvent) : ExecutionEvent := { e with runId := none }

/-! ### Overlapping calls -/

/-- Where a call stands. -/
inductive Stage where
  | running -- it has not written yet
  | saved -- its record is written, its events are not
  | ended
  deriving DecidableEq

/-- One atomic step of a call: the write succeeds, or it raises and the call ends. -/
inductive Write (ι : Type) where
  | saveRun (i : ι) (ok : Bool)
  | saveEvents (i : ι) (ok : Bool)

/-- The two stores and the calls' stages. `runBy` and `eventsBy` are the calls that wrote last under
    an id. -/
structure Recorder (ι P J : Type) where
  runs : RunStore P J
  events : EventStore
  stage : ι → Stage := fun _ => .running
  runBy : String → Option ι := fun _ => none
  eventsBy : String → Option ι := fun _ => none

namespace Recorder
variable [DecidableEq ι] (column : JsonColumn J P) (calls : ι → TracedRun V P)

/-- The effect of one step. -/
def write (u : Recorder ι P J) : Write ι → Recorder ι P J
  | .saveRun i true =>
    { u with runs := (u.runs.saveRun column (calls i).args (calls i).uuid).1
             stage := Function.update u.stage i .saved
             runBy := Function.update u.runBy (calls i).id (some i) }
  | .saveEvents i true =>
    { u with events := u.events.save (calls i).id (calls i).events
             stage := Function.update u.stage i .ended
             eventsBy := Function.update u.eventsBy (calls i).id (some i) }
  | .saveRun i false | .saveEvents i false => { u with stage := Function.update u.stage i .ended }

/-- A call writes its record once, and then, if that succeeded, its events once. -/
def Possible (u : Recorder ι P J) : Write ι → Prop
  | .saveRun i _ => u.stage i = .running
  | .saveEvents i _ => u.stage i = .saved

/-- The stores after these steps, from empty ones. -/
def after (b b' : Backend) (writes : List (Write ι)) : Recorder ι P J :=
  writes.foldl (write column calls) { runs := .empty b, events := .empty b' }

/-- The steps come in an order in which calls can make them. -/
def Legal (b b' : Backend) (writes : List (Write ι)) : Prop :=
  History.Each (fun pre a => Possible (after column calls b b' pre) a) writes

/-- The condition: a call writes its events only while the record under its id is its own or that of a
    call that has yet to write its events, and it fails to write them only if the record under its
    id is not its own. -/
def InTime (u : Recorder ι P J) : Write ι → Prop
  | .saveRun _ _ => True
  | .saveEvents i true => ∀ k, u.runBy (calls i).id = some k → k = i ∨ u.stage k ≠ .ended
  | .saveEvents i false => u.runBy (calls i).id ≠ some i

/-- Once the call that wrote the record under an id has ended, the events are its own. -/
def Together (u : Recorder ι P J) : Prop :=
  ∀ id i, u.runBy id = some i → u.stage i = .ended → u.eventsBy id = some i

/-- No call is between its two writes. -/
def Settled (u : Recorder ι P J) : Prop := ∀ i, u.stage i ≠ .saved

/-! ### What the stores show -/

/-- The invariant: the stores show what the last writers wrote, under their ids. -/
structure Shows (u : Recorder ι P J) : Prop where
  sound : u.runs.Sound
  runBy : ∀ id i, u.runBy id = some i → (calls i).id = id ∧ u.stage i ≠ .running
  eventsBy : ∀ id i, u.eventsBy id = some i → (calls i).id = id ∧ u.stage i = .ended
  runs : ∀ id, u.runs.getRun column id =
    (u.runBy id).map fun i => u.runs.shown column (calls i).args id
  events : ∀ id, u.events.list id = (u.eventsBy id).elim [] fun i => u.events.shown id (calls i).events

variable {column} {calls} {u : Recorder ι P J}

/-- A call that moves on is not running. -/
theorem Shows.runBy_move (h : Shows column calls u) {i : ι} {stage : Stage}
    (hstage : stage ≠ .running) {id : String} {k : ι} (hk : u.runBy id = some k) :
    (calls k).id = id ∧ Function.update u.stage i stage k ≠ .running := by
  refine ⟨(h.runBy id k hk).1, ?_⟩
  rw [Function.update_apply]
  split_ifs
  · exact hstage
  · exact (h.runBy id k hk).2

/-- A call that moves on is not one that has written its events. -/
theorem Shows.eventsBy_move (h : Shows column calls u) {i : ι} {stage : Stage}
    (hi : u.stage i ≠ .ended) {id : String} {k : ι} (hk : u.eventsBy id = some k) :
    (calls k).id = id ∧ Function.update u.stage i stage k = .ended := by
  obtain ⟨hid, hended⟩ := h.eventsBy id k hk
  refine ⟨hid, ?_⟩
  rw [Function.update_apply, if_neg (by rintro rfl; exact hi hended)]
  exact hended

theorem Shows.saveRun (h : Shows column calls u) {i : ι} (hi : u.stage i ≠ .ended) :
    Shows column calls (Recorder.write column calls u (.saveRun i true)) := by
  have hsaved : Stage.saved ≠ .running := by simp
  refine ⟨h.sound.saveRun, fun id k hk => ?_, fun _ _ => h.eventsBy_move hi, fun id => ?_,
    h.events⟩
  · change Function.update u.runBy (calls i).id (some i) id = some k at hk
    rw [Function.update_apply] at hk
    split_ifs at hk with hid
    · obtain rfl := Option.some.inj hk
      exact ⟨hid.symm, by simp [Recorder.write]⟩
    · exact h.runBy_move hsaved hk
  · change (u.runs.saveRun column (calls i).args (calls i).uuid).1.getRun column id =
      (Function.update u.runBy (calls i).id (some i) id).map _
    rw [RunStore.getRun_saveRun h.sound, Function.update_apply, FinishedRun.id]
    split_ifs with hid
    · exact congrArg some RunStore.shown_saveRun.symm
    · simp only [h.runs, Recorder.write, RunStore.shown_saveRun]

theorem Shows.saveEvents (h : Shows column calls u) {i : ι} (hi : u.stage i ≠ .ended) :
    Shows column calls (Recorder.write column calls u (.saveEvents i true)) := by
  have hended : Stage.ended ≠ .running := by simp
  refine ⟨h.sound, fun _ _ => h.runBy_move hended, fun id k hk => ?_, h.runs, fun id => ?_⟩
  · change Function.update u.eventsBy (calls i).id (some i) id = some k at hk
    rw [Function.update_apply] at hk
    split_ifs at hk with hid
    · obtain rfl := Option.some.inj hk
      exact ⟨hid.symm, by simp [Recorder.write]⟩
    · exact h.eventsBy_move hi hk
  · change (u.events.save (calls i).id (calls i).events).list id =
      (Function.update u.eventsBy (calls i).id (some i) id).elim [] _
    rw [EventStore.list_save (calls i).events_sorted, Function.update_apply]
    split_ifs with hid
    · rw [← hid]; exact EventStore.shown_save.symm
    · simp only [h.events, Recorder.write, EventStore.shown_save]

theorem Shows.write (h : Shows column calls u) {a : Write ι} (possible : Possible u a) :
    Shows column calls (write column calls u a) := by
  have hended : Stage.ended ≠ .running := by simp
  cases a with
  | saveRun i ok =>
    have hi : u.stage i ≠ .ended := by rw [show u.stage i = .running from possible]; simp
    cases ok with
    | false =>
      exact ⟨h.sound, fun _ _ => h.runBy_move hended, fun _ _ => h.eventsBy_move hi, h.runs,
        h.events⟩
    | true => exact h.saveRun hi
  | saveEvents i ok =>
    have hi : u.stage i ≠ .ended := by rw [show u.stage i = .saved from possible]; simp
    cases ok with
    | false =>
      exact ⟨h.sound, fun _ _ => h.runBy_move hended, fun _ _ => h.eventsBy_move hi, h.runs,
        h.events⟩
    | true => exact h.saveEvents hi

/-! ### Whether they belong together -/

theorem Together.write (h : Shows column calls u) (ht : Together u) {a : Write ι}
    (possible : Possible u a) (hin : InTime calls u a) :
    Together (Recorder.write column calls u a) := by
  cases a with
  | saveRun i ok =>
    have hi : u.stage i = .running := possible
    cases ok with
    | false =>
      intro id k hk hended
      refine ht id k hk ?_
      have hne : k ≠ i := by rintro rfl; exact (h.runBy id k hk).2 hi
      exact (Function.update_of_ne hne _ _).symm.trans hended
    | true =>
      intro id k hk hended
      have hne : k ≠ i := by rintro rfl; simp [Recorder.write] at hended
      change Function.update u.runBy (calls i).id (some i) id = some k at hk
      rw [Function.update_apply] at hk
      split_ifs at hk with hid
      · exact absurd (Option.some.inj hk) hne.symm
      · exact ht id k hk ((Function.update_of_ne hne _ _).symm.trans hended)
  | saveEvents i ok =>
    cases ok with
    | false =>
      intro id k hk hended
      have hne : k ≠ i := by
        rintro rfl
        obtain ⟨rfl, -⟩ := h.runBy id k hk
        exact hin hk
      exact ht id k hk ((Function.update_of_ne hne _ _).symm.trans hended)
    | true =>
      intro id k hk hended
      change Function.update u.eventsBy (calls i).id (some i) id = some k
      rcases eq_or_ne k i with rfl | hne
      · obtain ⟨rfl, -⟩ := h.runBy id k hk
        exact Function.update_self ..
      · have hstage : u.stage k = .ended := (Function.update_of_ne hne _ _).symm.trans hended
        have hid : id ≠ (calls i).id := by
          rintro rfl
          rcases hin k hk with rfl | hno
          · exact hne rfl
          · exact hno hstage
        exact (Function.update_of_ne hid _ _).trans (ht id k hk hstage)

/-- A step that is not in time leaves events that belong to another call than the record. -/
theorem Shows.spoil (h : Shows column calls u) {a : Write ι} (possible : Possible u a)
    (hin : ¬ InTime calls u a) : ¬ Together (Recorder.write column calls u a) := by
  intro ht
  cases a with
  | saveRun i ok => exact hin trivial
  | saveEvents i ok =>
    have hi : u.stage i = .saved := possible
    cases ok with
    | false =>
      obtain hrun : u.runBy (calls i).id = some i := not_not.mp hin
      have hevents := ht (calls i).id i hrun (Function.update_self ..)
      exact absurd ((h.eventsBy _ i hevents).2.symm.trans hi) (by simp)
    | true =>
      simp only [InTime, not_forall, not_or, not_not] at hin
      obtain ⟨k, hk, hne, hended⟩ := hin
      have hevents := ht (calls i).id k hk ((Function.update_of_ne hne _ _).trans hended)
      have hself : Function.update u.eventsBy (calls i).id (some i) (calls i).id = some i :=
        Function.update_self ..
      exact hne (Option.some.inj (hevents.symm.trans hself))

/-! ### Every run -/

variable (column calls) (b b' : Backend)

theorem after_concat (pre : List (Write ι)) (a : Write ι) :
    after column calls b b' (pre ++ [a]) =
      Recorder.write column calls (after column calls b b' pre) a := by
  rw [after, List.foldl_append]
  rfl

omit [DecidableEq ι] in
theorem shows_start : Shows column calls
    ({ runs := .empty b, events := .empty b' } : Recorder ι P J) where
  sound := RunStore.sound_empty b
  runBy _ _ h := by simp at h
  eventsBy _ _ h := by simp at h
  runs id := RunStore.getRun_empty b id
  events _ := by cases b' <;> rfl

theorem shows_after {writes : List (Write ι)} (h : Legal column calls b b' writes) :
    Shows column calls (after column calls b b' writes) := by
  induction writes using List.reverseRecOn with
  | nil => exact shows_start column calls b b'
  | append_singleton writes a ih =>
    rw [after_concat]
    exact (ih (h.of_prefix (List.prefix_append _ _))).write (h writes a [] rfl)

/-- EXACT (overlapping calls): the events under every id whose writer has ended belong to the record
    at every moment, if and only if every step is in time. -/
theorem together_iff {writes : List (Write ι)} (h : Legal column calls b b' writes) :
    (∀ pre, pre <+: writes → Together (after column calls b b' pre)) ↔
      History.Each (fun pre a => InTime calls (after column calls b b' pre) a) writes := by
  refine History.each_iff_good (Legal column calls b b')
    (fun pre => Shows column calls (after column calls b b' pre) ∧
      Together (after column calls b b' pre))
    (fun _ _ hl => hl.of_prefix (List.prefix_append _ _))
    ⟨shows_start column calls b b', fun _ _ hk => by simp [after] at hk⟩
    (fun _ hinv => hinv.2) (fun pre a hl hinv hin => ?_) (fun pre a hl hinv hin => ?_) writes h
  · rw [after_concat]
    exact ⟨hinv.1.write (hl pre a [] rfl), hinv.2.write hinv.1 (hl pre a [] rfl) hin⟩
  · rw [after_concat]
    exact hinv.1.spoil (hl pre a [] rfl) hin

variable {column calls}

/-- Events that a store gives back are those that were saved, up to the run id. -/
theorem shown_unnamed (store : EventStore) (id : String) (events : List ExecutionEvent) :
    (store.shown id events).map ExecutionEvent.unnamed = events.map ExecutionEvent.unnamed := by
  cases store with
  | memory => rfl
  | database => rw [EventStore.shown, List.map_map]; rfl

omit [DecidableEq ι] in
theorem Shows.agree (h : Shows column calls u) (ht : Together u) (hs : Settled u) {id : String}
    {r : RunRecord P} (hr : u.runs.getRun column id = some r) : ∃ i, (calls i).id = id ∧
      r.stepStatuses.Same (calls i).records.statuses ∧
      (u.events.list id).map ExecutionEvent.unnamed =
        (calls i).events.map ExecutionEvent.unnamed := by
  rw [h.runs] at hr
  obtain ⟨i, hi, rfl⟩ := Option.map_eq_some_iff.mp hr
  have hended : u.stage i = .ended := by
    have hstarted := (h.runBy id i hi).2
    have hsettled := hs i
    cases hst : u.stage i <;> simp_all
  refine ⟨i, (h.runBy id i hi).1, (RunStore.shown_fields _ id).2.2, ?_⟩
  rw [h.events, ht id i hi hended]
  exact shown_unnamed ..

/-- EXACT (events of a record): as long as every step is in time, whenever no call is
    between its two writes, the events under the id of a stored run are those of the execution whose
    statuses the run shows; and the steps are in time exactly if at every moment the events under an
    id whose writer has ended belong to the record. -/
theorem events_of_record (column : JsonColumn J P) (calls : ι → TracedRun V P) (b b' : Backend)
    (writes : List (Write ι)) (legal : Legal column calls b b' writes) :
    (History.Each (fun pre a => InTime calls (after column calls b b' pre) a) writes →
      ∀ pre, pre <+: writes → Settled (after column calls b b' pre) → ∀ id r,
        (after column calls b b' pre).runs.getRun column id = some r → ∃ i, (calls i).id = id ∧
          r.stepStatuses.Same (calls i).records.statuses ∧
          ((after column calls b b' pre).events.list id).map ExecutionEvent.unnamed =
            (calls i).events.map ExecutionEvent.unnamed) ∧
    ((∀ pre, pre <+: writes → Together (after column calls b b' pre)) ↔
      History.Each (fun pre a => InTime calls (after column calls b b' pre) a) writes) := by
  have hiff := together_iff column calls b b' legal
  refine ⟨fun hin pre hpre hs id r hr => ?_, hiff⟩
  exact (shows_after column calls b b' (legal.of_prefix hpre)).agree (hiff.mpr hin pre hpre) hs hr

/-! ### The two steps of `run_workflow` -/

omit [PyValue V] in
theorem numbered_named {call : RunCall V P} {t : TraceContext} (ht : call.trace = some t)
    (h : t.Numbered) (uuid : String) : ∃ t', (call.named uuid).trace = some t' ∧ t'.Numbered := by
  rw [RunCall.named, ht]
  exact ⟨_, rfl, h⟩

/-- A call that is given a trace and an event store does not touch the two stores, or changes them by
    its steps. -/
theorem runWorkflow_writes {D : Type} {lib : YamlLibrary D P} (s : Service V P J)
    (c : Circumstances V P) {call : RunCall V P} (w : World lib V J) {t : TraceContext}
    (ht : call.trace = some t) (numbered : t.Numbered) (recorded : call.recorded = true) :
    ((runWorkflow s c call w).2.runs = w.runs ∧ (runWorkflow s c call w).2.events = w.events) ∨
    ∃ (x : TracedRun V P) (writes : List (Write Unit)),
      writes ∈ [[.saveRun () false], [.saveRun () true, .saveEvents () false],
        [.saveRun () true, .saveEvents () true]] ∧
      (writes.foldl (write s.column fun _ => x) { runs := w.runs, events := w.events }).runs =
        (runWorkflow s c call w).2.runs ∧
      (writes.foldl (write s.column fun _ => x) { runs := w.runs, events := w.events }).events =
        (runWorkflow s c call w).2.events := by
  obtain ⟨t', ht', hnumbered⟩ := numbered_named ht numbered (c.uuid .trace)
  obtain ⟨trace, runId, hnamed⟩ := named_eq call (c.uuid .trace)
  have htraced : ∀ {text hash} {x : Execution lib V},
      (call.named (c.uuid .trace)).Runs s c text hash x → ∀ t ∈ x.executor.trace, t.Numbered := by
    intro text hash x runs t hx
    rw [runs.executor, RunCall.executor, ht'] at hx
    obtain rfl := Option.some.inj hx
    exact hnumbered.emit ..
  have hleaves := runWorkflow_cases s c call w
  generalize (runWorkflow s c call w).1 = r at hleaves
  generalize (runWorkflow s c call w).2 = w' at hleaves
  cases hleaves with
  | unpinnable | unhashable | rejected => exact .inl ⟨rfl, rfl⟩
  | unsaved _ _ runs =>
    exact .inr ⟨⟨_, htraced runs⟩, [.saveRun () false], by simp, rfl, rfl⟩
  | unrecorded _ _ runs =>
    exact .inr ⟨⟨_, htraced runs⟩, [.saveRun () true, .saveEvents () false], by simp, rfl, rfl⟩
  | finished _ _ runs hevents =>
    refine .inr ⟨⟨_, htraced runs⟩, [.saveRun () true, .saveEvents () true], by simp, rfl, ?_⟩
    rw [if_pos ⟨by rw [hnamed]; exact recorded, by rw [ht']; rfl⟩] at hevents
    exact hevents.symm

end Recorder

/-! ### An example -/

/-- One step that is tried once. -/
def flaky (result : Except String String) : WorkflowExecutor String Unit where
  config := { name := "flaky", steps := [{ id := "a", task := "t", retries := 0, params := () }],
              uniqueStepIds := by decide }
  taskRegistry := Dict.ofList [("t", { call := fun _ _ _ _ => (result, ()) })]
  trace := some { runId := some "r1" }

/-- Whether a run left this status and these events. -/
def flakyLeft (st : Status) (kinds : List EventKind) (σ : RunState String Unit) : Bool :=
  decide (σ.statuses.get "a" = some st ∧
    (σ.trace.elim [] TraceContext.events).map ExecutionEvent.kind = kinds)

/-- A run of it under the id `r1`. -/
theorem flaky_run (result : Except String String) (st : Status) (kinds : List EventKind)
    (h : (((flaky result).runMoves [.main, .main] (.loop (flaky result).start ∅)).bind
      Conf.returned?).any (flakyLeft st kinds) = true) :
    ∃ x : TracedRun String Unit, x.id = "r1" ∧ x.records.statuses.get "a" = some st ∧
      x.events.map ExecutionEvent.kind = kinds := by
  obtain ⟨σ, hσ, hp⟩ := WorkflowExecutor.finishes_of_runMoves [.main, .main] h
  obtain ⟨hst, hkinds⟩ := of_decide_eq_true hp
  refine ⟨⟨⟨flaky result, rfl, σ, hσ, "", some "r1", none, ""⟩, fun t ht => ?_⟩, rfl, hst, hkinds⟩
  obtain rfl := Option.some.inj ht
  rfl

/-- A run that succeeds and a rerun that fails, and whether the rerun's events are saved. -/
def rerunWrites (ok : Bool) : List (Write Bool) :=
  [.saveRun false true, .saveEvents false true, .saveRun true true, .saveEvents true ok]

theorem rerunWrites_legal (calls : Bool → TracedRun String Unit) (ok : Bool) :
    Recorder.Legal JsonColumn.plain calls .memory .memory (rerunWrites ok) := by
  have h₁ := (History.each_nil fun pre a => Recorder.Possible
    (Recorder.after JsonColumn.plain calls .memory .memory pre) a).concat
    (show Recorder.Possible _ (.saveRun false true) from rfl)
  have h₂ := h₁.concat (show Recorder.Possible _ (.saveEvents false true) from rfl)
  have h₃ := h₂.concat (show Recorder.Possible _ (.saveRun true true) from rfl)
  exact h₃.concat (show Recorder.Possible _ (.saveEvents true ok) from rfl)

theorem flaky_mixed : ∃ calls : Bool → TracedRun String Unit,
    Recorder.Legal .plain calls .memory .memory (rerunWrites false) ∧
    (Recorder.after .plain calls .memory .memory (rerunWrites false)).Settled ∧
    ∃ r, (Recorder.after .plain calls .memory .memory (rerunWrites false)).runs.getRun .plain "r1" =
        some r ∧
      ¬ ∃ i, (calls i).id = "r1" ∧ r.stepStatuses.Same (calls i).records.statuses ∧
        ((Recorder.after .plain calls .memory .memory (rerunWrites false)).events.list "r1").map
          ExecutionEvent.unnamed = (calls i).events.map ExecutionEvent.unnamed := by
  obtain ⟨good, hgood, hcompleted, hkinds⟩ := flaky_run (.ok "done") .completed
    [.runStarted, .stepStarted, .stepCompleted, .runFinished] rfl
  obtain ⟨bad, hbad, hfailed, hkinds'⟩ := flaky_run (.error "down") .failed
    [.runStarted, .stepStarted, .stepFailed, .dlqRecorded, .runFinished] rfl
  let calls : Bool → TracedRun String Unit := fun i => if i then bad else good
  have hlegal := rerunWrites_legal calls false
  have hshows := Recorder.shows_after _ _ _ _ hlegal
  have hrun : (Recorder.after .plain calls .memory .memory (rerunWrites false)).runBy "r1" =
      some true := by
    change (Function.update (Function.update (fun _ => none) good.id (some false)) bad.id
      (some true) : String → Option Bool) "r1" = some true
    rw [hbad, Function.update_self]
  have hevents : (Recorder.after .plain calls .memory .memory (rerunWrites false)).eventsBy "r1" =
      some false := by
    change (Function.update (fun _ => none) good.id (some false) : String → Option Bool) "r1" =
      some false
    rw [hgood, Function.update_self]
  have hsettled : (Recorder.after .plain calls .memory .memory (rerunWrites false)).Settled := by
    intro i
    cases i
    · exact show Stage.ended ≠ .saved by decide
    · exact show Stage.ended ≠ .saved by decide
  refine ⟨calls, hlegal, hsettled, bad.args.record "r1", ?_, ?_⟩
  · rw [hshows.runs, hrun]
    rfl
  · rw [hshows.events, hevents]
    rintro ⟨i, -, hsame, hlist⟩
    cases i with
    | false =>
      have hstatus := hsame "a"
      exact absurd (hfailed.symm.trans (hstatus.trans hcompleted)) (by decide)
    | true =>
      have hkind := congrArg (List.map ExecutionEvent.kind) hlist
      rw [List.map_map, List.map_map] at hkind
      exact absurd (hkinds.symm.trans (hkind.trans hkinds')) (by decide)

/-- The same rerun, when its events are saved. -/
theorem flaky_together : ∃ calls : Bool → TracedRun String Unit,
    Recorder.Legal .plain calls .memory .memory (rerunWrites true) ∧
    ((∀ pre, pre <+: rerunWrites true →
        (Recorder.after .plain calls .memory .memory pre).Together) ↔
      History.Each (fun pre a => Recorder.InTime calls
        (Recorder.after .plain calls .memory .memory pre) a) (rerunWrites true)) := by
  obtain ⟨good, -⟩ := flaky_run (.ok "done") .completed
    [.runStarted, .stepStarted, .stepCompleted, .runFinished] rfl
  have hlegal := rerunWrites_legal (fun _ => good) true
  exact ⟨fun _ => good, hlegal,
    (Recorder.events_of_record .plain (fun _ => good) .memory .memory (rerunWrites true) hlegal).2⟩

end WorkflowEngine
