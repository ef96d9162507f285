import WorkflowEngine.Scheduler.Stuck

/-! One tick over schedules of which some make the callback raise.

    The loop has no handler: the first due, unclaimed schedule whose callback raises ends the tick,
    the rest of the snapshot is left for another tick, and what has been dispatched before it is not
    reported. -/

namespace WorkflowEngine
open Schemes

/-- A callback that raises for some definitions. The run ids it returns may differ from call to call. -/
def dispatching (fails : String → Option String) (runId : ℕ → String → Option String) : Dispatch :=
  fun n yamlDefinition =>
    match fails yamlDefinition with
    | some e => .error e
    | none => .ok (runId n yamlDefinition)

/-- A store into which these schedules have been put, in this order. -/
def ScheduleStore.holding (sharing : Sharing) (contents : List ScheduledWorkflow) : ScheduleStore :=
  contents.foldl ScheduleStore.put { sharing := sharing }

theorem ScheduleStore.named_foldl : ∀ (contents : List ScheduledWorkflow) (store : ScheduleStore),
    store.Named → (contents.foldl ScheduleStore.put store).Named
  | [], _, h => h
  | s :: contents, _, h => named_foldl contents _ (h.put s)

theorem ScheduleStore.named_holding (sharing : Sharing) (contents : List ScheduledWorkflow) :
    (holding sharing contents).Named :=
  named_foldl contents _ fun _ _ hs => by simp at hs

namespace WorkflowScheduler

/-- A stored schedule that is due and whose fire time nobody has claimed. -/
structure Waiting (now : Datetime) (w : Schedules) (s : ScheduledWorkflow) : Prop where
  stored : w.store.records.get s.name = some s
  due : IsDue now s
  unclaimed : fireClaim s.name s.nextRun ∉ w.idempotency.claims

variable (cron : Croniter) (now : Datetime) (fails : String → Option String)
  (runId : ℕ → String → Option String)

/-- SPEC: one tick dispatches, advances and reports every waiting schedule whose own callback
    succeeds. -/
def Isolates (w : Schedules) : Prop :=
  ∀ s, Waiting now w s → fails s.yamlDefinition = none →
    (∃ dispatched n, (dispatchDue cron now (dispatching fails runId) w).2 = .ok dispatched ∧
      (s.name, runId n s.yamlDefinition) ∈ dispatched) ∧
    ∃ s', (dispatchDue cron now (dispatching fails runId) w).1.store.records.get s.name = some s' ∧
      ∃ t ∈ s'.nextRun, now < t

variable {cron now fails runId} {w : Schedules}

/-! ### The snapshot -/

/-- A handle of the snapshot whose fire time is unclaimed. -/
def Open (w : Schedules) (x : Handle) : Prop :=
  fireClaim x.name (w.store.read x).nextRun ∉ w.idempotency.claims

theorem waiting_iff (hnamed : w.store.Named) {s : ScheduledWorkflow} :
    Waiting now w s ↔ ∃ x ∈ due w.store now, w.store.read x = s ∧ Open w x := by
  constructor
  · intro h
    have hread : w.store.read (w.store.handle s) = s := ScheduleStore.read_handle h.stored
    refine ⟨w.store.handle s, List.mem_filter.mpr ⟨(mem_list hnamed).mpr ⟨s, h.stored, rfl⟩, ?_⟩,
      hread, ?_⟩
    · rw [hread]
      exact decide_eq_true h.due
    · rw [Open, hread, ScheduleStore.handle_name]
      exact h.unclaimed
  · rintro ⟨x, hx, rfl, hopen⟩
    have hname := ScheduleStore.read_name hnamed x
    have hsnap : Snapshot now w.store (due w.store now) := snapshot_due hnamed
    exact ⟨hname ▸ hsnap.stored x hx, hsnap.due x hx, by rw [hname]; exact hopen⟩

/-- Firing one schedule of the snapshot opens and closes no other. -/
theorem open_fired {x y : Handle} {todo : List Handle} (hnamed : w.store.Named)
    (hsnap : Snapshot now w.store (x :: todo)) (hy : y ∈ todo) :
    Open (fired cron now w (w.store.read x)) y ↔ Open w y := by
  have hname := ScheduleStore.read_name hnamed x
  have hne : y.name ≠ x.name := fun he =>
    (List.nodup_cons.mp hsnap.nodup).1 (List.mem_map.mpr ⟨y, hy, he⟩)
  have hread := (hsnap.tail (s := ran cron now (w.store.read x)) hname).1 y hy
  unfold Open fired
  rw [hread, Finset.mem_insert, not_or]
  refine ⟨And.right, fun h => ⟨fun he => hne ?_, h⟩⟩
  rw [(fireClaim_inj he).1, hname]

theorem Snapshot.of_cons {store : ScheduleStore} {x : Handle} {todo : List Handle}
    (h : Snapshot now store (x :: todo)) : Snapshot now store todo where
  nodup := (List.nodup_cons.mp h.nodup).2
  stored y hy := h.stored y (List.mem_cons_of_mem _ hy)
  due y hy := h.due y (List.mem_cons_of_mem _ hy)

/-! ### The loop -/

/-- What is left of a tick that has come to `done`, with `todo` still to go, and ends in `out`. -/
structure TickDone (cron : Croniter) (now : Datetime) (runId : ℕ → String → Option String)
    (w : Schedules) (todo : List Handle) (done : List (String × Option String))
    (out : Schedules × Except String (List (String × Option String))) : Prop where
  reported : ∃ dispatched, out.2 = .ok dispatched ∧ (∀ e ∈ done, e ∈ dispatched) ∧
    ∀ x ∈ todo, Open w x → ∃ n, (x.name, runId n (w.store.read x).yamlDefinition) ∈ dispatched
  advanced : ∀ x ∈ todo, Open w x →
    out.1.store.records.get x.name = some (ran cron now (w.store.read x))
  frame : ∀ name, name ∉ todo.map Handle.name →
    out.1.store.records.get name = w.store.records.get name

/-- A schedule whose fire time is claimed is passed over. -/
theorem TickDone.skip {x : Handle} {todo : List Handle} {done : List (String × Option String)}
    {out : Schedules × Except String (List (String × Option String))}
    (h : TickDone cron now runId w todo done out) (hx : ¬ Open w x) :
    TickDone cron now runId w (x :: todo) done out := by
  obtain ⟨dispatched, hout, hdone, hall⟩ := h.reported
  refine ⟨⟨dispatched, hout, hdone, fun y hy ho => ?_⟩, fun y hy ho => ?_, fun name hname => ?_⟩
  · rcases List.mem_cons.mp hy with rfl | hy
    · exact absurd ho hx
    · exact hall y hy ho
  · rcases List.mem_cons.mp hy with rfl | hy
    · exact absurd ho hx
    · exact h.advanced y hy ho
  · exact h.frame name fun hn => hname (List.mem_cons_of_mem _ hn)

/-- A schedule that has fired is reported and advanced, and the rest of the tick leaves it so. -/
theorem TickDone.fire {x : Handle} {todo : List Handle} {done : List (String × Option String)}
    {out : Schedules × Except String (List (String × Option String))} {n : ℕ}
    (hnamed : w.store.Named) (hsnap : Snapshot now w.store (x :: todo))
    (h : TickDone cron now runId (fired cron now w (w.store.read x)) todo
      (done ++ [(x.name, runId n (w.store.read x).yamlDefinition)]) out) :
    TickDone cron now runId w (x :: todo) done out := by
  have hname := ScheduleStore.read_name hnamed x
  have hx := (List.nodup_cons.mp hsnap.nodup).1
  have hread := (hsnap.tail (s := ran cron now (w.store.read x)) hname).1
  obtain ⟨dispatched, hout, hdone, hall⟩ := h.reported
  refine ⟨⟨dispatched, hout, fun e he => hdone e (List.mem_append_left _ he), fun y hy ho => ?_⟩,
    fun y hy ho => ?_, fun name hn => ?_⟩
  · rcases List.mem_cons.mp hy with rfl | hy
    · exact ⟨n, hdone _ (List.mem_append_right _ (List.mem_singleton_self _))⟩
    · obtain ⟨m, hm⟩ := hall y hy ((open_fired hnamed hsnap hy).mpr ho)
      rw [fired, hread y hy] at hm
      exact ⟨m, hm⟩
  · rcases List.mem_cons.mp hy with rfl | hy
    · rw [h.frame _ hx, fired, ScheduleStore.get_put, if_pos]
      exact hname.symm
    · rw [h.advanced y hy ((open_fired hnamed hsnap hy).mpr ho), fired, hread y hy]
  · rw [List.map_cons, List.mem_cons, not_or] at hn
    rw [h.frame name hn.2, fired, ScheduleStore.get_put, if_neg]
    exact fun he => hn.1 (he.trans hname)

/-- STEP: one iteration at an open schedule. -/
theorem dispatchLoop_open (hnamed : w.store.Named) {x : Handle} {todo : List Handle}
    (hsnap : Snapshot now w.store (x :: todo)) (hopen : Open w x)
    (done : List (String × Option String)) :
    dispatchLoop cron now (dispatching fails runId) (x :: todo) w done =
      match fails (w.store.read x).yamlDefinition with
      | some e => ({ w with idempotency := ⟨insert (fireClaim x.name (w.store.read x).nextRun)
          w.idempotency.claims⟩ }, .error e)
      | none => dispatchLoop cron now (dispatching fails runId) todo
          (fired cron now w (w.store.read x))
          (done ++ [(x.name, runId done.length (w.store.read x).yamlDefinition)]) := by
  rw [dispatchLoop_next _ hnamed hsnap, if_neg hopen, dispatching]
  cases fails (w.store.read x).yamlDefinition <;> rfl

/-- RUN: if no open schedule of the snapshot makes the callback raise, the tick comes to its end. -/
theorem dispatchLoop_done : ∀ (todo : List Handle) (w : Schedules)
    (done : List (String × Option String)), w.store.Named → Snapshot now w.store todo →
    (∀ x ∈ todo, Open w x → fails (w.store.read x).yamlDefinition = none) →
    TickDone cron now runId w todo done
      (dispatchLoop cron now (dispatching fails runId) todo w done)
  | [], w, done, _, _, _ =>
    ⟨⟨done, rfl, fun _ he => he, fun _ hx => absurd hx (List.not_mem_nil)⟩,
      fun _ hx => absurd hx (List.not_mem_nil), fun _ _ => rfl⟩
  | x :: todo, w, done, hnamed, hsnap, hok => by
      have hname := ScheduleStore.read_name hnamed x
      obtain ⟨hread, htail⟩ := hsnap.tail (s := ran cron now (w.store.read x)) hname
      by_cases hopen : Open w x
      · have hx := hok x List.mem_cons_self hopen
        rw [dispatchLoop_open hnamed hsnap hopen, hx]
        refine .fire hnamed hsnap (dispatchLoop_done todo _ _ (hnamed.put _) htail ?_)
        intro y hy ho
        rw [fired, hread y hy]
        exact hok y (List.mem_cons_of_mem _ hy) ((open_fired hnamed hsnap hy).mp ho)
      · rw [dispatchLoop_next _ hnamed hsnap, if_pos (not_not.mp hopen)]
        exact (dispatchLoop_done todo w done hnamed hsnap.of_cons fun y hy =>
          hok y (List.mem_cons_of_mem _ hy)).skip hopen

/-- RUN: an open schedule that makes the callback raise ends the tick, wherever it stands. -/
theorem dispatchLoop_raises : ∀ (todo : List Handle) (w : Schedules)
    (done : List (String × Option String)), w.store.Named → Snapshot now w.store todo →
    (∃ x ∈ todo, Open w x ∧ fails (w.store.read x).yamlDefinition ≠ none) →
    ∃ e, (dispatchLoop cron now (dispatching fails runId) todo w done).2 = .error e
  | [], _, _, _, _, ⟨_, hx, _⟩ => absurd hx (List.not_mem_nil)
  | x :: todo, w, done, hnamed, hsnap, ⟨y, hy, hopen, hy'⟩ => by
      by_cases hx : Open w x
      · rw [dispatchLoop_open hnamed hsnap hx]
        cases hf : fails (w.store.read x).yamlDefinition with
        | some e => exact ⟨e, rfl⟩
        | none =>
          rcases List.mem_cons.mp hy with rfl | hy
          · exact absurd hf hy'
          · have hname := ScheduleStore.read_name hnamed x
            obtain ⟨hread, htail⟩ := hsnap.tail (s := ran cron now (w.store.read x)) hname
            refine dispatchLoop_raises todo _ _ (hnamed.put _) htail
              ⟨y, hy, (open_fired hnamed hsnap hy).mpr hopen, ?_⟩
            rw [fired, hread y hy]
            exact hy'
      · rw [dispatchLoop_next _ hnamed hsnap, if_pos (not_not.mp hx)]
        refine dispatchLoop_raises todo w done hnamed hsnap.of_cons ⟨y, ?_, hopen, hy'⟩
        rcases List.mem_cons.mp hy with rfl | hy
        · exact absurd hopen hx
        · exact hy

/-- CORRECT (one tick): a failing schedule holds up no other exactly if no waiting schedule makes
    the callback raise, or all of them do. -/
theorem isolates_iff (hnext : ∀ e t, t < cron.getNext e t) (sharing : Sharing)
    (contents : List ScheduledWorkflow) (idempotency : IdempotencyStore) :
    Isolates cron now fails runId ⟨.holding sharing contents, idempotency⟩ ↔
      (∀ s, Waiting now ⟨.holding sharing contents, idempotency⟩ s →
        fails s.yamlDefinition = none) ∨
      ∀ s, Waiting now ⟨.holding sharing contents, idempotency⟩ s →
        fails s.yamlDefinition ≠ none := by
  generalize hw : (⟨.holding sharing contents, idempotency⟩ : Schedules) = w
  have hnamed : w.store.Named := by
    rw [← hw]
    exact ScheduleStore.named_holding sharing contents
  have hsnap : Snapshot now w.store (due w.store now) := snapshot_due hnamed
  constructor
  · intro h
    by_contra hboth
    rw [not_or, not_forall, not_forall] at hboth
    obtain ⟨⟨s, hs⟩, s', hs'⟩ := hboth
    obtain ⟨hwait, hfails⟩ := Classical.not_imp.mp hs
    obtain ⟨hwait', hok⟩ := Classical.not_imp.mp hs'
    obtain ⟨x, hx, rfl, hopen⟩ := (waiting_iff hnamed).mp hwait
    have hraises : ∃ e, (dispatchDue cron now (dispatching fails runId) w).2 = .error e :=
      dispatchLoop_raises _ w [] hnamed hsnap ⟨x, hx, hopen, hfails⟩
    obtain ⟨e, he⟩ := hraises
    obtain ⟨⟨dispatched, -, hout, -⟩, -⟩ := h s' hwait' (not_not.mp hok)
    exact absurd (he.symm.trans hout) (by simp)
  · rintro (hall | hnone) s hs hok
    · have hdone : TickDone cron now runId w (due w.store now) []
          (dispatchDue cron now (dispatching fails runId) w) :=
        dispatchLoop_done _ w [] hnamed hsnap fun x hx hopen =>
          hall _ ((waiting_iff hnamed).mpr ⟨x, hx, rfl, hopen⟩)
      obtain ⟨x, hx, rfl, hopen⟩ := (waiting_iff hnamed).mp hs
      obtain ⟨dispatched, hout, -, hreported⟩ := hdone.reported
      obtain ⟨n, hn⟩ := hreported x hx hopen
      rw [ScheduleStore.read_name hnamed x]
      exact ⟨⟨dispatched, n, hout, hn⟩, _, hdone.advanced x hx hopen, _, rfl, hnext _ now⟩
    · exact absurd hok (hnone s hs)

/-- Two schedules that are due; the definition of the first cannot be run. -/
def brokenAndMinute : List ScheduledWorkflow :=
  [{ minute with name := "broken", yamlDefinition := "name: broken" }, minute]

def brokenFails : String → Option String := fun yaml =>
  if yaml = "name: broken" then some "validation_failed" else none

theorem minute_isolates_iff :
    Isolates everyMinute newYear.nextMinute brokenFails (fun _ _ => some "run")
        ⟨.holding .copies [minute], {}⟩ ↔
      (∀ s, Waiting newYear.nextMinute ⟨.holding .copies [minute], {}⟩ s →
        brokenFails s.yamlDefinition = none) ∨
      ∀ s, Waiting newYear.nextMinute ⟨.holding .copies [minute], {}⟩ s →
        brokenFails s.yamlDefinition ≠ none :=
  isolates_iff (fun _ t => t.lt_nextMinute) .copies [minute] {}

/-- The second schedule is due and unclaimed, and the tick ends before it comes to it. -/
theorem broken_holds_up : ¬ Isolates everyMinute newYear.nextMinute brokenFails
    (fun _ _ => some "run") ⟨.holding .copies brokenAndMinute, {}⟩ := by
  intro h
  obtain ⟨⟨dispatched, n, hout, -⟩, -⟩ := h minute ⟨rfl, ⟨rfl, _, rfl, le_rfl⟩, by simp⟩ rfl
  have hraised : (dispatchDue everyMinute newYear.nextMinute
      (dispatching brokenFails fun _ _ => some "run")
      ⟨.holding .copies brokenAndMinute, {}⟩).2.toOption = none := by decide +kernel
  rw [hout] at hraised
  exact absurd hraised (by simp [Except.toOption])

end WorkflowScheduler

end WorkflowEngine
