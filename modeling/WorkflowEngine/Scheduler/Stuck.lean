import WorkflowEngine.Schemes.History
import WorkflowEngine.Scheduler.Firing

/-! Stuck schedules.

    A tick claims a fire time before it dispatches, and advances the schedule only afterwards. While
    no callback raises, every stored fire time is later than every claimed one of its schedule: a
    registration or a tick sets it after the current time, and only fire times that have come are
    claimed. A callback that raises leaves a claimed fire time in the store, and no later tick
    dispatches that schedule. -/

namespace WorkflowEngine
open Schemes

namespace WorkflowScheduler

variable {cron : Croniter} {now : Datetime}

/-! ### One tick -/

/-- No stored enabled schedule waits for a fire time that is already claimed. -/
def NotStuck (w : Schedules) : Prop :=
  ∀ name s t, w.store.records.get name = some s → s.enabled = true → s.nextRun = some t →
    fireClaim name (some t) ∉ w.idempotency.claims

/-- The invariant: fire times are claimed when they have come, which every time that `later` allows
    is after, and no stored one is claimed. -/
structure Inv (later : Datetime → Prop) (w : Schedules) : Prop where
  named : w.store.Named
  claimed : ∀ c ∈ w.idempotency.claims, ∃ name t, c = fireClaim name (some t) ∧
    ∀ now, later now → t ≤ now
  fresh : ∀ name s t, w.store.records.get name = some s → s.nextRun = some t →
    fireClaim name (some t) ∉ w.idempotency.claims

variable {later : Datetime → Prop} {w : Schedules}

theorem Inv.notStuck (h : Inv later w) : NotStuck w :=
  fun name s t hs _ ht => h.fresh name s t hs ht

theorem Inv.mono (h : Inv later w) {later' : Datetime → Prop} (hl : ∀ t, later' t → later t) :
    Inv later' w where
  named := h.named
  claimed c hc := by
    obtain ⟨name, t, he, ht⟩ := h.claimed c hc
    exact ⟨name, t, he, fun now hnow => ht now (hl now hnow)⟩
  fresh := h.fresh

/-- Writing a record whose `next_run` is after the current time keeps the invariant. -/
theorem Inv.put (h : Inv later w) {s : ScheduledWorkflow} {now : Datetime} (hnow : later now)
    (hs : ∀ t ∈ s.nextRun, now < t) : Inv later { w with store := w.store.put s } where
  named := h.named.put s
  claimed := h.claimed
  fresh name s' t hs' ht hc := by
    rw [ScheduleStore.get_put] at hs'
    split_ifs at hs' with hname
    · obtain rfl := Option.some.inj hs'
      obtain ⟨name', t', he, hle⟩ := h.claimed _ hc
      obtain ⟨-, heq⟩ := fireClaim_inj he
      obtain rfl := Option.some.inj heq
      exact absurd (hs t ht) (not_lt.mpr (hle now hnow))
    · exact h.fresh name s' t hs' ht hc

/-- The stores after a schedule has been claimed, dispatched and advanced. -/
def fired (cron : Croniter) (now : Datetime) (w : Schedules) (s : ScheduledWorkflow) : Schedules where
  store := w.store.put (ran cron now s)
  idempotency := ⟨insert (fireClaim s.name s.nextRun) w.idempotency.claims⟩

theorem Inv.fired (hnext : ∀ e t, t < cron.getNext e t) (h : Inv (now ≤ ·) w)
    {s : ScheduledWorkflow} (hdue : IsDue now s) : Inv (now ≤ ·) (fired cron now w s) := by
  obtain ⟨-, t, ht, hle⟩ := hdue
  have hput := h.put (s := ran cron now s) le_rfl fun t' ht' => by
    obtain rfl := Option.some.inj ht'
    exact hnext s.cron now
  refine ⟨hput.named, fun c hc => ?_, fun name s' t' hs' ht' hc => ?_⟩
  · rcases Finset.mem_insert.mp hc with rfl | hc
    · exact ⟨s.name, t, by rw [Option.mem_def.mp ht], fun now' hnow' => hle.trans hnow'⟩
    · exact h.claimed c hc
  · rcases Finset.mem_insert.mp hc with he | hc
    · obtain ⟨rfl, hfire⟩ := fireClaim_inj he
      have hput' := (w.store.get_put (ran cron now s) s.name).trans (if_pos rfl)
      obtain rfl := Option.some.inj (hput'.symm.trans hs')
      obtain rfl := Option.some.inj ht'
      rw [Option.mem_def.mp ht] at hfire
      exact absurd (hnext s.cron now) (not_lt.mpr (Option.some.inj hfire ▸ hle))
    · exact hput.fresh name s' t' hs' ht' hc

variable (dispatch : Dispatch)

/-- One iteration of the loop: a claimed fire time is passed over, an exception ends the tick, and a
    schedule that has been dispatched is advanced. -/
theorem dispatchLoop_next (hnamed : w.store.Named) {x : Handle} {todo : List Handle}
    (hsnap : Snapshot now w.store (x :: todo)) (done : List (String × Option String)) :
    dispatchLoop cron now dispatch (x :: todo) w done =
      if fireClaim x.name (w.store.read x).nextRun ∈ w.idempotency.claims then
        dispatchLoop cron now dispatch todo w done
      else
        match dispatch done.length (w.store.read x).yamlDefinition with
        | .error e => ({ w with idempotency := ⟨insert (fireClaim x.name (w.store.read x).nextRun)
            w.idempotency.claims⟩ }, .error e)
        | .ok runId => dispatchLoop cron now dispatch todo (fired cron now w (w.store.read x))
            (done ++ [(x.name, runId)]) := by
  have hname := ScheduleStore.read_name hnamed x
  have hstored := hsnap.stored x List.mem_cons_self
  rw [dispatchLoop, claim_fire, hname]
  split_ifs with hclaimed
  · rfl
  · simp only [if_true]
    cases dispatch done.length (w.store.read x).yamlDefinition with
    | error e => rfl
    | ok runId =>
      rw [← hname] at hstored
      rw [← hname, markRan_eq hstored, hname, fired, hname]

/-- One iteration of the loop, at a due schedule whose fire time is not claimed. -/
theorem dispatchLoop_cons (h : Inv later w) {x : Handle} {todo : List Handle}
    (hsnap : Snapshot now w.store (x :: todo)) (done : List (String × Option String)) :
    dispatchLoop cron now dispatch (x :: todo) w done =
      match dispatch done.length (w.store.read x).yamlDefinition with
      | .error e => ({ w with idempotency := ⟨insert (fireClaim x.name (w.store.read x).nextRun)
          w.idempotency.claims⟩ }, .error e)
      | .ok runId => dispatchLoop cron now dispatch todo (fired cron now w (w.store.read x))
          (done ++ [(x.name, runId)]) := by
  have hstored := hsnap.stored x List.mem_cons_self
  obtain ⟨-, t, ht, -⟩ := hsnap.due x List.mem_cons_self
  have hfree : fireClaim x.name (w.store.read x).nextRun ∉ w.idempotency.claims := by
    rw [Option.mem_def.mp ht]
    exact h.fresh _ _ t hstored ht
  rw [dispatchLoop_next dispatch h.named hsnap, if_neg hfree]

/-- What the callback does at the rest of the snapshot, once the first schedule has fired. -/
theorem dispatch_tail {s : ScheduledWorkflow} {todo : List Handle}
    (hread : ∀ y ∈ todo, (w.store.put (ran cron now s)).read y = w.store.read y)
    (done : List (String × Option String)) (e : String × Option String) {i : ℕ} {y : Handle}
    (hy : todo[i]? = some y) :
    dispatch ((done ++ [e]).length + i) ((fired cron now w s).store.read y).yamlDefinition =
      dispatch (done.length + (i + 1)) (w.store.read y).yamlDefinition := by
  rw [List.length_append, List.length_singleton, fired, hread y (List.mem_of_getElem? hy),
    add_assoc, add_comm 1 i]

/-- A tick whose callback does not raise keeps the invariant and dispatches its whole snapshot. -/
theorem dispatchLoop_ok (hnext : ∀ e t, t < cron.getNext e t) : ∀ (todo : List Handle)
    (w : Schedules) (done : List (String × Option String)), Inv (now ≤ ·) w →
    Snapshot now w.store todo →
    (∀ i x, todo[i]? = some x → ∃ runId,
      dispatch (done.length + i) (w.store.read x).yamlDefinition = .ok runId) →
    Inv (now ≤ ·) (dispatchLoop cron now dispatch todo w done).1 ∧
    ∃ out, (dispatchLoop cron now dispatch todo w done).2 = .ok out ∧
      out.map Prod.fst = done.map Prod.fst ++ todo.map Handle.name
  | [], w, done, h, _, _ => ⟨h, done, rfl, by simp⟩
  | x :: todo, w, done, h, hsnap, hok => by
      obtain ⟨runId, hx⟩ := hok 0 x rfl
      have hname := ScheduleStore.read_name h.named x
      obtain ⟨hread, htail⟩ := hsnap.tail (s := ran cron now (w.store.read x)) hname
      rw [dispatchLoop_cons dispatch h hsnap, show dispatch done.length _ = _ from hx]
      obtain ⟨hI, out, hout, hnames⟩ := dispatchLoop_ok hnext todo
        (fired cron now w (w.store.read x)) (done ++ [(x.name, runId)])
        (h.fired hnext (hsnap.due x List.mem_cons_self)) htail fun i y hy => by
          obtain ⟨runId', hy'⟩ := hok (i + 1) y hy
          exact ⟨runId', (dispatch_tail dispatch hread done _ hy).trans hy'⟩
      exact ⟨hI, out, hout, by rw [hnames]; simp⟩

/-- A tick whose callback raises leaves a schedule stuck. -/
theorem dispatchLoop_error (hnext : ∀ e t, t < cron.getNext e t) : ∀ (todo : List Handle)
    (w : Schedules) (done : List (String × Option String)), Inv (now ≤ ·) w →
    Snapshot now w.store todo →
    ¬ (∀ i x, todo[i]? = some x → ∃ runId,
      dispatch (done.length + i) (w.store.read x).yamlDefinition = .ok runId) →
    ¬ NotStuck (dispatchLoop cron now dispatch todo w done).1
  | [], w, done, _, _, hno => absurd (fun i x hx => by simp at hx) hno
  | x :: todo, w, done, h, hsnap, hno => by
      have hname := ScheduleStore.read_name h.named x
      obtain ⟨hread, htail⟩ := hsnap.tail (s := ran cron now (w.store.read x)) hname
      rw [dispatchLoop_cons dispatch h hsnap]
      cases hx : dispatch done.length (w.store.read x).yamlDefinition with
      | error e =>
        intro hstuck
        obtain ⟨henabled, t, ht, -⟩ := hsnap.due x List.mem_cons_self
        refine hstuck x.name _ t (hsnap.stored x List.mem_cons_self) henabled ht ?_
        rw [Option.mem_def.mp ht]
        exact Finset.mem_insert_self _ _
      | ok runId =>
        refine dispatchLoop_error hnext todo (fired cron now w (w.store.read x))
          (done ++ [(x.name, runId)]) (h.fired hnext (hsnap.due x List.mem_cons_self)) htail
          fun hok => hno fun i y hy => ?_
        rcases i with _ | i
        · obtain rfl := Option.some.inj hy
          exact ⟨runId, hx⟩
        · obtain ⟨runId', hy'⟩ := hok i y hy
          exact ⟨runId', (dispatch_tail dispatch hread done _ hy).symm.trans hy'⟩

/-! ### Sequences of calls -/

/-- A call of the scheduler. A callback is what `dispatch_due` is given for one tick. -/
inductive Call where
  | register (name expression yamlDefinition : String) (now : Datetime)
  | unregister (name : String)
  | dispatchDue (now : Datetime) (dispatch : Dispatch)

def Call.time? : Call → Option Datetime
  | .register _ _ _ now => some now
  | .unregister _ => none
  | .dispatchDue now _ => some now

/-- The stores after a call; a registration that raises changes nothing. -/
def perform (cron : Croniter) (w : Schedules) : Call → Schedules
  | .register name expression yamlDefinition now =>
    match register cron w.store name expression yamlDefinition now with
    | .ok store => { w with store := store }
    | .error _ => w
  | .unregister name => { w with store := (unregister w.store name).1 }
  | .dispatchDue now dispatch => (WorkflowScheduler.dispatchDue cron now dispatch w).1

/-- The stores after these calls on a new scheduler and a new idempotency store. -/
def after (cron : Croniter) (sharing : Sharing) (calls : List Call) : Schedules :=
  calls.foldl (perform cron) { store := { sharing := sharing } }

/-- The calls come at nondecreasing times. -/
def Ordered (calls : List Call) : Prop := (calls.filterMap Call.time?).Pairwise (· ≤ ·)

instance (calls : List Call) : Decidable (Ordered calls) :=
  inferInstanceAs (Decidable ((calls.filterMap Call.time?).Pairwise (· ≤ ·)))

/-- A time at or after the times of these calls. -/
def Later (calls : List Call) (now : Datetime) : Prop := ∀ t ∈ calls.filterMap Call.time?, t ≤ now

/-- The callback raises at none of the schedules that are due at the tick. -/
def Quiet (w : Schedules) : Call → Prop
  | .dispatchDue now dispatch => ∀ i x, (due w.store now)[i]? = some x →
      ∃ runId, dispatch i (w.store.read x).yamlDefinition = .ok runId
  | _ => True

/-- No schedule is stuck, and any later tick at or after a schedule's `next_run` dispatches it. -/
structure Alive (cron : Croniter) (later : Datetime → Prop) (w : Schedules) : Prop where
  notStuck : NotStuck w
  dispatches : ∀ name s t now dispatch, w.store.records.get name = some s → s.enabled = true →
    s.nextRun = some t → t ≤ now → later now → (∀ n yaml, ∃ runId, dispatch n yaml = .ok runId) →
    ∃ out, (dispatchDue cron now dispatch w).2 = .ok out ∧ name ∈ out.map Prod.fst

variable {calls : List Call} {call : Call}

theorem after_concat (cron : Croniter) (sharing : Sharing) (calls : List Call) (call : Call) :
    after cron sharing (calls ++ [call]) = perform cron (after cron sharing calls) call := by
  rw [after, List.foldl_append]
  rfl

theorem later_concat {t : Datetime} :
    Later (calls ++ [call]) t ↔ Later calls t ∧ ∀ now ∈ call.time?, now ≤ t := by
  unfold Later
  rw [List.filterMap_append]
  cases call <;> simp [Call.time?, or_imp, forall_and]

theorem later_of_ordered (h : Ordered (calls ++ [call])) (hnow : now ∈ call.time?) :
    Later calls now := by
  rw [Ordered, List.filterMap_append, List.pairwise_append] at h
  exact fun t ht => h.2.2 t ht now (by simpa using hnow)

/-- The invariant as a tick at a later time sees it. -/
theorem Inv.at (h : Inv (Later calls) w) (hnow : Later calls now) : Inv (now ≤ ·) w :=
  h.mono fun _ hle t ht => (hnow t ht).trans hle

theorem Inv.delete (h : Inv later w) (name : String) :
    Inv later { w with store := (w.store.delete name).1 } := by
  have hget : ∀ name' s, ((w.store.delete name).1).records.get name' = some s →
      w.store.records.get name' = some s := by
    intro name' s hs
    rw [ScheduleStore.delete, Dict.get_erase] at hs
    split_ifs at hs
    exact hs
  exact ⟨fun name' s hs => h.named name' s (hget name' s hs), h.claimed,
    fun name' s t hs => h.fresh name' s t (hget name' s hs)⟩

theorem Inv.alive (hnext : ∀ e t, t < cron.getNext e t) (h : Inv (Later calls) w) :
    Alive cron (Later calls) w := by
  refine ⟨h.notStuck, fun name s t now dispatch hs henabled ht hle hnow hok => ?_⟩
  obtain ⟨-, out, hout, hnames⟩ := dispatchLoop_ok dispatch hnext (due w.store now) w []
    (h.at hnow) (snapshot_due h.named) fun i x _ => hok _ _
  refine ⟨out, hout, ?_⟩
  obtain rfl := h.named _ _ hs
  rw [hnames, List.map_nil, List.nil_append, List.mem_map]
  refine ⟨w.store.handle s, List.mem_filter.mpr ⟨(mem_list h.named).mpr ⟨s, hs, rfl⟩, ?_⟩,
    ScheduleStore.handle_name s⟩
  rw [ScheduleStore.read_handle hs]
  exact decide_eq_true ⟨henabled, t, ht, hle⟩

theorem Inv.perform (hnext : ∀ e t, t < cron.getNext e t) (hordered : Ordered (calls ++ [call]))
    (h : Inv (Later calls) w) (hquiet : Quiet w call) :
    Inv (Later (calls ++ [call])) (perform cron w call) := by
  have hmono : ∀ {w'}, Inv (Later calls) w' → Inv (Later (calls ++ [call])) w' := fun hI =>
    hI.mono fun t ht => (later_concat.mp ht).1
  cases call with
  | register name expression yaml now =>
    rw [WorkflowScheduler.perform, register]
    split_ifs with hvalid
    · refine hmono (h.put (later_of_ordered hordered rfl) fun t ht => ?_)
      obtain rfl := Option.some.inj ht
      exact hnext expression now
    · exact hmono h
  | unregister name => exact hmono (h.delete name)
  | dispatchDue now dispatch =>
    have hnow : Later calls now := later_of_ordered hordered rfl
    refine (dispatchLoop_ok dispatch hnext (due w.store now) w [] (h.at hnow)
      (snapshot_due h.named) ?_).1.mono fun t ht => (later_concat.mp ht).2 now rfl
    intro i x hx
    rw [List.length_nil, Nat.zero_add]
    exact hquiet i x hx

theorem Inv.not_alive (hnext : ∀ e t, t < cron.getNext e t)
    (hordered : Ordered (calls ++ [call])) (h : Inv (Later calls) w) (hno : ¬ Quiet w call) :
    ¬ NotStuck (WorkflowScheduler.perform cron w call) := by
  cases call with
  | register | unregister => exact absurd trivial hno
  | dispatchDue now dispatch =>
    have hnow : Later calls now := later_of_ordered hordered rfl
    refine dispatchLoop_error dispatch hnext (due w.store now) w [] (h.at hnow)
      (snapshot_due h.named) fun hok => hno fun i x hx => ?_
    obtain ⟨runId, hi⟩ := hok i x hx
    rw [List.length_nil, Nat.zero_add] at hi
    exact ⟨runId, hi⟩

theorem inv_start (sharing : Sharing) : Inv (Later []) (after cron sharing []) where
  named _ _ hs := by simp [after] at hs
  claimed _ hc := by simp [after] at hc
  fresh _ _ _ hs := by simp [after] at hs

/-- EXACT (no stuck schedule): in a sequence of calls at nondecreasing times, no schedule is stuck at
    any moment if and only if no callback raises at a schedule that is due at its tick. -/
theorem alive_iff_quiet (hnext : ∀ e t, t < cron.getNext e t) (sharing : Sharing)
    {calls : List Call} (hordered : Ordered calls) :
    (∀ pre, pre <+: calls → Alive cron (Later pre) (after cron sharing pre)) ↔
      History.Each (fun pre call => Quiet (after cron sharing pre) call) calls := by
  refine History.each_iff_good Ordered (fun pre => Inv (Later pre) (after cron sharing pre)) ?_
    (inv_start sharing) ?_ ?_ ?_ calls hordered
  · intro pre call h
    rw [Ordered, List.filterMap_append] at h
    exact (List.pairwise_append.mp h).1
  · exact fun pre h => h.alive hnext
  · intro pre call ho h hq
    rw [after_concat]
    exact h.perform hnext ho hq
  · intro pre call ho h hno halive
    have hstuck := halive.notStuck
    rw [after_concat] at hstuck
    exact h.not_alive hnext ho hno hstuck

/-- A registration, and a tick at its fire time whose callback raises. -/
def minuteCalls : List Call :=
  [.register minute.name minute.cron minute.yamlDefinition newYear,
   .dispatchDue newYear.nextMinute fun _ _ => .error "broker down"]

/-- After the tick the schedule waits for a claimed fire time, and a later tick does nothing. -/
theorem minute_stuck : Ordered minuteCalls ∧
    ¬ NotStuck (after everyMinute .live minuteCalls) ∧
    (dispatchDue everyMinute newYear.nextMinute.nextMinute (fun _ _ => .ok none)
      (after everyMinute .live minuteCalls)).2.toOption = some [] := by
  refine ⟨by decide +kernel, fun h => ?_, by decide +kernel⟩
  refine h "minute" minute newYear.nextMinute ?_ rfl rfl ?_
  · decide +kernel
  · decide +kernel

theorem minute_alive_iff_quiet :
    (∀ pre, pre <+: minuteCalls → Alive everyMinute (Later pre) (after everyMinute .live pre)) ↔
      History.Each (fun pre call => Quiet (after everyMinute .live pre) call) minuteCalls :=
  alive_iff_quiet (fun _ t => t.lt_nextMinute) .live (by decide +kernel)

end WorkflowScheduler

end WorkflowEngine
