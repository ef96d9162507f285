import WorkflowEngine.Scheduler.Stuck
import Mathlib.Order.Bounds.Basic
import Mathlib.Order.Interval.Set.Basic

/-! The cron sampling law.

    A registration or a dispatch at `u` leaves the first cron instant after `u` in `next_run`. So a
    tick finds a schedule due exactly when an instant has come since the later of its registration
    and its last dispatch, and however many have come, the one dispatch moves `next_run` past the
    tick. -/

namespace WorkflowEngine
open Schemes

namespace WorkflowScheduler

variable {cron : Croniter} {now : Datetime} {w : Schedules}

/-! ### What one tick dispatches -/

/-- What a tick calls its callback with for a schedule of its snapshot, and the schedule's name. -/
def job (store : ScheduleStore) (x : Handle) : String × String :=
  (x.name, (store.read x).yamlDefinition)

/-- What the callback's `i`-th result becomes in the list that the tick returns. -/
def answer (dispatch : Dispatch) (i : ℕ) (j : String × String) : String × Option String :=
  (j.1, (dispatch i j.2).toOption.join)

/-- A tick whose callback does not raise: what it returns, and the records it leaves. -/
theorem dispatchLoop_jobs (hnext : ∀ e t, t < cron.getNext e t) (dispatch : Dispatch) :
    ∀ (todo : List Handle) (w : Schedules) (done : List (String × Option String)),
    Inv (now ≤ ·) w → Snapshot now w.store todo →
    (∀ i x, todo[i]? = some x → ∃ runId,
      dispatch (done.length + i) (w.store.read x).yamlDefinition = .ok runId) →
    (dispatchLoop cron now dispatch todo w done).2 = .ok (done ++
      (todo.map (job w.store)).mapIdx fun i j => answer dispatch (done.length + i) j) ∧
    ∀ name, (dispatchLoop cron now dispatch todo w done).1.store.records.get name =
      if name ∈ todo.map Handle.name then (w.store.records.get name).map (ran cron now)
      else w.store.records.get name
  | [], w, done, _, _, _ => ⟨by simp [dispatchLoop], fun name => by simp [dispatchLoop]⟩
  | x :: todo, w, done, h, hsnap, hok => by
      obtain ⟨runId, hx⟩ := hok 0 x rfl
      have hx : dispatch done.length (w.store.read x).yamlDefinition = .ok runId := hx
      have hname := ScheduleStore.read_name h.named x
      have hstored := hsnap.stored x List.mem_cons_self
      obtain ⟨hread, htail⟩ := hsnap.tail (s := ran cron now (w.store.read x)) hname
      obtain ⟨hout, hget⟩ := dispatchLoop_jobs hnext dispatch todo
        (fired cron now w (w.store.read x)) (done ++ [(x.name, runId)])
        (h.fired hnext (hsnap.due x List.mem_cons_self)) htail fun i y hy => by
          obtain ⟨runId', hy'⟩ := hok (i + 1) y hy
          exact ⟨runId', (dispatch_tail dispatch hread done _ hy).trans hy'⟩
      have hjobs : todo.map (job (fired cron now w (w.store.read x)).store) =
          todo.map (job w.store) := by
        refine List.map_congr_left fun y hy => ?_
        rw [job, job, fired, hread y hy]
      rw [dispatchLoop_cons dispatch h hsnap, hx]
      refine ⟨?_, fun name => ?_⟩
      · have hfirst : answer dispatch (done.length + 0) (job w.store x) = (x.name, runId) := by
          rw [answer, job, Nat.add_zero, hx]; rfl
        have hshift : (fun i j => answer dispatch ((done ++ [(x.name, runId)]).length + i) j) =
            fun i j => answer dispatch (done.length + (i + 1)) j := by
          funext i j
          rw [List.length_append, List.length_singleton, add_assoc, add_comm 1 i]
        rw [hout, hjobs, hshift, List.map_cons, List.mapIdx_cons, hfirst, List.append_assoc]
        rfl
      · have hfired : (fired cron now w (w.store.read x)).store.records.get name =
            if name = x.name then some (ran cron now (w.store.read x))
            else w.store.records.get name := by
          rw [fired, ScheduleStore.get_put]
          exact if_congr (by rw [← hname]; rfl) rfl rfl
        have hx_notin : x.name ∉ todo.map Handle.name := (List.nodup_cons.mp hsnap.nodup).1
        change (dispatchLoop cron now dispatch todo _ _).1.store.records.get name = _
        rw [hget, hfired, List.map_cons]
        rcases eq_or_ne name x.name with rfl | hne
        · rw [if_neg hx_notin, if_pos rfl, if_pos List.mem_cons_self, hstored]; rfl
        · simp [hne]

theorem mem_due_names {store : ScheduleStore} (hnamed : store.Named) (name : String) :
    name ∈ (due store now).map Handle.name ↔
      ∃ s, store.records.get name = some s ∧ IsDue now s := by
  rw [List.mem_map]
  constructor
  · rintro ⟨x, hx, rfl⟩
    exact ⟨_, (snapshot_due hnamed).stored x hx, (snapshot_due hnamed).due x hx⟩
  · rintro ⟨s, hs, hdue⟩
    obtain rfl := hnamed _ _ hs
    refine ⟨store.handle s, List.mem_filter.mpr ⟨(mem_list hnamed).mpr ⟨s, hs, rfl⟩, ?_⟩,
      ScheduleStore.handle_name s⟩
    rw [ScheduleStore.read_handle hs]
    exact decide_eq_true hdue

/-! ### What the calls so far say of a schedule -/

/-- What a client registered, and when. -/
structure Registration where
  cron : String
  yamlDefinition : String
  time : Datetime

/-- The registration in force: the last valid one, unless the schedule was unregistered since. -/
def registration (cron : Croniter) (calls : List Call) (name : String) : Option Registration :=
  calls.foldl (fun r call => match call with
    | .register n expression yaml now =>
      if n = name ∧ cron.isValid expression then some ⟨expression, yaml, now⟩ else r
    | .unregister n => if n = name then none else r
    | .dispatchDue _ _ => r) none

/-- The schedules that a call dispatches. -/
def dispatchedBy (cron : Croniter) (w : Schedules) : Call → List String
  | .dispatchDue now dispatch =>
    match (dispatchDue cron now dispatch w).2 with
    | .ok out => out.map Prod.fst
    | .error _ => []
  | _ => []

/-- The times of the ticks that dispatched a schedule. -/
def FiredAt (cron : Croniter) (sharing : Sharing) (calls : List Call) (name : String) :
    Set Datetime :=
  {t | ∃ pre dispatch post, calls = pre ++ .dispatchDue t dispatch :: post ∧
    name ∈ dispatchedBy cron (after cron sharing pre) (.dispatchDue t dispatch)}

variable {sharing : Sharing} {calls : List Call} {call : Call} {name : String}

theorem registration_concat (cron : Croniter) (calls : List Call) (call : Call) (name : String) :
    registration cron (calls ++ [call]) name = match call with
      | .register n expression yaml now =>
        if n = name ∧ cron.isValid expression then some ⟨expression, yaml, now⟩
        else registration cron calls name
      | .unregister n => if n = name then none else registration cron calls name
      | .dispatchDue _ _ => registration cron calls name := by
  rw [registration, List.foldl_append]
  rfl

theorem registration_time : ∀ {calls : List Call} {r : Registration},
    registration cron calls name = some r → r.time ∈ calls.filterMap Call.time? := by
  intro calls
  induction calls using List.reverseRecOn with
  | nil => intro r h; exact absurd h (by simp [registration])
  | append_singleton calls call ih =>
    intro r h
    rw [List.filterMap_append, List.mem_append]
    rw [registration_concat] at h
    cases call with
    | register n expression yaml now =>
      simp only at h
      split_ifs at h
      · obtain rfl := Option.some.inj h
        exact .inr (List.mem_singleton_self _)
      · exact .inl (ih h)
    | unregister n =>
      simp only at h
      split_ifs at h
      exact .inl (ih h)
    | dispatchDue now dispatch => exact .inl (ih h)

theorem firedAt_concat {t : Datetime} : t ∈ FiredAt cron sharing (calls ++ [call]) name ↔
    t ∈ FiredAt cron sharing calls name ∨
      (t ∈ call.time? ∧ name ∈ dispatchedBy cron (after cron sharing calls) call) := by
  constructor
  · rintro ⟨pre, dispatch, post, he, hname⟩
    rcases List.eq_nil_or_concat post with rfl | ⟨post, last, rfl⟩
    · obtain ⟨rfl, hcall⟩ := List.append_inj' he rfl
      obtain rfl := (List.cons.inj hcall).1
      exact .inr ⟨rfl, hname⟩
    · rw [List.concat_eq_append, ← List.cons_append, ← List.append_assoc] at he
      exact .inl ⟨pre, dispatch, post, (List.append_inj' he rfl).1, hname⟩
  · rintro (⟨pre, dispatch, post, rfl, hname⟩ | ⟨ht, hname⟩)
    · exact ⟨pre, dispatch, post ++ [call], by simp, hname⟩
    · cases call with
      | register | unregister => simp [dispatchedBy] at hname
      | dispatchDue now dispatch =>
        obtain rfl := Option.some.inj ht
        exact ⟨calls, dispatch, [], rfl, hname⟩

theorem firedAt_time {t : Datetime} (h : t ∈ FiredAt cron sharing calls name) :
    t ∈ calls.filterMap Call.time? := by
  obtain ⟨pre, dispatch, post, rfl, -⟩ := h
  exact List.mem_filterMap.mpr ⟨_, List.mem_append_right _ List.mem_cons_self, rfl⟩

/-! ### One call -/

/-- The jobs of a tick: what it calls its callback with, in order. -/
def jobs (store : ScheduleStore) (now : Datetime) : List (String × String) :=
  (due store now).map (job store)

theorem jobs_names (store : ScheduleStore) (now : Datetime) :
    (jobs store now).map Prod.fst = (due store now).map Handle.name := by
  rw [jobs, List.map_map]
  rfl

/-- A whole tick whose callback does not raise. -/
theorem dispatchDue_jobs (hnext : ∀ e t, t < cron.getNext e t) {dispatch : Dispatch}
    (h : Inv (now ≤ ·) w) (hquiet : Quiet w (.dispatchDue now dispatch)) :
    (dispatchDue cron now dispatch w).2 = .ok ((jobs w.store now).mapIdx (answer dispatch)) ∧
    ∀ name, (dispatchDue cron now dispatch w).1.store.records.get name =
      if name ∈ (jobs w.store now).map Prod.fst then (w.store.records.get name).map (ran cron now)
      else w.store.records.get name := by
  have hshift : (fun i j => answer dispatch (List.length ([] : List (String × String)) + i) j) =
      answer dispatch := by
    funext i j
    rw [List.length_nil, Nat.zero_add]
  obtain ⟨hout, hget⟩ := dispatchLoop_jobs hnext dispatch (due w.store now) w [] h
    (snapshot_due h.named) fun i x hx => by
      rw [List.length_nil, Nat.zero_add]
      exact hquiet i x hx
  rw [jobs_names]
  refine ⟨hout.trans ?_, hget⟩
  rw [List.nil_append]
  exact congrArg (fun f => Except.ok ((jobs w.store now).mapIdx f)) hshift

theorem dispatchedBy_tick (hnext : ∀ e t, t < cron.getNext e t) {dispatch : Dispatch}
    (h : Inv (now ≤ ·) w) (hquiet : Quiet w (.dispatchDue now dispatch)) :
    dispatchedBy cron w (.dispatchDue now dispatch) = (jobs w.store now).map Prod.fst := by
  rw [dispatchedBy, (dispatchDue_jobs hnext h hquiet).1]
  change ((jobs w.store now).mapIdx (answer dispatch)).map Prod.fst = _
  refine List.ext_getElem? fun i => ?_
  rw [List.getElem?_map, List.getElem?_map, List.getElem?_mapIdx, Option.map_map]
  rfl

/-- A stored schedule as its registration and `u` determine it: it waits for the first instant
    after `u`. -/
structure Waits (cron : Croniter) (r : Registration) (u : Datetime) (s : ScheduledWorkflow) :
    Prop where
  expression : s.cron = r.cron
  definition : s.yamlDefinition = r.yamlDefinition
  enabled : s.enabled = true
  nextRun : s.nextRun = some (cron.getNext r.cron u)

/-- The later of a registration and the ticks that dispatched the schedule. -/
def Since (cron : Croniter) (sharing : Sharing) (calls : List Call) (name : String)
    (r : Registration) (u : Datetime) : Prop :=
  IsGreatest (insert r.time (FiredAt cron sharing calls name)) u

/-- The invariant: the store holds the registrations in force, each waiting for the first instant
    since its registration and its last dispatch. -/
structure Follows (cron : Croniter) (sharing : Sharing) (calls : List Call) : Prop where
  absent : ∀ name, registration cron calls name = none →
    (after cron sharing calls).store.records.get name = none
  present : ∀ name r, registration cron calls name = some r → ∃ s u,
    (after cron sharing calls).store.records.get name = some s ∧ Waits cron r u s ∧
    Since cron sharing calls name r u

theorem since_now {r : Registration} (hlater : Later calls now) (hr : r.time ≤ now)
    (hnow : r.time = now ∨ now ∈ FiredAt cron sharing calls name) :
    Since cron sharing calls name r now := by
  refine ⟨hnow.imp Eq.symm fun h => h, ?_⟩
  rintro t (rfl | ht)
  · exact hr
  · exact hlater t (firedAt_time ht)

theorem Waits.isDue {r : Registration} {u : Datetime} {s : ScheduledWorkflow}
    (h : Waits cron r u s) : IsDue now s ↔ cron.getNext r.cron u ≤ now := by
  rw [IsDue, h.nextRun]
  simp [h.enabled]

theorem Waits.ran {r : Registration} {u : Datetime} {s : ScheduledWorkflow}
    (h : Waits cron r u s) (now : Datetime) : Waits cron r now (ran cron now s) where
  expression := h.expression
  definition := h.definition
  enabled := h.enabled
  nextRun := congrArg (fun e => some (cron.getNext e now)) h.expression

theorem Since.of_iff {r : Registration} {u : Datetime} {calls' : List Call}
    (h : Since cron sharing calls name r u)
    (hsame : ∀ t, t ∈ FiredAt cron sharing calls' name ↔ t ∈ FiredAt cron sharing calls name) :
    Since cron sharing calls' name r u := by
  rw [Since, Set.ext hsame]
  exact h

/-- A call that dispatches nothing is no tick of any schedule. -/
theorem firedAt_idle (hno : dispatchedBy cron (after cron sharing calls) call = [])
    (name : String) (t : Datetime) : t ∈ FiredAt cron sharing (calls ++ [call]) name ↔
      t ∈ FiredAt cron sharing calls name := by
  rw [firedAt_concat, hno]
  simp

theorem Follows.register {n expression yaml : String}
    (hlater : Later (calls ++ [.register n expression yaml now]) now)
    (h : Follows cron sharing calls) :
    Follows cron sharing (calls ++ [.register n expression yaml now]) := by
  constructor
  · intro name hreg
    rw [registration_concat] at hreg
    rw [after_concat]
    simp only at hreg
    split_ifs at hreg with hn
    rw [WorkflowScheduler.perform, WorkflowScheduler.register]
    split_ifs with hvalid
    · have hne : name ≠ n := fun he => hn ⟨he.symm, hvalid⟩
      exact (ScheduleStore.get_put ..).trans ((if_neg hne).trans (h.absent name hreg))
    · exact h.absent name hreg
  · intro name r hreg
    rw [registration_concat] at hreg
    rw [after_concat]
    simp only at hreg
    rw [WorkflowScheduler.perform, WorkflowScheduler.register]
    split_ifs at hreg with hn
    · obtain ⟨rfl, hvalid⟩ := hn
      obtain rfl := Option.some.inj hreg
      rw [if_pos hvalid]
      exact ⟨_, now, (ScheduleStore.get_put ..).trans (if_pos rfl), ⟨rfl, rfl, rfl, rfl⟩,
        since_now hlater le_rfl (.inl rfl)⟩
    · obtain ⟨s, u, hs, hwaits, hsince⟩ := h.present name r hreg
      refine ⟨s, u, ?_, hwaits, hsince.of_iff (firedAt_idle rfl name)⟩
      split_ifs with hvalid
      · have hne : name ≠ n := fun he => hn ⟨he.symm, hvalid⟩
        exact (ScheduleStore.get_put ..).trans ((if_neg hne).trans hs)
      · exact hs

theorem Follows.unregister (h : Follows cron sharing calls) (n : String) :
    Follows cron sharing (calls ++ [.unregister n]) := by
  constructor
  · intro name hreg
    rw [registration_concat] at hreg
    rw [after_concat, WorkflowScheduler.perform, WorkflowScheduler.unregister,
      ScheduleStore.delete, Dict.get_erase]
    simp only at hreg
    split_ifs at hreg with hn
    · rw [if_pos hn.symm]
    · rw [if_neg (Ne.symm hn)]
      exact h.absent name hreg
  · intro name r hreg
    rw [registration_concat] at hreg
    simp only at hreg
    split_ifs at hreg with hn
    obtain ⟨s, u, hs, hwaits, hsince⟩ := h.present name r hreg
    refine ⟨s, u, ?_, hwaits, hsince.of_iff (firedAt_idle rfl name)⟩
    rw [after_concat, WorkflowScheduler.perform, WorkflowScheduler.unregister,
      ScheduleStore.delete, Dict.get_erase, if_neg (Ne.symm hn)]
    exact hs

/-- A tick moves what it dispatches, and nothing else. -/
theorem Follows.tick {dispatch : Dispatch} (hnext : ∀ e t, t < cron.getNext e t)
    (hlater : Later (calls ++ [.dispatchDue now dispatch]) now)
    (hordered : Ordered (calls ++ [.dispatchDue now dispatch]))
    (hinv : Inv (Later calls) (after cron sharing calls))
    (hquiet : Quiet (after cron sharing calls) (.dispatchDue now dispatch))
    (h : Follows cron sharing calls) :
    Follows cron sharing (calls ++ [.dispatchDue now dispatch]) := by
  have hbefore : Later calls now := later_of_ordered hordered rfl
  have hget := (dispatchDue_jobs hnext (hinv.at hbefore) hquiet).2
  have hnames := dispatchedBy_tick hnext (hinv.at hbefore) hquiet
  constructor
  · intro name hreg
    rw [registration_concat] at hreg
    rw [after_concat, WorkflowScheduler.perform, hget, h.absent name hreg]
    split_ifs <;> rfl
  · intro name r hreg
    rw [registration_concat] at hreg
    obtain ⟨s, u, hs, hwaits, hsince⟩ := h.present name r hreg
    rw [after_concat, WorkflowScheduler.perform, hget, hs]
    split_ifs with hjob
    · -- dispatched: from now on it waits for the first instant after the tick
      refine ⟨_, now, rfl, hwaits.ran now, since_now hlater ?_ (.inr ?_)⟩
      · exact hbefore r.time (registration_time hreg)
      · exact firedAt_concat.mpr (.inr ⟨rfl, hnames ▸ hjob⟩)
    · refine ⟨s, u, rfl, hwaits, hsince.of_iff fun t => ?_⟩
      rw [firedAt_concat, hnames]
      simp [hjob]

/-- A call that does not raise keeps the invariant. -/
theorem Follows.perform (hnext : ∀ e t, t < cron.getNext e t)
    (hordered : Ordered (calls ++ [call])) (hinv : Inv (Later calls) (after cron sharing calls))
    (hquiet : Quiet (after cron sharing calls) call) (h : Follows cron sharing calls) :
    Follows cron sharing (calls ++ [call]) := by
  have hlater : ∀ now ∈ call.time?, Later (calls ++ [call]) now := by
    intro now hnow
    refine later_concat.mpr ⟨later_of_ordered hordered hnow, fun t ht => ?_⟩
    obtain rfl := Option.some.inj (hnow.symm.trans ht)
    exact le_rfl
  cases call with
  | register n expression yaml now => exact h.register (hlater now rfl)
  | unregister n => exact h.unregister n
  | dispatchDue now dispatch => exact h.tick hnext (hlater now rfl) hordered hinv hquiet

/-! ### Sequences of calls -/

theorem follows_after (hnext : ∀ e t, t < cron.getNext e t) (sharing : Sharing)
    (calls : List Call) (hordered : Ordered calls)
    (hquiet : History.Each (fun pre call => Quiet (after cron sharing pre) call) calls) :
    Inv (Later calls) (after cron sharing calls) ∧ Follows cron sharing calls := by
  induction calls using List.reverseRecOn with
  | nil => exact ⟨inv_start sharing, fun _ _ => rfl, fun _ _ h => absurd h (by simp [registration])⟩
  | append_singleton calls call ih =>
    have hpre : Ordered calls := by
      rw [Ordered, List.filterMap_append] at hordered
      exact (List.pairwise_append.mp hordered).1
    have hcall := hquiet calls call [] rfl
    obtain ⟨hinv, hfollows⟩ := ih hpre (hquiet.of_prefix (List.prefix_append _ _))
    refine ⟨?_, hfollows.perform hnext hordered hinv hcall⟩
    rw [after_concat]
    exact hinv.perform hnext hordered hcall

/-- An instant has come since `u` exactly when the first one after `u` has. -/
theorem instant_since {T : Type*} [LinearOrder T] {I : Set T} {u t n : T}
    (h : IsLeast (I ∩ Set.Ioi u) n) : n ≤ t ↔ (I ∩ Set.Ioc u t).Nonempty := by
  constructor
  · intro hn
    exact ⟨n, h.1.1, h.1.2, hn⟩
  · rintro ⟨x, hx, hux, hxt⟩
    exact (h.2 ⟨hx, hux⟩).trans hxt

/-- The sampling law of a tick that calls its callback with these jobs: each schedule at most once,
    in its current definition, and exactly if an instant has come since its registration and its
    last dispatch. -/
structure Sampled (cron : Croniter) (instants : String → Set Datetime) (sharing : Sharing)
    (calls : List Call) (now : Datetime) (jobs : List (String × String)) : Prop where
  once : (jobs.map Prod.fst).Nodup
  current : ∀ j ∈ jobs, ∃ r, registration cron calls j.1 = some r ∧ r.yamlDefinition = j.2
  sampled : ∀ name r, registration cron calls name = some r →
    ∃ u, Since cron sharing calls name r u ∧
      (name ∈ jobs.map Prod.fst ↔ (instants r.cron ∩ Set.Ioc u now).Nonempty)

/-- CORRECT (cron sampling): after any calls at nondecreasing times whose callbacks do not raise, a
    tick obeys the sampling law, returns what its callback answers, and leaves every `next_run` after
    the tick. -/
theorem tick_samples (cron : Croniter) (instants : String → Set Datetime)
    (hleast : ∀ e t, IsLeast (instants e ∩ Set.Ioi t) (cron.getNext e t)) (sharing : Sharing)
    (calls : List Call) (hordered : Ordered calls)
    (hquiet : History.Each (fun pre call => Quiet (after cron sharing pre) call) calls)
    (now : Datetime) (hnow : Later calls now) :
    ∃ jobs, Sampled cron instants sharing calls now jobs ∧
      ∀ dispatch, Quiet (after cron sharing calls) (.dispatchDue now dispatch) →
        (dispatchDue cron now dispatch (after cron sharing calls)).2 =
          .ok (jobs.mapIdx (answer dispatch)) ∧
        ∀ name s, (dispatchDue cron now dispatch (after cron sharing calls)).1.store.records.get
          name = some s → ∃ t ∈ s.nextRun, now < t := by
  have hnext : ∀ e t, t < cron.getNext e t := fun e t => (hleast e t).1.2
  obtain ⟨hinv, hfollows⟩ := follows_after hnext sharing calls hordered hquiet
  have hat := hinv.at hnow
  have hregistered : ∀ name s, (after cron sharing calls).store.records.get name = some s →
      ∃ r u, registration cron calls name = some r ∧ Waits cron r u s ∧
        Since cron sharing calls name r u := by
    intro name s hs
    cases hreg : registration cron calls name with
    | none => exact absurd (hs.symm.trans (hfollows.absent name hreg)) (by simp)
    | some r =>
      obtain ⟨s', u, hs', hwaits, hsince⟩ := hfollows.present name r hreg
      obtain rfl := Option.some.inj (hs'.symm.trans hs)
      exact ⟨r, u, rfl, hwaits, hsince⟩
  refine ⟨jobs (after cron sharing calls).store now, ⟨?_, ?_, ?_⟩, fun dispatch hq => ?_⟩
  · rw [jobs_names]
    exact (snapshot_due hinv.named).nodup
  · intro j hj
    obtain ⟨x, hx, rfl⟩ := List.mem_map.mp hj
    obtain ⟨r, u, hreg, hwaits, -⟩ := hregistered _ _ ((snapshot_due hinv.named).stored x hx)
    exact ⟨r, hreg, hwaits.definition.symm⟩
  · intro name r hreg
    obtain ⟨s, u, hs, hwaits, hsince⟩ := hfollows.present name r hreg
    refine ⟨u, hsince, ?_⟩
    rw [jobs_names, mem_due_names hinv.named, hs, ← instant_since (hleast r.cron u),
      ← hwaits.isDue]
    simp
  · obtain ⟨hout, hget⟩ := dispatchDue_jobs hnext hat hq
    refine ⟨hout, fun name s hs => ?_⟩
    rw [hget, jobs_names] at hs
    split_ifs at hs with hdue
    · obtain ⟨s₀, -, rfl⟩ := Option.map_eq_some_iff.mp hs
      exact ⟨_, rfl, hnext s₀.cron now⟩
    · obtain ⟨r, u, -, hwaits, -⟩ := hregistered name s hs
      refine ⟨_, hwaits.nextRun, not_le.mp fun hle => hdue ?_⟩
      exact (mem_due_names hinv.named name).mpr ⟨s, hs, hwaits.isDue.mpr hle⟩

end WorkflowScheduler

/-! ### An example -/

theorem Datetime.january (t : Datetime) :
    1 ≤ t.year + 1 ∧ 1 ≤ 1 ∧ 1 ≤ 12 ∧ 1 ≤ 1 ∧ 1 ≤ daysInMonth (t.year + 1) 1 := by
  simp [daysInMonth]

theorem Datetime.midnight : 0 < 24 ∧ 0 < 60 ∧ 0 < 60 ∧ 0 < 1000000 := by decide

/-- The first moment of the next year. -/
def Datetime.nextYear (t : Datetime) : Datetime where
  year := t.year + 1
  month := 1
  day := 1
  date := t.january
  time := Datetime.midnight

/-- The cron library on the expression of a yearly schedule. -/
def yearly : Croniter where
  isValid expression := expression = "0 0 1 1 *"
  getNext _ t := t.nextYear

/-- The first moments of the years. -/
def newYears : Set Datetime := {x | ∃ t : Datetime, x = t.nextYear}

theorem Datetime.isLeast_nextYear (t : Datetime) : IsLeast (newYears ∩ Set.Ioi t) t.nextYear := by
  refine ⟨⟨⟨t, rfl⟩, ?_⟩, ?_⟩
  · change t.key < t.nextYear.key
    simp [key, nextYear, Prod.Lex.toLex_lt_toLex]
  · rintro x ⟨⟨s, rfl⟩, hx⟩
    have hts : t.year < s.year + 1 := by
      by_contra hle
      have hlt : t.key < s.nextYear.key := hx
      have hdate := t.date
      simp [key, nextYear, Prod.Lex.toLex_lt_toLex] at hlt
      omega
    change t.nextYear.key ≤ s.nextYear.key
    simp [key, nextYear, Prod.Lex.toLex_le_toLex]
    omega

/-- A yearly schedule, and a tick that comes years late. -/
def yearlyCalls : List WorkflowScheduler.Call :=
  [.register "report" "0 0 1 1 *" "name: wf" newYear,
   .dispatchDue newYear.nextYear.nextYear.nextYear fun _ _ => .ok none]

theorem yearly_samples :
    ∃ jobs, WorkflowScheduler.Sampled yearly (fun _ => newYears) .copies yearlyCalls
      newYear.nextYear.nextYear.nextYear.nextYear jobs := by
  have htimes : ∀ t ∈ yearlyCalls.filterMap WorkflowScheduler.Call.time?,
      t ≤ newYear.nextYear.nextYear.nextYear.nextYear := by decide +kernel
  obtain ⟨jobs, hjobs, -⟩ := WorkflowScheduler.tick_samples yearly (fun _ => newYears)
    (fun _ t => t.isLeast_nextYear) .copies yearlyCalls (by decide +kernel)
    (((History.each_nil _).concat trivial).concat fun _ _ _ => ⟨none, rfl⟩) _ htimes
  exact ⟨jobs, hjobs⟩

end WorkflowEngine
