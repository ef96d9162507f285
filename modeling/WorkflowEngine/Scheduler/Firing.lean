import WorkflowEngine.Scheduler.Schedules

/-! What a tick does to one schedule.

    A fire time's claim names the schedule and the time, so it is granted once. A handle reads as the
    record stored under its name until that record is written, and advancing a schedule writes its
    own record only; so the snapshot of a tick that runs alone stays what it was. -/

namespace WorkflowEngine
open Schemes

/-! ### Claims of fire times -/

theorem fireText_ne_empty (fire : Option Datetime) : fireText fire ≠ "" := by
  cases fire with
  | none => exact (by decide)
  | some t => exact t.isoformat_ne fun c hc => by simp at hc

theorem fireText_injective : Function.Injective fireText := by
  have hunscheduled : Separated "unscheduled".toList := fun c hc => by
    obtain rfl : 'u' = c := Option.some.inj hc
    rfl
  intro a b h
  cases a with
  | none =>
    cases b with
    | none => rfl
    | some t => exact absurd h.symm (t.isoformat_ne hunscheduled)
  | some s =>
    cases b with
    | none => exact absurd h (s.isoformat_ne hunscheduled)
    | some t => exact congrArg some (Datetime.isoformat_injective h)

theorem fireClaim_inj {name name' : String} {fire fire' : Option Datetime}
    (h : fireClaim name fire = fireClaim name' fire') : name = name' ∧ fire = fire' := by
  obtain ⟨hns, hkey⟩ := Prod.mk.inj h
  refine ⟨?_, fireText_injective hkey⟩
  have hchars := congrArg String.toList hns
  rw [String.toList_append, String.toList_append] at hchars
  exact String.toList_injective (List.append_cancel_left hchars)

/-- A fire time is claimed once. -/
theorem claim_fire (store : IdempotencyStore) (name : String) (fire : Option Datetime) :
    store.claim ("schedule:" ++ name) (some (fireText fire)) =
      if fireClaim name fire ∈ store.claims then (false, store)
      else (true, ⟨insert (fireClaim name fire) store.claims⟩) := by
  rw [IdempotencyStore.claim, if_neg (fireText_ne_empty fire)]
  rfl

/-! ### Records -/

def Handle.name : Handle → String
  | .shared seen => seen.name
  | .copy record => record.name

namespace ScheduleStore
variable {store : ScheduleStore} {s : ScheduledWorkflow}

/-- Every record is stored under its name. -/
def Named (store : ScheduleStore) : Prop :=
  ∀ name s, store.records.get name = some s → s.name = name

theorem read_name (h : store.Named) (x : Handle) : (store.read x).name = x.name := by
  cases x with
  | copy record => rfl
  | shared seen =>
    rw [read, Handle.name]
    cases hget : store.records.get seen.name with
    | none => rfl
    | some s => exact h _ _ hget

theorem handle_name (s : ScheduledWorkflow) : (store.handle s).name = s.name := by
  unfold handle
  cases store.sharing <;> rfl

/-- A record that has just been handed out reads as it is stored. -/
theorem read_handle (h : store.records.get s.name = some s) : store.read (store.handle s) = s := by
  unfold handle
  cases store.sharing with
  | copies => rfl
  | live => rw [read, h]; rfl

theorem get_put (store : ScheduleStore) (s : ScheduledWorkflow) (name : String) :
    (store.put s).records.get name = if name = s.name then some s else store.records.get name :=
  Dict.get_set ..

/-- A write to one schedule is not seen through the handle of another. -/
theorem read_put_of_ne {x : Handle} (h : x.name ≠ s.name) :
    (store.put s).read x = store.read x := by
  cases x with
  | copy record => rfl
  | shared seen =>
    have hne : seen.name ≠ s.name := h
    rw [read, get_put, if_neg hne]; rfl

theorem Named.put (h : store.Named) (s : ScheduledWorkflow) : (store.put s).Named := by
  intro name s' hs'
  rw [get_put] at hs'
  split_ifs at hs' with hname
  · rw [← Option.some.inj hs', hname]
  · exact h name s' hs'

end ScheduleStore

namespace WorkflowScheduler

variable {cron : Croniter} {now : Datetime}

/-- A schedule after it has fired. -/
def ran (cron : Croniter) (now : Datetime) (s : ScheduledWorkflow) : ScheduledWorkflow :=
  { s with lastRun := some now, nextRun := some (cron.getNext s.cron now) }

theorem markRan_eq {store : ScheduleStore} {s : ScheduledWorkflow}
    (h : store.records.get s.name = some s) :
    markRan cron store s.name now = store.put (ran cron now s) := by
  rw [markRan, ScheduleStore.get, h, Option.map_some]
  change advance cron store (store.handle s) now = _
  rw [advance, ScheduleStore.read_handle h]
  rfl

/-- The snapshot of a tick: each schedule once, as it is stored, and due. -/
structure Snapshot (now : Datetime) (store : ScheduleStore) (todo : List Handle) : Prop where
  nodup : (todo.map Handle.name).Nodup
  stored : ∀ x ∈ todo, store.records.get x.name = some (store.read x)
  due : ∀ x ∈ todo, IsDue now (store.read x)

theorem mem_list {store : ScheduleStore} (hnamed : store.Named) {x : Handle} :
    x ∈ store.list ↔ ∃ s, store.records.get s.name = some s ∧ store.handle s = x := by
  rw [ScheduleStore.list, List.mem_map]
  constructor
  · rintro ⟨s, hs, rfl⟩
    obtain ⟨name, hget⟩ := (Dict.mem_values_iff _ s).mp hs
    obtain rfl := hnamed _ _ hget
    exact ⟨s, hget, rfl⟩
  · rintro ⟨s, hs, rfl⟩
    exact ⟨s, (Dict.mem_values_iff _ s).mpr ⟨_, hs⟩, rfl⟩

theorem snapshot_due {store : ScheduleStore} (hnamed : store.Named) :
    Snapshot now store (due store now) := by
  have hread : ∀ x ∈ due store now, store.records.get x.name = some (store.read x) := by
    intro x hx
    obtain ⟨s, hs, rfl⟩ := (mem_list hnamed).mp (List.mem_filter.mp hx).1
    rw [ScheduleStore.read_handle hs, ScheduleStore.handle_name]
    exact hs
  refine ⟨?_, hread, fun x hx => of_decide_eq_true (List.mem_filter.mp hx).2⟩
  have hkeys : store.list.map Handle.name = store.records.keys := by
    rw [ScheduleStore.list, Dict.values, Dict.keys, List.map_map, List.map_map]
    refine List.map_congr_left fun e he => ?_
    exact (ScheduleStore.handle_name _).trans (hnamed _ _ ((Dict.mem_entries_iff _ _ _).mp he))
  exact (hkeys ▸ store.records.nodup : (store.list.map Handle.name).Nodup).sublist
    (List.filter_sublist.map _)

theorem Snapshot.tail {store : ScheduleStore} {x : Handle} {todo : List Handle}
    (h : Snapshot now store (x :: todo)) {s : ScheduledWorkflow} (hs : s.name = x.name) :
    (∀ y ∈ todo, (store.put s).read y = store.read y) ∧ Snapshot now (store.put s) todo := by
  obtain ⟨hx, hnodup⟩ := List.nodup_cons.mp h.nodup
  have hne : ∀ y ∈ todo, y.name ≠ s.name := fun y hy he =>
    hx (List.mem_map.mpr ⟨y, hy, he.trans hs⟩)
  have hread : ∀ y ∈ todo, (store.put s).read y = store.read y := fun y hy =>
    ScheduleStore.read_put_of_ne (hne y hy)
  refine ⟨hread, hnodup, fun y hy => ?_, fun y hy => ?_⟩
  · rw [ScheduleStore.get_put, if_neg (hne y hy), hread y hy]
    exact h.stored y (List.mem_cons_of_mem _ hy)
  · rw [hread y hy]
    exact h.due y (List.mem_cons_of_mem _ hy)

end WorkflowScheduler

/-! ### An example -/

/-- The next full minute within the hour, otherwise some later time. -/
def Datetime.nextMinute (t : Datetime) : Datetime :=
  if h : t.minute < 59 then
    { t with minute := t.minute + 1, second := 0, microsecond := 0,
             time := ⟨t.time.1, by omega, by decide, by decide⟩ }
  else { year := t.year + 1, month := 1, day := 1, date := by simp [daysInMonth] }

theorem Datetime.lt_nextMinute (t : Datetime) : t < t.nextMinute := by
  change t.key < t.nextMinute.key
  unfold nextMinute
  split_ifs with h
  · simp [key, Prod.Lex.toLex_lt_toLex]
  · simp [key, Prod.Lex.toLex_lt_toLex]

/-- A cron library that knows one expression. -/
def everyMinute : Croniter where
  isValid expression := expression = "* * * * *"
  getNext _ t := t.nextMinute

def newYear : Datetime := { year := 2026, month := 1, day := 1 }

/-- A schedule registered at the new year. -/
def minute : ScheduledWorkflow where
  name := "minute"
  cron := "* * * * *"
  yamlDefinition := "name: wf"
  nextRun := some newYear.nextMinute

example : newYear.nextMinute.isoformat = "2026-01-01T00:01:00+00:00" := by decide +kernel

end WorkflowEngine
