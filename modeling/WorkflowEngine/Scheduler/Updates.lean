import WorkflowEngine.Scheduler.Sampling
import Mathlib.Logic.Function.Basic

/-! Updates of a schedule while it is advanced.

    `mark_ran` looks a schedule up, changes it and puts it back, and another client's request can land
    in between. The in-memory store hands out its objects, a registration makes a new object, and the
    old one stays in the hands of whoever looked it up. So what is put back is the schedule as it was
    looked up, and a change that was made since is undone. -/

namespace WorkflowEngine
open Schemes

/-! ### Stores with object identities -/

/-- A schedule in the hands of a client: one of the store's own objects, or a copy of a row. -/
inductive Held where
  | object (ref : ℕ)
  | copy (record : ScheduledWorkflow)

/-- The objects made so far, and which of them is stored under each name. The database's rows are
    objects that nobody else holds. -/
structure ObjectStore where
  sharing : Sharing
  objects : List ScheduledWorkflow := []
  records : Dict String ℕ := Dict.empty

namespace ObjectStore

/-- What is stored under a name. -/
def stored (store : ObjectStore) (name : String) : Option ScheduledWorkflow :=
  (store.records.get name).bind fun ref => store.objects[ref]?

/-- The attributes of a schedule in a client's hands. -/
def read (store : ObjectStore) : Held → Option ScheduledWorkflow
  | .object ref => store.objects[ref]?
  | .copy record => some record

/-- Store a new object. -/
def putNew (store : ObjectStore) (s : ScheduledWorkflow) : ObjectStore :=
  { store with objects := store.objects ++ [s],
               records := store.records.set s.name store.objects.length }

/-- `put`: the in-memory store takes the object itself, the database the values of the copy. -/
def put (store : ObjectStore) : Held → ObjectStore
  | .object ref =>
    match store.objects[ref]? with
    | some s => { store with records := store.records.set s.name ref }
    | none => store
  | .copy record => store.putNew record

def get (store : ObjectStore) (name : String) : Option Held :=
  match store.sharing with
  | .live => (store.records.get name).map .object
  | .copies => (store.stored name).map .copy

def delete (store : ObjectStore) (name : String) : ObjectStore × Bool :=
  ({ store with records := store.records.erase name }, (store.records.get name).isSome)

/-- Assignments to the attributes of a schedule in a client's hands. -/
def assign (store : ObjectStore) (f : ScheduledWorkflow → ScheduledWorkflow) :
    Held → ObjectStore × Held
  | .object ref => ({ store with objects := store.objects.modify ref f }, .object ref)
  | .copy record => (store, .copy (f record))

variable (cron : Croniter)

/-- The rest of `mark_ran`, after its lookup has found a schedule. -/
def advance (store : ObjectStore) (x : Held) (now : Datetime) : ObjectStore :=
  let (store, x) := store.assign (WorkflowScheduler.ran cron now) x
  store.put x

/-- `mark_ran`, with no request between its two halves. -/
def markRan (store : ObjectStore) (name : String) (now : Datetime) : ObjectStore :=
  match store.get name with
  | some x => store.advance cron x now
  | none => store

def register (store : ObjectStore) (name expression yamlDefinition : String) (now : Datetime) :
    ObjectStore :=
  if cron.isValid expression then
    store.putNew { name := name, cron := expression, yamlDefinition := yamlDefinition,
                   nextRun := some (cron.getNext expression now) }
  else store

/-! ### What the operations leave -/

/-- Every record is an object that carries the name it is stored under. -/
def Named (store : ObjectStore) : Prop :=
  ∀ name ref, store.records.get name = some ref →
    ∃ s, store.objects[ref]? = some s ∧ s.name = name

variable {cron} {store : ObjectStore} {now : Datetime}

theorem stored_putNew (h : store.Named) (s : ScheduledWorkflow) (name : String) :
    (store.putNew s).stored name = if name = s.name then some s else store.stored name := by
  rw [putNew, stored, Dict.get_set]
  split_ifs with hname
  · simp
  · rw [stored]
    cases hget : store.records.get name with
    | none => rfl
    | some ref =>
      obtain ⟨s', hs', -⟩ := h name ref hget
      have hlt := (List.getElem?_eq_some_iff.mp hs').1
      rw [Option.bind_some, Option.bind_some, List.getElem?_append_left hlt]

theorem Named.putNew (h : store.Named) (s : ScheduledWorkflow) : (store.putNew s).Named := by
  intro name ref hget
  rw [ObjectStore.putNew, Dict.get_set] at hget
  split_ifs at hget with hname
  · obtain rfl := Option.some.inj hget
    exact ⟨s, by simp [ObjectStore.putNew], hname.symm⟩
  · obtain ⟨s', hs', hn⟩ := h name ref hget
    have hlt := (List.getElem?_eq_some_iff.mp hs').1
    exact ⟨s', by rw [ObjectStore.putNew, List.getElem?_append_left hlt, hs'], hn⟩

theorem stored_delete (store : ObjectStore) (name' name : String) :
    (store.delete name').1.stored name = if name = name' then none else store.stored name := by
  rw [delete, stored, Dict.get_erase]
  split_ifs <;> rfl

theorem Named.delete (h : store.Named) (name' : String) : (store.delete name').1.Named := by
  intro name ref hget
  rw [ObjectStore.delete, Dict.get_erase] at hget
  split_ifs at hget
  exact h name ref hget

theorem read_get {x : Held} {name : String} (h : store.get name = some x) :
    store.read x = store.stored name := by
  rw [get] at h
  cases hs : store.sharing with
  | live =>
    rw [hs] at h
    obtain ⟨ref, hget, rfl⟩ := Option.map_eq_some_iff.mp h
    rw [read, stored, hget]; rfl
  | copies =>
    rw [hs] at h
    obtain ⟨s, hget, rfl⟩ := Option.map_eq_some_iff.mp h
    rw [read, hget]

theorem exists_read_get (h : store.Named) {x : Held} {name : String} (hx : store.get name = some x) :
    ∃ s, store.read x = some s := by
  rw [read_get hx]
  rw [get] at hx
  cases hs : store.sharing with
  | live =>
    rw [hs] at hx
    obtain ⟨ref, hget, -⟩ := Option.map_eq_some_iff.mp hx
    obtain ⟨s, hobj, -⟩ := h name ref hget
    exact ⟨s, by rw [stored, hget]; exact hobj⟩
  | copies =>
    rw [hs] at hx
    obtain ⟨s, hget, -⟩ := Option.map_eq_some_iff.mp hx
    exact ⟨s, hget⟩

/-- What is put back is the schedule that the client holds, whatever is stored by then. -/
theorem stored_advance (h : store.Named) {x : Held} {s : ScheduledWorkflow}
    (hx : store.read x = some s) (name : String) : (store.advance cron x now).stored name =
      if name = s.name then some (WorkflowScheduler.ran cron now s) else store.stored name := by
  cases x with
  | copy record =>
    obtain rfl := Option.some.inj hx
    exact stored_putNew h _ name
  | object ref =>
    have hobj : store.objects[ref]? = some s := hx
    have hran : (store.objects.modify ref (WorkflowScheduler.ran cron now))[ref]? =
        some (WorkflowScheduler.ran cron now s) := by
      rw [List.getElem?_modify_eq, hobj]; rfl
    rw [advance, assign]
    simp only [put, hran]
    rw [stored, Dict.get_set]
    split_ifs with hname hname' hname'
    · exact hran
    · exact absurd hname hname'
    · exact absurd hname' hname
    · rw [stored]
      cases hget : store.records.get name with
      | none => rfl
      | some ref' =>
        obtain ⟨s', hs', rfl⟩ := h name ref' hget
        have hne : ref ≠ ref' := by
          rintro rfl
          obtain rfl := Option.some.inj (hobj.symm.trans hs')
          exact hname rfl
        exact List.getElem?_modify_ne _ _ hne

theorem Named.advance (h : store.Named) (x : Held) : (store.advance cron x now).Named := by
  cases x with
  | copy record => exact h.putNew _
  | object ref =>
    have hname : ∀ (ref' : ℕ) (s : ScheduledWorkflow), store.objects[ref']? = some s →
        ∃ s' : ScheduledWorkflow, (store.objects.modify ref (WorkflowScheduler.ran cron now))[ref']? = some s' ∧
          s'.name = s.name := by
      intro ref' s hs
      rw [List.getElem?_modify, hs]
      refine ⟨_, rfl, ?_⟩
      split_ifs <;> rfl
    have hassigned : Named { store with
        objects := store.objects.modify ref (WorkflowScheduler.ran cron now) } := by
      intro name ref' hget
      obtain ⟨s, hs, rfl⟩ := h name ref' hget
      exact hname ref' s hs
    rw [ObjectStore.advance, assign]
    simp only [put]
    cases hobj : (store.objects.modify ref (WorkflowScheduler.ran cron now))[ref]? with
    | none => exact hassigned
    | some s =>
      intro name ref' hget
      rw [Dict.get_set] at hget
      split_ifs at hget with hn
      · obtain rfl := Option.some.inj hget
        exact ⟨s, hobj, hn.symm⟩
      · exact hassigned name ref' hget

/-- A store with object identities holds what a store of records holds. -/
def Agrees (store : ObjectStore) (records : ScheduleStore) : Prop :=
  ∀ name, store.stored name = records.records.get name

/-- REFINEMENT: without a request in between, `mark_ran` does to the objects what it does to the
    records. -/
theorem Agrees.markRan {records : ScheduleStore} (h : store.Named) (hr : records.Named)
    (ha : store.Agrees records) (name : String) :
    Agrees (store.markRan cron name now) (WorkflowScheduler.markRan cron records name now) := by
  rw [ObjectStore.markRan]
  cases hs : store.stored name with
  | none =>
    have hnone : store.get name = none := by
      rw [get]
      cases store.sharing with
      | copies => rw [hs]; rfl
      | live =>
        cases hget : store.records.get name with
        | none => rfl
        | some ref =>
          obtain ⟨s, hobj, -⟩ := h name ref hget
          rw [stored, hget, Option.bind_some, hobj] at hs
          exact absurd hs (by simp)
    rw [hnone, WorkflowScheduler.markRan, ScheduleStore.get, ← ha, hs]
    exact ha
  | some s =>
    obtain ⟨x, hx⟩ : ∃ x, store.get name = some x := by
      rw [get]
      cases store.sharing with
      | copies => exact ⟨_, congrArg (Option.map Held.copy) hs⟩
      | live =>
        obtain ⟨ref, hget, -⟩ := Option.bind_eq_some_iff.mp hs
        exact ⟨_, congrArg (Option.map Held.object) hget⟩
    have hread : store.read x = some s := (read_get hx).trans hs
    have hrecord : records.records.get name = some s := (ha name).symm.trans hs
    obtain rfl := hr name s hrecord
    rw [hx, WorkflowScheduler.markRan_eq hrecord]
    intro name'
    rw [stored_advance h hread, ScheduleStore.get_put, ha]
    rfl

end ObjectStore

/-! ### Interleavings -/

/-- An atomic action: a client's request, or one half of the call of `mark_ran` by client `i`. -/
inductive UpdateAction (ι : Type) where
  | register (name expression yamlDefinition : String) (now : Datetime)
  | unregister (name : String)
  | get (i : ι) (name : String)
  | put (i : ι) (now : Datetime)

/-- The store, and the schedule that each call of `mark_ran` has looked up. -/
structure Updates (ι : Type) where
  store : ObjectStore
  held : ι → Option Held := fun _ => none

namespace Updates
variable {ι : Type} [DecidableEq ι]

def perform (cron : Croniter) (u : Updates ι) : UpdateAction ι → Updates ι
  | .register name expression yaml now =>
    { u with store := u.store.register cron name expression yaml now }
  | .unregister name => { u with store := (u.store.delete name).1 }
  | .get i name => { u with held := Function.update u.held i (u.store.get name) }
  | .put i now =>
    match u.held i with
    | some x =>
      { store := u.store.advance cron x now, held := Function.update u.held i none }
    | none => u -- `if not sched: return`

/-- A new store after these actions. -/
def after (cron : Croniter) (sharing : Sharing) (actions : List (UpdateAction ι)) : Updates ι :=
  actions.foldl (perform cron) { store := { sharing := sharing } }

/-- The requests among the actions. -/
def request? : UpdateAction ι → Option WorkflowScheduler.Call
  | .register name expression yaml now => some (.register name expression yaml now)
  | .unregister name => some (.unregister name)
  | .get _ _ | .put _ _ => none

/-- The cron expression and the definition that the last request for a name left, if any. -/
def wanted (cron : Croniter) (actions : List (UpdateAction ι)) (name : String) :
    Option (String × String) :=
  (WorkflowScheduler.registration cron (actions.filterMap request?) name).map fun r =>
    (r.cron, r.yamlDefinition)

/-- Every schedule is as its last request left it: absent, or with its cron and definition. -/
def Kept (cron : Croniter) (actions : List (UpdateAction ι)) (u : Updates ι) : Prop :=
  ∀ name, (u.store.stored name).map (fun s => (s.cron, s.yamlDefinition)) =
    wanted cron actions name

/-- When `mark_ran` is about to put a schedule back, one with the same cron and definition is stored
    under its name. -/
def Current (u : Updates ι) : UpdateAction ι → Prop
  | .put i _ => ∀ x s, u.held i = some x → u.store.read x = some s →
      ∃ s', u.store.stored s.name = some s' ∧ s'.cron = s.cron ∧
        s'.yamlDefinition = s.yamlDefinition
  | _ => True

/-- The invariant: what a client holds exists, and every schedule is as its last request left it. -/
structure Inv (cron : Croniter) (actions : List (UpdateAction ι)) (u : Updates ι) : Prop where
  named : u.store.Named
  held : ∀ i x, u.held i = some x → ∃ s, u.store.read x = some s
  kept : Kept cron actions u

variable {cron : Croniter} {sharing : Sharing} {actions : List (UpdateAction ι)} {u : Updates ι}

omit [DecidableEq ι] in
theorem wanted_concat (a : UpdateAction ι) : wanted cron (actions ++ [a]) =
    match a with
    | .register n expression yaml _ => fun name =>
      if n = name ∧ cron.isValid expression then some (expression, yaml)
      else wanted cron actions name
    | .unregister n => fun name => if n = name then none else wanted cron actions name
    | _ => wanted cron actions := by
  funext name
  rw [wanted, List.filterMap_append]
  cases a with
  | register n expression yaml now =>
    change ((WorkflowScheduler.registration cron (_ ++ [_]) name).map _) = _
    rw [WorkflowScheduler.registration_concat]
    simp only
    split_ifs <;> rfl
  | unregister n =>
    change ((WorkflowScheduler.registration cron (_ ++ [_]) name).map _) = _
    rw [WorkflowScheduler.registration_concat]
    simp only
    split_ifs <;> rfl
  | get i n => exact congrArg (Option.map _) (congrArg₂ _ (List.append_nil _) rfl)
  | put i now => exact congrArg (Option.map _) (congrArg₂ _ (List.append_nil _) rfl)

omit [DecidableEq ι] in
theorem wanted_put (i : ι) (now : Datetime) :
    wanted cron (actions ++ [.put i now]) = wanted cron actions := wanted_concat _

/-- What a client holds exists as long as no object goes away. -/
theorem read_of_length {store store' : ObjectStore} {x : Held} {s : ScheduledWorkflow}
    (hlen : store.objects.length ≤ store'.objects.length) (h : store.read x = some s) :
    ∃ s', store'.read x = some s' := by
  cases x with
  | copy record => exact ⟨record, rfl⟩
  | object ref =>
    have hlt := (List.getElem?_eq_some_iff.mp h).1
    exact ⟨_, List.getElem?_eq_getElem (hlt.trans_le hlen)⟩

theorem advance_length (store : ObjectStore) (x : Held) (now : Datetime) :
    store.objects.length ≤ (store.advance cron x now).objects.length := by
  cases x with
  | copy record => simp [ObjectStore.advance, ObjectStore.assign, ObjectStore.put,
      ObjectStore.putNew]
  | object ref =>
    rw [ObjectStore.advance, ObjectStore.assign]
    simp only [ObjectStore.put]
    split <;> simp

omit [DecidableEq ι] in
theorem Inv.request (h : Inv cron actions u) {store : ObjectStore} {a : UpdateAction ι}
    (hnamed : store.Named) (hlen : u.store.objects.length ≤ store.objects.length)
    (hkept : Kept cron (actions ++ [a]) { u with store := store }) :
    Inv cron (actions ++ [a]) { u with store := store } where
  named := hnamed
  held i x hx := by
    obtain ⟨s, hs⟩ := h.held i x hx
    exact read_of_length hlen hs
  kept := hkept

/-- What a client's put leaves. -/
theorem perform_put {i : ι} {now : Datetime} {x : Held} (hx : u.held i = some x) :
    perform cron u (.put i now) =
      { store := u.store.advance cron x now, held := Function.update u.held i none } := by
  rw [perform, hx]

theorem Inv.get (h : Inv cron actions u) (i : ι) (n : String) :
    Inv cron (actions ++ [.get i n]) (Updates.perform cron u (.get i n)) := by
  refine ⟨h.named, fun j x hx => ?_, fun name => ?_⟩
  · change Function.update u.held i (u.store.get n) j = some x at hx
    rw [Function.update_apply] at hx
    split_ifs at hx with hj
    · exact ObjectStore.exists_read_get h.named hx
    · exact h.held j x hx
  · rw [wanted_concat]
    exact h.kept name

theorem Inv.put (h : Inv cron actions u) (i : ι) (now : Datetime) (hc : Current u (.put i now)) :
    Inv cron (actions ++ [.put i now]) (Updates.perform cron u (.put i now)) := by
  cases hheld : u.held i with
  | none =>
    rw [Updates.perform, hheld]
    exact ⟨h.named, h.held, fun name => by rw [wanted_concat]; exact h.kept name⟩
  | some x =>
    obtain ⟨s, hs⟩ := h.held i x hheld
    obtain ⟨s', hs', hcron, hyaml⟩ := hc x s hheld hs
    rw [perform_put hheld]
    refine ⟨h.named.advance x, fun j y hy => ?_, fun name => ?_⟩
    · change Function.update u.held i none j = some y at hy
      rw [Function.update_apply] at hy
      split_ifs at hy
      obtain ⟨t, ht⟩ := h.held j y hy
      exact read_of_length (advance_length u.store x now) ht
    · rw [wanted_put, ← h.kept name, ObjectStore.stored_advance h.named hs]
      split_ifs with hn
      · rw [hn, hs', Option.map_some, Option.map_some, hcron, hyaml]
        rfl
      · rfl

theorem Inv.perform (h : Inv cron actions u) (a : UpdateAction ι) (hc : Current u a) :
    Inv cron (actions ++ [a]) (perform cron u a) := by
  cases a with
  | register n expression yaml now =>
    rw [Updates.perform, ObjectStore.register]
    split_ifs with hvalid
    · refine h.request (h.named.putNew _) (by simp [ObjectStore.putNew]) fun name => ?_
      rw [wanted_concat]
      simp only [ObjectStore.stored_putNew h.named, hvalid, and_true, eq_comm (a := n)]
      split_ifs with hn
      · rfl
      · exact h.kept name
    · refine h.request h.named le_rfl fun name => ?_
      rw [wanted_concat]
      simpa [hvalid] using h.kept name
  | unregister n =>
    refine h.request (h.named.delete n) le_rfl fun name => ?_
    rw [wanted_concat]
    simp only [ObjectStore.stored_delete, eq_comm (a := n)]
    split_ifs with hn
    · rfl
    · exact h.kept name
  | get i n => exact h.get i n
  | put i now => exact h.put i now hc

/-- A put of a schedule that is no longer current undoes a request. -/
theorem Inv.spoil (h : Inv cron actions u) {a : UpdateAction ι} (hc : ¬ Current u a) :
    ¬ Kept cron (actions ++ [a]) (Updates.perform cron u a) := by
  cases a with
  | register | unregister | get => exact absurd trivial hc
  | put i now =>
    simp only [Current, not_forall] at hc
    obtain ⟨x, s, hheld, hs, hno⟩ := hc
    intro hkept
    have hput := hkept s.name
    rw [wanted_put, ← h.kept s.name, perform_put hheld,
      ObjectStore.stored_advance h.named hs, if_pos rfl] at hput
    obtain ⟨s', hs', he⟩ := Option.map_eq_some_iff.mp hput.symm
    obtain ⟨hcron, hyaml⟩ := Prod.mk.inj he
    exact hno ⟨s', hs', hcron, hyaml⟩

omit [DecidableEq ι] in
theorem inv_start (sharing : Sharing) :
    Inv cron ([] : List (UpdateAction ι)) { store := { sharing := sharing } } where
  named _ _ h := by simp at h
  held _ _ h := by simp at h
  kept _ := rfl

/-- EXACT (no undone request): at every moment every schedule is as its last request left it, if and
    only if every schedule that `mark_ran` puts back is still current. -/
theorem kept_iff_current (cron : Croniter) (sharing : Sharing) (actions : List (UpdateAction ι)) :
    (∀ pre, pre <+: actions → Kept cron pre (after cron sharing pre)) ↔
      History.Each (fun pre a => Current (after cron sharing pre) a) actions := by
  have hconcat : ∀ (pre : List (UpdateAction ι)) (a : UpdateAction ι),
      after cron sharing (pre ++ [a]) = perform cron (after cron sharing pre) a := by
    intro pre a
    rw [after, List.foldl_append]
    rfl
  refine History.each_iff_good (fun _ => True) (fun pre => Inv cron pre (after cron sharing pre))
    (fun _ _ _ => trivial) (inv_start sharing) (fun pre h => h.kept) ?_ ?_ actions trivial
  · intro pre a _ h hc
    rw [hconcat]
    exact h.perform a hc
  · intro pre a _ h hc
    rw [hconcat]
    exact h.spoil hc

/-- A schedule is deleted while it is being advanced. -/
def deletedMeanwhile : List (UpdateAction Unit) :=
  [.register minute.name minute.cron minute.yamlDefinition newYear, .get () "minute",
   .unregister "minute", .put () newYear.nextMinute]

/-- A schedule is given another definition while it is being advanced. -/
def replacedMeanwhile : List (UpdateAction Unit) :=
  [.register minute.name minute.cron minute.yamlDefinition newYear, .get () "minute",
   .register minute.name minute.cron "name: new" newYear, .put () newYear.nextMinute]

/-- In either store the deleted schedule is back, and the old definition is. -/
theorem undone_meanwhile (sharing : Sharing) :
    ((after everyMinute sharing deletedMeanwhile).store.stored "minute").isSome = true ∧
    ((after everyMinute sharing replacedMeanwhile).store.stored "minute").map
      ScheduledWorkflow.yamlDefinition = some "name: wf" ∧
    ¬ Kept everyMinute deletedMeanwhile (after everyMinute sharing deletedMeanwhile) ∧
    ¬ Kept everyMinute replacedMeanwhile (after everyMinute sharing replacedMeanwhile) := by
  have hdeleted : ((after everyMinute sharing deletedMeanwhile).store.stored "minute").isSome =
      true := by cases sharing <;> decide +kernel
  have hreplaced : ((after everyMinute sharing replacedMeanwhile).store.stored "minute").map
      ScheduledWorkflow.yamlDefinition = some "name: wf" := by cases sharing <;> decide +kernel
  refine ⟨hdeleted, hreplaced, fun h => ?_, fun h => ?_⟩
  · have hname := h "minute"
    rw [show wanted everyMinute deletedMeanwhile "minute" = none by decide +kernel,
      Option.map_eq_none_iff] at hname
    rw [hname] at hdeleted
    exact absurd hdeleted (by simp)
  · have hname := h "minute"
    rw [show wanted everyMinute replacedMeanwhile "minute" = some ("* * * * *", "name: new") by
      decide +kernel] at hname
    obtain ⟨s, hs, he⟩ := Option.map_eq_some_iff.mp hname
    rw [hs, Option.map_some, (Prod.mk.inj he).2] at hreplaced
    exact absurd hreplaced (by decide)

theorem minute_undone :
    (¬ Kept everyMinute deletedMeanwhile (after everyMinute .live deletedMeanwhile) ∧
      ¬ Kept everyMinute replacedMeanwhile (after everyMinute .live replacedMeanwhile)) ∧
    (¬ Kept everyMinute deletedMeanwhile (after everyMinute .copies deletedMeanwhile) ∧
      ¬ Kept everyMinute replacedMeanwhile (after everyMinute .copies replacedMeanwhile)) :=
  ⟨(undone_meanwhile .live).2.2, (undone_meanwhile .copies).2.2⟩

end Updates

end WorkflowEngine
