import WorkflowEngine.Service.Reading
import WorkflowEngine.Scheduler.Firing

/-! The registries of the service.

    Webhooks and schedules are registered by requests of their own, and the rest leaves what they
    registered. A tick moves a schedule on, but keeps its expression and its definition. So what is
    registered can be told from the answers alone: a request that was refused or failed registered
    nothing, wherever it failed. -/

namespace WorkflowEngine
open Schemes

variable {D P V J : Type} {lib : YamlLibrary D P} [PyValue V]

/-! ### What the answers tell -/

/-- What was asked for when a schedule was created, and when. -/
structure Registration where
  cron : String
  yamlDefinition : String
  since : Datetime

structure Registries where
  webhooks : Dict String WebhookTrigger := Dict.empty
  schedules : Dict String Registration := Dict.empty

/-- What a request that has succeeded registers. -/
def Registries.note (b : Registries) : ServiceRequest → Registries
  | .registerWebhook name yamlDefinition description secret =>
    { b with webhooks := b.webhooks.set name ⟨name, yamlDefinition, description, secret⟩ }
  | .createSchedule name cron yamlDefinition now =>
    { b with schedules := b.schedules.set name ⟨cron, yamlDefinition, now⟩ }
  | .deleteSchedule name => { b with schedules := b.schedules.erase name }
  | _ => b

/-- Only the answers are looked at. -/
def Registries.hear (b : Registries) (x : Exchange lib V J) : Registries :=
  match x.answer with
  | .ok _ => b.note x.request
  | .error _ => b

def registriesOf (exchanges : List (Exchange lib V J)) : Registries :=
  exchanges.foldl Registries.hear {}

/-! ### What is stored -/

/-- A stored schedule is what was registered, enabled, and waits for the next time after its last run,
    or after its registration if it never ran. -/
structure ScheduledWorkflow.Follows (croniter : Croniter) (name : String) (e : Registration)
    (r : ScheduledWorkflow) : Prop where
  name : r.name = name
  cron : r.cron = e.cron
  yamlDefinition : r.yamlDefinition = e.yamlDefinition
  enabled : r.enabled = true
  nextRun : r.nextRun = some (croniter.getNext e.cron (r.lastRun.getD e.since))

/-- The tables hold what was registered. -/
structure World.Registers (cron : Croniter) (b : Registries) (w : World lib V J) : Prop where
  webhooks : w.webhooks = b.webhooks
  schedules : ∀ name, Option.Rel (fun e r => r.Follows cron name e) (b.schedules.get name)
    (w.schedules.store.records.get name)

section Registers
variable {s : Service V P J} {c : Circumstances V P} {cs : ℕ → Circumstances V P} {b : Registries}
  {w : World lib V J}

theorem World.Registers.named {cron : Croniter} (h : w.Registers cron b) :
    w.schedules.store.Named := by
  intro name r hget
  have hrel := h.schedules name
  rw [hget] at hrel
  generalize b.schedules.get name = e at hrel
  cases hrel with
  | some hfollows => exact hfollows.name

/-- A tick moves a schedule on and leaves the others. -/
theorem World.Registers.markRan (h : w.Registers s.cron b) (name : String) (now : Datetime) :
    World.Registers s.cron b { w with schedules := { w.schedules with
      store := WorkflowScheduler.markRan s.cron w.schedules.store name now } } where
  webhooks := h.webhooks
  schedules name' := by
    have hrel := h.schedules name'
    rcases hget : w.schedules.store.records.get name with _ | r
    · have hsame : WorkflowScheduler.markRan s.cron w.schedules.store name now =
          w.schedules.store := by
        rw [WorkflowScheduler.markRan, ScheduleStore.get, hget]
        rfl
      dsimp only
      rwa [hsame]
    · obtain rfl := h.named name r hget
      dsimp only
      rw [WorkflowScheduler.markRan_eq hget, ScheduleStore.get_put]
      rcases eq_or_ne name' r.name with rfl | hne
      · have hname : r.name = (WorkflowScheduler.ran s.cron now r).name := rfl
        rw [if_pos hname]
        rw [hget] at hrel
        generalize b.schedules.get r.name = e at hrel ⊢
        cases hrel with
        | some hfollows =>
          exact .some ⟨rfl, hfollows.cron, hfollows.yamlDefinition, hfollows.enabled,
            congrArg (fun expression => some (s.cron.getNext expression now)) hfollows.cron⟩
      · have hne' : name' ≠ (WorkflowScheduler.ran s.cron now r).name := hne
        rwa [if_neg hne']

theorem registers_endures (s : Service V P J) (b : Registries) :
    Endures s (World.Registers s.cron b : World lib V J → Prop) where
  version _ h := ⟨h.webhooks, h.schedules⟩
  queue _ h := ⟨h.webhooks, h.schedules⟩
  ran _ h := ⟨h.webhooks, h.schedules⟩
  run _ h := ⟨h.webhooks, h.schedules⟩
  events _ h := ⟨h.webhooks, h.schedules⟩

theorem World.Registers.claimed (h : w.Registers s.cron b) (ns key : String) :
    (w.claimed ns key).Registers s.cron b :=
  ⟨h.webhooks, h.schedules⟩

/-! ### What leaves the registries -/

theorem dispatchDueLoop_registers
    {dispatch : Circumstances V P → String → Program lib V J String}
    (hdispatch : ∀ k text, Prog.Keeps (World.Registers s.cron b) (dispatch (cs k) text))
    (now : Datetime) : ∀ (todo : List Handle) (k : ℕ) (dispatched : List (String × String)),
      Prog.Keeps (World.Registers s.cron b) (dispatchDueLoop s cs dispatch now k todo dispatched)
  | [], k, dispatched => .pure _
  | x :: todo, k, dispatched => by
    refine Prog.Keeps.bind (.view _) fun sched => Prog.Keeps.bind ?_ fun granted => ?_
    · exact claim_keeps (fireText_ne_empty _) fun _ h => h.claimed _ _
    · have hrest := dispatchDueLoop_registers hdispatch now todo (k + 1)
      cases granted with
      | false => exact hrest _
      | true =>
        refine Prog.Keeps.bind (hdispatch k _) fun runId => (attempt_keeps _).bind fun _ => ?_
        exact Prog.Keeps.bind (.change fun _ h => h.markRan _ now) fun _ => hrest _

theorem dispatchDue_registers {dispatch : Circumstances V P → String → Program lib V J String}
    (hdispatch : ∀ k text, Prog.Keeps (World.Registers s.cron b) (dispatch (cs k) text))
    (now : Datetime) : Prog.Keeps (World.Registers s.cron b) (dispatchDue s cs dispatch now) :=
  (attempt_keeps _).bind fun _ => Prog.Keeps.bind (.view _) fun todo =>
    dispatchDueLoop_registers hdispatch now todo 0 []

/-! ### What changes them -/

theorem registerWebhook_settles (name yamlDefinition description : String)
    (secret : Option String) :
    Prog.Settles (World.Registers s.cron b)
      (World.Registers s.cron (b.note (.registerWebhook name yamlDefinition description secret)))
      (World.Registers s.cron b)
      (registerWebhook c name yamlDefinition description secret : Program lib V J Unit) := by
  refine .bind checkAccess_keeps fun _ => .handle_raise (.handle_raise ?_)
  refine .bind (.lift _) fun _ => .bind (attempt_keeps _) fun _ => .change fun w h => ?_
  exact ⟨congrArg (Dict.set · name _) h.webhooks, h.schedules⟩

/-- A schedule takes the place of the one of its name, and starts over. -/
theorem World.Registers.register (h : w.Registers s.cron b) {name expression yamlDefinition : String}
    {now : Datetime} {store : ScheduleStore}
    (hregister : WorkflowScheduler.register s.cron w.schedules.store name expression yamlDefinition
      now = .ok store) :
    World.Registers s.cron (b.note (.createSchedule name expression yamlDefinition now))
      { w with schedules := { w.schedules with store := store } } where
  webhooks := h.webhooks
  schedules name' := by
    unfold WorkflowScheduler.register at hregister
    split_ifs at hregister
    obtain rfl := Except.ok.inj hregister
    rw [Registries.note, Dict.get_set, ScheduleStore.get_put]
    split_ifs with hname
    · subst hname
      exact .some ⟨rfl, rfl, rfl, rfl, rfl⟩
    · exact h.schedules name'

theorem createSchedule_settles (name expression yamlDefinition : String) (now : Datetime) :
    Prog.Settles (World.Registers s.cron b)
      (World.Registers s.cron (b.note (.createSchedule name expression yamlDefinition now)))
      (World.Registers s.cron b)
      (createSchedule s c name expression yamlDefinition now : Program lib V J Unit) := by
  refine .bind checkAccess_keeps fun _ => ?_
  split_ifs
  · refine .handle_raise (.handle_raise (.bind (.lift _) fun _ => ?_))
    intro w h
    rw [registerSchedule, Prog.view_bind_run]
    rcases hregister : WorkflowScheduler.register s.cron w.schedules.store name expression
      yamlDefinition now with e | store
    · exact Prog.Settles.raise (fun _ h => h) w h
    · refine Prog.Settles.seq (I := (· = w)) (attempt_keeps _) (fun _ he => he ▸ h) (fun _ => ?_) w
        rfl
      exact .change fun _ he => he ▸ h.register hregister
  · exact .raise fun _ h => h

theorem deleteSchedule_settles (name : String) :
    Prog.Settles (World.Registers s.cron b)
      (World.Registers s.cron (b.note (.deleteSchedule name))) (World.Registers s.cron b)
      (deleteSchedule c name : Program lib V J Unit) := by
  refine .handle_raise (.bind checkAccess_keeps fun _ => .bind (attempt_keeps _) fun _ => ?_)
  intro w h
  rw [Prog.view_bind_run]
  dsimp only [WorkflowScheduler.unregister, ScheduleStore.delete]
  rw [Prog.change_bind_run]
  have hrel := h.schedules name
  rcases hget : w.schedules.store.records.get name with _ | r
  · -- there was nothing to erase
    refine Prog.Settles.raise (I := World.Registers s.cron b) (fun _ h => h) _
      ⟨h.webhooks, fun name' => ?_⟩
    rw [Dict.get_erase]
    split_ifs with hname
    · rwa [hname, ← hget]
    · exact h.schedules name'
  · refine Prog.Settles.pure (I := World.Registers s.cron (b.note (.deleteSchedule name)))
      (fun _ h => h) _ ⟨h.webhooks, fun name' => ?_⟩
    rw [Registries.note, Dict.get_erase, Dict.get_erase]
    split_ifs
    · exact .none
    · exact h.schedules name'

/-! ### A request -/

theorem dispatch_registers (call : DispatchCall) : Prog.Keeps (World.Registers s.cron b)
    (dispatch s c call : Program lib V J (DispatchResult P)) :=
  (registers_endures s b).dispatch call

theorem claimIdempotency_registers (ns : String) (key : Option String) :
    Prog.Keeps (World.Registers s.cron b) (claimIdempotency c ns key : Program lib V J Unit) :=
  claimIdempotency_keeps fun _ _ _ h => h.claimed _ _

/-- A program followed by one that only looks at its value. -/
theorem answered {α β : Type} {I : World lib V J → Prop} {m : Program lib V J α}
    (hm : Prog.Keeps I m) (f : α → β) : Prog.Settles I I I (do let a ← m; return f a) :=
  hm.settles.map

variable (cs) in
/-- STEP: a request changes what is registered as its answer tells. -/
theorem serve_registers (request : ServiceRequest) :
    Prog.Settles (World.Registers s.cron b) (World.Registers s.cron (b.note request))
      (World.Registers s.cron b) (serve s cs request : Program lib V J (Answer P)) := by
  cases request with
  | registerWebhook name text description secret =>
    exact (registerWebhook_settles name text description secret).map
  | createSchedule name cron text now => exact (createSchedule_settles name cron text now).map
  | deleteSchedule name => exact (deleteSchedule_settles name).map
  | validate text => exact answered (Survives.validateWorkflow_keeps _ text) _
  | run text asyncDispatch key =>
    refine answered (checkAccess_keeps.bind fun _ => orPersistence_leads (orInvalid_leads ?_)) _
    exact (claimIdempotency_registers _ key).bind fun _ => dispatch_registers _
  | rerun runId asyncDispatch =>
    exact answered (rerunWorkflow_leads (fun _ h => h) fun w record _ h =>
      dispatch_registers _ w h) _
  | triggerWebhook name body signature key =>
    refine answered (orPersistence_leads ((findWebhook_keeps name).bind fun trigger =>
      (checkSignature_keeps name body signature).bind fun _ => ?_)) _
    exact (claimIdempotency_registers _ key).bind fun _ => orInvalid_leads (dispatch_registers _)
  | runDue now =>
    refine answered (orPersistence_leads (checkAccess_keeps.bind fun _ =>
      dispatchDue_registers (fun k text => ?_) now)) _
    exact (dispatch_registers _).bind fun _ => .pure _
  | beat now =>
    refine answered (dispatchDue_registers (fun k text => ?_) now) _
    exact ((registers_endures s b).runWorkflow ⟨rfl, rfl⟩).bind fun _ => .pure _
  | deliver i =>
    refine (Prog.Keeps.bind (.view _) fun message => ?_).settles
    cases message with
    | none => exact .pure _
    | some m => exact ((registers_endures s b).runWorkflowTask m).bind fun _ => .pure _

/-- RUN: what is registered after a sequence of requests is what their answers tell. -/
theorem registers_after (h : w.Registers s.cron b) (arrivals : List (Arrival V P)) :
    (w.after s arrivals).Registers s.cron ((transcript s w arrivals).foldl Registries.hear b) := by
  induction arrivals generalizing w b with
  | nil => exact h
  | cons x arrivals ih =>
    refine ih (w := (x.exchange s w).after) (b := b.hear (x.exchange s w)) ?_
    obtain ⟨hok, herror⟩ := serve_registers x.circumstances x.request w h
    rw [Registries.hear]
    rcases hrun : serve s x.circumstances x.request w with ⟨e | a, t⟩
    · have hanswer : (x.exchange s w).answer = .error e := congrArg Prod.fst hrun
      have hafter : (x.exchange s w).after = t := congrArg Prod.snd hrun
      rw [hanswer, hafter]
      exact herror e t hrun
    · have hanswer : (x.exchange s w).answer = .ok a := congrArg Prod.fst hrun
      have hafter : (x.exchange s w).after = t := congrArg Prod.snd hrun
      rw [hanswer, hafter]
      exact hok a t hrun

end Registers

/-! ### The listings -/

/-- The schedules are listed once each, as registered, with their last and next runs. -/
structure Registries.Lists (cron : Croniter) (b : Registries) (listed : List ListedSchedule) :
    Prop where
  names : (listed.map ListedSchedule.name).Perm b.schedules.keys
  entry : ∀ l ∈ listed, ∃ (e : Registration) (lastRun : Option Datetime),
    b.schedules.get l.name = some e ∧ l.cron = e.cron ∧ l.enabled = true ∧
    l.lastRun = lastRun.map Datetime.isoformat ∧
    l.nextRun = some (cron.getNext e.cron (lastRun.getD e.since)).isoformat

section Listings
variable {cron : Croniter} {b : Registries} {w : World lib V J}

theorem World.Registers.names (h : w.Registers cron b) :
    (w.schedules.store.records.values.map ScheduledWorkflow.name).Perm b.schedules.keys := by
  have hkeys : w.schedules.store.records.values.map ScheduledWorkflow.name =
      w.schedules.store.records.keys := by
    rw [Dict.values, Dict.keys, List.map_map]
    exact List.map_congr_left fun e he => h.named e.1 e.2 ((Dict.mem_entries_iff _ _ _).mp he)
  rw [hkeys]
  refine (List.perm_ext_iff_of_nodup w.schedules.store.records.nodup b.schedules.nodup).mpr
    fun name => ?_
  change name ∈ w.schedules.store.records.keys ↔ name ∈ b.schedules.keys
  rw [Dict.mem_keys_iff, Dict.mem_keys_iff]
  have hrel := h.schedules name
  generalize w.schedules.store.records.get name = r at hrel ⊢
  generalize b.schedules.get name = e at hrel ⊢
  cases hrel <;> simp

theorem World.Registers.lists (h : w.Registers cron b) :
    b.Lists cron (w.schedules.store.records.values.map ScheduledWorkflow.listed) where
  names := by
    rw [List.map_map]
    exact h.names
  entry l hl := by
    obtain ⟨r, hr, rfl⟩ := List.mem_map.mp hl
    obtain ⟨name, hget⟩ := (Dict.mem_values_iff _ r).mp hr
    have hrel := h.schedules name
    rw [hget] at hrel
    rcases hregistered : b.schedules.get name with _ | e
    · rw [hregistered] at hrel
      cases hrel
    · rw [hregistered] at hrel
      cases hrel with
      | some hfollows =>
        refine ⟨e, r.lastRun, ?_, hfollows.cron, hfollows.enabled, rfl, ?_⟩
        · rwa [ScheduledWorkflow.listed, hfollows.name]
        · rw [ScheduledWorkflow.listed, hfollows.nextRun]
          rfl

/-- CORRECT (registries): whatever was served and whatever failed, the webhooks and the schedules are
    those of the requests that were answered without an error: a tick, a run or a failure registers
    nothing and drops nothing. The listings show them, every schedule enabled and waiting for the time
    after its last run, or after its registration. -/
theorem registries_told (s : Service V P J) (b : Backend) (arrivals : List (Arrival V P))
    (r : ReadCircumstances) (granted : r.Granted) :
    let w := (World.booted lib V J b).after s arrivals
    let told := registriesOf (transcript s (World.booted lib V J b) arrivals)
    w.Registers s.cron told ∧
    (∃ triggers, (listWebhooks r w).1 = .ok triggers ∧
      triggers.Perm (told.webhooks.values.map fun t => (t.name, t.description))) ∧
    ∃ listed, (listSchedules r w).1 = .ok listed ∧ told.Lists s.cron listed := by
  intro w told
  have h : w.Registers s.cron told := registers_after ⟨rfl, fun _ => .none⟩ arrivals
  refine ⟨h, ⟨_, ?_, .of_eq (congrArg _ (congrArg Dict.values h.webhooks))⟩, _, ?_, h.lists⟩
  · rw [listWebhooks, orPersistence_run, Prog.bind_of_ok granted.access, granted.look]
    rfl
  · rw [listSchedules, orPersistence_run, Prog.bind_of_ok granted.access, granted.look]
    rfl

/-- A schedule was created, another one was refused, and what was never there was deleted. -/
noncomputable def createdOne : List (Arrival String Unit) :=
  [⟨.createSchedule "minute" "* * * * *" "etl" newYear, fun _ => calm "1"⟩,
   ⟨.createSchedule "nightly" "midnight" "etl" newYear, fun _ => calm "2"⟩,
   ⟨.deleteSchedule "nightly", fun _ => calm "3"⟩]

theorem createdOne_told : ∃ listed, (listSchedules {} ((World.booted etlLibrary String
      (List (DeadLetter Unit)) .database).after etlService createdOne)).1 = .ok listed ∧
    (listed.map ListedSchedule.name).Perm ["minute"] := by
  obtain ⟨-, -, listed, hlisted, hlists⟩ := registries_told etlService .database createdOne {}
    granted_default
  exact ⟨listed, hlisted, hlists.names⟩

end Listings

end WorkflowEngine
