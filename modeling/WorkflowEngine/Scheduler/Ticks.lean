import WorkflowEngine.Schemes.Run
import WorkflowEngine.Scheduler.Firing
import Mathlib.Logic.Function.Basic

/-! Concurrent ticks.

    Any number of ticks run at once over one schedule store and one idempotency store, one atomic step
    at a time. A claim is granted once and a dispatch uses up the claim its tick was granted, so no
    fire time is dispatched twice. Whether a fire time has come is checked in the snapshot only: the
    database's copies keep the fire time that was checked, but a shared record may have been advanced
    by another tick before this one reads it. -/

namespace WorkflowEngine
open Schemes Relation

/-- Where a tick is. `loop []` is its end. -/
inductive Phase where
  | idle
  | loop (todo : List Handle)
  | claim (x : Handle) (fire : Option Datetime) (todo : List Handle)
  | dispatch (x : Handle) (fire : Option Datetime) (todo : List Handle)
  | lookup (x : Handle) (todo : List Handle)
  | write (found : Handle) (todo : List Handle)
  deriving DecidableEq

namespace Phase

/-- The pair that a tick has been granted and has not dispatched yet. -/
def holding : Phase → Option (String × Option Datetime)
  | .dispatch x fire _ => some (x.name, fire)
  | _ => none

/-- The fire time that a tick has read and not dispatched yet. -/
def pending : Phase → Option (Option Datetime)
  | .claim _ fire _ | .dispatch _ fire _ => some fire
  | _ => none

/-- What is left of a tick's snapshot. -/
def todo : Phase → List Handle
  | .idle => []
  | .loop todo | .claim _ _ todo | .dispatch _ _ todo | .lookup _ todo | .write _ todo => todo

end Phase

/-- A dispatch: by which tick, of which schedule, and the fire time that was claimed for it. -/
structure Dispatched (ι : Type) where
  tick : ι
  name : String
  fire : Option Datetime
  yamlDefinition : String

def Dispatched.pair {ι : Type} (d : Dispatched ι) : String × Option Datetime := (d.name, d.fire)

/-- The stores, where each tick is, and the dispatches so far. -/
structure Ticks (ι : Type) where
  store : ScheduleStore
  idempotency : IdempotencyStore
  phase : ι → Phase := fun _ => .idle
  log : List (Dispatched ι) := []

namespace Ticks

variable {ι : Type} [DecidableEq ι]

/-- Tick `i` goes on to another phase. -/
def goto (s : Ticks ι) (i : ι) (p : Phase) : Ticks ι := { s with phase := Function.update s.phase i p }

section Machine
variable (cron : Croniter) (now : ι → Datetime)

/-- One atomic step of tick `i`, which is `dispatch_due` at the time `now i`. -/
def next (i : ι) (s : Ticks ι) : Option (Ticks ι) :=
  match s.phase i with
  | .idle => some (s.goto i (.loop (WorkflowScheduler.due s.store (now i))))
  | .loop [] => none
  | .loop (x :: todo) => some (s.goto i (.claim x (s.store.read x).nextRun todo))
  | .claim x fire todo =>
    let (granted, idempotency) :=
      s.idempotency.claim ("schedule:" ++ (s.store.read x).name) (some (fireText fire))
    some (({ s with idempotency := idempotency } : Ticks ι).goto i
      (if granted then .dispatch x fire todo else .loop todo))
  | .dispatch x fire todo =>
    let sched := s.store.read x
    some (({ s with log := s.log ++ [⟨i, sched.name, fire, sched.yamlDefinition⟩] } : Ticks ι).goto i
      (.lookup x todo))
  | .lookup x todo =>
    match s.store.get (s.store.read x).name with
    | some found => some (s.goto i (.write found todo))
    | none => some (s.goto i (.loop todo))
  | .write found todo =>
    some (({ s with store := WorkflowScheduler.advance cron s.store found (now i) } : Ticks ι).goto i
      (.loop todo))

/-- Some tick takes a step. -/
def Step (s s' : Ticks ι) : Prop := ∃ i, next cron now i s = some s'

/-- When tick `i` is about to read the `next_run` of a shared record, it is still due. -/
def ReadsDue (i : ι) (s : Ticks ι) : Prop :=
  s.store.sharing = .live → ∀ x todo, s.phase i = .loop (x :: todo) →
    ∃ t ∈ (s.store.read x).nextRun, t ≤ now i

def DueStep (s s' : Ticks ι) : Prop := ∃ i, ReadsDue now i s ∧ next cron now i s = some s'

/-- What a step can do, in cases. -/
inductive Moves (i : ι) (s : Ticks ι) : Ticks ι → Prop
  | snapshot (h : s.phase i = .idle) :
      Moves i s (s.goto i (.loop (WorkflowScheduler.due s.store (now i))))
  | read (x todo) (h : s.phase i = .loop (x :: todo)) :
      Moves i s (s.goto i (.claim x (s.store.read x).nextRun todo))
  | granted (x fire todo) (h : s.phase i = .claim x fire todo)
      (free : fireClaim x.name fire ∉ s.idempotency.claims) :
      Moves i s (({ s with idempotency := ⟨insert (fireClaim x.name fire) s.idempotency.claims⟩ } :
        Ticks ι).goto i (.dispatch x fire todo))
  | refused (x fire todo) (h : s.phase i = .claim x fire todo)
      (taken : fireClaim x.name fire ∈ s.idempotency.claims) : Moves i s (s.goto i (.loop todo))
  | dispatched (x fire todo) (h : s.phase i = .dispatch x fire todo) :
      Moves i s (({ s with log := s.log ++ [⟨i, x.name, fire, (s.store.read x).yamlDefinition⟩] } :
        Ticks ι).goto i (.lookup x todo))
  | found (x todo found) (h : s.phase i = .lookup x todo) (hget : s.store.get x.name = some found) :
      Moves i s (s.goto i (.write found todo))
  | missing (x todo) (h : s.phase i = .lookup x todo) (hget : s.store.get x.name = none) :
      Moves i s (s.goto i (.loop todo))
  | wrote (found todo) (h : s.phase i = .write found todo) :
      Moves i s (({ s with store := WorkflowScheduler.advance cron s.store found (now i) } :
        Ticks ι).goto i (.loop todo))

end Machine

variable {cron : Croniter} {now : ι → Datetime} {i : ι} {s s' : Ticks ι}

theorem moves_of_next (hnamed : s.store.Named) (h : next cron now i s = some s') :
    Moves cron now i s s' := by
  unfold next at h
  cases hp : s.phase i with
  | idle =>
    rw [hp] at h
    obtain rfl := Option.some.inj h
    exact .snapshot hp
  | loop todo =>
    rw [hp] at h
    cases todo with
    | nil => exact absurd h (by simp)
    | cons x todo =>
      obtain rfl := Option.some.inj h
      exact .read x todo hp
  | claim x fire todo =>
    rw [hp] at h
    simp only [claim_fire, ScheduleStore.read_name hnamed] at h
    obtain rfl := Option.some.inj h
    by_cases hc : fireClaim x.name fire ∈ s.idempotency.claims
    · rw [if_pos hc]
      exact .refused x fire todo hp hc
    · rw [if_neg hc]
      exact .granted x fire todo hp hc
  | dispatch x fire todo =>
    rw [hp] at h
    simp only [ScheduleStore.read_name hnamed] at h
    obtain rfl := Option.some.inj h
    exact .dispatched x fire todo hp
  | lookup x todo =>
    rw [hp] at h
    simp only [ScheduleStore.read_name hnamed] at h
    cases hget : s.store.get x.name with
    | none =>
      rw [hget] at h
      obtain rfl := Option.some.inj h
      exact .missing x todo hp hget
    | some found =>
      rw [hget] at h
      obtain rfl := Option.some.inj h
      exact .found x todo found hp hget
  | write found todo =>
    rw [hp] at h
    obtain rfl := Option.some.inj h
    exact .wrote found todo hp

theorem next_of_moves (hnamed : s.store.Named) (h : Moves cron now i s s') :
    next cron now i s = some s' := by
  unfold next
  cases h with
  | snapshot h => rw [h]
  | read x todo h => rw [h]
  | granted x fire todo h free =>
    rw [h]
    simp only [claim_fire, ScheduleStore.read_name hnamed, if_neg free, if_true]
  | refused x fire todo h taken =>
    rw [h]
    simp only [claim_fire, ScheduleStore.read_name hnamed, if_pos taken]
    rfl
  | dispatched x fire todo h =>
    rw [h]
    simp only [ScheduleStore.read_name hnamed]
  | found x todo found h hget =>
    rw [h]
    simp only [ScheduleStore.read_name hnamed, hget]
  | missing x todo h hget =>
    rw [h]
    simp only [ScheduleStore.read_name hnamed, hget]
  | wrote found todo h => rw [h]

@[simp] theorem goto_log (s : Ticks ι) (i : ι) (p : Phase) : (s.goto i p).log = s.log := rfl

theorem goto_phase (s : Ticks ι) (i j : ι) (p : Phase) :
    (s.goto i p).phase j = if j = i then p else s.phase j :=
  Function.update_apply ..

/-! ### No fire time is dispatched twice -/

/-- The invariant: a claim is taken for every pair that has been dispatched, once, or that one tick
    holds and nobody has dispatched. -/
structure Once (s : Ticks ι) : Prop where
  named : s.store.Named
  held : ∀ j p, (s.phase j).holding = some p →
    fireClaim p.1 p.2 ∈ s.idempotency.claims ∧ p ∉ s.log.map Dispatched.pair
  alone : ∀ j k p, (s.phase j).holding = some p → (s.phase k).holding = some p → j = k
  logged : ∀ d ∈ s.log, fireClaim d.name d.fire ∈ s.idempotency.claims
  nodup : (s.log.map Dispatched.pair).Nodup

theorem Once.holding_goto {p : Phase} (hp : p.holding = none) {j : ι} {q : String × Option Datetime}
    (hq : ((s.goto i p).phase j).holding = some q) : (s.phase j).holding = some q := by
  rw [goto_phase] at hq
  split_ifs at hq
  · rw [hp] at hq; simp at hq
  · exact hq

/-- A step after which its tick holds no claim. -/
theorem Once.goto (h : Once s) {p : Phase} (hp : p.holding = none) : Once (s.goto i p) where
  named := h.named
  held j q hq := h.held j q (holding_goto hp hq)
  alone j k q hj hk := h.alone j k q (holding_goto hp hj) (holding_goto hp hk)
  logged := h.logged
  nodup := h.nodup

/-- A claim that is granted: nobody holds its pair and nobody has dispatched it. -/
theorem Once.grant (h : Once s) {x : Handle} {fire : Option Datetime} {todo : List Handle}
    (free : fireClaim x.name fire ∉ s.idempotency.claims) :
    Once (({ s with idempotency := ⟨insert (fireClaim x.name fire) s.idempotency.claims⟩ } :
      Ticks ι).goto i (.dispatch x fire todo)) := by
  have hold : ∀ j q, ((s.goto i (.dispatch x fire todo)).phase j).holding = some q →
      (j = i ∧ q = (x.name, fire)) ∨ (s.phase j).holding = some q := by
    intro j q hq
    rw [goto_phase] at hq
    split_ifs at hq with hj
    · exact Or.inl ⟨hj, (Option.some.inj hq).symm⟩
    · exact Or.inr hq
  have hunheld : ∀ j, (s.phase j).holding ≠ some (x.name, fire) :=
    fun j hj => free (h.held j _ hj).1
  refine ⟨h.named, fun j q hq => ?_, fun j k q hj hk => ?_, fun d hd => ?_, h.nodup⟩
  · rcases hold j q hq with ⟨-, rfl⟩ | hq
    · refine ⟨Finset.mem_insert_self _ _, fun hmem => ?_⟩
      obtain ⟨d, hd, he⟩ := List.mem_map.mp hmem
      have hclaim : fireClaim d.name d.fire = fireClaim x.name fire :=
        congrArg (fun p : String × Option Datetime => fireClaim p.1 p.2) he
      exact free (hclaim ▸ h.logged d hd)
    · exact ⟨Finset.mem_insert_of_mem (h.held j q hq).1, (h.held j q hq).2⟩
  · rcases hold j q hj with ⟨rfl, rfl⟩ | hj
    · rcases hold k _ hk with ⟨rfl, -⟩ | hk
      · rfl
      · exact absurd hk (hunheld k)
    · rcases hold k q hk with ⟨-, rfl⟩ | hk
      · exact absurd hj (hunheld j)
      · exact h.alone j k q hj hk
  · exact Finset.mem_insert_of_mem (h.logged d hd)

/-- A dispatch uses up the pair its tick holds. -/
theorem Once.dispatch (h : Once s) {x : Handle} {fire : Option Datetime} {todo : List Handle}
    (hp : s.phase i = .dispatch x fire todo) (yaml : String) :
    Once (({ s with log := s.log ++ [⟨i, x.name, fire, yaml⟩] } : Ticks ι).goto i
      (.lookup x todo)) := by
  have hi : (s.phase i).holding = some (x.name, fire) := by rw [hp]; rfl
  have hold : ∀ j q, ((s.goto i (.lookup x todo)).phase j).holding = some q →
      (s.phase j).holding = some q ∧ q ≠ (x.name, fire) := by
    intro j q hq
    have hj := holding_goto (p := .lookup x todo) rfl hq
    refine ⟨hj, ?_⟩
    rintro rfl
    obtain rfl := h.alone j i _ hj hi
    rw [goto_phase, if_pos rfl] at hq
    simp [Phase.holding] at hq
  refine ⟨h.named, fun j q hq => ?_, fun j k q hj hk => h.alone j k q (hold j q hj).1 (hold k q hk).1,
    fun d hd => ?_, ?_⟩
  · obtain ⟨hj, hne⟩ := hold j q hq
    refine ⟨(h.held j q hj).1, fun hmem => ?_⟩
    rw [goto_log, List.map_append, List.mem_append] at hmem
    rcases hmem with hmem | hmem
    · exact (h.held j q hj).2 hmem
    · exact hne (List.mem_singleton.mp hmem)
  · rcases List.mem_append.mp hd with hd | hd
    · exact h.logged d hd
    · obtain rfl := List.mem_singleton.mp hd
      exact (h.held i _ hi).1
  · rw [goto_log, List.map_append, List.nodup_append]
    refine ⟨h.nodup, List.nodup_singleton _, ?_⟩
    rintro p hp' q hq rfl
    obtain rfl := List.mem_singleton.mp hq
    exact (h.held i _ hi).2 hp'

theorem Once.next (h : Once s) (hs : next cron now i s = some s') : Once s' := by
  cases moves_of_next h.named hs with
  | snapshot | read | refused | found | missing => exact h.goto rfl
  | granted x fire todo hp free => exact h.grant free
  | dispatched x fire todo hp => exact h.dispatch hp _
  | wrote found todo hp =>
    let store := WorkflowScheduler.advance cron s.store found (now i)
    have hput : Once { s with store := store } :=
      ⟨h.named.put _, h.held, h.alone, h.logged, h.nodup⟩
    exact hput.goto rfl

/-! ### Every dispatch is due -/

/-- The invariant: every fire time that has been read or dispatched has come, and what is left of the
    snapshots of copies is due. -/
structure OnTime (now : ι → Datetime) (s : Ticks ι) : Prop where
  pending : ∀ j fire, (s.phase j).pending = some fire → ∃ t ∈ fire, t ≤ now j
  logged : ∀ d ∈ s.log, ∃ t ∈ d.fire, t ≤ now d.tick
  copied : s.store.sharing = .copies → ∀ j, ∀ x ∈ (s.phase j).todo,
    ∃ record, x = .copy record ∧ WorkflowScheduler.IsDue (now j) record

theorem OnTime.goto (h : OnTime now s) {p : Phase}
    (hpending : ∀ fire, p.pending = some fire → ∃ t ∈ fire, t ≤ now i)
    (htodo : s.store.sharing = .copies → ∀ x ∈ p.todo,
      ∃ record, x = .copy record ∧ WorkflowScheduler.IsDue (now i) record) :
    OnTime now (s.goto i p) := by
  refine ⟨fun j fire hj => ?_, h.logged, fun hs j x hx => ?_⟩
  · rw [goto_phase] at hj
    split_ifs at hj with he
    · exact he ▸ hpending fire hj
    · exact h.pending j fire hj
  · rw [goto_phase] at hx
    split_ifs at hx with he
    · exact he ▸ htodo hs x hx
    · exact h.copied hs j x hx

/-- The snapshot of a store that hands out copies. -/
theorem copies_of_due {store : ScheduleStore} (hs : store.sharing = .copies) {t : Datetime}
    {x : Handle} (hx : x ∈ WorkflowScheduler.due store t) :
    ∃ record, x = .copy record ∧ WorkflowScheduler.IsDue t record := by
  obtain ⟨hlist, hdue⟩ := List.mem_filter.mp hx
  obtain ⟨record, -, rfl⟩ := List.mem_map.mp hlist
  have hcopy : store.handle record = .copy record := by rw [ScheduleStore.handle, hs]
  rw [hcopy] at hdue ⊢
  exact ⟨record, rfl, of_decide_eq_true hdue⟩

omit [DecidableEq ι] in
/-- The fire time a tick reads: what `ReadsDue` asks of a shared record holds of every copy. -/
theorem OnTime.read_due (h : OnTime now s) {x : Handle} {todo : List Handle}
    (hp : s.phase i = .loop (x :: todo)) (hread : ReadsDue now i s) :
    ∃ t ∈ (s.store.read x).nextRun, t ≤ now i := by
  cases hs : s.store.sharing with
  | live => exact hread hs x todo hp
  | copies =>
    have hx : x ∈ (s.phase i).todo := by rw [hp]; exact List.mem_cons_self
    obtain ⟨record, rfl, hdue⟩ := h.copied hs i x hx
    exact hdue.2

/-- A step after which its tick has no fire time pending, and no more of its snapshot than before. -/
theorem OnTime.settle (h : OnTime now s) {p q : Phase} (hq : s.phase i = q)
    (hp : p.pending = none) (hsub : p.todo ⊆ q.todo) : OnTime now (s.goto i p) := by
  refine h.goto (fun fire hf => ?_) fun hc x hx => h.copied hc i x ?_
  · rw [hp] at hf
    simp at hf
  · rw [hq]
    exact hsub hx

theorem OnTime.next (hnamed : s.store.Named) (h : OnTime now s) (hread : ReadsDue now i s)
    (hs : next cron now i s = some s') : OnTime now s' := by
  cases moves_of_next hnamed hs with
  | snapshot hp =>
    refine h.goto (fun fire hf => ?_) fun hc x hx => copies_of_due hc hx
    simp [Phase.pending] at hf
  | read x todo hp =>
    refine h.goto (fun fire hf => ?_) fun hc y hy => h.copied hc i y ?_
    · obtain rfl := Option.some.inj hf
      exact h.read_due hp hread
    · rw [hp]; exact List.mem_cons_of_mem _ hy
  | granted x fire todo hp free =>
    let claims := insert (fireClaim x.name fire) s.idempotency.claims
    have hsame : OnTime now { s with idempotency := ⟨claims⟩ } := ⟨h.pending, h.logged, h.copied⟩
    refine hsame.goto (fun fire' hf => ?_) fun hc y hy => h.copied hc i y ?_
    · exact h.pending i fire' (by rw [hp]; exact hf)
    · rw [hp]; exact hy
  | refused x fire todo hp => exact h.settle hp rfl (List.Subset.refl _)
  | dispatched x fire todo hp =>
    have hsame : OnTime now ({ s with log := s.log ++ [⟨i, x.name, fire,
        (s.store.read x).yamlDefinition⟩] } : Ticks ι) := by
      refine ⟨h.pending, fun d hd => ?_, h.copied⟩
      rcases List.mem_append.mp hd with hd | hd
      · exact h.logged d hd
      · obtain rfl := List.mem_singleton.mp hd
        exact h.pending i fire (by rw [hp]; rfl)
    exact hsame.settle hp rfl (List.Subset.refl _)
  | found x todo found hp => exact h.settle hp rfl (List.Subset.refl _)
  | missing x todo hp => exact h.settle hp rfl (List.Subset.refl _)
  | wrote found todo hp =>
    let store := WorkflowScheduler.advance cron s.store found (now i)
    have hsame : OnTime now { s with store := store } := ⟨h.pending, h.logged, h.copied⟩
    exact hsame.settle hp rfl (List.Subset.refl _)

/-! ### Runs -/

/-- The ticks before any of them has started. -/
def start (store : ScheduleStore) (idempotency : IdempotencyStore) : Ticks ι :=
  { store := store, idempotency := idempotency }

omit [DecidableEq ι] in
theorem once_start {store : ScheduleStore} (hnamed : store.Named) (idempotency : IdempotencyStore) :
    Once (start store idempotency : Ticks ι) :=
  ⟨hnamed, fun _ _ h => by simp [start, Phase.holding] at h,
    fun _ _ _ h => by simp [start, Phase.holding] at h, fun _ h => by simp [start] at h,
    List.nodup_nil⟩

omit [DecidableEq ι] in
theorem onTime_start (store : ScheduleStore) (idempotency : IdempotencyStore) :
    OnTime now (start store idempotency) :=
  ⟨fun _ _ h => by simp [start, Phase.pending] at h, fun _ h => by simp [start] at h,
    fun _ _ _ h => by simp [start, Phase.todo] at h⟩

theorem goto_phase_self (s : Ticks ι) (i : ι) (p : Phase) : (s.goto i p).phase i = p := by
  rw [goto_phase, if_pos rfl]

/-- Tick `i` takes steps and no other does. -/
def Alone (cron : Croniter) (now : ι → Datetime) (i : ι) : Ticks ι → Ticks ι → Prop :=
  ReflTransGen fun a b => next cron now i a = some b

theorem Alone.step (h : Alone cron now i s s') (hnamed : s'.store.Named) {s'' : Ticks ι}
    (hm : Moves cron now i s' s'') : Alone cron now i s s'' :=
  ReflTransGen.tail h (next_of_moves hnamed hm)

theorem Alone.run (h : Alone cron now i s s') : ReflTransGen (Step cron now) s s' :=
  ReflTransGen.mono (fun _ _ hab => ⟨i, hab⟩) s s' h

/-- From a read to the dispatch, when nobody has claimed the fire time that is read. -/
theorem alone_dispatches (cron : Croniter) (now : ι → Datetime) (hnamed : s.store.Named)
    {x : Handle} {todo : List Handle} (hp : s.phase i = .loop (x :: todo))
    (free : fireClaim x.name (s.store.read x).nextRun ∉ s.idempotency.claims) :
    ∃ s', Alone cron now i s s' ∧ s'.store = s.store ∧ s'.phase i = .lookup x todo ∧
      s'.idempotency = ⟨insert (fireClaim x.name (s.store.read x).nextRun) s.idempotency.claims⟩ ∧
      ∃ d ∈ s'.log, d.tick = i ∧ d.name = x.name ∧ d.fire = (s.store.read x).nextRun := by
  have hread : Alone cron now i s _ := Alone.step .refl hnamed (.read x todo hp)
  have hgrant := hread.step hnamed (.granted x _ todo (goto_phase_self _ _ _) free)
  have hdispatch := hgrant.step hnamed (.dispatched x _ todo (goto_phase_self _ _ _))
  exact ⟨_, hdispatch, rfl, goto_phase_self _ _ _, rfl, _,
    List.mem_append_right _ (List.mem_singleton_self _), rfl, rfl, rfl⟩

/-- A tick that meets a record advanced past its time, with a fire time nobody has claimed, can go on
    to dispatch it early. -/
theorem early_dispatch (hnamed : s.store.Named) {x : Handle} {todo : List Handle} {t : Datetime}
    (hp : s.phase i = .loop (x :: todo)) (ht : (s.store.read x).nextRun = some t)
    (free : fireClaim x.name (some t) ∉ s.idempotency.claims) :
    ∃ s', ReflTransGen (Step cron now) s s' ∧ ∃ d ∈ s'.log, d.tick = i ∧ d.fire = some t := by
  rw [← ht] at free
  obtain ⟨s', hrun, -, -, -, d, hd, htick, -, hfire⟩ :=
    alone_dispatches cron now hnamed hp free
  exact ⟨s', hrun.run, d, hd, htick, hfire.trans ht⟩

/-! ### A tick that runs alone -/

/-- The end of an iteration: `mark_ran`. -/
theorem alone_marks (cron : Croniter) (now : ι → Datetime) (hnamed : s.store.Named)
    {x : Handle} {todo : List Handle} (hp : s.phase i = .lookup x todo) : ∃ s', Alone cron now i s s' ∧
      s'.store = WorkflowScheduler.markRan cron s.store x.name (now i) ∧
      s'.phase i = .loop todo ∧ s'.idempotency = s.idempotency := by
  rw [WorkflowScheduler.markRan]
  cases hget : s.store.get x.name with
  | none =>
    exact ⟨_, Alone.step .refl hnamed (.missing x todo hp hget), rfl, goto_phase_self _ _ _, rfl⟩
  | some found =>
    have hfound : Alone cron now i s _ := Alone.step .refl hnamed (.found x todo found hp hget)
    exact ⟨_, hfound.step hnamed (.wrote found todo (goto_phase_self _ _ _)), rfl,
      goto_phase_self _ _ _, rfl⟩

theorem markRan_named {store : ScheduleStore} (h : store.Named) (name : String) (t : Datetime) :
    (WorkflowScheduler.markRan cron store name t).Named := by
  rw [WorkflowScheduler.markRan]
  cases store.get name with
  | none => exact h
  | some found => exact h.put _

/-- The loop of a tick that runs alone, when its callback does not raise. -/
theorem alone_loop {dispatch : Dispatch} (hok : ∀ n yaml, ∃ runId, dispatch n yaml = .ok runId) :
    ∀ (todo : List Handle) (s : Ticks ι) (done : List (String × Option String)), s.store.Named →
    s.phase i = .loop todo → ∃ s', Alone cron now i s s' ∧ s'.phase i = .loop [] ∧
      (WorkflowScheduler.dispatchLoop cron (now i) dispatch todo ⟨s.store, s.idempotency⟩ done).1 =
        ⟨s'.store, s'.idempotency⟩
  | [], s, done, _, hp => ⟨s, .refl, hp, rfl⟩
  | x :: todo, s, done, hnamed, hp => by
      rw [WorkflowScheduler.dispatchLoop]
      simp only [claim_fire, ScheduleStore.read_name hnamed]
      by_cases hc : fireClaim x.name (s.store.read x).nextRun ∈ s.idempotency.claims
      · have hread : Alone cron now i s _ := Alone.step .refl hnamed (.read x todo hp)
        have hrefused := hread.step hnamed (.refused x _ todo (goto_phase_self _ _ _) hc)
        obtain ⟨s', hrun, hend, heq⟩ := alone_loop hok todo
          ((s.goto i (.claim x (s.store.read x).nextRun todo)).goto i (.loop todo)) done hnamed
          (goto_phase_self _ _ _)
        rw [if_pos hc]
        exact ⟨s', ReflTransGen.trans hrefused hrun, hend, heq⟩
      · obtain ⟨s₁, hrun₁, hstore₁, hp₁, hidem₁, -⟩ :=
          alone_dispatches cron now hnamed hp hc
        obtain ⟨s₂, hrun₂, hstore₂, hp₂, hidem₂⟩ :=
          alone_marks cron now (hstore₁ ▸ hnamed) hp₁
        obtain ⟨runId, hr⟩ := hok done.length (s.store.read x).yamlDefinition
        obtain ⟨s', hrun, hend, heq⟩ := alone_loop hok todo s₂ (done ++ [(x.name, runId)])
          (hstore₂ ▸ markRan_named (hstore₁ ▸ hnamed) _ _) hp₂
        rw [hstore₂, hstore₁, hidem₂, hidem₁] at heq
        rw [if_neg hc]
        simp only [if_true, hr]
        exact ⟨s', ReflTransGen.trans hrun₁ (ReflTransGen.trans hrun₂ hrun), hend, heq⟩

/-- REFINEMENT: a tick that runs alone does to the stores what `dispatch_due` does when its callback
    does not raise. -/
theorem alone_dispatchDue {dispatch : Dispatch}
    (hok : ∀ n yaml, ∃ runId, dispatch n yaml = .ok runId) (hnamed : s.store.Named)
    (hp : s.phase i = .idle) : ∃ s', Alone cron now i s s' ∧ s'.phase i = .loop [] ∧
      (WorkflowScheduler.dispatchDue cron (now i) dispatch ⟨s.store, s.idempotency⟩).1 =
        ⟨s'.store, s'.idempotency⟩ := by
  have hsnap : Alone cron now i s _ := Alone.step .refl hnamed (.snapshot hp)
  obtain ⟨s', hrun, hend, heq⟩ := alone_loop hok _
    (s.goto i (.loop (WorkflowScheduler.due s.store (now i)))) [] hnamed (goto_phase_self _ _ _)
  exact ⟨s', ReflTransGen.trans hsnap hrun, hend, heq⟩

/-! ### Any interleaving -/

/-- CORRECT (at most once) and ENOUGH (on time): however the ticks interleave, every dispatch is
    under a claimed fire time and none is dispatched twice; if every read of a shared record finds it
    due, every dispatch is for a fire time that has come; and where a tick meets a record advanced
    past its time, with a fire time nobody has claimed, the run can go on to dispatch it early. -/
theorem dispatched_once_on_time (cron : Croniter) (now : ι → Datetime) {store : ScheduleStore}
    (hnamed : store.Named) (idempotency : IdempotencyStore) :
    (∀ s : Ticks ι, ReflTransGen (Step cron now) (start store idempotency) s →
      (∀ d ∈ s.log, fireClaim d.name d.fire ∈ s.idempotency.claims) ∧
      (s.log.map Dispatched.pair).Nodup) ∧
    (∀ s : Ticks ι, ReflTransGen (DueStep cron now) (start store idempotency) s →
      ∀ d ∈ s.log, ∃ t ∈ d.fire, t ≤ now d.tick) ∧
    (∀ s : Ticks ι, ReflTransGen (Step cron now) (start store idempotency) s →
      ∀ i x todo t, s.phase i = .loop (x :: todo) → (s.store.read x).nextRun = some t →
      now i < t → fireClaim x.name (some t) ∉ s.idempotency.claims →
      ∃ s', ReflTransGen (Step cron now) s s' ∧ ∃ d ∈ s'.log, ¬ ∃ t ∈ d.fire, t ≤ now d.tick) := by
  have honce := once_start (ι := ι) hnamed idempotency
  have hreach : ∀ s : Ticks ι, ReflTransGen (Step cron now) (start store idempotency) s → Once s :=
    fun s hs => Run.invariant (fun a b ha hab => ha.next hab.choose_spec) honce hs
  refine ⟨fun s hs => ⟨(hreach s hs).logged, (hreach s hs).nodup⟩, fun s hs => ?_, ?_⟩
  · have h : Once s ∧ OnTime now s := by
      refine Run.invariant (I := fun s => Once s ∧ OnTime now s) (fun a b ha hab => ?_)
        ⟨honce, onTime_start store idempotency⟩ hs
      obtain ⟨i, hread, hi⟩ := hab
      exact ⟨ha.1.next hi, ha.2.next ha.1.named hread hi⟩
    exact h.2.logged
  · intro s hs i x todo t hp ht hfuture free
    obtain ⟨s', hrun, d, hd, htick, hfire⟩ := early_dispatch (hreach s hs).named hp ht free
    refine ⟨s', hrun, d, hd, ?_⟩
    rintro ⟨t', ht', hle⟩
    rw [hfire] at ht'
    obtain rfl := Option.some.inj ht'
    exact absurd hfuture (not_lt.mpr (htick ▸ hle))

/-- With the database no condition is needed: a read of a copy is always due. -/
theorem dispatched_on_time_of_copies {store : ScheduleStore} (hnamed : store.Named)
    (hcopies : store.sharing = .copies) (idempotency : IdempotencyStore) {s : Ticks ι}
    (hs : ReflTransGen (Step cron now) (start store idempotency) s) :
    ∀ d ∈ s.log, ∃ t ∈ d.fire, t ≤ now d.tick := by
  have h : s.store.sharing = .copies ∧ Once s ∧ OnTime now s := by
    refine Run.invariant (I := fun s => s.store.sharing = .copies ∧ Once s ∧ OnTime now s)
      (fun a b ha hab => ?_)
      ⟨hcopies, once_start hnamed idempotency, onTime_start store idempotency⟩ hs
    obtain ⟨hc, honce, hon⟩ := ha
    obtain ⟨i, hi⟩ := hab
    have hread : ReadsDue now i a := fun hl => absurd (hl.symm.trans hc) (by simp)
    refine ⟨?_, honce.next hi, hon.next honce.named hread hi⟩
    cases moves_of_next honce.named hi <;> exact hc
  exact h.2.2.logged

/-! ### Two ticks at one time -/

/-- An in-memory store with one schedule. -/
def minuteStore : ScheduleStore where
  sharing := .live
  records := Dict.ofList [("minute", minute)]

/-- Both ticks take their snapshots; one runs to its end before the other reads the record. -/
def overlap : List Bool :=
  [false, true, false, false, false, false, false, true, true, true]

/-- The second tick dispatches the schedule a minute before its time. -/
theorem overlap_early : ∃ s : Ticks Bool,
    ReflTransGen (Step everyMinute fun _ => newYear.nextMinute) (start minuteStore {}) s ∧
    ∃ d ∈ s.log, ¬ ∃ t ∈ d.fire, t ≤ newYear.nextMinute := by
  have hrun : ((Run.moves (next everyMinute fun _ => newYear.nextMinute) overlap
      (start minuteStore {})).any fun s => s.log.any fun d => decide
        (d.fire = some newYear.nextMinute.nextMinute)) = true := by decide +kernel
  obtain ⟨s, hs, hlog⟩ := (Option.any_eq_true _ _).mp hrun
  obtain ⟨d, hd, hfire⟩ := List.any_eq_true.mp hlog
  refine ⟨s, Run.reaches_of_moves (fun i _ _ hi => ⟨i, hi⟩) hs, d, hd, ?_⟩
  rintro ⟨t, ht, hle⟩
  rw [of_decide_eq_true hfire] at ht
  obtain rfl := Option.some.inj ht
  exact absurd newYear.nextMinute.lt_nextMinute (not_lt.mpr hle)

theorem minuteStore_named : minuteStore.Named := by
  intro name s hs
  have hget := (Dict.get_ofList_iff _ (by simp) name s).mp hs
  obtain ⟨rfl, rfl⟩ := Prod.mk.inj (List.mem_singleton.mp hget)
  rfl

theorem minute_once_on_time :
    (∀ s : Ticks Bool, ReflTransGen (Step everyMinute fun _ => newYear.nextMinute)
      (start minuteStore {}) s → (s.log.map Dispatched.pair).Nodup) ∧
    (∀ s : Ticks Bool, ReflTransGen (DueStep everyMinute fun _ => newYear.nextMinute)
      (start minuteStore {}) s → ∀ d ∈ s.log, ∃ t ∈ d.fire, t ≤ newYear.nextMinute) := by
  obtain ⟨honce, hdue, -⟩ := dispatched_once_on_time everyMinute
    (fun _ : Bool => newYear.nextMinute) minuteStore_named {}
  exact ⟨fun s hs => (honce s hs).2, hdue⟩

end Ticks

end WorkflowEngine
