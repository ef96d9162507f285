import WorkflowEngine.Service.Deployment
import WorkflowEngine.Service.Reproduction

/-! Any worker can run a message.

    The stores of the processes differ, and a worker may not have the version that a message is
    pinned to. But the text of a message has the hash that it carries, in every store a version has
    the hash that it is stored under, and all uses of a run id in all processes have one hash
    (`Deployment.Bound`). So wherever a run is executed, it is the same run. The canonical hash is
    one function, the same in every process; a text with a set in it may have another hash where
    Python orders the members of the set in another way. -/

namespace WorkflowEngine
open Schemes

variable {D P V J A B : Type} {lib : YamlLibrary D P} [PyValue V]

/-! ### Uses of a run id in all processes -/

/-- A run id is used with a definition and a version hash, by some process or by the queue. -/
inductive Deployment.Uses (d : Deployment lib V J A B) : String → String → Option String → Prop
  | executed {x : Execution lib V} (mem : x ∈ d.executed) :
      Uses d x.id x.yamlDefinition x.versionHash
  | queued {m : Message} {id : String} (mem : m ∈ d.queue) (named : m.runId = some id) :
      Uses d id m.yamlDefinition m.versionHash

theorem Deployment.Uses.of_eq {d d' : Deployment lib V J A B} {i t : String} {v : Option String}
    (h : d'.Uses i t v) (executed : d'.executed = d.executed) (queue : d'.queue = d.queue) :
    d.Uses i t v := by
  cases h with
  | executed mem => exact .executed (executed ▸ mem)
  | queued mem named => exact .queued (queue ▸ mem) named

/-- The invariant. -/
structure Deployment.Bound (s : Service V P J) (d : Deployment lib V J A B) : Prop where
  bound : ∀ π, (d.stores π).Bound s
  recorded : ∀ π, (d.stores π).Recorded s
  executed : ∀ π, ∀ x ∈ (d.stores π).executed, x ∈ d.executed
  queue : ∀ π, ∀ m ∈ (d.stores π).queue, m ∈ d.queue
  standard : ∀ x ∈ d.executed, x.Standard s
  named : ∀ m ∈ d.queue, ∃ id, m.runId = some id
  pinned : ∀ id text versionHash, d.Uses id text versionHash →
    ∃ hash, versionHash = some hash ∧ lib.canonicalYamlHash text = .ok hash
  agree : ∀ id text versionHash text' versionHash', d.Uses id text versionHash →
    d.Uses id text' versionHash' → versionHash = versionHash'

/-- What every program of the service leaves. -/
structure World.Leads (s : Service V P J) (w w' : World lib V J) : Prop where
  recorded : w'.Recorded s
  queue : w.queue <+: w'.queue
  executed : w.executed <+: w'.executed
  standard : ∀ x ∈ w'.executed, x ∈ w.executed ∨ x.Standard s

theorem leads_lasts (s : Service V P J) (w : World lib V J) : Lasts s (w.Leads s) where
  version _ h := ⟨(recorded_lasts s).version _ h.recorded, h.queue, h.executed, h.standard⟩
  queue _ h :=
    ⟨(recorded_lasts s).queue _ h.recorded, h.queue.trans (List.prefix_append _ _), h.executed,
      h.standard⟩
  ran hx h := by
    refine ⟨(recorded_lasts s).ran hx h.recorded, h.queue,
      h.executed.trans (List.prefix_append _ _), fun y hy => ?_⟩
    rcases List.mem_append.mp hy with hy | hy
    · exact h.standard y hy
    · exact .inr (List.mem_singleton.mp hy ▸ hx)
  run hx h := ⟨(recorded_lasts s).run hx h.recorded, h.queue, h.executed, h.standard⟩
  events hx h := ⟨(recorded_lasts s).events hx h.recorded, h.queue, h.executed, h.standard⟩
  schedules _ h := ⟨(recorded_lasts s).schedules _ h.recorded, h.queue, h.executed, h.standard⟩
  webhooks _ h := ⟨(recorded_lasts s).webhooks _ h.recorded, h.queue, h.executed, h.standard⟩

theorem World.Recorded.leads {s : Service V P J} {w : World lib V J} (h : w.Recorded s) :
    w.Leads s w :=
  ⟨h, List.prefix_rfl, List.prefix_rfl, fun _ hx => .inl hx⟩

/-- A use that there was is still one. -/
theorem World.Leads.uses {s : Service V P J} {w w' : World lib V J} {i t : String}
    {v : Option String} (h : w.Leads s w') (hrecorded : w.Recorded s) (hu : w.Uses s i t v) :
    ∃ t, w'.Uses s i t v := by
  cases hu with
  | executed mem => exact ⟨_, .executed (h.executed.subset mem)⟩
  | queued mem named => exact ⟨_, .queued (h.queue.subset mem) named⟩
  | stored get =>
    obtain ⟨x, hx, rfl, rfl⟩ := hrecorded.record _ _ get
    have hhash : (w.runs.shown s.column x.args x.id).versionHash = x.versionHash :=
      (RunStore.shown_fields x.args x.id).2.1
    rw [hhash]
    exact ⟨_, .executed (h.executed.subset hx)⟩

section Steps
variable [DecidableEq A] [DecidableEq B] {s : Service V P J} {d : Deployment lib V J A B}
  {π : Place A B} {w' : World lib V J} {i t : String} {v : Option String}

omit [DecidableEq A] [DecidableEq B] in
/-- A stored run was executed, so the uses in a place are uses. -/
theorem Deployment.Bound.uses (h : d.Bound s) (hu : (d.stores π).Uses s i t v) : d.Uses i t v := by
  cases hu with
  | executed mem => exact .executed (h.executed π _ mem)
  | queued mem named => exact .queued (h.queue π _ mem) named
  | stored get =>
    obtain ⟨x, hx, rfl, rfl⟩ := (h.recorded π).record _ _ get
    have htext : ((d.stores π).runs.shown s.column x.args x.id).yamlDefinition =
        x.yamlDefinition := (RunStore.shown_fields x.args x.id).1
    have hhash : ((d.stores π).runs.shown s.column x.args x.id).versionHash = x.versionHash :=
      (RunStore.shown_fields x.args x.id).2.1
    rw [htext, hhash]
    exact .executed (h.executed π x hx)

/-- What is new is in the place. -/
theorem Deployment.uses_put (h : (d.put π w').Uses i t v) : d.Uses i t v ∨ w'.Uses s i t v := by
  cases h with
  | executed mem =>
    rcases List.mem_append.mp mem with mem | mem
    · exact .inl (.executed mem)
    · exact .inr (.executed (List.mem_of_mem_drop mem))
  | queued mem named =>
    rcases List.mem_append.mp mem with mem | mem
    · exact .inl (.queued mem named)
    · exact .inr (.queued (List.mem_of_mem_drop mem) named)

/-- A program that is run in a place keeps the invariant, if each id that is used there afterwards
    has the hash it has elsewhere, or is not used elsewhere. -/
theorem Deployment.Bound.put (h : d.Bound s) (hleads : (d.stores π).Leads s w')
    (hbound : w'.Bound s) (huses : ∀ i t v, w'.Uses s i t v →
      (∃ t, d.Uses i t v) ∨ ∀ t v, ¬ d.Uses i t v) : (d.put π w').Bound s := by
  have hmem : ∀ {T : Type} {old new all : List T} {x : T}, old <+: new → (∀ x ∈ old, x ∈ all) →
      x ∈ new → x ∈ all ++ new.drop old.length := by
    rintro T old _ all x ⟨rest, rfl⟩ hold hx
    rw [List.drop_left]
    exact (List.mem_append.mp hx).elim (fun hx => List.mem_append_left _ (hold x hx))
      (List.mem_append_right _)
  refine ⟨fun ρ => ?_, fun ρ => ?_, fun ρ x hx => ?_, fun ρ m hm => ?_, fun x hx => ?_,
    fun m hm => ?_, fun i t v hu => ?_, fun i t v t' v' hu hu' => ?_⟩
  · rcases eq_or_ne ρ π with rfl | hne
    · rwa [d.put_self]
    · rw [d.put_ne hne]
      exact h.bound ρ
  · rcases eq_or_ne ρ π with rfl | hne
    · rw [d.put_self]
      exact hleads.recorded
    · rw [d.put_ne hne]
      exact h.recorded ρ
  · rcases eq_or_ne ρ π with rfl | hne
    · rw [d.put_self] at hx
      exact hmem hleads.executed (h.executed ρ) hx
    · rw [d.put_ne hne] at hx
      exact List.mem_append_left _ (h.executed ρ x hx)
  · rcases eq_or_ne ρ π with rfl | hne
    · rw [d.put_self] at hm
      exact hmem hleads.queue (h.queue ρ) hm
    · rw [d.put_ne hne] at hm
      exact List.mem_append_left _ (h.queue ρ m hm)
  · rcases List.mem_append.mp hx with hx | hx
    · exact h.standard x hx
    · rcases hleads.standard x (List.mem_of_mem_drop hx) with hx | hx
      · exact h.standard x (h.executed π x hx)
      · exact hx
  · rcases List.mem_append.mp hm with hm | hm
    · exact h.named m hm
    · exact hbound.named m (List.mem_of_mem_drop hm)
  · rcases uses_put (s := s) hu with hu | hu
    · exact h.pinned i t v hu
    · obtain ⟨hash, hhash, htext, -⟩ := hbound.pins i t v hu
      exact ⟨hash, hhash, htext⟩
  · -- a use that is new agrees with the uses elsewhere, and with what is new in the same place
    have hmixed : ∀ {t t' v v'}, d.Uses i t v → w'.Uses s i t' v' → v = v' := by
      intro t t' v v' hu hu'
      rcases huses i t' v' hu' with ⟨t'', hu''⟩ | hno
      · exact h.agree i _ _ _ _ hu hu''
      · exact absurd hu (hno t v)
    rcases uses_put (s := s) hu with hu | hu <;> rcases uses_put (s := s) hu' with hu' | hu'
    · exact h.agree i _ _ _ _ hu hu'
    · exact hmixed hu hu'
    · exact (hmixed hu' hu).symm
    · exact hbound.agree i _ _ _ _ hu hu'

/-! ### Ids that are drawn -/

/-- The ids that are drawn are used by nothing yet. -/
structure Deployment.Unused (cs : ℕ → Circumstances V P) (d : Deployment lib V J A B) : Prop where
  used : ∀ i t v, d.Uses i t v → i ≠ ""
  nonempty : ∀ k draw, (cs k).uuid draw ≠ ""
  unused : ∀ k draw t v, ¬ d.Uses ((cs k).uuid draw) t v
  rounds : ∀ k k' draw draw', (cs k).uuid draw = (cs k').uuid draw' → k = k'

/-- After `k` dispatches from `d`: the invariant, and no ids but the used ones and those drawn. -/
structure Deployment.Traces (s : Service V P J) (cs : ℕ → Circumstances V P)
    (d : Deployment lib V J A B) (k : ℕ) (d' : Deployment lib V J A B) : Prop where
  bound : d'.Bound s
  uses : ∀ i t v, d'.Uses i t v → (∃ t v, d.Uses i t v) ∨ ∃ j < k, ∃ draw, i = (cs j).uuid draw

variable {cs : ℕ → Circumstances V P} {k k' : ℕ} {d' : Deployment lib V J A B}

omit [DecidableEq A] [DecidableEq B] in
/-- The ids of later rounds stay unused. -/
theorem Deployment.Traces.unused (h : d.Traces s cs k d') (hd : d.Unused cs) (draw : Draw)
    (t : String) (v : Option String) : ¬ d'.Uses ((cs k).uuid draw) t v := by
  intro hu
  rcases h.uses _ t v hu with ⟨t, v, hu⟩ | ⟨j, hj, draw', he⟩
  · exact hd.unused k draw t v hu
  · exact absurd (hd.rounds k j draw draw' he) (Nat.ne_of_gt hj)

/-- A place is written in which each id that is used has the hash it had, or was drawn just now. -/
theorem Deployment.Traces.put (h : d.Traces s cs k d') (hk : k ≤ k')
    (hleads : (d'.stores π).Leads s w') (hbound : w'.Bound s)
    (huses : ∀ i t v, w'.Uses s i t v → (∃ t, d'.Uses i t v) ∨
      (∃ j < k', ∃ draw, i = (cs j).uuid draw) ∧ ∀ t v, ¬ d'.Uses i t v) :
    d.Traces s cs k' (d'.put π w') where
  bound := h.bound.put hleads hbound fun i t v hu => (huses i t v hu).imp_right And.right
  uses i t v hu := by
    have hold : ∀ t v, d'.Uses i t v → (∃ t v, d.Uses i t v) ∨
        ∃ j < k', ∃ draw, i = (cs j).uuid draw := fun t v hu => (h.uses i t v hu).imp_right
      fun ⟨j, hj, hdraw⟩ => ⟨j, hj.trans_le hk, hdraw⟩
    rcases uses_put (s := s) hu with hu | hu
    · exact hold t v hu
    · rcases huses i t v hu with ⟨t, hu⟩ | ⟨hdrawn, -⟩
      · exact hold t v hu
      · exact .inr hdrawn

/-- A program that writes nothing but schedules. -/
theorem Deployment.Traces.run_schedules {α : Type} {m : Program lib V J α}
    (hm : ∀ w, ∃ schedules, (m w).2 = { w with schedules := schedules }) :
    Prog.Keeps (d.Traces s cs k) (π.run m) := by
  intro d' h
  obtain ⟨schedules, hleft⟩ := hm (d'.stores π)
  have hadds : (d'.stores π).Adds s { d'.stores π with schedules := schedules } "" :=
    (h.bound.bound π).adds_same "" rfl rfl rfl rfl
  rw [Place.run, hleft]
  refine h.put le_rfl ((leads_lasts s _).schedules _ (h.bound.recorded π).leads)
    hadds.bound fun i t v hu => ?_
  exact .inl ⟨t, h.bound.uses (hu.mono (fun _ h => h) (fun _ _ h => h) fun _ h => h)⟩

/-! ### Ticks of the beat -/

theorem claim_schedules {c : Circumstances V P} (ns : String) {key : String} (hkey : key ≠ "")
    (w : World lib V J) :
    ∃ schedules, (claim c ns key w).2 = { w with schedules := schedules } := by
  rcases claim_cases c w ns hkey with ⟨e, he, -⟩ | ⟨he, -⟩ | ⟨he, -⟩ <;> rw [he]
  exacts [⟨_, rfl⟩, ⟨_, rfl⟩, ⟨_, rfl⟩]

theorem attempt_schedules (c : Circumstances V P) (op : Operation) (w : World lib V J) :
    ∃ schedules, (attempt c op w).2 = { w with schedules := schedules } := ⟨w.schedules, rfl⟩

/-- One run of a tick, under an id that was drawn for it. -/
theorem Deployment.Traces.due (h : d.Traces s cs k d') (hd : d.Unused cs) (text : String) :
    d.Traces s cs (k + 1) ((π.run (runDueDefinition s (cs k) text) d')).2 := by
  have hunused := h.unused hd .trace
  have hadds : (d'.stores π).Adds s (runWorkflow s (cs k) (dueCall s text) (d'.stores π)).2
      ((cs k).uuid .trace) :=
    due_adds (h.bound.bound π) (hd.nonempty k .trace) fun t v hu => hunused t v (h.bound.uses hu)
  have hleads : (d'.stores π).Leads s (runWorkflow s (cs k) (dueCall s text) (d'.stores π)).2 :=
    (leads_lasts s (d'.stores π)).runWorkflow ⟨rfl, rfl⟩ _ (h.bound.recorded π).leads
  have hleft : (π.run (runDueDefinition s (cs k) text) d').2 =
      d'.put π (runWorkflow s (cs k) (dueCall s text) (d'.stores π)).2 := by
    rw [Place.run, runDueDefinition, Prog.bind_pure_run]
  rw [hleft]
  refine h.put (Nat.le_succ k) hleads hadds.bound fun i t v hu => ?_
  rcases hadds.uses i t v hu with hu | rfl
  · exact .inl ⟨t, h.bound.uses hu⟩
  · exact .inr ⟨⟨k, Nat.lt_succ_self k, .trace, rfl⟩, hunused⟩

/-- STEP: the rounds of a tick, each where its probe leads it. -/
theorem beatLoop_traces (hd : d.Unused cs) (home : Place A B) (again : ℕ → Place A B)
    (now : Datetime) : ∀ (k : ℕ) (todo : List Handle) (dispatched : List (String × String)),
      Prog.Leads (d.Traces s cs k) (fun d' => ∃ k, d.Traces s cs k d')
        (beatLoop s cs home again now k todo dispatched)
  | k, [], dispatched => (Prog.Keeps.pure _).leads fun _ h => ⟨k, h⟩
  | k, handle :: todo, dispatched => by
    have hstays : ∀ k d', d.Traces s cs k d' → ∃ k, d.Traces s cs k d' := fun k _ h => ⟨k, h⟩
    refine Prog.Leads.bind (Deployment.Traces.run_schedules fun w => ⟨w.schedules, rfl⟩) (hstays k)
      fun sched => ?_
    refine Prog.Leads.bind (Deployment.Traces.run_schedules fun w =>
      claim_schedules _ (fireText_ne_empty _) w) (hstays k) fun granted => ?_
    have hrest := beatLoop_traces hd home again now (k + 1) todo
    cases granted with
    | false =>
      refine fun d' h => hrest dispatched d'
        ⟨h.bound, fun i t v hu => (h.uses i t v hu).imp_right ?_⟩
      exact fun ⟨j, hj, hdraw⟩ => ⟨j, Nat.lt_succ_of_lt hj, hdraw⟩
    | true =>
      refine Prog.Leads.seq (J := d.Traces s cs (k + 1)) (fun d' h => h.due hd _) (hstays (k + 1))
        fun runId => ?_
      refine Prog.Leads.bind (Deployment.Traces.run_schedules (attempt_schedules _ _))
        (hstays (k + 1)) fun _ => ?_
      exact Prog.Leads.bind (Deployment.Traces.run_schedules fun w => ⟨_, rfl⟩) (hstays (k + 1))
        fun _ => hrest _

theorem beatAnswer_traces (hd : d.Unused cs) (home : Place A B) (again : ℕ → Place A B)
    (now : Datetime) : Prog.Leads (d.Traces s cs 0) (fun d' => ∃ k, d.Traces s cs k d')
      (beatAnswer s cs home again now) := by
  have hstays : ∀ d', d.Traces s cs 0 d' → ∃ k, d.Traces s cs k d' := fun _ h => ⟨0, h⟩
  refine Prog.Leads.bind_keeps ?_ fun _ => .pure _
  refine Prog.Leads.bind (Deployment.Traces.run_schedules (attempt_schedules _ _)) hstays
    fun _ => ?_
  refine Prog.Leads.bind (Deployment.Traces.run_schedules fun w => ⟨w.schedules, rfl⟩) hstays
    fun todo => ?_
  exact beatLoop_traces hd home again now 0 todo []

/-! ### Messages -/

section Messages
variable {c : Circumstances V P} {w : World lib V J} {id hash text : String}

/-- A pinned call of the runner uses ids only with the hash that it is pinned to. -/
theorem runWorkflow_pinned (h : w.Bound s) {call : RunCall V P} (hversioned : call.versioned = true)
    (hpin : call.versionHash = some hash)
    (hu : (runWorkflow s c call w).2.Uses s i t v) : w.Uses s i t v ∨ v = some hash := by
  obtain ⟨trace, runId, hnamed⟩ := named_eq call (c.uuid .trace)
  have hpin' : (call.named (c.uuid .trace)).versionHash = some hash := by rw [hnamed]; exact hpin
  have hversioned' : (call.named (c.uuid .trace)).versioned = true := by
    rw [hnamed]
    exact hversioned
  have hleaves := runWorkflow_cases s c call w
  generalize (runWorkflow s c call w).1 = r at hleaves
  generalize (runWorkflow s c call w).2 = w' at hleaves hu
  generalize call.named (c.uuid .trace) = named at hleaves hpin' hversioned'
  -- the text that is run is the one stored under the hash, and its version is put again
  have hrun : ∀ {text : String} {version : Option WorkflowVersion} {x : Execution lib V},
      Chosen w named text → Pinned lib c named text version →
      named.Runs s c text ((version.map WorkflowVersion.contentHash).or named.versionHash) x →
      x.versionHash = some hash := by
    intro text version x chosen pinned runs
    rw [runs.hash]
    cases pinned with
    | free hfree => exact absurd (hfree.symm.trans hversioned') (by simp)
    | @put version _ hput _ =>
      cases chosen with
      | given hnone => exact absurd (hnone.symm.trans hpin') (by simp)
      | @pinned pin stored _ hpin hget =>
        obtain rfl := Option.some.inj (hpin.symm.trans hpin')
        obtain ⟨-, hstored⟩ := w.versions.pinned _ stored hget
        exact congrArg some (Except.ok.inj (hput.symm.trans hstored))
  cases hleaves with
  | unpinnable | unhashable => exact .inl hu
  | rejected => exact .inl (hu.mono (fun _ h => h) (fun _ _ h => h) fun _ h => h)
  | unsaved chosen pinned runs =>
    exact (RunCall.uses_ran hu).imp_right fun h => h.2.2.trans (hrun chosen pinned runs)
  | unrecorded chosen pinned runs =>
    exact (RunCall.uses_recordRun h hu).imp_right fun h => h.2.2.trans (hrun chosen pinned runs)
  | finished chosen pinned runs =>
    have hu' := hu.mono (w := ((named.pin w _).ran _).recordRun s _) (fun _ h => h)
      (fun _ _ h => h) fun _ h => h
    exact (RunCall.uses_recordRun h hu').imp_right fun h => h.2.2.trans (hrun chosen pinned runs)

/-- The worker's run of a message whose text has the hash that the message carries, where the uses
    of its id have it too. The message may come from anywhere. -/
theorem runWorkflowTask_adds (h : w.Bound s) {m : Message} (hid : m.runId = some id) (hne : id ≠ "")
    (hpin : m.versionHash = some hash) (huses : ∀ t v, w.Uses s id t v → v = some hash) :
    w.Adds s (runWorkflowTask s c m w).2 id ∧ ∀ i t v, (runWorkflowTask s c m w).2.Uses s i t v →
      w.Uses s i t v ∨ i = id ∧ v = some hash := by
  -- the version that the worker may have put changes no uses
  obtain ⟨versions, hensure, hbound⟩ := ensureVersion_keeps (c := c) (m := m)
    (I := fun w' => ∃ versions, w' = { w with versions := versions } ∧ w'.Bound s)
    (by rintro _ ⟨versions, rfl, hw'⟩; exact ⟨_, rfl, hw'.withVersion m.yamlDefinition⟩) w
    ⟨w.versions, rfl, h⟩
  have hold : ∀ i t v, World.Uses s { w with versions := versions } i t v → w.Uses s i t v :=
    fun _ _ _ hu => hu.mono (fun _ h => h) (fun _ _ h => h) fun _ h => h
  rw [runWorkflowTask]
  rcases hens : ensureVersion c m w with ⟨e | ⟨⟩, w'⟩
  · rw [Prog.bind_of_error hens]
    rw [hens] at hensure hbound
    obtain rfl : w' = _ := hensure
    have hsame : ∀ i t v, World.Uses s { w with versions := versions } i t v →
        w.Uses s i t v ∨ i = id ∧ v = some hash := fun i t v hu => .inl (hold i t v hu)
    exact ⟨⟨hbound, fun i t v hu => .inl (hold i t v hu), .inl rfl, .inl rfl⟩, hsame⟩
  · rw [Prog.bind_of_ok hens]
    rw [hens] at hensure hbound
    obtain rfl : w' = _ := hensure
    have hagrees : World.Agrees s { w with versions := versions } (m.runCall s) id := by
      intro text hash' hchosen htext t v hu
      rw [huses t v (hold id t v hu)]
      cases hchosen with
      | given hnone => exact absurd (hnone.symm.trans hpin) (by simp)
      | @pinned pin version _ hpin' hget =>
        obtain rfl := Option.some.inj (hpin'.symm.trans hpin)
        obtain ⟨-, hpinned⟩ := versions.pinned _ version hget
        exact congrArg some (Except.ok.inj (hpinned.symm.trans htext))
    have hadds : World.Adds s { w with versions := versions }
        (runWorkflow s c (m.runCall s) { w with versions := versions }).2 id :=
      runWorkflow_adds hbound rfl (by rw [Message.runCall, hid]; rfl) hne hagrees
    refine ⟨⟨hadds.bound, fun i t v hu => (hadds.uses i t v hu).imp_left (hold i t v),
      hadds.oneMore.executed, hadds.oneMore.queue⟩, fun i t v hu => ?_⟩
    rcases hadds.uses i t v hu with hu' | rfl
    · exact .inl (hold i t v hu')
    · exact (runWorkflow_pinned hbound rfl hpin hu).imp (hold _ t v) fun hv => ⟨rfl, hv⟩

end Messages

omit [DecidableEq A] [DecidableEq B] in
theorem Deployment.Traces.ne_empty (h : d.Traces s cs k d') (hd : d.Unused cs)
    (hu : d'.Uses i t v) : i ≠ "" := by
  rcases h.uses i t v hu with ⟨t, v, hu⟩ | ⟨j, -, draw, rfl⟩
  · exact hd.used i t v hu
  · exact hd.nonempty j draw

/-- STEP: a message, wherever it is run. -/
theorem deliverTask_traces (hd : d.Unused cs) (c : Circumstances V P) (π : Place A B) (n : ℕ) :
    Prog.Keeps (d.Traces s cs k) (deliverTask s c π n) := by
  refine fun d' h => ?_
  rw [deliverTask, Prog.view_bind_run]
  rcases hm : d'.queue[n]? with _ | m
  · exact h
  · have hmem := List.mem_of_getElem? hm
    obtain ⟨id, hid⟩ := h.bound.named m hmem
    have hqueued : d'.Uses id m.yamlDefinition m.versionHash := .queued hmem hid
    obtain ⟨hash, hpin, -⟩ := h.bound.pinned _ _ _ hqueued
    obtain ⟨hadds, huses⟩ := runWorkflowTask_adds (c := c) (h.bound.bound π) hid
      (h.ne_empty hd hqueued) hpin fun t v hu =>
        (h.bound.agree id _ _ _ _ (h.bound.uses hu) hqueued).trans hpin
    have hleads := (leads_lasts s (d'.stores π)).runWorkflowTask (c := c) m _
      (h.bound.recorded π).leads
    change d.Traces s cs k ((do
      let result ← π.run (runWorkflowTask s c m)
      return Answer.ran result : Deployed lib V J A B (Answer P)) d').2
    rw [Prog.bind_pure_run]
    refine h.put le_rfl hleads hadds.bound fun i t v hu => .inl ?_
    rcases huses i t v hu with hu | ⟨rfl, rfl⟩
    · exact ⟨t, h.bound.uses hu⟩
    · exact ⟨m.yamlDefinition, hpin ▸ hqueued⟩

/-! ### Requests -/

omit [DecidableEq A] [DecidableEq B] in
theorem Deployment.Bound.unused (h : d.Bound s) (hd : d.Unused cs) (π : Place A B) :
    (d.stores π).Unused s cs where
  used i t v hu := hd.used i t v (h.uses hu)
  nonempty := hd.nonempty
  unused k draw t v hu := hd.unused k draw t v (h.uses hu)
  rounds := hd.rounds

/-- STEP: a request. -/
theorem serve_traces (h : d.Bound s) (hd : d.Unused cs) (π : Place A B) (request : ServiceRequest) :
    ∃ k, d.Traces s cs k (d.put π (serve s cs request (d.stores π)).2) := by
  obtain ⟨k, hk⟩ := (traces_survive (h.unused hd π) request).serve _
    ⟨h.bound π, fun i t v hu => .inl ⟨t, v, hu⟩⟩
  have hleads := (leads_lasts s (d.stores π)).serve cs request _ (h.recorded π).leads
  have hnow : d.Traces s cs 0 d := ⟨h, fun i t v hu => .inl ⟨t, v, hu⟩⟩
  refine ⟨k, hnow.put (Nat.zero_le k) hleads hk.bound fun i t v hu => ?_⟩
  rcases hk.uses i t v hu with ⟨t₀, v₀, hold⟩ | ⟨j, hj, draw, rfl⟩
  · obtain ⟨t', hkept⟩ := hleads.uses (h.recorded π) hold
    obtain rfl := hk.bound.agree i _ _ _ _ hu hkept
    exact .inl ⟨t₀, h.uses hold⟩
  · exact .inr ⟨⟨j, hj, draw, rfl⟩, hd.unused j draw⟩

/-! ### Starts -/

omit [DecidableEq A] [DecidableEq B] in
theorem not_uses_booted (s : Service V P J) (b : Backend) (i t : String) (v : Option String) :
    ¬ (World.booted lib V J b).Uses s i t v := by
  rintro (mem | get | mem)
  · exact absurd mem List.not_mem_nil
  · exact absurd ((RunStore.getRun_empty b i).symm.trans get) (by simp)
  · exact absurd mem List.not_mem_nil

omit [DecidableEq A] [DecidableEq B] in
theorem bound_booted (s : Service V P J) (b : Backend) : (World.booted lib V J b).Bound s where
  sound := RunStore.sound_empty b
  named _ hm := absurd hm List.not_mem_nil
  pins i t v hu := absurd hu (not_uses_booted s b i t v)
  agree i t v _ _ hu := absurd hu (not_uses_booted s b i t v)

/-- A process that starts forgets what it had in its memory. -/
theorem Deployment.Bound.fresh (h : d.Bound s) (π : Place A B) : (d.fresh π).Bound s where
  bound ρ := by
    rcases eq_or_ne ρ π with rfl | hne
    · rw [d.fresh_self]
      exact bound_booted s .memory
    · rw [d.fresh_ne hne]
      exact h.bound ρ
  recorded ρ := by
    rcases eq_or_ne ρ π with rfl | hne
    · rw [d.fresh_self]
      exact recorded_after s .memory []
    · rw [d.fresh_ne hne]
      exact h.recorded ρ
  executed ρ x hx := by
    rcases eq_or_ne ρ π with rfl | hne
    · rw [d.fresh_self] at hx
      exact absurd hx List.not_mem_nil
    · rw [d.fresh_ne hne] at hx
      exact h.executed ρ x hx
  queue ρ m hm := by
    rcases eq_or_ne ρ π with rfl | hne
    · rw [d.fresh_self] at hm
      exact absurd hm List.not_mem_nil
    · rw [d.fresh_ne hne] at hm
      exact h.queue ρ m hm
  standard := h.standard
  named := h.named
  pinned _ _ _ hu := h.pinned _ _ _ (hu.of_eq rfl rfl)
  agree _ _ _ _ _ hu hu' := h.agree _ _ _ _ _ (hu.of_eq rfl rfl) (hu'.of_eq rfl rfl)

omit [DecidableEq A] [DecidableEq B] in
theorem bound_boot (s : Service V P J) (reachable : A → Bool) :
    (Deployment.boot lib V J reachable : Deployment lib V J A B).Bound s := by
  have hno : ∀ i t v,
      ¬ (Deployment.boot lib V J reachable : Deployment lib V J A B).Uses i t v := by
    rintro i t v (mem | mem) <;> exact absurd mem List.not_mem_nil
  refine ⟨fun π => ?_, fun π => ?_, fun π x hx => ?_, fun π m hm => ?_, fun x hx => ?_,
    fun m hm => ?_, fun i t v hu => absurd hu (hno i t v),
    fun i t v _ _ hu => absurd hu (hno i t v)⟩
  · cases π <;> exact bound_booted s _
  · cases π <;> exact recorded_after s _ []
  · cases π <;> exact absurd hx List.not_mem_nil
  · cases π <;> exact absurd hm List.not_mem_nil
  · exact absurd hx List.not_mem_nil
  · exact absurd hm List.not_mem_nil

/-! ### Every run -/

/-- STEP: a step of any process. -/
theorem ProcessStep.serve_traces (h : d.Bound s) (step : ProcessStep A B V P)
    (hd : ∀ x ∈ step.arrival, d.Unused x.circumstances) : (step.serve s d).2.Bound s ∧
    ∀ i t v, (step.serve s d).2.Uses i t v → (∃ t v, d.Uses i t v) ∨
      ∃ x ∈ step.arrival, ∃ k draw, i = (x.circumstances k).uuid draw := by
  have hdone : ∀ x ∈ step.arrival, (∃ k, d.Traces s x.circumstances k (step.serve s d).2) →
      (step.serve s d).2.Bound s ∧ ∀ i t v, (step.serve s d).2.Uses i t v → (∃ t v, d.Uses i t v) ∨
        ∃ x ∈ step.arrival, ∃ k draw, i = (x.circumstances k).uuid draw := by
    rintro x hx ⟨k, hk⟩
    refine ⟨hk.bound, fun i t v hu => (hk.uses i t v hu).imp_right ?_⟩
    rintro ⟨j, -, draw, rfl⟩
    exact ⟨x, hx, j, draw, rfl⟩
  have hnow : ∀ cs : ℕ → Circumstances V P, d.Traces s cs 0 d :=
    fun cs => ⟨h, fun i t v hu => .inl ⟨t, v, hu⟩⟩
  cases step with
  | startApi a reachable =>
    have hfresh := h.fresh (.api a)
    exact ⟨⟨hfresh.bound, hfresh.recorded, hfresh.executed, hfresh.queue, hfresh.standard,
      hfresh.named, fun _ _ _ hu => hfresh.pinned _ _ _ (hu.of_eq rfl rfl),
      fun _ _ _ _ _ hu hu' => hfresh.agree _ _ _ _ _ (hu.of_eq rfl rfl) (hu'.of_eq rfl rfl)⟩,
      fun i t v hu => .inl ⟨t, v, hu.of_eq rfl rfl⟩⟩
  | startWorker b => exact ⟨h.fresh _, fun i t v hu => .inl ⟨t, v, hu.of_eq rfl rfl⟩⟩
  | web a ask =>
    cases ask with
    | read request circumstances =>
      have hread : ((Ask.read request circumstances).program s (d.stores (d.apiPlace a))).2 =
          d.stores (d.apiPlace a) :=
        (serveRead_keeps request).bind (fun _ => .pure _) (I := (· = d.stores (d.apiPlace a))) _ rfl
      have hleft : (ProcessStep.serve s (.web a (.read request circumstances) ‹_›) d).2 =
          d.put (d.apiPlace a) (d.stores (d.apiPlace a)) := by
        conv_rhs => rw [← hread]
        rfl
      rw [hleft]
      refine ⟨h.put (h.recorded _).leads (h.bound _) fun i t v hu => .inl ⟨t, h.uses hu⟩, ?_⟩
      intro i t v hu
      rcases Deployment.uses_put (s := s) hu with hu | hu
      · exact .inl ⟨t, v, hu⟩
      · exact .inl ⟨t, v, h.uses hu⟩
    | serve arrival =>
      refine hdone arrival rfl ?_
      obtain ⟨k, hk⟩ :=
        WorkflowEngine.serve_traces h (hd arrival rfl) (d.apiPlace a) arrival.request
      refine ⟨k, ?_⟩
      have hleft : (ProcessStep.serve s (.web a (.serve arrival) ‹_›) d).2 = d.put (d.apiPlace a)
          (WorkflowEngine.serve s arrival.circumstances arrival.request
            (d.stores (d.apiPlace a))).2 := by
        rw [ProcessStep.serve, Prog.view_bind_run, Place.run, Ask.program, Prog.bind_pure_run]
      rw [hleft]
      exact hk
  | task b reachable n cs =>
    refine hdone _ rfl ⟨0, ?_⟩
    exact Prog.Keeps.bind (I := d.Traces s cs 0) (deliverTask_traces (hd _ rfl) (cs 0) _ n)
      (fun _ => .pure _) d (hnow cs)
  | beat b reachable again now cs =>
    refine hdone _ rfl ?_
    exact Prog.Leads.bind_keeps (beatAnswer_traces (hd _ rfl) _ _ now) (fun _ => .pure _) d
      (hnow cs)

section Sequences
variable {steps : List (ProcessStep A B V P)} {reachable : A → Bool}

/-- The deployment after these steps. -/
def Deployment.after (s : Service V P J) (d : Deployment lib V J A B)
    (steps : List (ProcessStep A B V P)) : Deployment lib V J A B :=
  (Prog.series (ProcessStep.serve s) steps d).2

/-- RUN: the invariant, and every id that is used was drawn. -/
theorem bound_steps (s : Service V P J) (reachable : A → Bool)
    (hdrawn : Drawn (steps.filterMap ProcessStep.arrival)) :
    ((Deployment.boot lib V J reachable).after s steps).Bound s ∧
    ∀ i t v, ((Deployment.boot lib V J reachable).after s steps).Uses i t v →
      ∃ x ∈ steps.filterMap ProcessStep.arrival, ∃ k draw, i = (x.circumstances k).uuid draw := by
  induction steps using List.reverseRecOn with
  | nil =>
    refine ⟨bound_boot s reachable, ?_⟩
    rintro i t v (mem | mem) <;> exact absurd mem List.not_mem_nil
  | append_singleton steps step ih =>
    rw [List.filterMap_append, List.filterMap_cons, List.filterMap_nil] at hdrawn
    obtain ⟨hbound, hknown⟩ := ih hdrawn.of_append
    rw [Deployment.after, Prog.series_concat]
    have hunused : ∀ x ∈ step.arrival,
        ((Deployment.boot lib V J reachable).after s steps).Unused x.circumstances := by
      intro x hx
      rw [hx] at hdrawn
      have hmem := List.mem_append_right (steps.filterMap ProcessStep.arrival)
        (List.mem_singleton_self x)
      refine ⟨fun i t v hu => ?_, hdrawn.nonempty x hmem, fun k draw t v hu => ?_,
        hdrawn.rounds x hmem⟩
      · obtain ⟨y, hy, k, draw, rfl⟩ := hknown i t v hu
        exact hdrawn.nonempty y (List.mem_append_left _ hy) k draw
      · obtain ⟨y, hy, k', draw', he⟩ := hknown _ t v hu
        exact (List.pairwise_append.mp hdrawn.apart).2.2 y hy x (List.mem_singleton_self x) k' k
          draw' draw he.symm
    obtain ⟨hleft, huses⟩ := step.serve_traces hbound hunused
    refine ⟨hleft, fun i t v hu => ?_⟩
    rw [List.filterMap_append, List.filterMap_cons, List.filterMap_nil]
    rcases huses i t v hu with ⟨t, v, hold⟩ | ⟨x, hx, hdraw⟩
    · obtain ⟨y, hy, hdraw⟩ := hknown i t v hold
      exact ⟨y, List.mem_append_left _ hy, hdraw⟩
    · rw [hx]
      exact ⟨x, List.mem_append_right _ (List.mem_singleton_self x), hdraw⟩

omit [DecidableEq A] [DecidableEq B] in
/-- Executions under one run id repeat each other, in whichever processes they were. -/
theorem Deployment.Bound.repeats (h : d.Bound s) (hlocal : s.LocalTasks lib)
    (collisionless : lib.Collisionless) {x y : Execution lib V} (hx : x ∈ d.executed)
    (hy : y ∈ d.executed) (hid : x.id = y.id) : x.toFinishedRun.Repeats y.toFinishedRun := by
  have hux : d.Uses x.id x.yamlDefinition x.versionHash := .executed hx
  have huy : d.Uses x.id y.yamlDefinition y.versionHash := hid ▸ .executed hy
  have hagree := h.agree _ _ _ _ _ hux huy
  obtain ⟨hash, hhash, htext⟩ := h.pinned _ _ _ hux
  obtain ⟨hash', hhash', htext'⟩ := h.pinned _ _ _ huy
  obtain rfl := Option.some.inj (hhash.symm.trans (hagree.trans hhash'))
  have hconfig := config_eq_of_hash collisionless htext htext'
  exact ⟨hconfig, hagree, (h.standard x hx).same hlocal (h.standard y hy) hconfig⟩

/-- What is left of a version that a worker has made sure of. -/
theorem ensureVersion_found {c : Circumstances V P} {m : Message} {hash : String}
    {w w' : World lib V J} (hpin : m.versionHash = some hash)
    (htext : lib.canonicalYamlHash m.yamlDefinition = .ok hash)
    (h : ensureVersion c m w = (.ok (), w')) : ∃ v, w'.versions.get hash = some v := by
  rw [ensureVersion, hpin] at h
  obtain ⟨⟨⟩, w₁, hattempt, hrest⟩ := Prog.bind_ok.mp h
  rw [Prog.view_bind_run] at hrest
  rcases hget : w₁.versions.get hash with _ | v
  · rw [hget] at hrest
    obtain ⟨version, w₂, hput, hdone⟩ := Prog.bind_ok.mp hrest
    obtain ⟨-, rfl⟩ := Prod.mk.inj hdone
    rcases putVersion_cases c .workerPut w₁ m.yamlDefinition with
      ⟨e, he, -⟩ | ⟨version', he, hhash, -⟩
    · rw [he] at hput
      exact absurd (Prod.mk.inj hput).1 (by simp)
    · rw [he] at hput
      obtain ⟨-, rfl⟩ := Prod.mk.inj hput
      exact VersionStore.get_after_self htext
  · rw [hget] at hrest
    obtain ⟨-, rfl⟩ := Prod.mk.inj hrest
    exact ⟨v, hget⟩

/-- So the worker finds the version of every message, in whatever stores. -/
theorem runWorkflowTask_blames {c : Circumstances V P} {m : Message} {hash : String}
    {w : World lib V J} {e : Exn} (hpin : m.versionHash = some hash)
    (htext : lib.canonicalYamlHash m.yamlDefinition = .ok hash)
    (he : (runWorkflowTask s c m w).1 = .error e) : Blames lib c e := by
  rcases Prog.bind_raises he with hraised | ⟨⟨⟩, w', hensured, hraised⟩
  · exact .foreign (ensureVersion_raises m w e _ (by rw [← hraised]))
  · refine (runWorkflow_raised hraised).blames rfl fun hash' hpin' => ?_
    obtain rfl := Option.some.inj (hpin.symm.trans hpin')
    exact ensureVersion_found hpin htext hensured

theorem deliverTask_notFound (h : d.Bound s) {c : Circumstances V P} {n : ℕ} {hash : String}
    (he : (deliverTask s c π n d).1 = .error (.value (notFound hash))) :
    ∃ e, Foreign lib c e ∧ e.text = notFound hash := by
  rw [deliverTask, Prog.view_bind_run] at he
  rcases hm : d.queue[n]? with _ | m
  · rw [hm] at he
    exact absurd he (by simp)
  · rw [hm] at he
    have hmem := List.mem_of_getElem? hm
    obtain ⟨id, hid⟩ := h.named m hmem
    obtain ⟨pin, hpin, htext⟩ := h.pinned _ _ _ (.queued hmem hid)
    rcases Prog.bind_raises he with hraised | ⟨_, _, -, hno⟩
    · have hblames := runWorkflowTask_blames hpin htext hraised
      exact ⟨_, hblames.notFound rfl rfl, rfl⟩
    · exact absurd hno (by simp)

/-- CORRECT (workers): from empty stores, whichever processes serve the requests, take the messages
    and run the ticks, whatever fails, whether or not their probes reach the database and however
    often they are restarted, all executions under one run id end alike, every run that is stored
    anywhere is one of them, and only a foreign exception says that the version of a message was not
    found. -/
theorem workers_repeat (s : Service V P J) (reachable : A → Bool)
    (steps : List (ProcessStep A B V P)) (hdrawn : Drawn (steps.filterMap ProcessStep.arrival))
    (collisionless : lib.Collisionless) (hlocal : s.LocalTasks lib) :
    (∀ x ∈ ((Deployment.boot lib V J reachable).after s steps).executed,
      ∀ y ∈ ((Deployment.boot lib V J reachable).after s steps).executed, x.id = y.id →
        x.toFinishedRun.Repeats y.toFinishedRun) ∧
    (∀ π id record,
      (((Deployment.boot lib V J reachable).after s steps).stores π).runs.getRun s.column id =
        some record → ∃ x ∈ ((Deployment.boot lib V J reachable).after s steps).executed,
          x.id = id ∧ record =
            (((Deployment.boot lib V J reachable).after s steps).stores π).runs.shown
              s.column x.args id) ∧
    ∀ b reached n cs hash, (ProcessStep.task b reached n cs, .error (.value (notFound hash))) ∈
      (Prog.series (ProcessStep.serve s) steps (Deployment.boot lib V J reachable)).1 →
        ∃ e, Foreign lib (cs 0) e ∧ e.text = notFound hash := by
  obtain ⟨hbound, -⟩ : ((Deployment.boot lib V J reachable).after s steps).Bound s ∧ _ :=
    bound_steps s reachable hdrawn
  refine ⟨fun x hx y hy hid => hbound.repeats hlocal collisionless hx hy hid, ?_, ?_⟩
  · intro π id record hget
    obtain ⟨x, hx, hid, hrecord⟩ := (hbound.recorded π).record id record hget
    exact ⟨x, hbound.executed π x hx, hid, hrecord⟩
  · intro b reached n cs hash hmem
    obtain ⟨pre, post, rfl, hanswer⟩ := Prog.exists_of_mem_series hmem
    rw [List.filterMap_append] at hdrawn
    obtain ⟨hpre, -⟩ : ((Deployment.boot lib V J reachable).after s pre).Bound s ∧ _ :=
      bound_steps s reachable hdrawn.of_append
    rcases Prog.bind_raises hanswer.symm with hraised | ⟨_, _, -, hno⟩
    · exact deliverTask_notFound hpre hraised
    · exact absurd hno (by simp)

end Sequences

end Steps

/-! ### An example -/

/-- A run is enqueued, and its message is delivered to a worker that reaches the database and to one
    that does not. -/
noncomputable def travelled : List (ProcessStep Unit Bool String Unit) :=
  [.web () (.serve ⟨.run "etl" true none, lettered "1"⟩) rfl, .task true true 0 (lettered "2"),
    .task false false 0 (lettered "3")]

/-- Both workers executed the run, and ended alike. -/
theorem travelled_repeats : ∃ x y,
    ((Deployment.boot etlLibrary String (List (DeadLetter Unit)) fun _ => true).after etlService
      travelled).executed = [x, y] ∧ x.toFinishedRun.Repeats y.toFinishedRun := by
  obtain ⟨x, y, hexecuted, hid⟩ : ∃ x y,
      ((Deployment.boot etlLibrary String (List (DeadLetter Unit)) fun _ => true).after etlService
        travelled).executed = [x, y] ∧ x.id = y.id := ⟨_, _, rfl, rfl⟩
  have hdrawn : Drawn (travelled.filterMap ProcessStep.arrival) := by
    change Drawn ([('1', ServiceRequest.run "etl" true none), ('2', .deliver 0),
      ('3', .deliver 0)].map fun p => ⟨p.2, lettered (String.singleton p.1)⟩)
    exact drawn_lettered (by decide)
  refine ⟨x, y, hexecuted, (workers_repeat etlService (fun _ => true) travelled hdrawn
    (fun _ _ _ _ _ => rfl) etlService_local).1 x ?_ y ?_ hid⟩
  · rw [hexecuted]
    exact List.mem_pair.mpr (.inl rfl)
  · rw [hexecuted]
    exact List.mem_pair.mpr (.inr rfl)

end WorkflowEngine
