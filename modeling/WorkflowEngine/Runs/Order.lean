import WorkflowEngine.Runs.Finished

/-! Dependency order.

    A task is invoked only after everything its step depends on has ended, on a context of final
    results; a step goes through its statuses once and its result is written once. A failed
    dependency is resolved like a completed one: what keeps a step from running on top of it is its
    own condition, and nothing else. -/

namespace WorkflowEngine
open Schemes Relation

variable {V P : Type}

namespace WorkflowExecutor

variable {E : WorkflowExecutor V P} {live : Bool} {m : Machine V P}

/-- The path of a step's status. -/
def statusPath (id : String) (log : List (Action V P)) : List Status :=
  .pending :: (own id log).filterMap Action.status?

theorem status_path {pre : List (Action V P)} {s : StepConfig P} (hs : s ∈ E.config.steps) :
    (E.replay pre).statuses.get s.id = (statusPath s.id pre).getLast? := by
  have hview : (E.replay pre).statuses.get s.id =
      ((own s.id pre).foldl (StepView.act E) freshView).status :=
    congrArg StepView.status (E.view_replay pre hs)
  rw [hview, foldl_status, statusPath, List.getLast?_cons, freshView]
  cases ((own s.id pre).filterMap Action.status?).getLast? <;> rfl

variable [PyValue V]

/-! ### The moment of an invocation -/

theorem Closed.path {log : List (Action V P)} {s : StepConfig P} {w : StepView V P}
    (h : E.Closed live log s w) : statusPath s.id log = [.pending, .skipped] ∨
      statusPath s.id log = [.pending, .running, .completed] ∨
      statusPath s.id log = [.pending, .running, .failed] := by
  cases h with
  | skipped hlog _ => left; rw [statusPath, hlog]; rfl
  | ran context hran _ =>
    right
    rw [statusPath, hran.own, runActs_status]
    cases (E.ending s context).succeeded
    · right; rfl
    · left; rfl

/-- A value that a closed step has written is its final result. -/
theorem Closed.written {log pre : List (Action V P)} {s : StepConfig P} {w : StepView V P} {v : V}
    (h : E.Closed live log s w) (hpre : pre <+: own s.id log)
    (hv : (pre.filterMap Action.written?).getLast? = some v) :
    w.status = some .completed ∧ w.result = some v := by
  have hsub : pre.filterMap Action.written? <+: (own s.id log).filterMap Action.written? :=
    hpre.filterMap _
  cases h with
  | skipped hlog _ =>
    have hnil : (own s.id log).filterMap Action.written? = [] := by rw [hlog]; rfl
    rw [hnil, List.prefix_nil] at hsub
    rw [hsub] at hv; simp at hv
  | ran context hran hw =>
    rw [hran.own, runActs_written] at hsub
    cases ho : (E.ending s context).value with
    | error exc =>
      rw [ho] at hsub
      rw [List.prefix_nil.mp hsub] at hv; simp at hv
    | ok res =>
      rw [ho] at hsub
      have hres : pre.filterMap Action.written? = [res] := by
        rcases List.prefix_cons_iff.mp hsub with hnil | ⟨t, ht, htnil⟩
        · rw [hnil] at hv; simp at hv
        · rw [ht, List.prefix_nil.mp htnil]
      rw [hres] at hv
      obtain rfl : res = v := by simpa using hv
      rw [hw, ranView, StepView.after, ho]
      exact ⟨rfl, rfl⟩

theorem Closed.result_of_completed {log : List (Action V P)} {s : StepConfig P} {w : StepView V P}
    (h : E.Closed live log s w) (hw : w.status = some .completed) : ∃ v, w.result = some v := by
  cases h with
  | skipped _ hview => rw [hview] at hw; simp [skippedView, StepView.act] at hw
  | ran context _ hview =>
    rw [hview] at hw ⊢
    rw [ranView, StepView.after] at hw ⊢
    cases ho : (E.ending s context).value with
    | ok res => exact ⟨res, rfl⟩
    | error exc => rw [ho] at hw; simp [StepView.act] at hw

/-- The condition of an invoked step held of the results its source had ended with. -/
theorem Ended.holds_of_invoke {log pre post : List (Action V P)} {s : StepConfig P} {n : ℕ}
    {context : Context V} (h : E.Ended live log) (hs : s ∈ E.config.steps)
    (he : log = pre ++ .invoke s.id n context :: post) :
    holds s (E.replay log).results.get = true := by
  have hown : own s.id pre ≠ [] := by
    intro hnil
    have := ((h.ordered pre _ post he).step s hs rfl).first hnil
    simp at this
  obtain ⟨u, b, v, rfl, hb, hu⟩ := History.exists_first Action.owner hown
  have hcut : log = u ++ b :: (v ++ .invoke s.id n context :: post) := by rw [he]; simp
  cases h.picked hs hcut hb hu with
  | skip _ hskip =>
    have hmem : (.invoke s.id n context : Action V P) ∈ own s.id log :=
      (History.mem_proj Action.owner).mpr ⟨by rw [he]; simp, rfl⟩
    rw [hskip] at hmem; simp [skipActs] at hmem
  | run _ hrun _ =>
    -- the source of the condition is closed before the step's first action
    rw [WorkflowExecutor.holds, Option.all_eq_true] at hrun ⊢
    intro c hc
    have hsource : .emit c.step ∈ u := ((h.ordered u b _ hcut).step s hs hb).deps c.step
      ((s.mem_deps _).mpr (Or.inr ⟨c, hc, rfl⟩))
    have hsame : (E.replay u).results.get c.step = (E.replay log).results.get c.step :=
      congrArg StepView.result (view_eq_of_emit h.ordered hcut hsource)
    have := hrun c hc
    rwa [StepCondition.evaluate, hsame] at this

/-- What holds when a task is invoked for `s` on `context`, after the actions `pre` of a run that
    returns `σ`. -/
structure InvokedInOrder (E : WorkflowExecutor V P) (σ : RunState V P) (pre : List (Action V P))
    (s : StepConfig P) (context : Context V) : Prop where
  ended : ∀ d, (d ∈ s.listed ∨ ∃ c, s.condition = some c ∧ c.step = d) →
    ∃ status, (E.replay pre).statuses.get d = some status ∧ status.Terminal
  condition : ∀ c, s.condition = some c → c.evaluate σ.results.get = true
  ancestors : ∀ d, E.Ancestor d s.id → σ.statuses.get d = some .completed →
    ∃ v, σ.results.get d = some v ∧ context d = some v
  entries : ∀ x v, context x = some v → σ.statuses.get x = some .completed ∧
    σ.results.get x = some v ∧ x ≠ s.id ∧ ¬ E.Ancestor s.id x

theorem Ended.step_of_emit {log pre post : List (Action V P)} (h : E.Ended live log)
    (he : log = pre ++ post) {d : String} (hemit : .emit d ∈ pre) :
    ∃ t ∈ E.config.steps, t.id = d := by
  obtain ⟨u, v, rfl⟩ := List.append_of_mem hemit
  exact (h.ordered u (.emit d) (v ++ post) (by rw [he]; simp)).known d rfl

/-- A result in the records at some moment of the run is the final one. -/
theorem Ended.result_final {log pre : List (Action V P)} (h : E.Ended live log) (hp : pre <+: log)
    {x : String} {v : V} (hv : (E.replay pre).results.get x = some v) :
    ∃ t ∈ E.config.steps, t.id = x ∧ own x pre ≠ [] ∧
      (E.replay log).statuses.get x = some .completed ∧ (E.replay log).results.get x = some v := by
  have hown : own x pre <+: own x log := History.proj_prefix Action.owner hp
  have hview : (E.replay pre).results.get x =
      ((own x pre).foldl (StepView.act E) (E.init.view x)).result :=
    congrArg StepView.result (E.view_acts E.init pre x)
  have hinit : (E.init.view x).result = none := by simp [RunState.view, init]
  rw [hview, foldl_result, hinit, Option.or_none] at hv
  by_cases hx : ∃ t ∈ E.config.steps, t.id = x
  · obtain ⟨t, ht, rfl⟩ := hx
    obtain ⟨hstatus, hresult⟩ := (h.closed t ht).written hown hv
    refine ⟨t, ht, rfl, ?_, hstatus, hresult⟩
    intro hnil
    rw [hnil] at hv; simp at hv
  · push Not at hx
    rw [h.unknown x hx, List.prefix_nil] at hown
    rw [hown] at hv; simp at hv

theorem Ended.invokedInOrder {log pre post : List (Action V P)} {s : StepConfig P} {n : ℕ}
    {context : Context V} (h : E.Ended live log) (hs : s ∈ E.config.steps)
    (he : log = pre ++ .invoke s.id n context :: post) :
    E.InvokedInOrder (E.replay log) pre s context := by
  have hadm := (h.ordered pre _ post he).step s hs rfl
  obtain ⟨pre₀, ⟨rest, rfl⟩, hown, rfl⟩ := hadm.context n context rfl
  have hcut : log = pre₀ ++ (rest ++ .invoke s.id n (E.replay pre₀).results.get :: post) := by
    rw [he, List.append_assoc]
  have hne : own s.id pre₀ ≠ [] := by rw [hown]; simp [startActs]
  refine ⟨fun d hd => ?_, fun c hc => ?_, fun d hanc hd => ?_, fun x v hv => ?_⟩
  · have hemit := hadm.deps d ((s.mem_deps d).mpr hd)
    obtain ⟨t, ht, rfl⟩ := h.step_of_emit he hemit
    have hview := view_eq_of_emit h.ordered he hemit
    obtain ⟨status, hstatus, hterm⟩ := (h.closed t ht).status
    refine ⟨status, ?_, hterm⟩
    rw [← hview] at hstatus; exact hstatus
  · have hholds := h.holds_of_invoke hs he
    rw [WorkflowExecutor.holds, Option.all_eq_true] at hholds
    exact hholds c hc
  · have hemit := ancestor_emitted_of_own h.ordered hanc hcut hne
    obtain ⟨t, ht, rfl⟩ := h.step_of_emit hcut hemit
    obtain ⟨v, hv⟩ := (h.closed t ht).result_of_completed hd
    have hsame : (E.replay pre₀).results.get t.id = (E.replay log).results.get t.id :=
      congrArg StepView.result (view_eq_of_emit h.ordered hcut hemit)
    exact ⟨v, hv, hsame.trans hv⟩
  · obtain ⟨t, ht, rfl, hact, hstatus, hresult⟩ := h.result_final ⟨_, hcut.symm⟩ hv
    refine ⟨hstatus, hresult, fun hts => ?_, fun hanc => ?_⟩
    · -- at the snapshot the step itself had only started
      obtain rfl := eq_of_id_eq ht hs hts
      have hview := E.view_replay pre₀ ht
      rw [hown, startActs_view] at hview
      have hnone : (E.replay pre₀).results.get t.id = none := congrArg StepView.result hview
      rw [hnone] at hv; simp at hv
    · have hemit := ancestor_emitted_of_own h.ordered hanc hcut hact
      have hmem : .emit s.id ∈ own s.id pre₀ := (History.mem_proj Action.owner).mpr ⟨hemit, rfl⟩
      rw [hown] at hmem; simp [startActs] at hmem

/-- A result is written where there is none. -/
theorem Ended.result_once {log pre post : List (Action V P)} {id : String} {v : V}
    (h : E.Ended live log) (he : log = pre ++ .setResult id v :: post) :
    (E.replay pre).results.get id = none := by
  obtain ⟨s, hs, rfl⟩ := (h.ordered pre _ post he).known id rfl
  have hwritten : (own s.id log).filterMap Action.written? =
      (own s.id pre).filterMap Action.written? ++ v :: (own s.id post).filterMap Action.written? := by
    rw [he, own_append, own_cons_self rfl, List.filterMap_append]; rfl
  have hnil : (own s.id pre).filterMap Action.written? = [] := by
    cases h.closed s hs with
    | skipped hlog _ =>
      rw [hlog] at hwritten
      simp [skipActs, Action.written?, List.filterMap_cons] at hwritten
    | ran context hran _ =>
      rw [hran.own, runActs_written] at hwritten
      have hlen := congrArg List.length hwritten
      rw [List.length_append, List.length_cons] at hlen
      have hle : (E.ending s context).value.toOption.toList.length ≤ 1 := by
        cases (E.ending s context).value <;> simp [Except.toOption]
      exact List.length_eq_zero_iff.mp (by omega)
  have hview : (E.replay pre).results.get s.id =
      ((own s.id pre).foldl (StepView.act E) freshView).result :=
    congrArg StepView.result (E.view_replay pre hs)
  rw [hview, foldl_result, hnil]; rfl

/-- CORRECT (order): in every run of an accepted workflow each invocation comes after its
    dependencies and on a context of final results, each status follows one of three paths, and no
    result is overwritten; and every configuration is a moment of such a run. -/
theorem runs_in_order (hacc : detectCycles E.config.steps = .ok ()) :
    (∀ c, E.Reaches c → E.replay (Conf.state c).log = Conf.state c ∧
      ∃ σ, E.Finishes σ ∧ (Conf.state c).log <+: σ.log) ∧
    ∀ σ, E.Finishes σ →
      (∀ pre post s n context, s ∈ E.config.steps → σ.log = pre ++ .invoke s.id n context :: post →
        E.InvokedInOrder σ pre s context) ∧
      (∀ s ∈ E.config.steps,
        (statusPath s.id σ.log = [.pending, .skipped] ∨
          statusPath s.id σ.log = [.pending, .running, .completed] ∨
          statusPath s.id σ.log = [.pending, .running, .failed]) ∧
        ∀ pre, pre <+: σ.log →
          (E.replay pre).statuses.get s.id = (statusPath s.id pre).getLast?) ∧
      (∀ pre post id v, σ.log = pre ++ .setResult id v :: post →
        (E.replay pre).results.get id = none) ∧
      (∀ pre id v, pre <+: σ.log → (E.replay pre).results.get id = some v →
        σ.results.get id = some v) := by
  refine ⟨fun c hc => ⟨(running_of_reaches hc).replayed, exists_finish hc⟩, fun σ hσ => ?_⟩
  obtain ⟨hended, hreplay⟩ := ended_of_finishes (acyclic_of_accepted hacc) hσ
  refine ⟨fun pre post s n context hs he => ?_, fun s hs => ⟨(hended.closed s hs).path, ?_⟩,
    fun pre post id v he => hended.result_once he, fun pre id v hp hv => ?_⟩
  · have := hended.invokedInOrder hs he
    rwa [hreplay] at this
  · exact fun pre _ => status_path hs
  · obtain ⟨_, _, _, _, _, hresult⟩ := hended.result_final hp hv
    rwa [hreplay] at hresult

theorem etl_runs_in_order : ∃ σ, etl.Finishes σ ∧ ∀ pre post s n context, s ∈ etl.config.steps →
    σ.log = pre ++ .invoke s.id n context :: post → etl.InvokedInOrder σ pre s context := by
  obtain ⟨hmoment, hruns⟩ := runs_in_order (E := etl) rfl
  obtain ⟨-, σ, hσ, -⟩ := hmoment _ .refl
  exact ⟨σ, hσ, (hruns σ hσ).1⟩

/-! ### Steps downstream of a failure -/

/-- A run keeps the steps below a failure from running: no step with a failed listed dependency is
    invoked, completed or failed. -/
def StopsAtFailure (E : WorkflowExecutor V P) (σ : RunState V P) : Prop :=
  ∀ s ∈ E.config.steps, (∃ d ∈ s.listed, σ.statuses.get d = some .failed) →
    (∀ n context, .invoke s.id n context ∉ σ.log) ∧ σ.statuses.get s.id ≠ some .completed ∧
      σ.statuses.get s.id ≠ some .failed

/-- Whenever a step is picked with a failed listed dependency, its condition is false then. -/
def GuardedAtFailure (E : WorkflowExecutor V P) (σ : RunState V P) : Prop :=
  ∀ pre a post s, s ∈ E.config.steps → σ.log = pre ++ a :: post → a.owner = some s.id →
    own s.id pre = [] → (∃ d ∈ s.listed, (E.replay pre).statuses.get d = some .failed) →
    holds s (E.replay pre).results.get = false

/-- The status of a dependency when its step acts is its final status. -/
theorem Ended.dep_status {log pre post : List (Action V P)} {a : Action V P} {s : StepConfig P}
    (h : E.Ended live log) (hs : s ∈ E.config.steps) (he : log = pre ++ a :: post)
    (ha : a.owner = some s.id) {d : String} (hd : d ∈ s.listed) :
    (E.replay pre).statuses.get d = (E.replay log).statuses.get d :=
  congrArg StepView.status (view_eq_of_emit h.ordered he
    (((h.ordered pre a post he).step s hs ha).deps d ((s.mem_deps d).mpr (Or.inl hd))))

/-- EXACT: a run stops at its failures iff its steps' own conditions do it. -/
theorem stopsAtFailure_iff {σ : RunState V P} (hacc : detectCycles E.config.steps = .ok ())
    (hσ : E.Finishes σ) : E.StopsAtFailure σ ↔ E.GuardedAtFailure σ := by
  obtain ⟨hended, hreplay⟩ := ended_of_finishes (acyclic_of_accepted hacc) hσ
  constructor
  · rintro hstop pre a post s hs he ha hpre ⟨d, hd, hfailed⟩
    rw [hended.dep_status hs he ha hd, hreplay] at hfailed
    obtain ⟨-, hcompleted, hnot⟩ := hstop s hs ⟨d, hd, hfailed⟩
    cases hended.picked hs he ha hpre with
    | skip hfails _ => exact hfails
    | run context _ hran =>
      have hview := congrArg StepView.status (view_of_ran hs hran)
      rw [hreplay, ranView_status] at hview
      cases hok : (E.ending s context).succeeded with
      | true => rw [hok] at hview; exact absurd hview hcompleted
      | false => rw [hok] at hview; exact absurd hview hnot
  · rintro hguard s hs ⟨d, hd, hfailed⟩
    obtain ⟨pre, a, post, he, ha, hpre⟩ := History.exists_first Action.owner
      (own_ne_nil_of_emit (hended.emitted s hs))
    have hbefore : (E.replay pre).statuses.get d = some .failed := by
      rw [hended.dep_status hs he ha hd, hreplay]; exact hfailed
    have hfails := hguard pre a post s hs he ha hpre ⟨d, hd, hbefore⟩
    cases hended.picked hs he ha hpre with
    | run _ hholds _ => rw [hfails] at hholds; cases hholds
    | skip _ hskip =>
      have hview := congrArg StepView.status (view_of_skipped hs hskip)
      rw [hreplay] at hview
      have hskipped : σ.statuses.get s.id = some .skipped := hview
      refine ⟨fun n context hmem => ?_, by rw [hskipped]; simp, by rw [hskipped]; simp⟩
      have hown : (.invoke s.id n context : Action V P) ∈ own s.id σ.log :=
        (History.mem_proj Action.owner).mpr ⟨hmem, rfl⟩
      rw [hskip] at hown; simp [skipActs] at hown

/-- The dashboard's run: the charge fails, and the finance team is to be notified after it. -/
def payment : WorkflowExecutor String Unit where
  config :=
    { name := "payment_reconcile"
      steps := [{ id := "charge_gateway", task := "charge", retries := 0, params := () },
        { id := "notify_finance", task := "notify", dependsOn := some ["charge_gateway"],
          params := () }]
      uniqueStepIds := by decide }
  taskRegistry := Dict.ofList [("charge", { call := fun _ _ _ _ => (.error "timeout", ()) }),
    ("notify", { call := fun _ _ _ _ => (.ok "sent", ()) })]

theorem payment_runs_on_failure : detectCycles payment.config.steps = .ok () ∧
    ∃ σ, payment.Finishes σ ∧ σ.statuses.get "charge_gateway" = some .failed ∧
      σ.statuses.get "notify_finance" = some .completed ∧ ¬ payment.StopsAtFailure σ := by
  obtain ⟨σ, hσ, hp⟩ := finishes_of_runMoves (E := payment) [.main, .main]
    (p := fun σ => decide (σ.statuses.get "charge_gateway" = some .failed ∧
      σ.statuses.get "notify_finance" = some .completed)) rfl
  obtain ⟨hcharge, hnotify⟩ := of_decide_eq_true hp
  refine ⟨rfl, σ, hσ, hcharge, hnotify, fun hstop => ?_⟩
  exact (hstop _ (List.mem_cons_of_mem _ List.mem_cons_self)
    ⟨"charge_gateway", by simp [StepConfig.listed], hcharge⟩).2.1 hnotify

theorem payment_stopsAtFailure_iff : ∃ σ, payment.Finishes σ ∧
    (payment.StopsAtFailure σ ↔ payment.GuardedAtFailure σ) := by
  obtain ⟨σ, hσ, -⟩ := exists_finish (E := payment) (c := .loop payment.start ∅) .refl
  exact ⟨σ, hσ, stopsAtFailure_iff rfl hσ⟩

end WorkflowExecutor

end WorkflowEngine
