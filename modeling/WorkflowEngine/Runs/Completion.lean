import WorkflowEngine.Engine.Acceptance
import WorkflowEngine.Machine.Closed
import Mathlib.Data.ENat.Basic
import Mathlib.Algebra.Order.BigOperators.Group.List

/-! An accepted workflow runs to completion.

    Progress: while a step is unresolved, a topological order has a first unresolved step; its
    dependencies are resolved, so its gate does not pass it over and the round resolves something.
    Termination: each round raises the number of resolved steps, and inside the pool each move uses
    up some of the work that the layer can still cost. -/

namespace WorkflowEngine
open Schemes Relation

variable {V P : Type}

namespace WorkflowExecutor

variable {E : WorkflowExecutor V P}

/-! ### The cost of the pool -/

/-- No call of the loop performs more actions than this. -/
def cost (s : StepConfig P) : ℕ := 5 * s.retries + 6

/-- The moves that the pool can still make. -/
def Pool.moves (p : Pool V P) : ℕ :=
  (p.toSubmit.map fun s => cost s + 3).sum + (p.queue.map fun j => j.acts.length + 2).sum +
    (p.busy.map fun j => j.acts.length + 1).sum

/-- The measure of a configuration: the unresolved steps, then the moves left in the pool. -/
def measure (E : WorkflowExecutor V P) : Conf V P → ℕ × ℕ∞
  | .loop _ resolved => (E.total - resolved.card, ⊤)
  | .pool _ resolved _ p => (E.total - resolved.card, p.moves)
  | .done _ _ => (0, 0)

/-- What a pass has gained over the set it started from. -/
structure Gained (resolved : Finset String) (p : Pass V P) : Prop where
  grows : resolved.card ≤ p.resolved.card
  strict : p.executed = true → resolved.card < p.resolved.card

theorem Gained.insert {resolved : Finset String} {p p' : Pass V P} (h : Gained resolved p)
    {id : String} (hid : id ∉ p.resolved) (hp : p'.resolved = insert id p.resolved) :
    Gained resolved p' := by
  have hcard : p'.resolved.card = p.resolved.card + 1 := by
    rw [hp, Finset.card_insert_of_notMem hid]
  have hle := h.grows
  exact ⟨by omega, fun _ => by omega⟩

/-- A round that ends at the head of the loop has resolved a step or is the last. -/
theorem measure_endRound {σ σ' : RunState V P} {resolved : Finset String} {p : Pass V P}
    (hmore : resolved.card < E.total) (h : Gained resolved p) :
    Prod.Lex (· < ·) (· < ·) (E.measure (E.endRound σ' p.resolved p.executed))
      (E.measure (.loop σ resolved)) := by
  have hgrows := h.grows
  unfold endRound
  split_ifs with hstuck
  · exact .left _ _ (by omega)
  · cases hex : p.executed with
    | true =>
      have hstrict := h.strict hex
      exact .left _ _ (by omega)
    | false =>
      have hall : ¬ p.resolved.card < E.total := fun hlt => hstuck ⟨by simp [hex], hlt⟩
      exact .left _ _ (by omega)

theorem execute_ok (hregistry : ∀ s ∈ E.config.steps, (E.taskRegistry.get s.task).isSome) :
    E.execute = .ok (.loop E.start ∅) := by
  have hmissing : ((E.config.steps.map StepConfig.task).filter
      fun t => (E.taskRegistry.get t).isNone) = [] := by
    rw [List.filter_eq_nil_iff]
    intro t ht
    obtain ⟨s, hs, rfl⟩ := List.mem_map.mp ht
    simpa using Option.isSome_iff_ne_none.mp (hregistry s hs)
  simp [execute, validateRegistry, hmissing, bind, Except.bind]

variable [PyValue V]

theorem attemptLoop_length (s : StepConfig P) (context : Context V) (live : Bool)
    (left attempt : ℕ) (p : P) :
    (E.attemptLoop s context live left attempt p).1.length ≤ 5 * left + 6 := by
  induction left, attempt, p using E.attempt_induction s context with
  | ok left attempt p res p' h => rw [attemptLoop_ok h]; simp
  | last attempt p exc p' h => rw [attemptLoop_last h]; simp
  | retry left attempt p exc p' h ih =>
    rw [attemptLoop_retry h]
    cases live <;> simp <;> omega

/-! ### Progress -/

theorem legacyStep_stuck {p : Pass V P} {s : StepConfig P}
    (h : (E.legacyStep p s).executed = false) :
    E.legacyStep p s = p ∧ gate p.state p.resolved s = .pass := by
  unfold legacyStep at h ⊢
  cases hg : gate p.state p.resolved s with
  | pass => exact ⟨rfl, rfl⟩
  | skip => rw [hg] at h; simp [Pass.skip] at h
  | run => rw [hg] at h; simp at h

/-- If a step can leave `I` in place only by passing over its step, so can a whole pass. -/
theorem foldl_stuck {step : Pass V P → StepConfig P → Pass V P} {I : Pass V P → Prop}
    (one : ∀ p s, I (step p s) → step p s = p ∧ gate p.state p.resolved s = .pass) :
    ∀ {l : List (StepConfig P)} {p : Pass V P}, I (l.foldl step p) →
      l.foldl step p = p ∧ ∀ s ∈ l, gate p.state p.resolved s = .pass
  | [], p, _ => ⟨rfl, by simp⟩
  | s :: l, p, h => by
      rw [List.foldl_cons] at h ⊢
      obtain ⟨hrest, hpass⟩ := foldl_stuck one h
      rw [hrest] at h
      obtain ⟨hstep, hgate⟩ := one p s h
      rw [hrest, hstep]
      rw [hstep] at hpass
      refine ⟨rfl, fun t ht => ?_⟩
      rcases List.mem_cons.mp ht with rfl | ht
      · exact hgate
      · exact hpass t ht

/-- A pass that executes nothing leaves the records alone and passes over every step. -/
theorem legacyPass_stuck {l : List (StepConfig P)} {p : Pass V P}
    (h : (l.foldl E.legacyStep p).executed = false) :
    l.foldl E.legacyStep p = p ∧ ∀ s ∈ l, gate p.state p.resolved s = .pass :=
  foldl_stuck (I := fun p => p.executed = false) (fun _ _ => legacyStep_stuck) h

theorem collectStep_stuck {p : Pass V P} {s : StepConfig P}
    (h : (E.collectStep p s).executed = false) (hr : (E.collectStep p s).runnable = []) :
    E.collectStep p s = p ∧ gate p.state p.resolved s = .pass := by
  unfold collectStep at h hr ⊢
  cases hg : gate p.state p.resolved s with
  | pass => exact ⟨rfl, rfl⟩
  | skip => rw [hg] at h; simp [Pass.skip] at h
  | run => rw [hg] at hr; simp at hr

theorem collect_stuck {l : List (StepConfig P)} {p : Pass V P}
    (h : (l.foldl E.collectStep p).executed = false)
    (hr : (l.foldl E.collectStep p).runnable = []) :
    l.foldl E.collectStep p = p ∧ ∀ s ∈ l, gate p.state p.resolved s = .pass :=
  foldl_stuck (I := fun p => p.executed = false ∧ p.runnable = [])
    (fun _ _ hstill => collectStep_stuck hstill.1 hstill.2) ⟨h, hr⟩

/-- PROGRESS: while a step is unresolved, some gate lets its step through. -/
theorem exists_gate_open {σ : RunState V P} {resolved : Finset String} {live : Bool}
    (hdag : Acyclic E.config.steps) (h : E.Inv live ⟨σ, ctlOf resolved⟩)
    (hmore : resolved.card < E.total) :
    ∃ s ∈ E.config.steps, gate σ resolved s ≠ .pass := by
  obtain ⟨hknown, order, ho, hmem⟩ := hdag
  obtain ⟨x, hx, hfree⟩ : ∃ x ∈ (E.config.steps.map StepConfig.id).toFinset, x ∉ resolved :=
    Finset.exists_mem_notMem_of_card_lt_card (by rw [card_ids]; exact hmore)
  obtain ⟨t, ht, rfl⟩ := List.mem_map.mp (List.mem_toFinset.mp hx)
  obtain ⟨y, -, ⟨⟨s, hs, rfl⟩, hs'⟩, hmin⟩ := ho.exists_minimal
    (U := fun y => (∃ s ∈ E.config.steps, s.id = y) ∧ y ∉ resolved) (hmem t ht) ⟨⟨t, ht, rfl⟩, hfree⟩
  have hdeps : ∀ d ∈ s.deps, d ∈ resolved := by
    intro d hd
    have hdep : Dep E.config.steps d s.id := ⟨s, hs, rfl, hd⟩
    obtain ⟨u, hu, hud⟩ := List.mem_map.mp (hknown d s.id hdep)
    by_contra hno
    exact hmin d hdep ⟨⟨u, hu, hud⟩, hno⟩
  refine ⟨s, hs, ?_⟩
  rw [gate_eq, if_pos ⟨(h.pending_iff hs rfl).mpr hs', hdeps⟩]
  split_ifs <;> simp

/-! ### What a round gains -/

theorem Gained.legacyStep {resolved : Finset String} {p : Pass V P} {s : StepConfig P}
    (h : Gained resolved p) (hs : s ∈ E.config.steps)
    (hI : E.Inv true ⟨p.state, ctlOf p.resolved⟩) : Gained resolved (E.legacyStep p s) := by
  unfold WorkflowExecutor.legacyStep
  cases hI.gated hs with
  | pass hgate => rw [hgate]; exact h
  | skip hgate hidle => rw [hgate]; exact h.insert hidle rfl
  | run hgate hidle => rw [hgate]; exact h.insert hidle rfl

theorem gained_legacyPass {resolved : Finset String} : ∀ {l : List (StepConfig P)} {p : Pass V P},
    (∀ s ∈ l, s ∈ E.config.steps) → E.Inv true ⟨p.state, ctlOf p.resolved⟩ → Gained resolved p →
    Gained resolved (l.foldl E.legacyStep p)
  | [], _, _, _, h => h
  | s :: l, p, hl, hI, h => by
      have hs := hl s List.mem_cons_self
      rw [List.foldl_cons]
      exact gained_legacyPass (fun t ht => hl t (List.mem_cons_of_mem s ht))
        (hI.follow (legacyStep_follows hs hI)) (h.legacyStep hs hI)

theorem Gained.collectStep {resolved : Finset String} {p : Pass V P} {s : StepConfig P}
    (h : Gained resolved p) (hs : s ∈ E.config.steps)
    (hI : E.Inv false ⟨p.state, ctlOf p.resolved⟩) : Gained resolved (E.collectStep p s) := by
  unfold WorkflowExecutor.collectStep
  cases hI.gated hs with
  | pass hgate => rw [hgate]; exact h
  | skip hgate hidle => rw [hgate]; exact h.insert hidle rfl
  | run hgate => rw [hgate]; exact ⟨h.grows, h.strict⟩

theorem gained_collect {σ : RunState V P} {resolved : Finset String}
    (h0 : E.Inv false ⟨σ, ctlOf resolved⟩) : ∀ {rest : List (StepConfig P)} {p : Pass V P},
    E.Collecting σ resolved p rest → Gained resolved p →
    Gained resolved (rest.foldl E.collectStep p)
  | [], _, _, h => h
  | s :: _, _, hc, h => by
      have hs : s ∈ E.config.steps := hc.sublist.subset (by simp)
      rw [List.foldl_cons]
      exact gained_collect h0 (hc.step h0) (h.collectStep hs (h0.follow hc.follows))

theorem gained_collectRunnable {σ : RunState V P} {resolved : Finset String}
    (h : E.Inv false ⟨σ, ctlOf resolved⟩) : Gained resolved (E.collectRunnable σ resolved) :=
  gained_collect h (p := { state := σ, resolved := resolved }) (collecting_start E σ resolved)
    ⟨le_rfl, by simp⟩

/-! ### Termination -/

/-- What the configurations of a run keep. -/
def Running (E : WorkflowExecutor V P) (c : Conf V P) : Prop :=
  ∃ m, E.Inv E.live m ∧ E.Refines c m

theorem Running.turn {c c' : Conf V P} (h : E.Running c) (turn : E.Turn c c') : E.Running c' := by
  obtain ⟨m, hI, hrel⟩ := h
  obtain ⟨m', hrun, hrel'⟩ := hrel.turn hI turn
  exact ⟨m', hI.follow hrun, hrel'⟩

theorem Running.loop {σ : RunState V P} {resolved : Finset String}
    (h : E.Running (.loop σ resolved)) : E.Inv E.live ⟨σ, ctlOf resolved⟩ := by
  obtain ⟨m, hI, hrel⟩ := h
  cases hrel with
  | loop => exact hI

omit [PyValue V] in
/-- The end of a layer resolves all of its steps, none of which were resolved before. -/
theorem Pooled.card_resolves {resolved : Finset String} {layer : List (StepConfig P)}
    {p : Pool V P} {ctl : String → Ctl V P} (h : Pooled E resolved layer p ctl) :
    (resolved ∪ (layer.map StepConfig.id).toFinset).card = resolved.card + layer.length := by
  have hdisj : Disjoint resolved (layer.map StepConfig.id).toFinset := by
    rw [Finset.disjoint_right]
    intro id hid
    obtain ⟨s, hs, rfl⟩ := List.mem_map.mp (List.mem_toFinset.mp hid)
    exact h.unresolved s hs
  rw [Finset.card_union_of_disjoint hdisj, List.toFinset_card_of_nodup h.nodup, List.length_map]

theorem measure_turn {c c' : Conf V P} (h : E.Running c) (turn : E.Turn c c') :
    Prod.Lex (· < ·) (· < ·) (E.measure c') (E.measure c) := by
  have h' := h.turn turn
  cases turn with
  | finish all => exact Prod.Lex.right' _ (Nat.zero_le _) ENat.top_pos
  | @pass σ resolved more mode =>
    have hI := h.loop
    rw [WorkflowExecutor.live, mode] at hI
    exact measure_endRound more (gained_legacyPass (p := { state := σ, resolved := resolved })
      (fun s hs => hs) hI ⟨le_rfl, by simp⟩)
  | @collect σ resolved more mode none =>
    have hI := h.loop
    rw [WorkflowExecutor.live, mode] at hI
    exact measure_endRound more (gained_collectRunnable hI)
  | @enter σ resolved more mode some =>
    have hI := h.loop
    rw [WorkflowExecutor.live, mode] at hI
    have hgrows := (gained_collectRunnable hI).grows
    exact Prod.Lex.right' _ (Nat.sub_le_sub_left hgrows _) (ENat.natCast_lt_top _)
  | @submit σ resolved layer p s rest next =>
    refine .right _ (Nat.cast_lt.mpr ?_)
    have hlen := E.attemptLoop_length s σ.results.get false s.retries 0 s.params
    simp only [Pool.moves, next, WorkflowExecutor.submit, runWithRetry, cost, List.map_cons,
      List.sum_cons, List.map_append, List.sum_append, List.map_nil, List.sum_nil]
    omega
  | @join σ resolved layer p submitted queue busy =>
    obtain ⟨m, -, hrel⟩ := h
    cases hrel with
    | pool mode pooled =>
      have hle := Finset.card_le_card h'.loop.resolved_subset
      have hlayer := List.length_pos_iff.mpr pooled.nonempty
      rw [card_ids, pooled.card_resolves] at hle
      refine .left _ _ ?_
      rw [pooled.card_resolves]
      omega
  | @take σ resolved layer p j rest next room =>
    refine .right _ (Nat.cast_lt.mpr ?_)
    simp only [Pool.moves, next, List.map_cons, List.sum_cons, List.map_append, List.sum_append,
      List.map_nil, List.sum_nil]
    omega
  | @work σ resolved layer p l j r a rest worker acts =>
    refine .right _ (Nat.cast_lt.mpr ?_)
    simp only [Pool.moves, worker, acts, List.map_cons, List.sum_cons, List.map_append,
      List.sum_append, List.length_cons]
    omega
  | @complete σ resolved layer p l j r worker acts =>
    refine .right _ (Nat.cast_lt.mpr ?_)
    simp only [Pool.moves, worker, acts, List.map_cons, List.sum_cons, List.map_append,
      List.sum_append, List.length_nil]
    omega

theorem running_start : E.Running (.loop E.start ∅) := by
  obtain ⟨m, hm, hrel⟩ := refines_of_reaches (E := E) (c := .loop E.start ∅) .refl
  exact ⟨m, inv_of_mreaches hm, hrel⟩

theorem running_of_reaches {c : Conf V P} (h : E.Reaches c) : E.Running c := by
  obtain ⟨m, hm, hrel⟩ := refines_of_reaches h
  exact ⟨m, inv_of_mreaches hm, hrel⟩

/-- TERMINATION: no interleaving of the threads goes on for ever. -/
theorem acc_start : Acc (fun c' c => E.Step c c') (.loop E.start ∅) :=
  Run.acc_of_measure (I := E.Running) (fun _ _ hI step => hI.turn (turn_of_step step))
    (WellFounded.prod_lex wellFounded_lt wellFounded_lt) E.measure
    (fun _ _ hI step => measure_turn hI (turn_of_step step)) _ running_start

/-! ### No deadlock, and no thread left waiting -/

/-- A round of an accepted workflow resolves something while steps remain. -/
theorem Running.no_deadlock {c : Conf V P} {σ : RunState V P} (h : E.Running c)
    (hdag : Acyclic E.config.steps) : ¬ E.Turn c (.done σ true) := by
  have hend : ∀ {τ : RunState V P} {r : Finset String} {ex : Bool},
      E.endRound τ r ex = .done σ true → ex = false := by
    intro τ r ex he
    unfold endRound at he
    split_ifs at he with hstuck
    simpa using hstuck.1
  intro turn
  generalize hd : Conf.done σ true = d at turn
  cases turn with
  | finish all => simp at hd
  | @pass τ resolved more mode =>
    have hI := h.loop
    rw [WorkflowExecutor.live, mode] at hI
    obtain ⟨s, hs, hopen⟩ := exists_gate_open hdag hI more
    exact hopen ((legacyPass_stuck (hend hd.symm)).2 s hs)
  | @collect τ resolved more mode none =>
    have hI := h.loop
    rw [WorkflowExecutor.live, mode] at hI
    obtain ⟨s, hs, hopen⟩ := exists_gate_open hdag hI more
    exact hopen ((collect_stuck (hend hd.symm) none).2 s hs)
  | enter more mode some => simp at hd
  | submit next => simp at hd
  | join submitted queue busy => simp at hd
  | take next room => simp at hd
  | work worker acts => simp at hd
  | complete worker acts => simp at hd

theorem not_deadlock {σ : RunState V P} {deadlock : Bool} (hdag : Acyclic E.config.steps)
    (h : E.Reaches (.done σ deadlock)) : deadlock = false := by
  rcases ReflTransGen.cases_tail h with he | ⟨c, hc, step⟩
  · cases he
  · cases deadlock with
    | false => rfl
    | true => exact absurd (turn_of_step step) ((running_of_reaches hc).no_deadlock hdag)

/-- PROGRESS: some thread can move until the run has returned. -/
theorem Running.progress {c : Conf V P} (h : E.Running c) :
    (∃ c', E.Step c c') ∨ ∃ σ deadlock, c = .done σ deadlock := by
  cases c with
  | done σ deadlock => exact Or.inr ⟨σ, deadlock, rfl⟩
  | loop σ resolved =>
    left
    have hsome : (E.next .main (.loop σ resolved)).isSome := by
      simp only [next]
      split_ifs <;> rfl
    obtain ⟨c', hc'⟩ := Option.isSome_iff_exists.mp hsome
    exact ⟨c', .main, hc'⟩
  | pool σ resolved layer p =>
    left
    obtain ⟨m, -, hrel⟩ := h
    cases hrel with
    | pool mode pooled =>
      rcases hsub : p.toSubmit with _ | ⟨s, rest⟩
      · rcases hbusy : p.busy with _ | ⟨j, r⟩
        · rcases hqueue : p.queue with _ | ⟨j, rest⟩
          · exact ⟨_, .main, by simp only [next, hsub, hqueue, hbusy]; rfl⟩
          · have hroom : p.busy.length < E.workers layer := by
              obtain ⟨n, hn, hlt⟩ : ∃ n, E.concurrencyLimit = some n ∧ 1 < n := by
                simpa [parallel, Option.any_eq_true] using mode
              have hlen := List.length_pos_iff.mpr pooled.nonempty
              rw [hbusy, workers, hn]
              simp only [List.length_nil, Option.getD_some, lt_min_iff]
              omega
            exact ⟨_, .start, by simp only [next, hqueue, if_pos hroom]; rfl⟩
        · have hj : p.busy[0]? = some j := by rw [hbusy]; rfl
          rcases hacts : j.acts with _ | ⟨a, rest⟩
          · exact ⟨_, .work 0, by simp only [next, hj, hacts]; rfl⟩
          · exact ⟨_, .work 0, by simp only [next, hj, hacts]; rfl⟩
      · exact ⟨_, .main, by simp only [next, hsub]; rfl⟩

/-- A returned run of an acyclic workflow has closed every step. -/
theorem closed_of_finishes {σ : RunState V P} (hdag : Acyclic E.config.steps)
    (h : E.Finishes σ) : ∃ m, E.MReaches E.live m ∧
      (∀ s ∈ E.config.steps, m.ctl s.id = .done) ∧ σ = E.finishRun m.state := by
  obtain ⟨deadlock, h⟩ := h
  obtain rfl := not_deadlock hdag h
  exact closed_of_done h

/-- CORRECT (completion): `execute` of an accepted workflow terminates in every interleaving, never
    takes the deadlock break, and leaves every step completed, failed or skipped. -/
theorem completes_of_accepted (hacc : detectCycles E.config.steps = .ok ())
    (hregistry : ∀ s ∈ E.config.steps, (E.taskRegistry.get s.task).isSome) :
    E.execute = .ok (.loop E.start ∅) ∧
    Acc (fun c' c => E.Step c c') (.loop E.start ∅) ∧
    (∀ c, E.Reaches c → (∃ c', E.Step c c') ∨ ∃ σ, c = .done σ false) ∧
    (∀ σ deadlock, E.Reaches (.done σ deadlock) → deadlock = false ∧
      (∀ s ∈ E.config.steps, ∃ status, σ.statuses.get s.id = some status ∧ status.Terminal) ∧
      (∀ status ∈ σ.statuses.values, status.Terminal) ∧
      (σ.overallStatus.text = "completed" ∨ σ.overallStatus.text = "failed")) := by
  have hdag := acyclic_of_accepted hacc
  refine ⟨execute_ok hregistry, acc_start, fun c hc => ?_, fun σ deadlock hσ => ?_⟩
  · rcases (running_of_reaches hc).progress with hstep | ⟨σ, deadlock, rfl⟩
    · exact Or.inl hstep
    · obtain rfl := not_deadlock hdag hc
      exact Or.inr ⟨σ, rfl⟩
  · obtain ⟨m, hm, hall, rfl⟩ := closed_of_finishes hdag ⟨deadlock, hσ⟩
    have hI := inv_of_mreaches hm
    have hclosed : ∀ s ∈ E.config.steps,
        ∃ status, (E.finishRun m.state).statuses.get s.id = some status ∧ status.Terminal :=
      fun s hs => (hI.closed hs (hall s hs)).status
    refine ⟨not_deadlock hdag hσ, hclosed, fun status hst => ?_, ?_⟩
    · obtain ⟨id, hid⟩ := (Dict.mem_values_iff _ status).mp hst
      obtain ⟨s, hs, rfl⟩ := hI.known_of_status hid
      obtain ⟨status', hst', hterm⟩ := hclosed s hs
      obtain rfl : status = status' := Option.some.inj (hid.symm.trans hst')
      exact hterm
    · have hover : (E.finishRun m.state).overallStatus = m.state.overallStatus := rfl
      rw [hover]
      rcases overallStatus_of_closed hI hall with h | h
      · right; rw [h]; rfl
      · left; rw [h]; rfl

/-- Two steps in reverse order; the second runs first, and the first fails every time. -/
def etlSteps : List (StepConfig Unit) :=
  [{ id := "load", task := "load", dependsOn := some ["extract"], retries := 1, params := () },
   { id := "extract", task := "extract", params := () }]

def etl : WorkflowExecutor String Unit where
  config := { name := "etl", steps := etlSteps, uniqueStepIds := by decide }
  taskRegistry := Dict.ofList [("extract", { call := fun _ _ _ _ => (.ok "rows", ()) }),
    ("load", { call := fun _ _ _ _ => (.error "timeout", ()) })]
  concurrencyLimit := some 2

theorem etl_completes : etl.execute = .ok (.loop etl.start ∅) ∧
    Acc (fun c' c => etl.Step c c') (.loop etl.start ∅) ∧
    ∀ σ deadlock, etl.Reaches (.done σ deadlock) → deadlock = false := by
  obtain ⟨hexecute, hacc, -, hdone⟩ := completes_of_accepted (E := etl) rfl (by decide)
  exact ⟨hexecute, hacc, fun σ deadlock h => (hdone σ deadlock h).1⟩

end WorkflowExecutor

end WorkflowEngine
