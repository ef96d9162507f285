import WorkflowEngine.Machine.Pool

/-! Every run of `execute` is a run of the workflow machine.

    `Turn` lists what one move of a run can do; `Refines` relates a configuration to the machine
    state it stands for. Each turn is followed by the machine, so whatever the machine keeps holds in
    every configuration that any interleaving of the threads reaches. -/

namespace WorkflowEngine
open Schemes Relation

variable {V P : Type}

/-- The records of a configuration. -/
def Conf.state : WorkflowExecutor.Conf V P → RunState V P
  | .loop σ _ | .pool σ _ _ _ | .done σ _ => σ

/-- The records of a run that has returned. -/
def Conf.returned? : WorkflowExecutor.Conf V P → Option (RunState V P)
  | .done σ _ => some σ
  | _ => none

namespace WorkflowExecutor

variable {E : WorkflowExecutor V P}

/-- `execute` runs its steps live unless a thread pool runs them. -/
def live (E : WorkflowExecutor V P) : Bool := !E.parallel

theorem card_ids (E : WorkflowExecutor V P) :
    (E.config.steps.map StepConfig.id).toFinset.card = E.total := by
  rw [List.toFinset_card_of_nodup E.config.uniqueStepIds, List.length_map, total]

/-! ### The machine state behind a configuration -/

/-- `m` is the machine state that the configuration stands for. -/
inductive Refines (E : WorkflowExecutor V P) : Conf V P → Machine V P → Prop
  | loop {σ resolved} : Refines E (.loop σ resolved) ⟨σ, ctlOf resolved⟩
  | pool {σ resolved layer p ctl} (mode : E.parallel = true)
      (pooled : E.Pooled resolved layer p ctl) : Refines E (.pool σ resolved layer p) ⟨σ, ctl⟩
  | done {σ resolved deadlock} (all : deadlock = false → E.total ≤ resolved.card) :
      Refines E (.done (E.finishRun σ) deadlock) ⟨σ, ctlOf resolved⟩

theorem refines_endRound {σ : RunState V P} {resolved : Finset String} {executed : Bool} :
    E.Refines (E.endRound σ resolved executed) ⟨σ, ctlOf resolved⟩ := by
  unfold endRound
  split_ifs with h
  · exact .done (by simp)
  · exact .loop

variable [PyValue V]

/-! ### The moves of a run -/

/-- What one move can do. -/
inductive Turn (E : WorkflowExecutor V P) : Conf V P → Conf V P → Prop
  | finish {σ resolved} (all : ¬ resolved.card < E.total) :
      Turn E (.loop σ resolved) (.done (E.finishRun σ) false)
  | pass {σ resolved} (more : resolved.card < E.total) (mode : E.parallel = false) :
      Turn E (.loop σ resolved) (E.endRound (E.runLegacyYamlOrder σ resolved).state
        (E.runLegacyYamlOrder σ resolved).resolved (E.runLegacyYamlOrder σ resolved).executed)
  | collect {σ resolved} (more : resolved.card < E.total) (mode : E.parallel = true)
      (none : (E.collectRunnable σ resolved).runnable = []) :
      Turn E (.loop σ resolved) (E.endRound (E.collectRunnable σ resolved).state
        (E.collectRunnable σ resolved).resolved (E.collectRunnable σ resolved).executed)
  | enter {σ resolved} (more : resolved.card < E.total) (mode : E.parallel = true)
      (some : (E.collectRunnable σ resolved).runnable ≠ []) :
      Turn E (.loop σ resolved) (.pool
        ((E.collectRunnable σ resolved).runnable.foldl (fun σ s => E.acts σ (startActs s))
          (E.collectRunnable σ resolved).state)
        (E.collectRunnable σ resolved).resolved (E.collectRunnable σ resolved).runnable
        { toSubmit := (E.collectRunnable σ resolved).runnable })
  | submit {σ resolved layer p s rest} (next : p.toSubmit = s :: rest) :
      Turn E (.pool σ resolved layer p)
        (.pool σ resolved layer { p with toSubmit := rest, queue := p.queue ++ [E.submit σ s] })
  | join {σ resolved layer p} (submitted : p.toSubmit = []) (queue : p.queue = [])
      (busy : p.busy = []) :
      Turn E (.pool σ resolved layer p) (.loop (layer.foldl (E.publish p.outcomes) σ)
        (resolved ∪ (layer.map StepConfig.id).toFinset))
  | take {σ resolved layer p j rest} (next : p.queue = j :: rest)
      (room : p.busy.length < E.workers layer) :
      Turn E (.pool σ resolved layer p)
        (.pool σ resolved layer { p with queue := rest, busy := p.busy ++ [j] })
  | work {σ resolved layer p l j r a rest} (worker : p.busy = l ++ j :: r)
      (acts : j.acts = a :: rest) :
      Turn E (.pool σ resolved layer p) (.pool (E.act σ a) resolved layer
        { p with busy := l ++ { j with acts := rest } :: r })
  | complete {σ resolved layer p l j r} (worker : p.busy = l ++ j :: r) (acts : j.acts = []) :
      Turn E (.pool σ resolved layer p) (.pool σ resolved layer
        { p with busy := l ++ r, outcomes := p.outcomes.set j.id j.succeeded })

theorem turn_loop {σ : RunState V P} {resolved : Finset String} {c : Conf V P}
    (h : E.next .main (.loop σ resolved) = some c) : E.Turn (.loop σ resolved) c := by
  simp only [next] at h
  split_ifs at h with hmore hmode hnone
  · obtain rfl := Option.some.inj h
    exact .collect hmore hmode (List.isEmpty_iff.mp hnone)
  · obtain rfl := Option.some.inj h
    exact .enter hmore hmode fun he => hnone (List.isEmpty_iff.mpr he)
  · obtain rfl := Option.some.inj h
    exact .pass hmore (Bool.eq_false_iff.mpr hmode)
  · obtain rfl := Option.some.inj h
    exact .finish hmore

section Pool
variable {σ : RunState V P} {resolved : Finset String} {layer : List (StepConfig P)} {p : Pool V P}
  {c : Conf V P}

/-- The submitting thread submits the next step, or joins when nothing is left in the pool. -/
theorem next_main (h : E.next .main (.pool σ resolved layer p) = some c) :
    (∃ s rest, p.toSubmit = s :: rest ∧ c = .pool σ resolved layer
      { p with toSubmit := rest, queue := p.queue ++ [E.submit σ s] }) ∨
    (p.toSubmit = [] ∧ p.queue = [] ∧ p.busy = [] ∧ c = .loop (layer.foldl (E.publish p.outcomes) σ)
      (resolved ∪ (layer.map StepConfig.id).toFinset)) := by
  rcases hsub : p.toSubmit with _ | ⟨s, rest⟩
  · simp only [next, hsub] at h
    split_ifs at h with hempty
    obtain rfl := Option.some.inj h
    exact Or.inr ⟨rfl, List.isEmpty_iff.mp hempty.1, List.isEmpty_iff.mp hempty.2, rfl⟩
  · simp only [next, hsub] at h
    obtain rfl := Option.some.inj h
    exact Or.inl ⟨s, rest, rfl, rfl⟩

theorem next_start (h : E.next .start (.pool σ resolved layer p) = some c) :
    ∃ j rest, p.queue = j :: rest ∧ p.busy.length < E.workers layer ∧
      c = .pool σ resolved layer { p with queue := rest, busy := p.busy ++ [j] } := by
  rcases hqueue : p.queue with _ | ⟨j, rest⟩
  · simp [next, hqueue] at h
  · simp only [next, hqueue] at h
    split_ifs at h with hroom
    obtain rfl := Option.some.inj h
    exact ⟨j, rest, rfl, hroom, rfl⟩

/-- A busy worker performs its next action, or completes its future. -/
theorem next_work {i : ℕ} (h : E.next (.work i) (.pool σ resolved layer p) = some c) :
    ∃ l j r, p.busy = l ++ j :: r ∧ p.busy[i]? = some j ∧
      ((∃ a rest, j.acts = a :: rest ∧ c = .pool (E.act σ a) resolved layer
        { p with busy := l ++ { j with acts := rest } :: r }) ∨
      (j.acts = [] ∧ c = .pool σ resolved layer
        { p with busy := l ++ r, outcomes := p.outcomes.set j.id j.succeeded })) := by
  cases hj : p.busy[i]? with
  | none => simp [next, hj] at h
  | some j =>
    obtain ⟨hi, rfl⟩ := List.getElem?_eq_some_iff.mp hj
    have hsplit : p.busy = p.busy.take i ++ p.busy[i] :: p.busy.drop (i + 1) := by
      rw [← List.drop_eq_getElem_cons hi, List.take_append_drop]
    refine ⟨_, _, _, hsplit, rfl, ?_⟩
    rcases hacts : p.busy[i].acts with _ | ⟨a, rest⟩
    · simp only [next, hj, hacts] at h
      obtain rfl := Option.some.inj h
      exact Or.inr ⟨rfl, by rw [List.eraseIdx_eq_take_drop_succ]⟩
    · simp only [next, hj, hacts] at h
      obtain rfl := Option.some.inj h
      exact Or.inl ⟨a, rest, rfl, by rw [List.set_eq_take_append_cons_drop, if_pos hi]⟩

theorem turn_pool {m : Move} (h : E.next m (.pool σ resolved layer p) = some c) :
    E.Turn (.pool σ resolved layer p) c := by
  cases m with
  | main =>
    rcases next_main h with ⟨s, rest, hsub, rfl⟩ | ⟨hsub, hqueue, hbusy, rfl⟩
    · exact .submit hsub
    · exact .join hsub hqueue hbusy
  | start =>
    obtain ⟨j, rest, hqueue, hroom, rfl⟩ := next_start h
    exact .take hqueue hroom
  | work i =>
    obtain ⟨l, j, r, hsplit, -, ⟨a, rest, hacts, rfl⟩ | ⟨hacts, rfl⟩⟩ := next_work h
    · exact .work hsplit hacts
    · exact .complete hsplit hacts

end Pool

theorem turn_of_step {c c' : Conf V P} (h : E.Step c c') : E.Turn c c' := by
  obtain ⟨m, h⟩ := h
  cases c with
  | loop σ resolved =>
    cases m with
    | main => exact turn_loop h
    | start => simp [next] at h
    | work i => simp [next] at h
  | pool σ resolved layer p => exact turn_pool h
  | done σ deadlock => cases m <;> simp [next] at h

/-! ### The simulation -/

/-- SIMULATION: each turn is followed by the machine. -/
theorem Refines.turn {c c' : Conf V P} {m : Machine V P} (h : E.Refines c m)
    (hI : E.Inv E.live m) (turn : E.Turn c c') :
    ∃ m', ReflTransGen (E.MStep E.live) m m' ∧ E.Refines c' m' := by
  have hpar : E.parallel = true → E.live = false := fun h => by simp [WorkflowExecutor.live, h]
  cases turn with
  | finish all =>
    cases h with
    | loop => exact ⟨_, .refl, .done fun _ => not_lt.mp all⟩
  | @pass σ resolved more mode =>
    have hlive : E.live = true := by simp [WorkflowExecutor.live, mode]
    cases h with
    | loop =>
      rw [hlive] at hI ⊢
      exact ⟨_, legacyPass_follows (p := { state := σ, resolved := resolved }) (fun s hs => hs) hI,
        refines_endRound⟩
  | collect more mode none =>
    cases h with
    | loop =>
      rw [hpar mode] at hI ⊢
      exact ⟨_, (collectRunnable_spec hI).follows, refines_endRound⟩
  | enter more mode some =>
    cases h with
    | loop =>
      rw [hpar mode] at hI ⊢
      obtain ⟨hfollows, -, hlayer, -⟩ := collectRunnable_spec hI
      refine ⟨_, hfollows.trans (startLayer_follows hlayer.mem
        (fun s hs => if_neg (hlayer.idle s hs)) (fun s hs d hd => if_pos (hlayer.deps s hs d hd))
        hlayer.holds_ hlayer.nodup), .pool mode (Pooled.start hlayer some)⟩
  | submit next =>
    cases h with
    | pool mode pooled =>
      rw [hpar mode]
      obtain ⟨hrun, hpooled⟩ := pooled.submit next
      exact ⟨_, hrun, .pool mode hpooled⟩
  | join submitted queue busy =>
    cases h with
    | pool mode pooled =>
      rw [hpar mode]
      exact ⟨_, pooled.join submitted queue busy, .loop⟩
  | take next room =>
    cases h with
    | pool mode pooled => exact ⟨_, .refl, .pool mode (pooled.take next)⟩
  | work worker acts =>
    cases h with
    | pool mode pooled =>
      rw [hpar mode]
      obtain ⟨hrun, hpooled⟩ := pooled.work worker acts
      exact ⟨_, hrun, .pool mode hpooled⟩
  | complete worker acts =>
    cases h with
    | pool mode pooled => exact ⟨_, .refl, .pool mode (pooled.finish worker acts)⟩

/-- SIMULATION: every configuration of a run stands for a reached machine state. -/
theorem refines_of_reaches {c : Conf V P} (h : E.Reaches c) :
    ∃ m, E.MReaches E.live m ∧ E.Refines c m := by
  have hstart : E.Refines (.loop E.start ∅) E.mstart := by
    have hctl : (fun _ => .idle : String → Ctl V P) = ctlOf ∅ := by funext id; simp [ctlOf]
    rw [mstart, hctl]; exact .loop
  refine Run.invariant (I := fun c => ∃ m, E.MReaches E.live m ∧ E.Refines c m) ?_
    ⟨_, .refl, hstart⟩ h
  rintro c c' ⟨m, hm, hrel⟩ step
  obtain ⟨m', hrun, hrel'⟩ := hrel.turn (inv_of_mreaches hm) (turn_of_step step)
  exact ⟨m', hm.trans hrun, hrel'⟩

/-! ### Whole runs -/

/-- A list of moves that returns with records that satisfy `p` is such a run. -/
theorem finishes_of_runMoves {p : RunState V P → Bool} (ms : List Move)
    (h : ((E.runMoves ms (.loop E.start ∅)).bind Conf.returned?).any p = true) :
    ∃ σ, E.Finishes σ ∧ p σ = true := by
  obtain ⟨σ, hσ, hp⟩ := (Option.any_eq_true p _).mp h
  obtain ⟨c, hc, hret⟩ := Option.bind_eq_some_iff.mp hσ
  cases c with
  | loop | pool => simp [Conf.returned?] at hret
  | done τ deadlock =>
    obtain rfl : τ = σ := Option.some.inj hret
    exact ⟨τ, ⟨deadlock, Run.reaches_of_moves (fun m _ _ hm => ⟨m, hm⟩) hc⟩, hp⟩

/-- The resolved steps are steps of the workflow. -/
theorem Inv.resolved_subset {σ : RunState V P} {resolved : Finset String} {live : Bool}
    (h : E.Inv live ⟨σ, ctlOf resolved⟩) :
    resolved ⊆ (E.config.steps.map StepConfig.id).toFinset := by
  intro id hid
  obtain ⟨s, hs, rfl⟩ := h.known id (by simp [ctlOf, hid])
  exact List.mem_toFinset.mpr (List.mem_map_of_mem hs)

/-- A run that returns without a deadlock has closed every step. -/
theorem closed_of_done {σ : RunState V P} (h : E.Reaches (.done σ false)) :
    ∃ m, E.MReaches E.live m ∧ (∀ s ∈ E.config.steps, m.ctl s.id = .done) ∧
      σ = E.finishRun m.state := by
  obtain ⟨m, hm, hrel⟩ := refines_of_reaches h
  cases hrel with
  | @done σ resolved _ all =>
    have hsub := (inv_of_mreaches hm).resolved_subset
    have hall : resolved = (E.config.steps.map StepConfig.id).toFinset :=
      Finset.eq_of_subset_of_card_le hsub (by rw [card_ids]; exact all rfl)
    refine ⟨_, hm, fun s hs => if_pos ?_, rfl⟩
    rw [hall]; exact List.mem_toFinset.mpr (List.mem_map_of_mem hs)

end WorkflowExecutor

end WorkflowEngine
