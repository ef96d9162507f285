import WorkflowEngine.Runs.Rounds

/-! The passes of a sequential run.

    A pass goes through the file from top to bottom and settles a step when it comes to it with all
    its dependencies settled, whether it then runs the step or skips it. So what a pass settles does
    not depend on the tasks: a step waits once for every dependency on its way that stands below the
    step that needs it, and the steps are closed in an order that the file alone fixes. -/

namespace WorkflowEngine
open Schemes Relation

variable {V P : Type}

/-! ### The order of the file -/

section File
variable (steps : List (StepConfig P))

/-- Where a step stands in the file. -/
def position (id : String) : ℕ := (steps.map StepConfig.id).idxOf id

/-- The pass that settles a step: how often a dependency path to it leads back in the file. -/
noncomputable def passOf (id : String) : ℕ := Layers.depth (Layers.Back (Dep steps) (position steps)) id

/-- The steps of a pass, in the order of the file. -/
noncomputable def passSteps (n : ℕ) : List String :=
  (steps.filter fun s => passOf steps s.id = n).map StepConfig.id

variable {steps}

theorem passOf_longest (haccepted : detectCycles steps = .ok ()) (id : String) :
    Layers.Longest (Layers.Back (Dep steps) (position steps)) id (passOf steps id) := by
  obtain ⟨order, horder, -⟩ := (acyclic_of_accepted haccepted).order
  have htarget : ∀ u x, Layers.Back (Dep steps) (position steps) u x →
      x ∈ steps.map StepConfig.id := by
    intro u x hback
    obtain ⟨d, -, hedge⟩ := TransGen.tail'_iff.mp hback.transGen
    exact dep_target hedge
  refine Layers.depth_longest fun n hpath => hpath.le_length htarget fun u hcycle => ?_
  have hdep : TransGen (Dep steps) u u :=
    TransGen.closed (fun _ _ hback => Layers.Back.transGen hback) u u hcycle
  exact horder.transGen_wf.irrefl.irrefl u hdep

/-- The pass of a step is not before those of its dependencies, and after those that stand below it. -/
theorem passOf_le_iff (haccepted : detectCycles steps = .ok ()) {s : StepConfig P} (hs : s ∈ steps)
    (hnodup : (steps.map StepConfig.id).Nodup) (k : ℕ) : passOf steps s.id ≤ k ↔ ∀ d ∈ s.deps,
      passOf steps d + (if position steps s.id < position steps d then 1 else 0) ≤ k := by
  rw [Layers.back_le_iff (passOf_longest haccepted)]
  constructor
  · intro h d hd
    exact h d ⟨s, hs, rfl, hd⟩
  · rintro h d ⟨t, ht, hid, hd⟩
    obtain rfl : t = s := List.inj_on_of_nodup_map hnodup ht hs hid
    exact h d hd

/-- Another step stands below `s` if it is not among those before it. -/
theorem position_lt_iff (hnodup : (steps.map StepConfig.id).Nodup) {l rest : List (StepConfig P)}
    {s t : StepConfig P} (hfile : steps = l ++ s :: rest) (ht : t ∈ steps) (hne : t.id ≠ s.id) :
    position steps s.id < position steps t.id ↔ t ∉ l := by
  have hids : steps.map StepConfig.id =
      l.map StepConfig.id ++ s.id :: rest.map StepConfig.id := by
    rw [hfile, List.map_append, List.map_cons]
  have hs : s.id ∉ l.map StepConfig.id := by
    rw [hids, List.nodup_append] at hnodup
    exact fun hin => hnodup.2.2 s.id hin s.id List.mem_cons_self rfl
  have hpos : position steps s.id = (l.map StepConfig.id).length := by
    rw [position, hids, List.idxOf_append_of_notMem hs, List.idxOf_cons_self, Nat.add_zero]
  have hin : t ∈ l ↔ t.id ∈ l.map StepConfig.id := by
    refine ⟨List.mem_map_of_mem, fun hid => ?_⟩
    obtain ⟨u, hu, hid⟩ := List.mem_map.mp hid
    obtain rfl : u = t := List.inj_on_of_nodup_map hnodup (by rw [hfile]; simp [hu]) ht hid
    exact hu
  rw [hin, hpos, position, hids]
  by_cases hmem : t.id ∈ l.map StepConfig.id
  · have hlt := List.idxOf_lt_length_iff.mpr hmem
    rw [List.idxOf_append_of_mem hmem]
    simp only [hmem, not_true_eq_false, iff_false]
    omega
  · rw [List.idxOf_append_of_notMem hmem, List.idxOf_cons_ne _ (Ne.symm hne)]
    simp only [hmem, not_false_eq_true, iff_true]
    omega

end File

/-- The step that an action closes. -/
def Action.closed? : Action V P → Option String
  | .emit id => some id
  | _ => none

namespace WorkflowExecutor

variable {E : WorkflowExecutor V P} [PyValue V]

/-! ### One step of a pass -/

theorem closed_runStep (σ : RunState V P) (s : StepConfig P) :
    (E.runStep σ s).log.filterMap Action.closed? = σ.log.filterMap Action.closed? ++ [s.id] := by
  have hloop : ∀ context, (E.runWithRetry s context true).1.filterMap Action.closed? = [] := by
    intro context
    rw [List.filterMap_eq_nil_iff]
    intro a ha
    have hno := (E.runWithRetry_action s context true a ha).noEmit
    cases a with
    | emit id => exact absurd rfl (hno id)
    | _ => rfl
  have hfinish : ∀ ok n, (finishActs s ok n : List (Action V P)).filterMap Action.closed? = [s.id] := by
    intro ok n
    cases ok <;> simp [finishActs, Action.closed?, List.filterMap_cons]
  have hstart : (startActs s : List (Action V P)).filterMap Action.closed? = [] := rfl
  simp only [runStep, acts_log, List.filterMap_append, hloop, hfinish, hstart, List.append_nil]

omit [PyValue V] in
theorem closed_skip (σ : RunState V P) (s : StepConfig P) :
    (E.acts σ (skipActs s)).log.filterMap Action.closed? =
      σ.log.filterMap Action.closed? ++ [s.id] := by
  rw [acts_log, List.filterMap_append]
  rfl

/-- STEP: a pass settles a step exactly if it is pending with its dependencies settled, and then
    closes it. -/
theorem legacyStep_cases (p : Pass V P) (s : StepConfig P) :
    (gate p.state p.resolved s ≠ .pass ∧
      (E.legacyStep p s).resolved = insert s.id p.resolved ∧
      (E.legacyStep p s).state.log.filterMap Action.closed? =
        p.state.log.filterMap Action.closed? ++ [s.id]) ∨
    (gate p.state p.resolved s = .pass ∧ E.legacyStep p s = p) := by
  unfold legacyStep
  cases gate p.state p.resolved s with
  | pass => exact Or.inr ⟨rfl, rfl⟩
  | skip => exact Or.inl ⟨by simp, rfl, closed_skip p.state s⟩
  | run => exact Or.inl ⟨by simp, rfl, closed_runStep p.state s⟩

/-! ### A pass -/

/-- What pass `k` has settled and closed of the steps `l`, when `before` were closed already. -/
structure PassAt (E : WorkflowExecutor V P) (k : ℕ) (before : List String) (l : List (StepConfig P))
    (p : Pass V P) : Prop where
  inv : E.Inv true ⟨p.state, ctlOf p.resolved⟩
  settled : ∀ s ∈ E.config.steps, s.id ∈ p.resolved ↔
    passOf E.config.steps s.id < k ∨ passOf E.config.steps s.id = k ∧ s ∈ l
  closed : p.state.log.filterMap Action.closed? =
    before ++ (l.filter fun s => passOf E.config.steps s.id = k).map StepConfig.id

section Accepted
variable (haccepted : detectCycles E.config.steps = .ok ()) {k : ℕ} {before : List String}
include haccepted

theorem PassAt.open_iff {l rest : List (StepConfig P)} {s : StepConfig P} {p : Pass V P}
    (h : E.PassAt k before l p) (hfile : E.config.steps = l ++ s :: rest) :
    gate p.state p.resolved s ≠ .pass ↔ passOf E.config.steps s.id = k := by
  have hs : s ∈ E.config.steps := by rw [hfile]; simp
  have hnotin : s ∉ l := by
    have hnodup := List.Nodup.of_map StepConfig.id E.config.uniqueStepIds
    rw [hfile, List.nodup_append] at hnodup
    exact fun hin => hnodup.2.2 s hin s List.mem_cons_self rfl
  have hpending : p.state.statuses.get s.id = some .pending ↔ k ≤ passOf E.config.steps s.id := by
    rw [h.inv.pending_iff hs rfl, h.settled s hs]
    simp only [hnotin, and_false, or_false, not_lt]
  have hready : (∀ d ∈ s.deps, d ∈ p.resolved) ↔ passOf E.config.steps s.id ≤ k := by
    rw [passOf_le_iff haccepted hs E.config.uniqueStepIds]
    refine forall₂_congr fun d hd => ?_
    have hdep : Dep E.config.steps d s.id := ⟨s, hs, rfl, hd⟩
    obtain ⟨order, horder, -⟩ := (acyclic_of_accepted haccepted).order
    obtain ⟨t, ht, rfl⟩ := List.mem_map.mp ((acyclic_of_accepted haccepted).known d s.id hdep)
    have hne : t.id ≠ s.id := fun heq => horder.wf.irrefl.irrefl s.id (heq ▸ hdep)
    rw [h.settled t ht]
    have hbelow := position_lt_iff E.config.uniqueStepIds hfile ht hne
    by_cases hin : t ∈ l
    · simp only [hin, not_true_eq_false, iff_false] at hbelow
      simp only [hin, hbelow, and_true, if_false]
      omega
    · simp only [hin, not_false_eq_true, iff_true] at hbelow
      simp only [hin, hbelow, and_false, or_false, if_true]
      omega
  rw [Ne, gate_pass_iff, not_not, hpending, hready]
  omega

/-- STEP: the next step of the file. -/
theorem PassAt.step {l rest : List (StepConfig P)} {s : StepConfig P} {p : Pass V P}
    (h : E.PassAt k before l p) (hfile : E.config.steps = l ++ s :: rest) :
    E.PassAt k before (l ++ [s]) (E.legacyStep p s) := by
  have hs : s ∈ E.config.steps := by rw [hfile]; simp
  have hinv := h.inv.follow (legacyStep_follows hs h.inv)
  have hopen := h.open_iff haccepted hfile
  rcases E.legacyStep_cases p s with ⟨hgate, hres, hclosed⟩ | ⟨hgate, hsame⟩
  · have hk := hopen.mp hgate
    refine ⟨hinv, fun t ht => ?_, ?_⟩
    · rw [hres, Finset.mem_insert, h.settled t ht, List.mem_append, List.mem_singleton]
      constructor
      · rintro (hid | hlt | ⟨heq, hin⟩)
        · obtain rfl := eq_of_id_eq ht hs hid
          exact Or.inr ⟨hk, Or.inr rfl⟩
        · exact Or.inl hlt
        · exact Or.inr ⟨heq, Or.inl hin⟩
      · rintro (hlt | ⟨heq, hin | rfl⟩)
        · exact Or.inr (Or.inl hlt)
        · exact Or.inr (Or.inr ⟨heq, hin⟩)
        · exact Or.inl rfl
    · rw [hclosed, h.closed, List.filter_append, List.map_append, List.append_assoc]
      simp [hk]
  · have hk : passOf E.config.steps s.id ≠ k := fun heq => hopen.mpr heq hgate
    rw [hsame]
    refine ⟨h.inv, fun t ht => ?_, ?_⟩
    · rw [h.settled t ht, List.mem_append, List.mem_singleton]
      refine or_congr_right (and_congr_right fun heq => ?_)
      refine ⟨Or.inl, fun hin => hin.resolve_right ?_⟩
      rintro rfl
      exact hk heq
    · rw [h.closed, List.filter_append]
      simp [hk]

/-- RUN: the rest of the file. -/
theorem PassAt.rest : ∀ {rest l : List (StepConfig P)} {p : Pass V P}, E.PassAt k before l p →
    E.config.steps = l ++ rest → E.PassAt k before E.config.steps (rest.foldl E.legacyStep p)
  | [], l, p, h, hfile => by
      rw [hfile, List.append_nil]
      exact h
  | s :: rest, l, p, h, hfile => by
      rw [List.foldl_cons]
      exact PassAt.rest (h.step haccepted hfile) (by rw [hfile]; simp)

/-! ### A run -/

omit [PyValue V] in
/-- Up to the pass of a step every pass settles some step. -/
theorem exists_passOf {s : StepConfig P} (hs : s ∈ E.config.steps) {n : ℕ}
    (hn : n ≤ passOf E.config.steps s.id) : ∃ t ∈ E.config.steps, passOf E.config.steps t.id = n := by
  obtain ⟨u, hreach, hu⟩ := (passOf_longest haccepted s.id).below hn
  have hid : u ∈ E.config.steps.map StepConfig.id := by
    rcases ReflTransGen.cases_head hreach with rfl | ⟨w, hback, -⟩
    · exact List.mem_map_of_mem hs
    · obtain ⟨d, hdep, -⟩ := TransGen.head'_iff.mp hback.transGen
      exact (acyclic_of_accepted haccepted).known u d hdep
  obtain ⟨t, ht, rfl⟩ := List.mem_map.mp hid
  exact ⟨t, ht, (passOf_longest haccepted t.id).unique hu⟩

omit [PyValue V] haccepted in
/-- What the passes of a run have done once `k` of them are over. -/
inductive OnPass (E : WorkflowExecutor V P) (k : ℕ) : Conf V P → Prop
  | loop {σ resolved}
      (settled : ∀ s ∈ E.config.steps, s.id ∈ resolved ↔ passOf E.config.steps s.id < k)
      (closed : σ.log.filterMap Action.closed? = (List.range k).flatMap (passSteps E.config.steps))
      (taken : ∀ n < k, ∃ s ∈ E.config.steps, passOf E.config.steps s.id = n) :
      OnPass E k (.loop σ resolved)
  | done {σ} (all : ∀ s ∈ E.config.steps, passOf E.config.steps s.id < k)
      (closed : σ.log.filterMap Action.closed? = (List.range k).flatMap (passSteps E.config.steps))
      (taken : ∀ n < k, ∃ s ∈ E.config.steps, passOf E.config.steps s.id = n) :
      OnPass E k (.done σ false)

/-- STEP: a move of a sequential run is a pass, or the last one. -/
theorem OnPass.turn (mode : E.parallel = false) {c c' : Conf V P} (h : E.OnPass k c)
    (hrun : E.Running c) (turn : E.Turn c c') : E.OnPass (if c'.isHead then k + 1 else k) c' := by
  have hmove := turn
  have hdead : ∀ τ, ¬ E.Turn c (.done τ true) := fun τ =>
    hrun.no_deadlock (acyclic_of_accepted haccepted)
  cases turn with
  | @finish σ resolved all =>
    cases h with
    | loop settled closed taken =>
      have hsub := hrun.loop.resolved_subset
      have hfull : resolved = (E.config.steps.map StepConfig.id).toFinset :=
        Finset.eq_of_subset_of_card_le hsub (by rw [card_ids]; exact not_lt.mp all)
      refine .done (fun s hs => (settled s hs).mp ?_) ?_ taken
      · rw [hfull]
        exact List.mem_toFinset.mpr (List.mem_map_of_mem hs)
      · rw [finishRun, act_log, List.filterMap_append, closed]
        exact List.append_nil _
  | @pass σ resolved more mode' =>
    have hI := hrun.loop
    rw [WorkflowExecutor.live, mode] at hI
    cases h with
    | loop settled closed taken =>
      have hstart : E.PassAt k ((List.range k).flatMap (passSteps E.config.steps)) []
          { state := σ, resolved := resolved } := by
        refine ⟨hI, fun s hs => ?_, ?_⟩
        · rw [settled s hs]
          simp
        · rw [closed]
          exact (List.append_nil _).symm
      have hpass := hstart.rest haccepted (List.nil_append _).symm
      obtain ⟨c', hc'⟩ : ∃ c', c' = E.endRound (E.runLegacyYamlOrder σ resolved).state
          (E.runLegacyYamlOrder σ resolved).resolved (E.runLegacyYamlOrder σ resolved).executed :=
        ⟨_, rfl⟩
      rw [← hc'] at hmove ⊢
      unfold endRound at hc'
      split_ifs at hc' with hstuck
      · rw [hc'] at hmove
        exact absurd hmove (hdead _)
      · rw [hc']
        change E.OnPass (k + 1) _
        refine .loop (fun s hs => ?_) ?_ fun n hn => ?_
        · rw [runLegacyYamlOrder, hpass.settled s hs]
          simp only [hs, and_true]
          omega
        · rw [runLegacyYamlOrder, hpass.closed, List.range_succ, List.flatMap_append]
          exact congrArg _ (List.append_nil _).symm
        · rcases Nat.lt_or_eq_of_le (Nat.le_of_lt_succ hn) with hlt | rfl
          · exact taken n hlt
          · -- some step is left for this pass
            obtain ⟨x, hx, hfree⟩ : ∃ x ∈ (E.config.steps.map StepConfig.id).toFinset,
                x ∉ resolved :=
              Finset.exists_mem_notMem_of_card_lt_card (by rw [card_ids]; exact more)
            obtain ⟨s, hs, rfl⟩ := List.mem_map.mp (List.mem_toFinset.mp hx)
            rw [settled s hs] at hfree
            exact exists_passOf haccepted hs (not_lt.mp hfree)
  | collect more mode' => rw [mode] at mode'; cases mode'
  | enter more mode' => rw [mode] at mode'; cases mode'
  | submit => cases h
  | join => cases h
  | take => cases h
  | work => cases h
  | complete => cases h

/-- RUN: pass after pass. -/
theorem AfterRounds.onPass (mode : E.parallel = false) {c : Conf V P} (h : E.AfterRounds k c) :
    E.OnPass k c := by
  induction h with
  | start => exact .loop (by simp) rfl (by simp)
  | move run step ih =>
    exact ih.turn haccepted mode (running_of_reaches run.reaches) (turn_of_step step)

/-- EXACT (passes): the passes of a sequential run, and the order in which it closes the steps, do not
    depend on the tasks. A step is closed in the pass whose number is the greatest number of edges back
    on a dependency path to it, in the order of the file; and one pass is enough exactly if the
    file lists every step below all that it needs. -/
theorem sequential_order_fixed (mode : E.parallel = false) {σ : RunState V P} {deadlock : Bool}
    (h : E.AfterRounds k (.done σ deadlock)) :
    deadlock = false ∧
    (∀ s ∈ E.config.steps, Layers.Longest
      (Layers.Back (Dep E.config.steps) (position E.config.steps)) s.id
      (passOf E.config.steps s.id)) ∧
    σ.log.filterMap Action.closed? = (List.range k).flatMap (fun n =>
      (E.config.steps.filter fun s => passOf E.config.steps s.id = n).map StepConfig.id) ∧
    (∀ n, n < k ↔ ∃ s ∈ E.config.steps, passOf E.config.steps s.id = n) ∧
    (k ≤ 1 ↔ ∀ d x, Dep E.config.steps d x →
      position E.config.steps d < position E.config.steps x) := by
  cases h.onPass haccepted mode with
  | done all closed taken =>
    refine ⟨rfl, fun s _ => passOf_longest haccepted s.id, closed, fun n => ⟨taken n, ?_⟩, ?_⟩
    · rintro ⟨s, hs, rfl⟩
      exact all s hs
    · constructor
      · rintro hk d x ⟨s, hs, rfl, hd⟩
        have hfirst : passOf E.config.steps s.id ≤ 0 := by
          have hlt := all s hs
          omega
        have hle := (passOf_le_iff haccepted hs E.config.uniqueStepIds 0).mp hfirst d hd
        have hdep : Dep E.config.steps d s.id := ⟨s, hs, rfl, hd⟩
        obtain ⟨order, horder, -⟩ := (acyclic_of_accepted haccepted).order
        have hne : position E.config.steps d ≠ position E.config.steps s.id := by
          intro heq
          have hd' := (acyclic_of_accepted haccepted).known d s.id hdep
          obtain rfl := (List.idxOf_inj hd').mp heq
          exact horder.wf.irrefl.irrefl s.id hdep
        split_ifs at hle with hbelow
        · omega
        · omega
      · intro hsorted
        by_contra hk
        obtain ⟨s, hs, hone⟩ := taken 1 (not_le.mp hk)
        obtain ⟨u, ⟨w, hdep, hback, -⟩, -⟩ := (hone ▸ passOf_longest haccepted s.id).pred
        have hlt := hsorted u w hdep
        omega

end Accepted

/-- The workflow whose second step is needed by its first, run without a thread pool. -/
def etlInOrder : WorkflowExecutor String Unit := { etl with concurrencyLimit := none }

/-- Its first pass settles the second step only. -/
theorem etl_takes_two_passes : ∃ k σ, etlInOrder.AfterRounds k (.done σ false) ∧ 1 < k := by
  obtain ⟨σ, deadlock, hrun⟩ := exists_return (E := etlInOrder) .refl
  obtain ⟨k, hk⟩ := exists_afterRounds hrun
  obtain ⟨rfl, -, -, -, htopological⟩ := sequential_order_fixed rfl rfl hk
  refine ⟨k, σ, hk, ?_⟩
  by_contra hle
  have hdep : Dep etlInOrder.config.steps "extract" "load" := ⟨_, List.mem_cons_self, rfl, by decide⟩
  exact absurd (htopological.mp (not_lt.mp hle) "extract" "load" hdep) (by decide)

end WorkflowExecutor

end WorkflowEngine
