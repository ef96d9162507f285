import WorkflowEngine.Runs.Finished
import WorkflowEngine.Dashboard.Layout

/-! The rounds of a parallel run.

    A round runs every step whose dependencies were settled before it, so round `k` takes the steps
    of column `k` of the graph that the dashboard draws. A skipped step is settled while the layer is
    still being collected; that can only bring the steps that need it forward. So a run never takes
    more rounds than its graph has columns, and as many if no step is skipped. -/

namespace WorkflowEngine
open Schemes Relation

variable {V P : Type}

/-! ### Columns -/

/-- The column in which the dashboard draws a step. -/
def WorkflowConfig.column (config : WorkflowConfig P) (id : String) : ℕ :=
  levelOf (computeLevels (buildDag config)).1 id

/-- The number of columns that the dashboard draws. -/
def WorkflowConfig.columnCount (config : WorkflowConfig P) : ℕ :=
  (sortedCols (computeLevels (buildDag config)).1 (buildDag config).nodes).length

section Columns
variable {config : WorkflowConfig P}

theorem column_longest (haccepted : detectCycles config.steps = .ok ()) (x : String) :
    Layers.Longest (Dep config.steps) x (config.column x) := by
  have hsame : (buildDag config).Joins = Dep config.steps :=
    funext₂ fun d x => propext (joins_iff config none d x)
  have hlongest := (computeLevels_settles haccepted none).2 x
  rw [hsame] at hlongest
  exact hlongest

/-- The dependencies of a step lie in the columns before its own, and one of them just before it. -/
theorem deps_below_iff (haccepted : detectCycles config.steps = .ok ()) {s : StepConfig P}
    (hs : s ∈ config.steps) {k : ℕ} :
    (∀ d ∈ s.deps, config.column d < k) ↔ config.column s.id ≤ k := by
  constructor
  · intro h
    cases hn : config.column s.id with
    | zero => exact Nat.zero_le k
    | succ n =>
      obtain ⟨d, ⟨t, ht, hid, hd⟩, hlongest⟩ := (hn ▸ column_longest haccepted s.id).pred
      obtain rfl : t = s := List.inj_on_of_nodup_map config.uniqueStepIds ht hs hid
      have hcol : config.column d = n := (column_longest haccepted d).unique hlongest
      have hlt := h d hd
      omega
  · intro h d hd
    have hlt := (column_longest haccepted d).lt (column_longest haccepted s.id) ⟨s, hs, rfl, hd⟩
    omega

theorem column_lt_count (haccepted : detectCycles config.steps = .ok ()) {s : StepConfig P}
    (hs : s ∈ config.steps) : config.column s.id < config.columnCount :=
  level_lt_length (n := s.dagNode Dict.empty)
    (fun _ hn _ hm => level_below haccepted none hn hm) (List.mem_map_of_mem hs)

theorem columnCount_le {k : ℕ} (h : ∀ s ∈ config.steps, config.column s.id < k) :
    config.columnCount ≤ k := by
  have hsub : ∀ c ∈ sortedCols (computeLevels (buildDag config)).1 (buildDag config).nodes,
      c ∈ List.range k := by
    intro c hc
    obtain ⟨n, hn, rfl⟩ := (mem_columns_keys c).mp (sortedCols_perm.mem_iff.mp hc)
    obtain ⟨s, hs, rfl⟩ := List.mem_map.mp hn
    exact List.mem_range.mpr (h s hs)
  have hle := (sortedCols_nodup.subperm hsub).length_le
  rwa [List.length_range] at hle

end Columns

namespace WorkflowExecutor

variable {E : WorkflowExecutor V P}

/-! ### Rounds -/

/-- Between two rounds. -/
def Conf.isHead : Conf V P → Bool
  | .loop _ _ => true
  | _ => false

/-- No step has been skipped so far. -/
def Unskipped (σ : RunState V P) : Prop := ∀ id, .setStatus id .skipped ∉ σ.log

theorem Unskipped.mono {σ τ : RunState V P} (h : Unskipped τ) (hlog : σ.log <+: τ.log) :
    Unskipped σ :=
  fun id hm => h id (hlog.subset hm)

variable [PyValue V]

/-- A run has come to this configuration with `k` rounds behind it. -/
inductive AfterRounds (E : WorkflowExecutor V P) : ℕ → Conf V P → Prop
  | start : AfterRounds E 0 (.loop E.start ∅)
  | move {k : ℕ} {c c' : Conf V P} (run : AfterRounds E k c) (step : E.Step c c') :
      AfterRounds E (if c'.isHead then k + 1 else k) c'

theorem AfterRounds.reaches {k : ℕ} {c : Conf V P} (h : E.AfterRounds k c) : E.Reaches c := by
  induction h with
  | start => exact .refl
  | move _ step ih => exact ih.tail step

theorem exists_afterRounds {c : Conf V P} (h : E.Reaches c) : ∃ k, E.AfterRounds k c := by
  induction h with
  | refl => exact ⟨0, .start⟩
  | tail _ step ih =>
    obtain ⟨k, hk⟩ := ih
    exact ⟨_, hk.move step⟩

/-- The records show the skipped steps. -/
theorem Inv.unskipped {m : Machine V P} {live : Bool} (h : E.Inv live m)
    (hno : ∀ id, m.state.statuses.get id ≠ some .skipped) : Unskipped m.state := by
  intro id hmem
  obtain ⟨pre, post, hlog⟩ := List.append_of_mem hmem
  obtain ⟨s, hs, rfl⟩ := (h.admissible pre _ post hlog).known id rfl
  have hown : .skipped ∈ (own s.id m.state.log).filterMap Action.status? :=
    List.mem_filterMap.mpr ⟨_, (History.mem_proj Action.owner).mpr ⟨hmem, rfl⟩, rfl⟩
  have hstage := h.stage s hs
  cases hc : m.ctl s.id with
  | idle => rw [hc] at hstage; rw [hstage] at hown; simp at hown
  | started => rw [hc] at hstage; rw [hstage] at hown; simp [startActs, Action.status?] at hown
  | working rest ok =>
    rw [hc] at hstage
    obtain ⟨context, performed, -, hrun, hlog⟩ := hstage
    have hstatus := E.runWithRetry_status s context live
    rw [hrun, List.filterMap_append] at hstatus
    rw [hlog, List.filterMap_append, List.mem_append] at hown
    rcases hown with hown | hown
    · simp [startActs, Action.status?] at hown
    · have hin := List.mem_append_left (rest.filterMap Action.status?) hown
      rw [hstatus, List.mem_singleton] at hin
      split_ifs at hin
  | done =>
    rw [hc] at hstage
    rcases hstage with hskip | ⟨context, hran⟩
    · have hview := view_of_skipped hs hskip
      rw [h.replayed] at hview
      exact hno s.id (congrArg StepView.status hview)
    · rw [hran.own, runActs_status, List.mem_pair] at hown
      rcases hown with hown | hown
      · cases hown
      · split_ifs at hown

theorem Running.unskipped {c : Conf V P} (h : E.Running c)
    (hno : ∀ id, (Conf.state c).statuses.get id ≠ some .skipped) : Unskipped (Conf.state c) := by
  obtain ⟨m, hI, hrel⟩ := h
  rcases hrel.state with he | ⟨deadlock, rfl⟩
  · rw [he] at hno ⊢
    exact hI.unskipped hno
  · intro id hm
    rw [Conf.state, finishRun, act_log, List.mem_append] at hm
    exact hI.unskipped hno id (hm.resolve_right (by simp))

/-! ### Collecting -/

/-- What a pass has, a later one has too. -/
structure Grows (p q : Pass V P) : Prop where
  resolved : p.resolved ⊆ q.resolved
  runnable : p.runnable ⊆ q.runnable
  log : p.state.log <+: q.state.log

omit [PyValue V] in
theorem Grows.refl (p : Pass V P) : Grows p p :=
  ⟨Finset.Subset.refl _, List.Subset.refl _, List.prefix_rfl⟩

omit [PyValue V] in
theorem Grows.trans {p q r : Pass V P} (h : Grows p q) (h' : Grows q r) : Grows p r :=
  ⟨Finset.Subset.trans h.resolved h'.resolved, List.Subset.trans h.runnable h'.runnable,
    h.log.trans h'.log⟩

theorem grows_collectStep (p : Pass V P) (s : StepConfig P) : Grows p (E.collectStep p s) := by
  unfold collectStep
  cases gate p.state p.resolved s with
  | pass => exact .refl p
  | skip =>
    refine ⟨Finset.subset_insert _ _, List.Subset.refl _, ?_⟩
    simp only [Pass.skip, acts_log]
    exact List.prefix_append _ _
  | run => exact ⟨Finset.Subset.refl _, List.subset_append_left _ _, List.prefix_rfl⟩

theorem grows_collect : ∀ (l : List (StepConfig P)) (p : Pass V P),
    Grows p (l.foldl E.collectStep p)
  | [], p => .refl p
  | s :: l, p => (grows_collectStep p s).trans (grows_collect l _)

theorem gate_pass_iff (σ : RunState V P) (resolved : Finset String) (s : StepConfig P) :
    gate σ resolved s = .pass ↔
      ¬ (σ.statuses.get s.id = some .pending ∧ ∀ d ∈ s.deps, d ∈ resolved) := by
  rw [gate_eq]
  by_cases hready : σ.statuses.get s.id = some .pending ∧ ∀ d ∈ s.deps, d ∈ resolved
  · rw [if_pos hready]
    refine ⟨fun h => ?_, fun h => absurd hready h⟩
    split_ifs at h
  · rw [if_neg hready]
    exact ⟨fun _ => hready, fun _ => rfl⟩

/-- A step that is ready when the collection comes to it is settled or collected. -/
theorem Collecting.ready {σ : RunState V P} {resolved : Finset String}
    (h0 : E.Inv false ⟨σ, ctlOf resolved⟩) : ∀ {rest : List (StepConfig P)} {p : Pass V P},
    E.Collecting σ resolved p rest → ∀ s ∈ rest, (∀ d ∈ s.deps, d ∈ p.resolved) →
    s.id ∈ (rest.foldl E.collectStep p).resolved ∨ s ∈ (rest.foldl E.collectStep p).runnable
  | [], _, _, _, hs, _ => absurd hs (List.not_mem_nil)
  | t :: rest, p, h, s, hs, hdeps => by
      rw [List.foldl_cons]
      have hone := grows_collectStep (E := E) p t
      have hgrows := grows_collect (E := E) rest (E.collectStep p t)
      rcases List.mem_cons.mp hs with rfl | hs
      · have hin : s ∈ E.config.steps := h.sublist.subset (by simp)
        have hinv : E.Inv false ⟨p.state, ctlOf p.resolved⟩ := h0.follow h.follows
        have hnow : s.id ∈ (E.collectStep p s).resolved ∨ s ∈ (E.collectStep p s).runnable := by
          unfold collectStep
          cases hgate : gate p.state p.resolved s with
          | skip => exact Or.inl (Finset.mem_insert_self _ _)
          | run => exact Or.inr (List.mem_append_right _ List.mem_cons_self)
          | pass =>
            left
            by_contra hno
            exact (gate_pass_iff _ _ _).mp hgate ⟨(hinv.pending_iff hin rfl).mpr hno, hdeps⟩
        exact hnow.imp (fun hm => hgrows.resolved hm) fun hm => hgrows.runnable hm
      · exact Collecting.ready h0 (h.step h0) s hs fun d hd => hone.resolved (hdeps d hd)

/-- Where no step is skipped, collecting is a filter. -/
theorem collect_unskipped : ∀ {l : List (StepConfig P)} {p : Pass V P},
    Unskipped (l.foldl E.collectStep p).state →
    (l.foldl E.collectStep p).resolved = p.resolved ∧
    (l.foldl E.collectStep p).runnable =
      p.runnable ++ l.filter (fun s => gate p.state p.resolved s = .run) ∧
    ∀ s ∈ l, gate p.state p.resolved s ≠ .skip
  | [], p, _ => ⟨rfl, by simp, by simp⟩
  | s :: l, p, h => by
      rw [List.foldl_cons] at h ⊢
      have hone : Unskipped (E.collectStep p s).state := h.mono (grows_collect l _).log
      obtain ⟨hres, hrun, hskip⟩ := collect_unskipped h
      rw [hres, hrun]
      unfold collectStep at hone hskip ⊢
      cases hgate : gate p.state p.resolved s with
      | pass =>
        rw [hgate] at hskip
        refine ⟨rfl, by simp [hgate], List.forall_mem_cons.mpr ⟨by simp [hgate], hskip⟩⟩
      | skip =>
        rw [hgate] at hone
        exact absurd (by simp [Pass.skip, skipActs]) (hone s.id)
      | run =>
        rw [hgate] at hskip
        refine ⟨rfl, by simp [hgate], List.forall_mem_cons.mpr ⟨by simp [hgate], hskip⟩⟩

omit [PyValue V] in
/-- Marking a layer RUNNING only adds to the log. -/
theorem startLayer_log : ∀ (layer : List (StepConfig P)) (σ : RunState V P),
    σ.log <+: (layer.foldl (fun σ s => E.acts σ (startActs s)) σ).log
  | [], _ => List.prefix_rfl
  | s :: layer, σ => by
      have hone : σ.log <+: (E.acts σ (startActs s)).log := by
        rw [acts_log]
        exact List.prefix_append _ _
      exact hone.trans (startLayer_log layer _)

/-! ### The schedule -/

/-- What the rounds of a run have done once `k` of them are over. -/
inductive OnSchedule (E : WorkflowExecutor V P) (k : ℕ) : Conf V P → Prop
  | loop {σ resolved}
      (settled : ∀ s ∈ E.config.steps, E.config.column s.id < k → s.id ∈ resolved)
      (only : Unskipped σ → ∀ s ∈ E.config.steps, s.id ∈ resolved → E.config.column s.id < k)
      (within : k ≤ E.config.columnCount) : OnSchedule E k (.loop σ resolved)
  | pool {σ resolved layer p}
      (later : ∀ s ∈ layer, k ≤ E.config.column s.id)
      (covered : ∀ s ∈ E.config.steps, E.config.column s.id ≤ k → s.id ∈ resolved ∨ s ∈ layer)
      (only : Unskipped σ → ∀ s ∈ E.config.steps, s.id ∈ resolved → E.config.column s.id < k)
      (column : Unskipped σ → layer = E.config.steps.filter fun s => E.config.column s.id = k)
      (within : k < E.config.columnCount) : OnSchedule E k (.pool σ resolved layer p)
  | done {σ deadlock} (returned : deadlock = false) (within : k ≤ E.config.columnCount)
      (all : Unskipped σ → k = E.config.columnCount) : OnSchedule E k (.done σ deadlock)

/-- What a round collects. -/
structure Collected (E : WorkflowExecutor V P) (k : ℕ) (c : Pass V P) : Prop where
  later : ∀ s ∈ c.runnable, k ≤ E.config.column s.id
  covered : ∀ s ∈ E.config.steps, E.config.column s.id ≤ k → s.id ∈ c.resolved ∨ s ∈ c.runnable
  only : Unskipped c.state → ∀ s ∈ E.config.steps, s.id ∈ c.resolved → E.config.column s.id < k
  column : Unskipped c.state →
    c.runnable = E.config.steps.filter fun s => E.config.column s.id = k
  within : k < E.config.columnCount

section Schedule
variable (haccepted : detectCycles E.config.steps = .ok ()) {σ : RunState V P}
  {resolved : Finset String} {k : ℕ}
include haccepted

omit [PyValue V] in
theorem deps_settled_iff (settled : ∀ s ∈ E.config.steps,
      s.id ∈ resolved ↔ E.config.column s.id < k) {s : StepConfig P} (hs : s ∈ E.config.steps) :
    (∀ d ∈ s.deps, d ∈ resolved) ↔ E.config.column s.id ≤ k := by
  rw [← deps_below_iff haccepted hs]
  refine forall₂_congr fun d hd => ?_
  obtain ⟨t, ht, rfl⟩ := List.mem_map.mp ((acyclic_of_accepted haccepted).known d s.id
    ⟨s, hs, rfl, hd⟩)
  exact settled t ht

/-- ROUND: it collects, or skips, everything up to its column. -/
theorem OnSchedule.collected (h : E.OnSchedule k (.loop σ resolved))
    (hI : E.Inv false ⟨σ, ctlOf resolved⟩) (hmore : resolved.card < E.total) :
    E.Collected k (E.collectRunnable σ resolved) := by
  obtain ⟨settled, only, -⟩ := h
  have hcollecting := collecting_start E σ resolved
  have hspec := collectRunnable_spec hI
  have hgrows := grows_collect (E := E) E.config.steps { state := σ, resolved := resolved }
  have hready : ∀ s ∈ E.config.steps, E.config.column s.id ≤ k → ∀ d ∈ s.deps, d ∈ resolved := by
    intro s hs hle d hd
    obtain ⟨t, ht, rfl⟩ := List.mem_map.mp ((acyclic_of_accepted haccepted).known d s.id
      ⟨s, hs, rfl, hd⟩)
    exact settled t ht ((deps_below_iff haccepted hs).mpr hle t.id hd)
  refine ⟨fun s hs => ?_, fun s hs hle => hcollecting.ready hI s hs (hready s hs hle),
    fun hno s hs hin => ?_, fun hno => ?_, ?_⟩
  · by_contra hlt
    have hmem := settled s (hspec.layer.mem s hs) (not_le.mp hlt)
    exact hspec.layer.idle s hs (hgrows.resolved hmem)
  · rw [collectRunnable, (collect_unskipped hno).1] at hin
    exact only (hno.mono hgrows.log) s hs hin
  · obtain ⟨-, hrun, hskip⟩ := collect_unskipped hno
    have hiff : ∀ s ∈ E.config.steps, s.id ∈ resolved ↔ E.config.column s.id < k :=
      fun s hs => ⟨only (hno.mono hgrows.log) s hs, settled s hs⟩
    rw [collectRunnable, hrun, List.nil_append]
    refine List.filter_congr fun s hs => decide_eq_decide.mpr ?_
    have hopen : gate σ resolved s = .run ↔ gate σ resolved s ≠ .pass := by
      cases hgate : gate σ resolved s with
      | pass => simp
      | skip => exact absurd hgate (hskip s hs)
      | run => simp
    rw [hopen, Ne, gate_pass_iff, not_not, hI.pending_iff hs rfl, hiff s hs,
      deps_settled_iff haccepted hiff hs]
    omega
  · -- an unsettled step stands in a column that is still to come
    obtain ⟨x, hx, hfree⟩ : ∃ x ∈ (E.config.steps.map StepConfig.id).toFinset, x ∉ resolved :=
      Finset.exists_mem_notMem_of_card_lt_card (by rw [card_ids]; exact hmore)
    obtain ⟨s, hs, rfl⟩ := List.mem_map.mp (List.mem_toFinset.mp hx)
    have hle : k ≤ E.config.column s.id := by
      by_contra hlt
      exact hfree (settled s hs (not_le.mp hlt))
    exact hle.trans_lt (column_lt_count haccepted hs)

/-- STEP: a move keeps to the schedule. -/
theorem OnSchedule.turn (mode : E.parallel = true) {c c' : Conf V P} (h : E.OnSchedule k c)
    (hrun : E.Running c) (step : E.Step c c') :
    E.OnSchedule (if c'.isHead then k + 1 else k) c' := by
  have hlog := hrun.step_log step
  have hturn := turn_of_step step
  have hmove := hturn
  have hdead : ∀ τ, ¬ E.Turn c (.done τ true) := fun τ =>
    hrun.no_deadlock (acyclic_of_accepted haccepted)
  cases hturn with
  | @finish σ resolved all =>
    obtain ⟨settled, only, within⟩ := h
    refine .done rfl within fun hno => within.antisymm (columnCount_le fun s hs => ?_)
    have hsub := hrun.loop.resolved_subset
    have hfull : resolved = (E.config.steps.map StepConfig.id).toFinset :=
      Finset.eq_of_subset_of_card_le hsub (by rw [card_ids]; exact not_lt.mp all)
    refine only (hno.mono hlog) s hs ?_
    rw [hfull]
    exact List.mem_toFinset.mpr (List.mem_map_of_mem hs)
  | pass more mode' => rw [mode] at mode'; cases mode'
  | @collect σ resolved more mode none =>
    have hI := hrun.loop
    rw [WorkflowExecutor.live, mode] at hI
    have hc := h.collected haccepted hI more
    obtain ⟨c', hc'⟩ : ∃ c', c' = E.endRound (E.collectRunnable σ resolved).state
        (E.collectRunnable σ resolved).resolved (E.collectRunnable σ resolved).executed := ⟨_, rfl⟩
    rw [← hc'] at hmove ⊢
    unfold endRound at hc'
    split_ifs at hc' with hstuck
    · rw [hc'] at hmove
      exact absurd hmove (hdead _)
    · rw [hc']
      refine .loop (fun s hs hlt => ?_) (fun hno s hs hin => ?_) hc.within
      · exact (hc.covered s hs (Nat.le_of_lt_succ hlt)).resolve_right (by simp [none])
      · exact (hc.only hno s hs hin).trans (Nat.lt_succ_self k)
  | @enter σ resolved more mode some =>
    have hI := hrun.loop
    rw [WorkflowExecutor.live, mode] at hI
    have hc := h.collected haccepted hI more
    have hstarted := startLayer_log (E := E) (E.collectRunnable σ resolved).runnable
      (E.collectRunnable σ resolved).state
    exact .pool hc.later hc.covered (fun hno => hc.only (hno.mono hstarted))
      (fun hno => hc.column (hno.mono hstarted)) hc.within
  | submit next =>
    cases h with
    | pool later covered only column within => exact .pool later covered only column within
  | @join σ resolved layer p submitted queue busy =>
    cases h with
    | pool later covered only column within =>
      refine .loop (fun s hs hlt => ?_) (fun hno s hs hin => ?_) within
      · rcases covered s hs (Nat.le_of_lt_succ hlt) with hin | hin
        · exact Finset.mem_union_left _ hin
        · exact Finset.mem_union_right _ (List.mem_toFinset.mpr (List.mem_map_of_mem hin))
      · rcases Finset.mem_union.mp hin with hin | hin
        · exact (only (hno.mono hlog) s hs hin).trans (Nat.lt_succ_self k)
        · obtain ⟨t, ht, hid⟩ := List.mem_map.mp (List.mem_toFinset.mp hin)
          rw [column (hno.mono hlog), List.mem_filter, decide_eq_true_eq] at ht
          rw [← hid, ht.2]
          exact Nat.lt_succ_self k
  | take next room =>
    cases h with
    | pool later covered only column within => exact .pool later covered only column within
  | work worker acts =>
    cases h with
    | pool later covered only column within =>
      exact .pool later covered (fun hno => only (hno.mono hlog))
        (fun hno => column (hno.mono hlog)) within
  | complete worker acts =>
    cases h with
    | pool later covered only column within => exact .pool later covered only column within

/-- RUN: every interleaving of the threads keeps to the schedule. -/
theorem AfterRounds.onSchedule (mode : E.parallel = true) {c : Conf V P} (h : E.AfterRounds k c) :
    E.OnSchedule k c := by
  induction h with
  | start =>
    refine .loop (by simp) (fun _ s _ hin => ?_) (Nat.zero_le _)
    exact absurd hin (Finset.notMem_empty _)
  | move run step ih => exact ih.turn haccepted mode (running_of_reaches run.reaches) step

/-- EXACT (rounds): a parallel run ends, after no more rounds than its graph has columns. Round `k`
    leaves no step up to column `k` behind and starts none before its column; and as long as no step
    has been skipped it runs column `k`, row by row, so that a run without skips takes a round for
    every column. -/
theorem rounds_are_columns (mode : E.parallel = true) {c : Conf V P} (h : E.AfterRounds k c) :
    Acc (fun c' c => E.Step c c') c ∧ ((∃ c', E.Step c c') ∨ ∃ σ, c = .done σ false) ∧
    k ≤ E.config.columnCount ∧
    (∀ σ resolved layer p, c = .pool σ resolved layer p →
      (∀ s ∈ layer, k ≤ E.config.column s.id) ∧
      (∀ s ∈ E.config.steps, E.config.column s.id ≤ k → s.id ∈ resolved ∨ s ∈ layer) ∧
      ((∀ id, σ.statuses.get id ≠ some .skipped) → layer.map StepConfig.id =
        (inColumn (computeLevels (buildDag E.config)).1 (buildDag E.config).nodes k).map
          DagNode.id)) ∧
    (∀ σ deadlock, c = .done σ deadlock → deadlock = false ∧
      ((∀ id, σ.statuses.get id ≠ some .skipped) → k = E.config.columnCount)) := by
  have hrunning := running_of_reaches h.reaches
  refine ⟨acc_of_reaches h.reaches, ?_, ?_⟩
  · refine hrunning.progress.imp_right ?_
    rintro ⟨σ, deadlock, rfl⟩
    obtain rfl := not_deadlock (acyclic_of_accepted haccepted) h.reaches
    exact ⟨σ, rfl⟩
  cases h.onSchedule haccepted mode with
  | loop settled only within =>
    exact ⟨within, (fun _ _ _ _ hc => absurd hc (by simp)), (fun _ _ hc => absurd hc (by simp))⟩
  | pool later covered only column within =>
    refine ⟨within.le, fun σ resolved layer p hc => ?_, (fun _ _ hc => absurd hc (by simp))⟩
    obtain ⟨rfl, rfl, rfl, rfl⟩ := Conf.pool.inj hc
    refine ⟨later, covered, fun hno => ?_⟩
    rw [column (hrunning.unskipped hno), inColumn, buildDag, List.filter_map, List.map_map]
    rfl
  | done returned within all =>
    refine ⟨within, (fun _ _ _ _ hc => absurd hc (by simp)), fun σ deadlock hc => ?_⟩
    obtain ⟨rfl, rfl⟩ := Conf.done.inj hc
    exact ⟨returned, fun hno => all (hrunning.unskipped hno)⟩

end Schedule

/-- The first round runs `extract`, and the second has begun. -/
def secondRound : List Move :=
  [.main, .main, .start] ++ List.replicate 5 (.work 0) ++ [.main, .main]

/-- A pool that runs `load`, where nothing was skipped. -/
def Conf.isLoading : Conf String Unit → Bool
  | .pool σ _ layer _ =>
    decide (layer.map StepConfig.id = ["load"] ∧ .skipped ∉ σ.statuses.values)
  | _ => false

theorem etl_columns : etl.config.column "extract" = 0 ∧ etl.config.column "load" = 1 := by
  have hacc : detectCycles etl.config.steps = .ok () := rfl
  obtain ⟨load, hload, hid, hdeps⟩ :
      ∃ s ∈ etl.config.steps, s.id = "load" ∧ s.deps = ["extract"] :=
    ⟨_, List.mem_cons_self, rfl, rfl⟩
  obtain ⟨extract, hextract, hid', hdeps'⟩ :
      ∃ s ∈ etl.config.steps, s.id = "extract" ∧ s.deps = [] :=
    ⟨_, List.mem_cons_of_mem _ List.mem_cons_self, rfl, rfl⟩
  have hfirst : etl.config.column "extract" ≤ 0 := by
    rw [← hid', ← deps_below_iff hacc hextract, hdeps']
    exact fun d hd => absurd hd List.not_mem_nil
  have hsecond : ∀ k, etl.config.column "load" ≤ k ↔ etl.config.column "extract" < k := by
    intro k
    rw [← hid, ← deps_below_iff hacc hload, hdeps]
    exact List.forall_mem_singleton
  have hzero := Nat.le_zero.mp hfirst
  rw [hzero] at hsecond
  exact ⟨hzero, le_antisymm ((hsecond 1).mpr Nat.one_pos)
    (Nat.pos_of_ne_zero fun h0 => absurd ((hsecond 0).mp h0.le) (Nat.lt_irrefl 0))⟩

theorem etl_rounds : ∃ σ resolved layer p, etl.AfterRounds 1 (.pool σ resolved layer p) ∧
    layer.map StepConfig.id = ["load"] ∧
    ∀ s ∈ etl.config.steps, etl.config.column s.id ≤ 1 → s.id ∈ resolved ∨ s ∈ layer := by
  obtain ⟨c, hc, hloading⟩ := (Option.any_eq_true Conf.isLoading _).mp
    (by decide +kernel : (etl.runMoves secondRound (.loop etl.start ∅)).any Conf.isLoading = true)
  obtain ⟨k, hk⟩ := exists_afterRounds (Run.reaches_of_moves (fun _ _ _ h => ⟨_, h⟩) hc)
  cases c with
  | loop | done => exact absurd hloading (by simp [Conf.isLoading])
  | pool σ resolved layer p =>
    obtain ⟨hload, hskipped⟩ := of_decide_eq_true hloading
    obtain ⟨-, -, hle, hpool, -⟩ := rounds_are_columns (E := etl) rfl rfl hk
    obtain ⟨-, hcovered, hcolumn⟩ := hpool σ resolved layer p rfl
    have hrow := hcolumn fun id hid => hskipped ((Dict.mem_values_iff _ _).mpr ⟨id, hid⟩)
    have hmem : "load" ∈ (inColumn (computeLevels (buildDag etl.config)).1
        (buildDag etl.config).nodes k).map DagNode.id := by
      rw [← hrow, hload]
      exact List.mem_singleton_self _
    obtain ⟨n, hn, hid⟩ := List.mem_map.mp hmem
    have hk' : etl.config.column "load" = k := hid ▸ of_decide_eq_true (List.mem_filter.mp hn).2
    obtain rfl : 1 = k := etl_columns.2.symm.trans hk'
    exact ⟨σ, resolved, layer, p, hk, hload, hcovered⟩

end WorkflowExecutor

end WorkflowEngine
