import WorkflowEngine.Machine.Precedence
import WorkflowEngine.Runs.Completion

/-! The log of a returned run.

    `Ended` is what later modules use of it: the log is in order, every step is closed in it, and the
    records are those of the log. Every configuration of a run is a moment of a returned one, so a
    statement about all prefixes of these logs is one about all configurations. -/

namespace WorkflowEngine
open Schemes Relation

variable {V P : Type}

namespace WorkflowExecutor

variable {E : WorkflowExecutor V P} {live : Bool} {m : Machine V P}

/-- The records of a configuration: the machine's, with the last event once the run has returned. -/
theorem Refines.state {c : Conf V P} (h : E.Refines c m) :
    Conf.state c = m.state ∨ ∃ deadlock, c = .done (E.finishRun m.state) deadlock := by
  cases h with
  | loop => exact Or.inl rfl
  | pool mode pooled => exact Or.inl rfl
  | done all => exact Or.inr ⟨_, rfl⟩

theorem Refines.log {c : Conf V P} (h : E.Refines c m) : m.state.log <+: (Conf.state c).log := by
  rcases h.state with he | ⟨deadlock, rfl⟩
  · rw [he]
  · exact List.prefix_append _ _

variable [PyValue V]

/-! ### The log of a run in which every step is closed -/

/-- What a returned run leaves: its log is in order and every step is closed in it. -/
structure Ended (E : WorkflowExecutor V P) (live : Bool) (log : List (Action V P)) : Prop where
  ordered : History.Each E.Admissible log
  closed : ∀ s ∈ E.config.steps, E.Closed live log s ((E.replay log).view s.id)
  emitted : ∀ s ∈ E.config.steps, .emit s.id ∈ log
  unknown : ∀ id, (∀ s ∈ E.config.steps, s.id ≠ id) → own id log = []

theorem ended_of_closed (h : E.Inv live m) (hall : ∀ s ∈ E.config.steps, m.ctl s.id = .done) :
    E.Ended live m.state.log where
  ordered := h.admissible
  closed s hs := by rw [h.replayed]; exact h.closed hs (hall s hs)
  emitted s hs := h.emit_mem (hall s hs)
  unknown id hid := h.own_unknown hid

theorem Ended.concat {log : List (Action V P)} (h : E.Ended live log) {a : Action V P}
    (ha : a.owner = none) : E.Ended live (log ++ [a]) where
  ordered := h.ordered.concat ⟨by simp [ha], by simp [ha]⟩
  closed s hs := by
    have hown : own s.id (log ++ [a]) = own s.id log := own_frame (by simp [ha]) log
    have hview : (E.replay (log ++ [a])).view s.id = (E.replay log).view s.id := by
      rw [replay_concat, view_act_frame _ _ _ _ (by simp [ha])]
    rw [hview]
    cases h.closed s hs with
    | skipped hlog hw => exact .skipped (hown.trans hlog) hw
    | ran context hran hw =>
      exact .ran context ⟨hran.snapshot.mono E (List.prefix_append _ _), hown.trans hran.own⟩ hw
  emitted s hs := List.mem_append_left _ (h.emitted s hs)
  unknown id hid := (own_frame (by simp [ha]) log).trans (h.unknown id hid)

/-- A returned run has ended, and its records are those of its log. -/
theorem ended_of_finishes {σ : RunState V P} (hdag : Acyclic E.config.steps)
    (h : E.Finishes σ) : E.Ended E.live σ.log ∧ E.replay σ.log = σ := by
  obtain ⟨m, hm, hall, rfl⟩ := closed_of_finishes hdag h
  have hI := inv_of_mreaches hm
  refine ⟨(ended_of_closed hI hall).concat rfl, ?_⟩
  rw [finishRun, act_log, replay_concat, hI.replayed]

/-! ### The first action of a step -/

/-- How a step was picked. -/
inductive Picked (E : WorkflowExecutor V P) (live : Bool) (log pre : List (Action V P))
    (s : StepConfig P) : Prop
  | run (context : Context V) (holds : WorkflowExecutor.holds s (E.replay pre).results.get = true)
      (ran : E.Ran live log s context)
  | skip (fails : WorkflowExecutor.holds s (E.replay pre).results.get = false)
      (skipped : Skipped log s)

/-- The first action of a step decides what becomes of it. -/
theorem Ended.picked {log pre post : List (Action V P)} {a : Action V P} {s : StepConfig P}
    (h : E.Ended live log) (hs : s ∈ E.config.steps) (he : log = pre ++ a :: post)
    (ha : a.owner = some s.id) (hpre : own s.id pre = []) : E.Picked live log pre s := by
  have hset := ((h.ordered pre a post he).step s hs ha).first hpre
  have hhead : (own s.id log).head? = some a := by
    rw [he, own_append, hpre, own_cons_self ha]; rfl
  cases hh : WorkflowExecutor.holds s (E.replay pre).results.get with
  | true =>
    rw [hh, if_pos rfl] at hset
    cases h.closed s hs with
    | skipped hlog _ => rw [hlog, hset] at hhead; simp [skipActs] at hhead
    | ran context hran _ => exact .run context hh hran
  | false =>
    rw [hh, if_neg (by simp)] at hset
    cases h.closed s hs with
    | skipped hlog _ => exact .skip hh hlog
    | ran context hran _ => rw [hran.own, hset] at hhead; simp [runActs, startActs] at hhead

/-! ### Every configuration is a moment of a returned run -/

theorem mstep_log {m m' : Machine V P} (h : E.MStep live m m') : m.state.log <+: m'.state.log := by
  cases h with
  | skip | start | close => rw [acts_log]; exact List.prefix_append _ _
  | submit => exact List.prefix_rfl
  | work => exact List.prefix_append _ _

/-- The records of every configuration are those of its log. -/
theorem Running.replayed {c : Conf V P} (h : E.Running c) :
    E.replay (Conf.state c).log = Conf.state c := by
  obtain ⟨m, hI, hrel⟩ := h
  rcases hrel.state with he | ⟨deadlock, rfl⟩
  · rw [he, hI.replayed]
  · rw [Conf.state, finishRun, act_log, replay_concat, hI.replayed]

/-- A move only adds to the log. -/
theorem Running.step_log {c c' : Conf V P} (h : E.Running c) (step : E.Step c c') :
    (Conf.state c).log <+: (Conf.state c').log := by
  obtain ⟨m, hI, hrel⟩ := h
  obtain ⟨m', hrun, hrel'⟩ := hrel.turn hI (turn_of_step step)
  have hlog : m.state.log <+: m'.state.log :=
    Run.invariant (I := fun m' => m.state.log <+: m'.state.log)
      (fun _ _ hp hstep => hp.trans (mstep_log hstep)) List.prefix_rfl hrun
  rcases hrel.state with he | ⟨deadlock, rfl⟩
  · rw [he]; exact hlog.trans hrel'.log
  · obtain ⟨move, hmove⟩ := step
    cases move <;> simp [next] at hmove

/-- TERMINATION: there is no infinite run from a reached configuration. -/
theorem acc_of_reaches {c : Conf V P} (h : E.Reaches c) : Acc (fun c' c => E.Step c c') c := by
  refine Run.invariant (I := fun c => Acc (fun c' c => E.Step c c') c) ?_ acc_start h
  exact fun a b hacc step => hacc.inv step

/-- Every run can be continued to one that returns. -/
theorem exists_return {c : Conf V P} (h : E.Reaches c) :
    ∃ σ deadlock, ReflTransGen E.Step c (.done σ deadlock) := by
  have hkeep : ∀ a b : Conf V P, E.Reaches a → E.Step a b → E.Reaches b :=
    fun _ _ ha step => ha.tail step
  obtain ⟨d, hrun, σ, deadlock, rfl⟩ := Run.reaches_final hkeep
    (F := fun d => ∃ σ deadlock, d = .done σ deadlock)
    (fun a ha => (running_of_reaches ha).progress.symm) h (acc_of_reaches h)
  exact ⟨σ, deadlock, hrun⟩

/-- A run only adds to the log. -/
theorem log_prefix {c d : Conf V P} (h : E.Reaches c) (run : ReflTransGen E.Step c d) :
    (Conf.state c).log <+: (Conf.state d).log := by
  have hkeep : ∀ a b : Conf V P, (E.Reaches a ∧ (Conf.state c).log <+: (Conf.state a).log) →
      E.Step a b → E.Reaches b ∧ (Conf.state c).log <+: (Conf.state b).log := by
    rintro a b ⟨ha, hp⟩ step
    exact ⟨ha.tail step, hp.trans ((running_of_reaches ha).step_log step)⟩
  exact (Run.invariant hkeep ⟨h, List.prefix_rfl⟩ run).2

/-- Every run can be continued to one that returns, and only adds to the log on the way. -/
theorem exists_finish {c : Conf V P} (h : E.Reaches c) :
    ∃ σ, E.Finishes σ ∧ (Conf.state c).log <+: σ.log := by
  obtain ⟨σ, deadlock, hrun⟩ := exists_return h
  exact ⟨σ, ⟨deadlock, ReflTransGen.trans h hrun⟩, log_prefix h hrun⟩

end WorkflowExecutor

end WorkflowEngine
