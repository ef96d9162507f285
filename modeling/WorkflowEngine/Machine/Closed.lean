import WorkflowEngine.Machine.Refinement

/-! What a finished run says about its steps.

    Every step is closed, so its own actions are those of a skip or of a whole retry loop, and its
    records are the view that these actions leave. The records of an unknown id stay empty. -/

namespace WorkflowEngine
open Schemes

variable {V P : Type}

/-- A status that a step does not leave. -/
def Status.Terminal (status : Status) : Prop :=
  status = .completed ∨ status = .failed ∨ status = .skipped

namespace WorkflowExecutor

variable {E : WorkflowExecutor V P}

theorem finishRun_view (σ : RunState V P) (id : String) :
    (E.finishRun σ).view id = σ.view id :=
  E.view_act_frame σ _ id (by simp [Action.owner])

/-- How a step ended. -/
inductive Closed (E : WorkflowExecutor V P) [PyValue V] (live : Bool) (log : List (Action V P))
    (s : StepConfig P) (w : StepView V P) : Prop
  | skipped (log : Skipped log s) (view : w = skippedView E s)
  | ran (context : Context V) (ran : E.Ran live log s context)
      (view : w = ranView E s (E.ending s context))

variable [PyValue V] {live : Bool} {m : Machine V P}

theorem Inv.closed (h : E.Inv live m) {s : StepConfig P} (hs : s ∈ E.config.steps)
    (hd : m.ctl s.id = .done) : E.Closed live m.state.log s (m.state.view s.id) := by
  have hstage := h.stage s hs
  rw [hd] at hstage
  rw [← h.replayed, E.replay_log]
  rcases hstage with hskip | ⟨context, hran⟩
  · exact .skipped hskip (view_of_skipped hs hskip)
  · exact .ran context hran (view_of_ran hs hran)

/-- An id that is no step's has no actions. -/
theorem Inv.own_unknown (h : E.Inv live m) {id : String} (hid : ∀ s ∈ E.config.steps, s.id ≠ id) :
    own id m.state.log = [] := by
  refine History.proj_eq_nil Action.owner fun a ha ho => ?_
  obtain ⟨pre, post, hlog⟩ := List.append_of_mem ha
  obtain ⟨s, hs, hid'⟩ := (h.admissible pre a post hlog).known id ho
  exact hid s hs hid'

/-- The records of an id that is no step's are those of `__init__`. -/
theorem Inv.view_unknown (h : E.Inv live m) {id : String} (hid : ∀ s ∈ E.config.steps, s.id ≠ id) :
    m.state.view id = E.init.view id := by
  rw [← h.replayed, replay, view_acts, h.own_unknown hid]; rfl

theorem Inv.known_of_status (h : E.Inv live m) {id : String} {status : Status}
    (hst : m.state.statuses.get id = some status) : ∃ s ∈ E.config.steps, s.id = id := by
  by_contra hno
  push Not at hno
  have hview := h.view_unknown hno
  have hnone : E.init.statuses.get id = none := by
    have hid : id ∉ E.config.steps.map StepConfig.id := by
      rintro hm
      obtain ⟨s, hs, rfl⟩ := List.mem_map.mp hm
      exact hno s hs rfl
    rw [init, Dict.get_ofList_map, if_neg hid]
  have : m.state.statuses.get id = E.init.statuses.get id := congrArg StepView.status hview
  rw [hst, hnone] at this
  cases this

theorem Closed.status {log : List (Action V P)} {s : StepConfig P} {w : StepView V P}
    (h : E.Closed live log s w) : ∃ status, w.status = some status ∧ status.Terminal := by
  cases h with
  | skipped _ hview => rw [hview]; exact ⟨.skipped, rfl, Or.inr (Or.inr rfl)⟩
  | ran context _ hview =>
    rw [hview, ranView_status]
    refine ⟨_, rfl, ?_⟩
    cases (E.ending s context).succeeded
    · exact Or.inr (Or.inl rfl)
    · exact Or.inl rfl

/-- When every step is closed, `overall_status` is failed or completed. -/
theorem overallStatus_of_closed (h : E.Inv live m)
    (hall : ∀ s ∈ E.config.steps, m.ctl s.id = .done) :
    m.state.overallStatus = .failed ∨ m.state.overallStatus = .completed := by
  have hterm : ∀ st ∈ m.state.statuses.values, st.Terminal := by
    intro st hst
    obtain ⟨id, hid⟩ := (Dict.mem_values_iff _ st).mp hst
    obtain ⟨s, hs, rfl⟩ := h.known_of_status hid
    obtain ⟨status, hstatus, hterminal⟩ := (h.closed hs (hall s hs)).status
    obtain rfl : st = status := Option.some.inj (hid.symm.trans hstatus)
    exact hterminal
  unfold RunState.overallStatus
  split_ifs with hfailed hok
  · exact Or.inl rfl
  · exact Or.inr rfl
  · refine absurd (fun st hst => ?_) hok
    rcases hterm st hst with rfl | rfl | rfl
    · exact Or.inl rfl
    · exact absurd hst hfailed
    · exact Or.inr rfl

end WorkflowExecutor

end WorkflowEngine
