import WorkflowEngine.Engine.Acceptance
import WorkflowEngine.Machine.Closed

/-! Precedence in the log of a run.

    Every action of a step comes after the hooks of its dependencies, hence after the hooks of all
    its ancestors; and a hook is the last action of its step. So whatever the log does to a step
    once that step has called its hook is nothing, and its records stay as they are. -/

namespace WorkflowEngine
open Schemes Relation

variable {V P : Type}

namespace WorkflowExecutor

variable {E : WorkflowExecutor V P} {log pre post : List (Action V P)}

/-! ### Status and result along the log -/

/-- A field that some actions set shows what the last of them has set. -/
theorem foldl_latest {β : Type} {field : StepView V P → Option β} {f : Action V P → Option β}
    (hact : ∀ w a, field (StepView.act E w a) = (f a).or (field w)) (as : List (Action V P))
    (w : StepView V P) :
    field (as.foldl (StepView.act E) w) = (as.filterMap f).getLast?.or (field w) := by
  induction as using List.reverseRecOn with
  | nil => simp
  | append_singleton as a ih =>
    rw [List.foldl_append, List.foldl_cons, List.foldl_nil, hact, ih, List.filterMap_append]
    cases hf : f a <;> simp [hf]

theorem foldl_status (as : List (Action V P)) (w : StepView V P) :
    (as.foldl (StepView.act E) w).status = (as.filterMap Action.status?).getLast?.or w.status :=
  foldl_latest (fun _ a => by cases a <;> rfl) as w

theorem foldl_result (as : List (Action V P)) (w : StepView V P) :
    (as.foldl (StepView.act E) w).result = (as.filterMap Action.written?).getLast?.or w.result :=
  foldl_latest (fun _ a => by cases a <;> rfl) as w

theorem closingOf_status (live : Bool) (s : StepConfig P) (o : Ending V P) :
    (closingOf live s o).filterMap Action.status? = [] := by
  cases live <;> cases ho : o.succeeded <;>
    simp [closingOf, retryActs, finishActs, Action.status?, ho, List.filterMap_cons]

theorem closingOf_written (live : Bool) (s : StepConfig P) (o : Ending V P) :
    (closingOf live s o).filterMap Action.written? = [] := by
  cases live <;> cases ho : o.succeeded <;>
    simp [closingOf, retryActs, finishActs, Action.written?, ho, List.filterMap_cons]

/-- The hook of a step has been called only if the step has acted. -/
theorem own_ne_nil_of_emit {d : String} (hemit : .emit d ∈ pre) : own d pre ≠ [] :=
  List.ne_nil_of_mem ((History.mem_proj Action.owner).mpr ⟨hemit, rfl⟩)

/-! ### Ancestors and hooks -/

/-- `d` is a transitive dependency of `x`. -/
def Ancestor (E : WorkflowExecutor V P) (d x : String) : Prop := TransGen (Dep E.config.steps) d x

theorem wf_ancestor (hdag : Acyclic E.config.steps) : WellFounded E.Ancestor := by
  obtain ⟨-, order, ho, -⟩ := hdag
  exact ho.transGen_wf

variable [PyValue V]

/-- Before an action of a step, all its ancestors have called their hooks. -/
theorem ancestor_emitted (hlog : History.Each E.Admissible log) {d x : String}
    (hanc : E.Ancestor d x) : ∀ {pre a post}, log = pre ++ a :: post → a.owner = some x →
    .emit d ∈ pre := by
  have hdep : ∀ {y z : String}, Dep E.config.steps y z → ∀ {pre a post},
      log = pre ++ a :: post → a.owner = some z → .emit y ∈ pre := by
    rintro y z ⟨s, hs, rfl, hy⟩ pre a post he ha
    exact ((hlog pre a post he).step s hs ha).deps y hy
  induction hanc with
  | single h => exact hdep h
  | @tail y z _ h ih =>
    intro pre a post he ha
    obtain ⟨u, v, rfl⟩ := List.append_of_mem (hdep h he ha)
    have hcut : log = u ++ .emit y :: (v ++ a :: post) := by rw [he]; simp
    have hu : .emit d ∈ u := ih hcut rfl
    exact List.mem_append_left _ hu

/-- A step that has acted has all its ancestors closed. -/
theorem ancestor_emitted_of_own (hlog : History.Each E.Admissible log) {d x : String}
    (hanc : E.Ancestor d x) (he : log = pre ++ post) (hown : own x pre ≠ []) : .emit d ∈ pre := by
  obtain ⟨u, a, v, hpre, ha, -⟩ := History.exists_first Action.owner hown
  have hcut : log = u ++ a :: (v ++ post) := by rw [he, hpre]; simp
  have hu : .emit d ∈ u := ancestor_emitted hlog hanc hcut ha
  rw [hpre]; exact List.mem_append_left _ hu

/-- After its hook a step does not act any more. -/
theorem own_eq_nil_of_emit (hlog : History.Each E.Admissible log) (he : log = pre ++ post)
    {d : String} (hemit : .emit d ∈ pre) : own d post = [] := by
  refine History.proj_eq_nil Action.owner fun a ha ho => ?_
  obtain ⟨u, v, rfl⟩ := List.append_of_mem ha
  have hadm := hlog (pre ++ u) a v (by rw [he]; simp)
  obtain ⟨s, hs, rfl⟩ := hadm.known d ho
  exact (hadm.step s hs ho).isOpen (List.mem_append_left _ hemit)

/-- FINAL: once a step has called its hook its records do not change. -/
theorem view_eq_of_emit (hlog : History.Each E.Admissible log) (he : log = pre ++ post)
    {d : String} (hemit : .emit d ∈ pre) : (E.replay pre).view d = (E.replay log).view d := by
  rw [he, replay_append, view_acts, own_eq_nil_of_emit hlog he hemit]; rfl

/-! ### The actions of a step that ran -/

/-- The statuses that a closed step went through after PENDING. -/
theorem runActs_status (live : Bool) (s : StepConfig P) (context : Context V) :
    (E.runActs live s context).filterMap Action.status? =
      [.running, if (E.ending s context).succeeded then .completed else .failed] := by
  rw [runActs, List.filterMap_append, List.filterMap_append, runWithRetry_status, closingOf_status]
  rfl

/-- A step that ran has written its value, once, if it ended with one. -/
theorem runActs_written (live : Bool) (s : StepConfig P) (context : Context V) :
    (E.runActs live s context).filterMap Action.written? =
      (E.ending s context).value.toOption.toList := by
  rw [runActs, List.filterMap_append, List.filterMap_append, runWithRetry_written,
    closingOf_written]
  simp [startActs, Action.written?, List.filterMap_cons]

end WorkflowExecutor

end WorkflowEngine
