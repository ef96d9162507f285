import WorkflowEngine.Engine.RetryLoop
import WorkflowEngine.Schemes.Run

/-! The workflow machine: what a scheduler of steps may do.

    Each step is idle, started, at work, or done. An idle step whose dependencies are all done is
    skipped or started, as its condition says; a started step is submitted with a snapshot of the
    results; a step at work performs the actions of its retry loop one by one and is then closed.
    Nothing is said about which step moves next, so both scheduling modes are runs of this machine.
    `Inv` ties the control points to the log: a step's own actions are those that its control point
    calls for, and every action is admissible after the actions before it. -/

namespace WorkflowEngine
open Schemes

variable {V P : Type}

/-- The control point of a step. -/
inductive Ctl (V P : Type) where
  | idle
  | started
  | working (rest : List (Action V P)) (succeeded : Bool)
  | done

structure Machine (V P : Type) where
  state : RunState V P
  ctl : String → Ctl V P

namespace WorkflowExecutor

/-! ### The blocks of a step's actions -/

section Blocks
variable (live : Bool)

/-- The actions that close a step, read off the records: parallel mode first reconstructs the retry
    events that sequential mode has emitted live. -/
def closing (s : StepConfig P) (succeeded : Bool) (σ : RunState V P) : List (Action V P) :=
  (if live then [] else retryActs s (min (σ.retryCount s.id) s.retries)) ++
    finishActs s succeeded (σ.attemptCount s.id)

/-- The closing actions after a loop that ended with `o`. -/
def closingOf (s : StepConfig P) (o : Ending V P) : List (Action V P) :=
  (if live then [] else retryActs s (o.attempts - 1)) ++ finishActs s o.succeeded o.attempts

/-- The view of a step that has started. -/
def startedView : StepView V P := { freshView with status := some .running }

theorem owner_skipActs (s : StepConfig P) :
    ∀ a ∈ (skipActs s : List (Action V P)), a.owner = some s.id := by
  simp [skipActs, Action.owner]

theorem owner_startActs (s : StepConfig P) :
    ∀ a ∈ (startActs s : List (Action V P)), a.owner = some s.id := by
  simp [startActs, Action.owner]

theorem owner_closing (s : StepConfig P) (ok : Bool) (σ : RunState V P) :
    ∀ a ∈ closing live s ok σ, a.owner = some s.id := by
  intro a ha
  cases live <;> cases ok <;>
    simp only [closing, retryActs, finishActs, List.mem_append, List.mem_map, List.mem_cons,
      List.not_mem_nil, or_false, false_or, if_true, if_false, Bool.false_eq_true] at ha <;>
    grind [Action.owner]

/-- A list whose last action only is the hook of step `id`. -/
def EmitsLast (id : String) (as : List (Action V P)) : Prop :=
  History.Each (fun pre _ => .emit id ∉ pre) as

theorem emitsLast_of_not_mem {id : String} {as : List (Action V P)} (h : .emit id ∉ as) :
    EmitsLast id as := by
  intro pre a post he hm
  exact h (by rw [he]; exact List.mem_append_left _ hm)

theorem emitsLast_concat {id : String} {as : List (Action V P)} (h : .emit id ∉ as) :
    EmitsLast id (as ++ [.emit id]) := (emitsLast_of_not_mem h).concat h

theorem emitsLast_skipActs (s : StepConfig P) :
    EmitsLast s.id (skipActs s : List (Action V P)) := by
  have hno : (.emit s.id : Action V P) ∉
      [.setStatus s.id .skipped, .trace .stepSkipped (some s.id) none []] := by simp
  exact emitsLast_concat hno

/-- The closing actions before the hook. -/
def closingEvents (s : StepConfig P) (ok : Bool) (σ : RunState V P) : List (Action V P) :=
  (if live then [] else retryActs s (min (σ.retryCount s.id) s.retries)) ++
    .trace (if ok then .stepCompleted else .stepFailed) (some s.id)
      (if σ.attemptCount s.id = 0 then none else some (σ.attemptCount s.id)) [] ::
    (if ok then [] else [.trace .dlqRecorded (some s.id) (some (σ.attemptCount s.id)) []])

theorem closing_concat (s : StepConfig P) (ok : Bool) (σ : RunState V P) :
    closing live s ok σ = closingEvents live s ok σ ++ [.emit s.id] := by
  simp [closing, closingEvents, finishActs]

theorem emit_notMem_closingEvents (s : StepConfig P) (ok : Bool) (σ : RunState V P) (id : String) :
    .emit id ∉ closingEvents (V := V) live s ok σ := by
  cases live <;> cases ok <;> simp [closingEvents, retryActs]

theorem emitsLast_closing (s : StepConfig P) (ok : Bool) (σ : RunState V P) :
    EmitsLast s.id (closing live s ok σ) := by
  rw [closing_concat]; exact emitsLast_concat (emit_notMem_closingEvents live s ok σ s.id)

end Blocks

section Log
variable (E : WorkflowExecutor V P)

theorem startActs_view (s : StepConfig P) :
    (startActs s).foldl (StepView.act E) freshView = (startedView : StepView V P) := rfl

/-- `context` was the results map at a moment when the step had just started. -/
def Snapshot (log : List (Action V P)) (s : StepConfig P) (context : Context V) : Prop :=
  ∃ pre, pre <+: log ∧ own s.id pre = startActs s ∧ context = (E.replay pre).results.get

theorem Snapshot.mono {log log' : List (Action V P)} {s : StepConfig P} {context : Context V}
    (h : E.Snapshot log s context) (hp : log <+: log') : E.Snapshot log' s context := by
  obtain ⟨pre, hpre, hown, hctx⟩ := h
  exact ⟨pre, hpre.trans hp, hown, hctx⟩

theorem eq_of_id_eq {E : WorkflowExecutor V P} {s t : StepConfig P} (hs : s ∈ E.config.steps)
    (ht : t ∈ E.config.steps) (h : s.id = t.id) : s = t :=
  List.inj_on_of_nodup_map E.config.uniqueStepIds hs ht h

end Log

variable [PyValue V] (E : WorkflowExecutor V P) (live : Bool)

/-! ### The machine -/

/-- The moves of the machine. -/
inductive MStep : Machine V P → Machine V P → Prop
  | skip {m : Machine V P} {s : StepConfig P} (mem : s ∈ E.config.steps)
      (idle : m.ctl s.id = .idle) (deps : ∀ d ∈ s.deps, m.ctl d = .done)
      (fails : holds s m.state.results.get = false) :
      MStep m ⟨E.acts m.state (skipActs s), Function.update m.ctl s.id .done⟩
  | start {m : Machine V P} {s : StepConfig P} (mem : s ∈ E.config.steps)
      (idle : m.ctl s.id = .idle) (deps : ∀ d ∈ s.deps, m.ctl d = .done)
      (holds_ : holds s m.state.results.get = true) :
      MStep m ⟨E.acts m.state (startActs s), Function.update m.ctl s.id .started⟩
  | submit {m : Machine V P} {s : StepConfig P} (mem : s ∈ E.config.steps)
      (started : m.ctl s.id = .started) :
      MStep m ⟨m.state, Function.update m.ctl s.id
        (.working (E.runWithRetry s m.state.results.get live).1
          (E.runWithRetry s m.state.results.get live).2)⟩
  | work {m : Machine V P} {s : StepConfig P} {a : Action V P} {rest : List (Action V P)} {ok : Bool}
      (mem : s ∈ E.config.steps) (working : m.ctl s.id = .working (a :: rest) ok) :
      MStep m ⟨E.act m.state a, Function.update m.ctl s.id (.working rest ok)⟩
  | close {m : Machine V P} {s : StepConfig P} {ok : Bool}
      (mem : s ∈ E.config.steps) (working : m.ctl s.id = .working [] ok) :
      MStep m ⟨E.acts m.state (closing live s ok m.state), Function.update m.ctl s.id .done⟩

/-- The machine before any step has moved. -/
def mstart : Machine V P := ⟨E.start, fun _ => .idle⟩

def MReaches (m : Machine V P) : Prop := Relation.ReflTransGen (E.MStep live) E.mstart m

/-! ### What a step's actions are -/

/-- All the actions of a step that ran on `context`. -/
def runActs (s : StepConfig P) (context : Context V) : List (Action V P) :=
  startActs s ++ (E.runWithRetry s context live).1 ++ closingOf live s (E.ending s context)

/-- The records after the loop give the closing actions of its ending. -/
theorem closing_eq {s : StepConfig P} {context : Context V} {σ : RunState V P}
    (h : σ.view s.id = startedView.after s (E.ending s context)) :
    closing live s (E.ending s context).succeeded σ = closingOf live s (E.ending s context) := by
  obtain ⟨hpos, hle⟩ := E.ending_attempts s context
  have hret : σ.retryCounts.get s.id = (startedView.after s (E.ending s context)).retryCount :=
    congrArg StepView.retryCount h
  have hatt : σ.attemptCounts.get s.id = (startedView.after s (E.ending s context)).attemptCount :=
    congrArg StepView.attemptCount h
  rw [closing, closingOf, RunState.retryCount, RunState.attemptCount, hret, hatt]
  cases hv : (E.ending s context).value with
  | ok res =>
    simp only [StepView.after, hv, Option.getD_some]
    rw [Nat.min_eq_left (by omega)]
  | error exc =>
    have hall := E.ending_error s context hv
    simp only [StepView.after, hv, Option.getD_some]
    rw [Nat.min_eq_right (by omega), hall, Nat.add_sub_cancel]

/-! ### The invariant -/

/-- What is demanded of an action of step `s` after the actions `pre`: the step is not closed yet,
    its dependencies are; its first action follows its condition; it is invoked on a snapshot. -/
structure AdmissibleFor (pre : List (Action V P)) (a : Action V P) (s : StepConfig P) : Prop where
  isOpen : .emit s.id ∉ pre
  deps : ∀ d ∈ s.deps, .emit d ∈ pre
  first : own s.id pre = [] →
    a = .setStatus s.id (if holds s (E.replay pre).results.get then .running else .skipped)
  context : ∀ n c, a = .invoke s.id n c → E.Snapshot pre s c

/-- Admissible: the action of a known step, in order, or of no step. -/
structure Admissible (pre : List (Action V P)) (a : Action V P) : Prop where
  known : ∀ id, a.owner = some id → ∃ s ∈ E.config.steps, s.id = id
  step : ∀ s ∈ E.config.steps, a.owner = some s.id → E.AdmissibleFor pre a s

/-- The step was skipped. -/
def Skipped (log : List (Action V P)) (s : StepConfig P) : Prop := own s.id log = skipActs s

/-- The step ran on `context` to its end. -/
structure Ran (log : List (Action V P)) (s : StepConfig P) (context : Context V) : Prop where
  snapshot : E.Snapshot log s context
  own : own s.id log = E.runActs live s context

/-- What the control point of a step says about its own actions. -/
def Stage (log : List (Action V P)) (s : StepConfig P) : Ctl V P → Prop
  | .idle => own s.id log = []
  | .started => own s.id log = startActs s
  | .working rest ok => ∃ context performed, E.Snapshot log s context ∧
      E.runWithRetry s context live = (performed ++ rest, ok) ∧
      own s.id log = startActs s ++ performed
  | .done => Skipped log s ∨ ∃ context, E.Ran live log s context

structure Inv (m : Machine V P) : Prop where
  replayed : E.replay m.state.log = m.state
  admissible : History.Each E.Admissible m.state.log
  known : ∀ id, m.ctl id ≠ .idle → ∃ s ∈ E.config.steps, s.id = id
  stage : ∀ s ∈ E.config.steps, E.Stage live m.state.log s (m.ctl s.id)

variable {E live}

/-- The actions of one step leave the stage of the others alone. -/
theorem Stage.frame {log as : List (Action V P)} {s t : StepConfig P} {c : Ctl V P}
    (ho : ∀ a ∈ as, a.owner = some s.id) (hne : s.id ≠ t.id) (h : E.Stage live log t c) :
    E.Stage live (log ++ as) t c := by
  have hown : own t.id (log ++ as) = own t.id log :=
    own_frame (fun a ha => by rw [ho a ha]; simpa using hne) log
  have hp : log <+: log ++ as := List.prefix_append log as
  cases c with
  | idle => exact hown.trans h
  | started => exact hown.trans h
  | working rest ok =>
    obtain ⟨context, performed, hsnap, hrun, hlog⟩ := h
    exact ⟨context, performed, hsnap.mono E hp, hrun, hown.trans hlog⟩
  | done =>
    rcases h with h | ⟨context, h⟩
    · exact Or.inl (hown.trans h)
    · exact Or.inr ⟨context, h.snapshot.mono E hp, hown.trans h.own⟩

theorem Inv.extend {m : Machine V P} {s : StepConfig P} {c : Ctl V P} (h : E.Inv live m)
    (as : List (Action V P)) (hs : s ∈ E.config.steps) (ho : ∀ a ∈ as, a.owner = some s.id)
    (hadm : History.Each (fun pre a => E.Admissible (m.state.log ++ pre) a) as)
    (hst : E.Stage live (m.state.log ++ as) s c) :
    E.Inv live ⟨E.acts m.state as, Function.update m.ctl s.id c⟩ where
  replayed := by rw [E.acts_log, E.replay_append, h.replayed]
  admissible := by rw [E.acts_log]; exact h.admissible.append hadm
  known id hid := by
    by_cases he : id = s.id
    · exact ⟨s, hs, he.symm⟩
    · exact h.known id (by simpa [he] using hid)
  stage t ht := by
    rw [E.acts_log]
    by_cases he : t.id = s.id
    · obtain rfl := eq_of_id_eq ht hs he
      simpa using hst
    · simpa [he] using (h.stage t ht).frame ho (Ne.symm he)

/-- A done step has called its hook. -/
theorem Inv.emit_mem {m : Machine V P} (h : E.Inv live m) {id : String} (hd : m.ctl id = .done) :
    .emit id ∈ m.state.log := by
  obtain ⟨s, hs, rfl⟩ := h.known id (by rw [hd]; simp)
  have hst := h.stage s hs
  rw [hd] at hst
  have hown : .emit s.id ∈ own s.id m.state.log := by
    rcases hst with hst | ⟨context, hst⟩
    · rw [hst]; simp [skipActs]
    · rw [hst.own, runActs, closingOf]; simp [finishActs]
  exact ((History.mem_proj Action.owner).mp hown).1

/-- A block of one step's actions is admissible when the step may act, the block begins as the
    condition says if it is the step's first, calls the hook only at its end, and invokes only on a
    snapshot. -/
theorem admissible_block {log as : List (Action V P)} {s : StepConfig P} (hs : s ∈ E.config.steps)
    (ho : ∀ a ∈ as, a.owner = some s.id) (hopen : .emit s.id ∉ log)
    (hdeps : ∀ d ∈ s.deps, .emit d ∈ log) (hlast : EmitsLast s.id as)
    (hfirst : own s.id log = [] → ∀ a rest, as = a :: rest →
      a = .setStatus s.id (if holds s (E.replay log).results.get then .running else .skipped))
    (hctx : ∀ n c, .invoke s.id n c ∈ as → E.Snapshot log s c) :
    History.Each (fun pre a => E.Admissible (log ++ pre) a) as := by
  intro pre a post he
  have hmem : a ∈ as := by rw [he]; simp
  refine ⟨fun id hid => ⟨s, hs, Option.some.inj ((ho a hmem).symm.trans hid)⟩, fun t ht hot => ?_⟩
  obtain rfl : s = t := eq_of_id_eq hs ht (Option.some.inj ((ho a hmem).symm.trans hot))
  refine ⟨?_, fun d hd => List.mem_append_left _ (hdeps d hd), fun hnil => ?_, fun n c hinv => ?_⟩
  · rw [List.mem_append]
    rintro (hm | hm)
    · exact hopen hm
    · exact hlast pre a post he hm
  · rw [own, History.proj_append, List.append_eq_nil_iff] at hnil
    have hpre : pre = [] := by
      rw [← hnil.2]
      refine (History.proj_eq_self Action.owner fun b hb => ho b ?_).symm
      rw [he]; exact List.mem_append_left _ hb
    subst hpre
    simpa using hfirst hnil.1 a post he
  · exact (hctx n c (hinv ▸ hmem)).mono E (List.prefix_append _ _)

/-- Deps that are done have called their hooks; a step that is not done has not. -/
theorem Inv.emit_notMem {m : Machine V P} (h : E.Inv live m) {s : StepConfig P}
    (hs : s ∈ E.config.steps) (hd : m.ctl s.id ≠ .done) : .emit s.id ∉ m.state.log := by
  intro hm
  have hown : .emit s.id ∈ own s.id m.state.log := (History.mem_proj Action.owner).mpr ⟨hm, rfl⟩
  have hst := h.stage s hs
  cases hc : m.ctl s.id with
  | idle => rw [hc] at hst; rw [hst] at hown; simp at hown
  | started => rw [hc] at hst; rw [hst] at hown; simp [startActs] at hown
  | working rest ok =>
    rw [hc] at hst
    obtain ⟨context, performed, -, hrun, hlog⟩ := hst
    rw [hlog, List.mem_append] at hown
    rcases hown with hown | hown
    · simp [startActs] at hown
    · refine (E.runWithRetry_action s context live (.emit s.id) ?_).noEmit s.id rfl
      rw [hrun]; exact List.mem_append_left _ hown
  | done => exact hd hc

end WorkflowExecutor

end WorkflowEngine
