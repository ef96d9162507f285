import WorkflowEngine.Machine.Invariant
import Mathlib.Data.Finset.Union

/-! Both scheduling modes are runs of the workflow machine.

    At the head of `execute`'s loop the resolved steps are done and the others idle. A sequential
    pass skips, or starts, submits, works and closes one step after another; a parallel round skips
    while it collects, starts its whole layer, lets the pool submit and work in any order, and closes
    the layer after the join. -/

namespace WorkflowEngine
open Schemes Relation

variable {V P : Type}

/-- The control points at the head of the loop. -/
def ctlOf (resolved : Finset String) : String → Ctl V P :=
  fun id => if id ∈ resolved then .done else .idle

theorem ctlOf_insert (resolved : Finset String) (id : String) :
    Function.update (ctlOf resolved : String → Ctl V P) id .done = ctlOf (insert id resolved) := by
  funext i
  by_cases h : i = id <;> simp [ctlOf, h]

namespace WorkflowExecutor

variable {E : WorkflowExecutor V P} {live : Bool}

/-! ### The records after a block -/

theorem closingOf_view (s : StepConfig P) (o : Ending V P) (w : StepView V P) :
    (closingOf live s o).foldl (StepView.act E) w = w.act E (.emit s.id) := by
  have hretry : ∀ (n : ℕ) (w : StepView V P),
      (retryActs s n).foldl (StepView.act E) w = w := by
    intro n
    induction n with
    | zero => intro w; rfl
    | succ n ih =>
      intro w
      rw [retryActs, List.range_succ, List.map_append, List.foldl_append]
      exact ih w
  rw [closingOf, List.foldl_append]
  cases live <;> cases ho : o.succeeded <;> simp [finishActs, StepView.act, hretry]

/-- The view of a skipped step. -/
def skippedView (E : WorkflowExecutor V P) (s : StepConfig P) : StepView V P :=
  StepView.act E { freshView with status := some .skipped } (.emit s.id)

/-- The view of a step that ran to its end. -/
def ranView (E : WorkflowExecutor V P) (s : StepConfig P) (o : Ending V P) : StepView V P :=
  (startedView.after s o).act E (.emit s.id)

theorem view_of_skipped {log : List (Action V P)} {s : StepConfig P} (hs : s ∈ E.config.steps)
    (h : Skipped log s) : (E.replay log).view s.id = skippedView E s := by
  rw [E.view_replay log hs, h]; rfl

theorem ranView_status (s : StepConfig P) (o : Ending V P) :
    (ranView E s o).status = some (if o.succeeded then .completed else .failed) := by
  rw [ranView, StepView.after, Ending.succeeded]
  cases o.value <;> rfl

theorem act_results (σ : RunState V P) (a : Action V P) (h : ∀ id v, a ≠ .setResult id v) :
    (E.act σ a).results = σ.results := by
  cases a with
  | setResult id v => exact absurd rfl (h id v)
  | emit id => simp [act, perform_emit]
  | _ => rfl

theorem acts_results : ∀ (as : List (Action V P)) (σ : RunState V P),
    (∀ a ∈ as, ∀ id v, a ≠ .setResult id v) → (E.acts σ as).results = σ.results
  | [], _, _ => rfl
  | a :: as, σ, h => by
      rw [acts_cons, acts_results as _ fun b hb => h b (List.mem_cons_of_mem a hb),
        act_results σ a (h a List.mem_cons_self)]

theorem skipActs_results (σ : RunState V P) (s : StepConfig P) :
    (E.acts σ (skipActs s)).results = σ.results :=
  acts_results _ σ (by simp [skipActs])

variable [PyValue V]

/-! ### The gate -/

theorem forall_deps_iff (s : StepConfig P) (p : String → Prop) :
    (∀ d ∈ s.deps, p d) ↔ (∀ d ∈ s.listed, p d) ∧ ∀ c, s.condition = some c → p c.step := by
  constructor
  · intro h
    exact ⟨fun d hd => h d ((s.mem_deps d).mpr (Or.inl hd)),
      fun c hc => h c.step ((s.mem_deps _).mpr (Or.inr ⟨c, hc, rfl⟩))⟩
  · rintro ⟨hl, hc⟩ d hd
    rcases (s.mem_deps d).mp hd with hd | ⟨c, hcond, rfl⟩
    · exact hl d hd
    · exact hc c hcond

/-- A pending step whose dependencies are all resolved goes as its condition says; every other step
    is passed over. -/
theorem gate_eq (σ : RunState V P) (resolved : Finset String) (s : StepConfig P) :
    gate σ resolved s =
      if σ.statuses.get s.id = some .pending ∧ ∀ d ∈ s.deps, d ∈ resolved then
        if holds s σ.results.get then .run else .skip
      else .pass := by
  have hdeps := forall_deps_iff s (· ∈ resolved)
  unfold gate
  by_cases hp : σ.statuses.get s.id = some .pending
  · by_cases hl : ∀ d ∈ s.listed, d ∈ resolved
    · have hno : ¬ ∃ d ∈ s.listed, d ∉ resolved := by simpa using hl
      cases hc : s.condition with
      | none => simp [hp, hno, hdeps, hc]
      | some c => by_cases hr : c.step ∈ resolved <;> simp [hp, hno, hr, hdeps, hc]
    · simp [hp, hl, hdeps]
  · simp [hp]

/-! ### What the records say about a step -/

theorem view_of_ran {log : List (Action V P)} {s : StepConfig P} {context : Context V}
    (hs : s ∈ E.config.steps) (h : E.Ran live log s context) :
    (E.replay log).view s.id = ranView E s (E.ending s context) := by
  rw [E.view_replay log hs, h.own, runActs, List.foldl_append, List.foldl_append, startActs_view,
    E.runWithRetry_view s context live startedView rfl, closingOf_view]
  rfl

/-- A step is pending in the records iff it is idle. -/
theorem Inv.pending_iff {m : Machine V P} (h : E.Inv live m) {s : StepConfig P}
    (hs : s ∈ E.config.steps) {resolved : Finset String} (hc : m.ctl = ctlOf resolved) :
    m.state.statuses.get s.id = some .pending ↔ s.id ∉ resolved := by
  have hview : m.state.statuses.get s.id = ((E.replay m.state.log).view s.id).status := by
    rw [h.replayed]; rfl
  have hstage := h.stage s hs
  rw [hview]
  by_cases hr : s.id ∈ resolved
  · have hdone : m.ctl s.id = .done := by rw [hc, ctlOf, if_pos hr]
    rw [hdone] at hstage
    rcases hstage with hst | ⟨context, hst⟩
    · rw [view_of_skipped hs hst]; simp [skippedView, StepView.act, hr]
    · rw [view_of_ran hs hst, ranView_status]
      cases (E.ending s context).succeeded <;> simp [hr]
  · have hidle : m.ctl s.id = .idle := by rw [hc, ctlOf, if_neg hr]
    rw [hidle] at hstage
    rw [E.view_replay _ hs, show own s.id m.state.log = [] from hstage]
    simp [freshView, hr]

/-- The verdict of a gate: a step that is let through is idle, and its dependencies are resolved. -/
inductive Gated (σ : RunState V P) (resolved : Finset String) (s : StepConfig P) : Prop
  | pass (verdict : gate σ resolved s = .pass)
  | skip (verdict : gate σ resolved s = .skip) (idle : s.id ∉ resolved)
      (deps : ∀ d ∈ s.deps, d ∈ resolved) (fails : holds s σ.results.get = false)
  | run (verdict : gate σ resolved s = .run) (idle : s.id ∉ resolved)
      (deps : ∀ d ∈ s.deps, d ∈ resolved) (holds_ : holds s σ.results.get = true)

theorem Inv.gated {σ : RunState V P} {resolved : Finset String} (h : E.Inv live ⟨σ, ctlOf resolved⟩)
    {s : StepConfig P} (hs : s ∈ E.config.steps) : Gated σ resolved s := by
  by_cases hready : σ.statuses.get s.id = some .pending ∧ ∀ d ∈ s.deps, d ∈ resolved
  · have hidle := (h.pending_iff hs rfl).mp hready.1
    cases hh : holds s σ.results.get with
    | true => exact .run (by rw [gate_eq, if_pos hready, hh]; rfl) hidle hready.2 hh
    | false => exact .skip (by rw [gate_eq, if_pos hready, hh]; rfl) hidle hready.2 hh
  · exact .pass (by rw [gate_eq, if_neg hready])

/-! ### Sequential mode -/

/-- A step at work performs the rest of its actions. -/
theorem works {m : Machine V P} {s : StepConfig P} (hs : s ∈ E.config.steps) {ok : Bool} :
    ∀ {as : List (Action V P)}, m.ctl s.id = .working as ok →
      ReflTransGen (E.MStep live) m
        ⟨E.acts m.state as, Function.update m.ctl s.id (.working [] ok)⟩ := by
  intro as
  induction as generalizing m with
  | nil =>
    intro hw
    rw [← hw, Function.update_eq_self]
    exact .refl
  | cons a as ih =>
    intro hw
    have hrest := ih (m := ⟨E.act m.state a, Function.update m.ctl s.id (.working as ok)⟩) (by simp)
    simp only [Function.update_idem] at hrest
    exact hrest.head (.work hs hw)

theorem runStep_follows {σ : RunState V P} {resolved : Finset String} {s : StepConfig P}
    (hs : s ∈ E.config.steps) (hidle : s.id ∉ resolved) (hdeps : ∀ d ∈ s.deps, d ∈ resolved)
    (hh : holds s σ.results.get = true) :
    ReflTransGen (E.MStep true) ⟨σ, ctlOf resolved⟩
      ⟨E.runStep σ s, ctlOf (insert s.id resolved)⟩ := by
  let run := E.runWithRetry s σ.results.get true
  let at_ := fun c => Function.update (ctlOf resolved : String → Ctl V P) s.id c
  have hstart : E.MStep true ⟨σ, ctlOf resolved⟩ ⟨E.acts σ (startActs s), at_ .started⟩ :=
    .start hs (if_neg hidle) (fun d hd => if_pos (hdeps d hd)) hh
  have hsubmit : E.MStep true ⟨E.acts σ (startActs s), at_ .started⟩
      ⟨E.acts σ (startActs s), at_ (.working run.1 run.2)⟩ := by
    have : E.MStep true _ _ := .submit (m := ⟨E.acts σ (startActs s), at_ .started⟩) hs
      (Function.update_self ..)
    simp only [at_, Function.update_idem] at this
    exact this
  have hwork : ReflTransGen (E.MStep true) ⟨E.acts σ (startActs s), at_ (.working run.1 run.2)⟩
      ⟨E.acts (E.acts σ (startActs s)) run.1, at_ (.working [] run.2)⟩ := by
    have : ReflTransGen (E.MStep true) _ _ :=
      works (m := ⟨E.acts σ (startActs s), at_ (.working run.1 run.2)⟩) hs (Function.update_self ..)
    simpa only [at_, Function.update_idem] using this
  have hclose : E.MStep true ⟨E.acts (E.acts σ (startActs s)) run.1, at_ (.working [] run.2)⟩
      ⟨E.runStep σ s, ctlOf (insert s.id resolved)⟩ := by
    have : E.MStep true _ _ :=
      .close (m := ⟨E.acts (E.acts σ (startActs s)) run.1, at_ (.working [] run.2)⟩) hs
        (Function.update_self ..)
    simp only [at_, Function.update_idem, ctlOf_insert] at this
    exact this
  exact ((ReflTransGen.single hstart).tail hsubmit).trans (hwork.tail hclose)

theorem skip_follows {σ : RunState V P} {resolved : Finset String} {s : StepConfig P}
    (hs : s ∈ E.config.steps) (hidle : s.id ∉ resolved) (hdeps : ∀ d ∈ s.deps, d ∈ resolved)
    (hh : holds s σ.results.get = false) :
    ReflTransGen (E.MStep live) ⟨σ, ctlOf resolved⟩
      ⟨E.acts σ (skipActs s), ctlOf (insert s.id resolved)⟩ := by
  rw [← ctlOf_insert]
  exact .single (.skip hs (if_neg hidle) (fun d hd => if_pos (hdeps d hd)) hh)

theorem legacyStep_follows {p : Pass V P} {s : StepConfig P} (hs : s ∈ E.config.steps)
    (h : E.Inv true ⟨p.state, ctlOf p.resolved⟩) :
    ReflTransGen (E.MStep true) ⟨p.state, ctlOf p.resolved⟩
      ⟨(E.legacyStep p s).state, ctlOf (E.legacyStep p s).resolved⟩ := by
  unfold legacyStep
  cases h.gated hs with
  | pass hgate => rw [hgate]
  | skip hgate hidle hdeps hfails => rw [hgate]; exact skip_follows hs hidle hdeps hfails
  | run hgate hidle hdeps hholds => rw [hgate]; exact runStep_follows hs hidle hdeps hholds

/-- A sequential pass over any steps of the workflow follows the machine. -/
theorem legacyPass_follows : ∀ {l : List (StepConfig P)} {p : Pass V P},
    (∀ s ∈ l, s ∈ E.config.steps) → E.Inv true ⟨p.state, ctlOf p.resolved⟩ →
    ReflTransGen (E.MStep true) ⟨p.state, ctlOf p.resolved⟩
      ⟨(l.foldl E.legacyStep p).state, ctlOf (l.foldl E.legacyStep p).resolved⟩
  | [], _, _, _ => .refl
  | s :: l, p, hl, h => by
      have hone := legacyStep_follows (hl s List.mem_cons_self) h
      exact hone.trans
        (legacyPass_follows (fun t ht => hl t (List.mem_cons_of_mem s ht)) (h.follow hone))

/-! ### Collecting a layer -/

/-- The layer collected so far: distinct idle steps, ready to run. -/
structure Layer (E : WorkflowExecutor V P) (σ : RunState V P) (resolved : Finset String)
    (layer : List (StepConfig P)) : Prop where
  mem : ∀ s ∈ layer, s ∈ E.config.steps
  idle : ∀ s ∈ layer, s.id ∉ resolved
  deps : ∀ s ∈ layer, ∀ d ∈ s.deps, d ∈ resolved
  holds_ : ∀ s ∈ layer, holds s σ.results.get = true
  nodup : (layer.map StepConfig.id).Nodup

/-- What collecting has reached from `σ` and `resolved` when the steps `rest` are still to come. -/
structure Collecting (E : WorkflowExecutor V P) (σ : RunState V P) (resolved : Finset String)
    (p : Pass V P) (rest : List (StepConfig P)) : Prop where
  follows : ReflTransGen (E.MStep false) ⟨σ, ctlOf resolved⟩ ⟨p.state, ctlOf p.resolved⟩
  results : p.state.results = σ.results
  layer : E.Layer p.state p.resolved p.runnable
  sublist : (p.runnable ++ rest).Sublist E.config.steps

theorem Collecting.step {σ : RunState V P} {resolved : Finset String} {p : Pass V P}
    {s : StepConfig P} {rest : List (StepConfig P)} (h0 : E.Inv false ⟨σ, ctlOf resolved⟩)
    (h : E.Collecting σ resolved p (s :: rest)) :
    E.Collecting σ resolved (E.collectStep p s) rest := by
  have hs : s ∈ E.config.steps := h.sublist.subset (by simp)
  have hinv : E.Inv false ⟨p.state, ctlOf p.resolved⟩ := h0.follow h.follows
  have hnodup : ((p.runnable ++ s :: rest).map StepConfig.id).Nodup :=
    E.config.uniqueStepIds.sublist (h.sublist.map _)
  have hfresh : ∀ t ∈ p.runnable, t.id ≠ s.id := by
    intro t ht he
    rw [List.map_append, List.nodup_append] at hnodup
    exact hnodup.2.2 t.id (List.mem_map_of_mem ht) s.id (by simp) he
  have hdrop : (p.runnable ++ rest).Sublist E.config.steps :=
    (List.Sublist.append_left (List.sublist_cons_self s rest) p.runnable).trans h.sublist
  unfold collectStep
  cases hinv.gated hs with
  | pass hgate =>
    rw [hgate]
    exact ⟨h.follows, h.results, h.layer, hdrop⟩
  | skip hgate hidle hdeps hfails =>
    rw [hgate]
    have hres := skipActs_results (E := E) p.state s
    refine ⟨h.follows.trans (skip_follows hs hidle hdeps hfails), hres.trans h.results,
      ⟨h.layer.mem, fun t ht => ?_, fun t ht d hd => ?_, fun t ht => ?_, h.layer.nodup⟩, hdrop⟩
    · exact Finset.mem_insert.not.mpr (not_or.mpr ⟨hfresh t ht, h.layer.idle t ht⟩)
    · exact Finset.mem_insert_of_mem (h.layer.deps t ht d hd)
    · have := h.layer.holds_ t ht
      rwa [← hres] at this
  | run hgate hidle hdeps hholds =>
    rw [hgate]
    refine ⟨h.follows, h.results, ⟨?_, ?_, ?_, ?_, ?_⟩, by simpa using h.sublist⟩
    · simpa [or_imp, forall_and] using ⟨h.layer.mem, hs⟩
    · simpa [or_imp, forall_and] using ⟨h.layer.idle, hidle⟩
    · intro t ht
      rcases List.mem_append.mp ht with ht | ht
      · exact h.layer.deps t ht
      · rw [List.mem_singleton.mp ht]; exact hdeps
    · simpa [or_imp, forall_and] using ⟨h.layer.holds_, hholds⟩
    · exact hnodup.sublist ((by simp : (p.runnable ++ [s]).Sublist (p.runnable ++ s :: rest)).map _)

theorem collecting_foldl {σ : RunState V P} {resolved : Finset String}
    (h0 : E.Inv false ⟨σ, ctlOf resolved⟩) : ∀ {rest : List (StepConfig P)} {p : Pass V P},
    E.Collecting σ resolved p rest → E.Collecting σ resolved (rest.foldl E.collectStep p) []
  | [], _, h => h
  | _ :: _, _, h => by rw [List.foldl_cons]; exact collecting_foldl h0 (h.step h0)

theorem collecting_start (E : WorkflowExecutor V P) (σ : RunState V P) (resolved : Finset String) :
    E.Collecting σ resolved { state := σ, resolved := resolved } E.config.steps :=
  ⟨.refl, rfl, ⟨by simp, by simp, by simp, by simp, by simp⟩, by simp⟩

theorem collectRunnable_spec {σ : RunState V P} {resolved : Finset String}
    (h0 : E.Inv false ⟨σ, ctlOf resolved⟩) :
    E.Collecting σ resolved (E.collectRunnable σ resolved) [] :=
  collecting_foldl h0 (collecting_start E σ resolved)

end WorkflowExecutor

end WorkflowEngine
