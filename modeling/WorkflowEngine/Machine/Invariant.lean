import WorkflowEngine.Machine.Basic

/-! The invariant of the workflow machine holds in every reached state.

    One lemma for each kind of move. Each names the block of actions the move appends, why the block
    is admissible, and the stage the step is in afterwards. -/

namespace WorkflowEngine
open Schemes

variable {V P : Type} [PyValue V]

namespace WorkflowExecutor

variable {E : WorkflowExecutor V P} {live : Bool} {m : Machine V P} {s : StepConfig P}

theorem inv_mstart : E.Inv live E.mstart where
  replayed := rfl
  admissible := by
    have hlog : (E.mstart : Machine V P).state.log = [] ++ [.trace .runStarted none none []] := rfl
    rw [hlog]
    exact (History.each_nil _).concat ⟨by simp [Action.owner], by simp [Action.owner]⟩
  known id h := absurd rfl h
  stage s _ := rfl

/-- An idle step has no action yet, so its first one must be what its condition says. -/
theorem Inv.admissible_first (h : E.Inv live m) (hs : s ∈ E.config.steps)
    (hidle : m.ctl s.id = .idle) (hdeps : ∀ d ∈ s.deps, m.ctl d = .done)
    {as : List (Action V P)} (ho : ∀ a ∈ as, a.owner = some s.id) (hlast : EmitsLast s.id as)
    (hfirst : ∀ a rest, as = a :: rest →
      a = .setStatus s.id (if holds s m.state.results.get then .running else .skipped))
    (hctx : ∀ n c, .invoke s.id n c ∉ as) :
    History.Each (fun pre a => E.Admissible (m.state.log ++ pre) a) as := by
  refine admissible_block hs ho (h.emit_notMem hs (by rw [hidle]; simp))
    (fun d hd => h.emit_mem (hdeps d hd)) hlast (fun _ => ?_) fun n c hm => absurd hm (hctx n c)
  rw [h.replayed]; exact hfirst

theorem Inv.skip (h : E.Inv live m) (hs : s ∈ E.config.steps) (hidle : m.ctl s.id = .idle)
    (hdeps : ∀ d ∈ s.deps, m.ctl d = .done) (hf : holds s m.state.results.get = false) :
    E.Inv live ⟨E.acts m.state (skipActs s), Function.update m.ctl s.id .done⟩ := by
  have hstage := h.stage s hs
  rw [hidle] at hstage
  have hown : own s.id (m.state.log ++ skipActs s) = skipActs s := by
    rw [own_block (owner_skipActs s), show own s.id m.state.log = [] from hstage, List.nil_append]
  refine h.extend _ hs (owner_skipActs s)
    (h.admissible_first hs hidle hdeps (owner_skipActs s) (emitsLast_skipActs s) ?_
      (by simp [skipActs])) (Or.inl hown)
  rintro a rest he
  rw [← (List.cons.inj he).1, hf]; rfl

theorem Inv.start (h : E.Inv live m) (hs : s ∈ E.config.steps) (hidle : m.ctl s.id = .idle)
    (hdeps : ∀ d ∈ s.deps, m.ctl d = .done) (hh : WorkflowExecutor.holds s m.state.results.get = true) :
    E.Inv live ⟨E.acts m.state (startActs s), Function.update m.ctl s.id .started⟩ := by
  have hstage := h.stage s hs
  rw [hidle] at hstage
  have hown : own s.id (m.state.log ++ startActs s) = startActs s := by
    rw [own_block (owner_startActs s), show own s.id m.state.log = [] from hstage, List.nil_append]
  refine h.extend _ hs (owner_startActs s)
    (h.admissible_first hs hidle hdeps (owner_startActs s)
      (emitsLast_of_not_mem (by simp [startActs])) ?_ (by simp [startActs])) hown
  rintro a rest he
  rw [← (List.cons.inj he).1, hh]; rfl

theorem Inv.submit (h : E.Inv live m) (hs : s ∈ E.config.steps) (hst : m.ctl s.id = .started) :
    E.Inv live ⟨m.state, Function.update m.ctl s.id
      (.working (E.runWithRetry s m.state.results.get live).1
        (E.runWithRetry s m.state.results.get live).2)⟩ := by
  have hstage := h.stage s hs
  rw [hst] at hstage
  have hown : own s.id m.state.log = startActs s := hstage
  refine h.extend [] hs (by simp) (History.each_nil _) ?_
  rw [List.append_nil]
  exact ⟨m.state.results.get, [], ⟨m.state.log, List.prefix_rfl, hown, by rw [h.replayed]⟩,
    by simp, by simpa using hown⟩

/-- A step past its start may perform its own actions: they are no first action any more. -/
theorem Inv.admissible_later (h : E.Inv live m) (hs : s ∈ E.config.steps)
    (hown : own s.id m.state.log ≠ []) (hctl : m.ctl s.id ≠ .done)
    {as : List (Action V P)} (ho : ∀ a ∈ as, a.owner = some s.id) (hlast : EmitsLast s.id as)
    (hctx : ∀ n c, .invoke s.id n c ∈ as → E.Snapshot m.state.log s c) :
    History.Each (fun pre a => E.Admissible (m.state.log ++ pre) a) as := by
  obtain ⟨pre, a, post, he, ha, -⟩ := History.exists_first Action.owner hown
  have hdeps := ((h.admissible pre a post he).step s hs ha).deps
  refine admissible_block hs ho (h.emit_notMem hs hctl) (fun d hd => ?_) hlast
    (fun hnil => absurd hnil hown) hctx
  rw [he]; exact List.mem_append_left _ (hdeps d hd)

theorem Inv.work (h : E.Inv live m) (hs : s ∈ E.config.steps) {a : Action V P}
    {rest : List (Action V P)} {ok : Bool} (hw : m.ctl s.id = .working (a :: rest) ok) :
    E.Inv live ⟨E.act m.state a, Function.update m.ctl s.id (.working rest ok)⟩ := by
  have hstage := h.stage s hs
  rw [hw] at hstage
  obtain ⟨context, performed, hsnap, hrun, hown⟩ := hstage
  have hloop : LoopAction s context a :=
    E.runWithRetry_action s context live a (by rw [hrun]; simp)
  have ho : ∀ b ∈ [a], b.owner = some s.id := by simpa using hloop.owner
  refine h.extend [a] hs ho ?_
    ⟨context, performed ++ [a], hsnap.mono E (List.prefix_append _ _), by simpa using hrun, ?_⟩
  · refine h.admissible_later hs (by rw [hown]; simp [startActs]) (by rw [hw]; simp) ho
      (emitsLast_of_not_mem ?_) fun n c hm => ?_
    · simpa using (hloop.noEmit s.id).symm
    · rw [hloop.invoke s.id n c (List.mem_singleton.mp hm).symm]; exact hsnap
  · rw [own_block ho, hown, List.append_assoc]

/-- The records of a step whose loop is over are those of its ending. -/
theorem Inv.view_worked (h : E.Inv live m) (hs : s ∈ E.config.steps) {ok : Bool}
    (hw : m.ctl s.id = .working [] ok) : ∃ context, E.Snapshot m.state.log s context ∧
      E.runWithRetry s context live = ((E.runWithRetry s context live).1, ok) ∧
      own s.id m.state.log = startActs s ++ (E.runWithRetry s context live).1 ∧
      m.state.view s.id = startedView.after s (E.ending s context) := by
  have hstage := h.stage s hs
  rw [hw] at hstage
  obtain ⟨context, performed, hsnap, hrun, hown⟩ := hstage
  rw [List.append_nil] at hrun
  have hown' : own s.id m.state.log = startActs s ++ (E.runWithRetry s context live).1 := by
    rw [hrun]; exact hown
  refine ⟨context, hsnap, by rw [hrun], hown', ?_⟩
  rw [← h.replayed, E.view_replay _ hs, hown', List.foldl_append, startActs_view]
  exact E.runWithRetry_view s context live startedView rfl

theorem Inv.close (h : E.Inv live m) (hs : s ∈ E.config.steps) {ok : Bool}
    (hw : m.ctl s.id = .working [] ok) :
    E.Inv live ⟨E.acts m.state (closing live s ok m.state), Function.update m.ctl s.id .done⟩ := by
  obtain ⟨context, hsnap, hrun, hown, hview⟩ := h.view_worked hs hw
  have hok : ok = (E.ending s context).succeeded := by
    rw [← E.runWithRetry_succeeded s context live, hrun]
  have hclose : closing live s ok m.state = closingOf live s (E.ending s context) := by
    rw [hok]; exact E.closing_eq live hview
  have ho := owner_closing live s ok m.state
  refine h.extend _ hs ho ?_ (Or.inr ⟨context, hsnap.mono E (List.prefix_append _ _), ?_⟩)
  · refine h.admissible_later hs (by rw [hown]; simp [startActs]) (by rw [hw]; simp) ho
      (emitsLast_closing live s ok m.state) fun n c hm => ?_
    rw [closing] at hm
    cases live <;> cases ok <;> simp [retryActs, finishActs] at hm
  · rw [own_block ho, hown, hclose, runActs]

theorem Inv.step {m' : Machine V P} (h : E.Inv live m) (step : E.MStep live m m') :
    E.Inv live m' := by
  cases step with
  | skip mem idle deps fails => exact h.skip mem idle deps fails
  | start mem idle deps holds_ => exact h.start mem idle deps holds_
  | submit mem started => exact h.submit mem started
  | work mem working => exact h.work mem working
  | close mem working => exact h.close mem working

theorem Inv.follow {m' : Machine V P} (h : E.Inv live m)
    (run : Relation.ReflTransGen (E.MStep live) m m') : E.Inv live m' :=
  Run.invariant (fun _ _ hI step => hI.step step) h run

/-- INVARIANT: whatever the order of the steps' moves. -/
theorem inv_of_mreaches (h : E.MReaches live m) : E.Inv live m := inv_mstart.follow h

end WorkflowExecutor

end WorkflowEngine
