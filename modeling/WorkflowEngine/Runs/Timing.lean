import WorkflowEngine.Machine.Layer
import WorkflowEngine.Runs.Completion

/-! The timing of the workers.

    Two things carry the workers' timing into a parallel run. A step's snapshot is taken while the
    submission loop is still running, so it may hold results of the step's own layer; and dead
    letters are recorded in the order in which the steps fail. A calm run has neither: its rounds are
    determined up to the order of the other actions, so calm runs end alike. -/

namespace WorkflowEngine
open Schemes Relation

variable {V P : Type}

namespace WorkflowExecutor

/-- A calm move. When a step is submitted, the results of its own layer make no difference to its
    task; when a dead letter is recorded, those of the layer so far belong to earlier steps. -/
def Calm (E : WorkflowExecutor V P) [PyValue V] : Move → Conf V P → Prop
  | .main, .pool σ _ layer p => ∀ s rest, p.toSubmit = s :: rest → ∀ n q,
      E.invoke s n σ.results.get q =
        E.invoke s n (Context.without σ.results.get (layer.map StepConfig.id)) q
  | .work i, .pool σ _ layer p => ∀ j a rest, p.busy[i]? = some j → j.acts = a :: rest →
      ∀ dl ∈ a.letter? σ.retryCount, ∀ dl' ∈ σ.deadLetters, dl'.stepId ∈ layer.map StepConfig.id →
        [dl'.stepId, dl.stepId].Sublist (layer.map StepConfig.id)
  | _, _ => True

variable [PyValue V] {E : WorkflowExecutor V P}

def CalmStep (E : WorkflowExecutor V P) (c c' : Conf V P) : Prop :=
  ∃ m, E.Calm m c ∧ E.next m c = some c'

/-- A run all of whose moves are calm has come to `c`. -/
def CalmReaches (E : WorkflowExecutor V P) (c : Conf V P) : Prop :=
  ReflTransGen E.CalmStep (.loop E.start ∅) c

theorem CalmReaches.reaches {c : Conf V P} (h : E.CalmReaches c) : E.Reaches c := by
  induction h with
  | refl => exact .refl
  | tail _ step ih =>
    obtain ⟨m, -, hm⟩ := step
    exact ih.tail ⟨m, hm⟩

/-! ### Rounds -/

/-- The records when a layer has been marked RUNNING. -/
def entry (E : WorkflowExecutor V P) (σ : RunState V P) (resolved : Finset String) :
    RunState V P :=
  (E.collectRunnable σ resolved).runnable.foldl (fun σ s => E.acts σ (startActs s))
    (E.collectRunnable σ resolved).state

/-- One round of a calm run: from the head of the loop to the next. -/
inductive Round (E : WorkflowExecutor V P) :
    RunState V P × Finset String → RunState V P × Finset String → Prop
  | skips {σ : RunState V P} {resolved : Finset String} (more : resolved.card < E.total)
      (none : (E.collectRunnable σ resolved).runnable = []) :
      Round E (σ, resolved)
        ((E.collectRunnable σ resolved).state, (E.collectRunnable σ resolved).resolved)
  | layer {σ σ' : RunState V P} {resolved : Finset String} {outcomes : Dict String Bool}
      (more : resolved.card < E.total) (some : (E.collectRunnable σ resolved).runnable ≠ [])
      (run : E.LayerEnd (E.entry σ resolved) (E.collectRunnable σ resolved).runnable outcomes σ') :
      Round E (σ, resolved)
        ((E.collectRunnable σ resolved).runnable.foldl (E.publish outcomes) σ',
          (E.collectRunnable σ resolved).resolved ∪
            ((E.collectRunnable σ resolved).runnable.map StepConfig.id).toFinset)

/-- The same records, and the same steps resolved. -/
def Alike (a b : RunState V P × Finset String) : Prop := Same a.1 b.1 ∧ a.2 = b.2

theorem round_alike {a a' b b' : RunState V P × Finset String} (h : Alike a a')
    (hr : E.Round a b) (hr' : E.Round a' b') : Alike b b' := by
  obtain ⟨σ, resolved⟩ := a
  obtain ⟨τ, resolved'⟩ := a'
  obtain ⟨hsame, rfl⟩ : Same σ τ ∧ resolved = resolved' := h
  obtain ⟨hstate, hres, hlayer⟩ := Same.collect (E := E) E.config.steps
    (p := { state := σ, resolved := resolved }) (q := { state := τ, resolved := resolved })
    hsame rfl rfl
  change Same (E.collectRunnable σ resolved).state (E.collectRunnable τ resolved).state at hstate
  change (E.collectRunnable σ resolved).resolved = (E.collectRunnable τ resolved).resolved at hres
  change (E.collectRunnable σ resolved).runnable = (E.collectRunnable τ resolved).runnable at hlayer
  cases hr with
  | skips more none =>
    cases hr' with
    | skips => exact ⟨hstate, hres⟩
    | layer _ some => exact absurd (hlayer ▸ none) some
  | layer more some run =>
    cases hr' with
    | skips _ none => exact absurd (hlayer.trans none) some
    | layer _ _ run' =>
      have hentry : Same (E.entry σ resolved) (E.entry τ resolved) := by
        rw [entry, entry, hlayer]
        exact Same.startLayer _ hstate
      rw [← hlayer] at run'
      obtain ⟨hend, hout⟩ := run.same run' hentry
      refine ⟨?_, ?_⟩
      · rw [← hlayer]; exact Same.publish _ hout hend
      · rw [← hlayer, hres]

/-! ### A calm run is made of rounds -/

/-- What a calm run has reached: some rounds, and a part of the next. -/
def Following (E : WorkflowExecutor V P) : Conf V P → Prop
  | .loop σ resolved => ReflTransGen E.Round (E.start, ∅) (σ, resolved)
  | .pool σ resolved layer p => ∃ σ₀ resolved₀,
      ReflTransGen E.Round (E.start, ∅) (σ₀, resolved₀) ∧ resolved₀.card < E.total ∧
      layer = (E.collectRunnable σ₀ resolved₀).runnable ∧ layer ≠ [] ∧
      resolved = (E.collectRunnable σ₀ resolved₀).resolved ∧
      E.InLayer (E.entry σ₀ resolved₀) layer p σ
  | .done σ deadlock => deadlock = false → ∃ σ₀ resolved₀,
      ReflTransGen E.Round (E.start, ∅) (σ₀, resolved₀) ∧ ¬ resolved₀.card < E.total ∧
      σ = E.finishRun σ₀

theorem following_endRound {σ : RunState V P} {resolved : Finset String} {executed : Bool}
    (h : ReflTransGen E.Round (E.start, ∅) (σ, resolved)) :
    E.Following (E.endRound σ resolved executed) := by
  unfold endRound
  split_ifs
  · exact fun hd => by cases hd
  · exact h

/-- The records of a layer's steps when they have been marked RUNNING. -/
theorem Inv.view_started {live : Bool} {m : Machine V P} (h : E.Inv live m) {s : StepConfig P}
    (hs : s ∈ E.config.steps) (hc : m.ctl s.id = .started) : m.state.view s.id = startedView := by
  have hstage := h.stage s hs
  rw [hc] at hstage
  have hown : own s.id m.state.log = startActs s := hstage
  rw [← h.replayed, E.view_replay _ hs, hown, startActs_view]

theorem following_loop (hpar : E.parallel = true) {σ : RunState V P} {resolved : Finset String}
    {c' : Conf V P} (h : E.Following (.loop σ resolved)) (hrun : E.Running c')
    (turn : E.Turn (.loop σ resolved) c') : E.Following c' := by
  cases turn with
  | finish all => exact fun _ => ⟨σ, resolved, h, all, rfl⟩
  | pass more mode => rw [hpar] at mode; cases mode
  | collect more mode none => exact following_endRound (h.tail (.skips more none))
  | enter more mode some =>
    refine ⟨σ, resolved, h, more, rfl, some, rfl, .start fun s hs => ?_⟩
    obtain ⟨m, hI, hrel⟩ := hrun
    cases hrel with
    | pool _ pooled =>
      obtain ⟨-, hstarted⟩ := pooled.toSubmit s hs
      exact hI.view_started (pooled.mem s hs) hstarted

theorem following_pool {m : Move} {σ : RunState V P} {resolved : Finset String}
    {layer : List (StepConfig P)} {p : Pool V P} {c' : Conf V P}
    (h : E.Following (.pool σ resolved layer p)) (hrun : E.Running (.pool σ resolved layer p))
    (hcalm : E.Calm m (.pool σ resolved layer p))
    (hnext : E.next m (.pool σ resolved layer p) = some c') : E.Following c' := by
  obtain ⟨σ₀, resolved₀, hrounds, hmore, hlayer, hne, hres, hin⟩ := h
  obtain ⟨machine, -, hrel⟩ := hrun
  cases hrel with
  | pool mode pooled =>
    cases m with
    | main =>
      rcases next_main hnext with ⟨s, rest, hsub, rfl⟩ | ⟨hsub, hqueue, hbusy, rfl⟩
      · exact ⟨σ₀, resolved₀, hrounds, hmore, hlayer, hne, hres,
          hin.submit pooled hsub (hcalm s rest hsub)⟩
      · have hend := hin.join pooled hsub hqueue hbusy
        subst hlayer hres
        exact hrounds.tail (.layer hmore hne hend)
    | start =>
      obtain ⟨j, rest, hqueue, -, rfl⟩ := next_start hnext
      exact ⟨σ₀, resolved₀, hrounds, hmore, hlayer, hne, hres, hin.take hqueue⟩
    | work i =>
      obtain ⟨l, j, r, hsplit, hj, ⟨a, rest, hacts, rfl⟩ | ⟨hacts, rfl⟩⟩ := next_work hnext
      · exact ⟨σ₀, resolved₀, hrounds, hmore, hlayer, hne, hres,
          hin.work pooled hsplit hacts (hcalm j a rest hj hacts)⟩
      · exact ⟨σ₀, resolved₀, hrounds, hmore, hlayer, hne, hres, hin.complete pooled hsplit hacts⟩

theorem following_of_calmReaches (hpar : E.parallel = true) {c : Conf V P}
    (h : E.CalmReaches c) : E.Following c := by
  refine (Run.invariant (I := fun c => E.Running c ∧ E.Following c) ?_ ⟨running_start, .refl⟩ h).2
  rintro c c' ⟨hrun, hfollow⟩ ⟨m, hcalm, hnext⟩
  have turn := turn_of_step ⟨m, hnext⟩
  refine ⟨hrun.turn turn, ?_⟩
  cases c with
  | loop σ resolved => exact following_loop hpar hfollow (hrun.turn turn) turn
  | pool σ resolved layer p => exact following_pool hfollow hrun hcalm hnext
  | done σ deadlock => cases m <;> simp [next] at hnext

/-- TIMING: any two calm runs of an accepted workflow in parallel mode end with the same statuses,
    results and errors, and with the same dead letters in the same order. -/
theorem calm_runs_agree (hacc : detectCycles E.config.steps = .ok ()) (hpar : E.parallel = true)
    {σ τ : RunState V P} {d d' : Bool} (hσ : E.CalmReaches (.done σ d))
    (hτ : E.CalmReaches (.done τ d')) :
    (∀ id, σ.statuses.get id = τ.statuses.get id) ∧
    (∀ id, σ.results.get id = τ.results.get id) ∧
    (∀ id, σ.errors.get id = τ.errors.get id) ∧ σ.deadLetters = τ.deadLetters := by
  have hdag := acyclic_of_accepted hacc
  obtain ⟨σ₀, r, hrounds, hall, rfl⟩ :=
    following_of_calmReaches hpar hσ (not_deadlock hdag hσ.reaches)
  obtain ⟨τ₀, r', hrounds', hall', rfl⟩ :=
    following_of_calmReaches hpar hτ (not_deadlock hdag hτ.reaches)
  have halike : Alike (σ₀, r) (τ₀, r') := by
    refine Run.ends_agree Alike (R := E.Round) (F := fun a => ¬ a.2.card < E.total)
      (fun _ _ _ _ => round_alike) ?_ ?_ ⟨⟨fun _ => rfl, rfl⟩, rfl⟩ hrounds hall hrounds' hall'
    · rintro a b hF hround
      cases hround with
      | skips more => exact hF more
      | layer more => exact hF more
    · rintro a a' ⟨-, he⟩
      rw [he]
  have hsame : Same (E.finishRun σ₀) (E.finishRun τ₀) := by
    have hview := halike.1.view
    refine ⟨fun id => by rw [finishRun_view, finishRun_view, hview], ?_⟩
    exact halike.1.letters
  exact ⟨fun id => congrArg StepView.status (hsame.view id),
    fun id => congrArg StepView.result (hsame.view id),
    fun id => congrArg StepView.error (hsame.view id), hsame.letters⟩

/-! ### Calm and other runs of one layer -/

/-- A check of calm that is enough: nothing of the layer is in the snapshot. -/
def quiet : Move → Conf V P → Bool
  | .main, .pool σ _ layer p =>
    p.toSubmit.isEmpty || σ.results.keys.all fun id => decide (id ∉ layer.map StepConfig.id)
  | .work i, .pool σ _ layer p =>
    ((p.busy[i]?.bind fun j => j.acts.head?).bind fun a => a.letter? σ.retryCount).all fun dl =>
      σ.deadLetters.all fun dl' => decide (dl'.stepId ∈ layer.map StepConfig.id →
        [dl'.stepId, dl.stepId].Sublist (layer.map StepConfig.id))
  | _, _ => true

theorem calm_of_quiet {m : Move} {c : Conf V P} (h : quiet m c = true) : E.Calm m c := by
  cases c with
  | loop σ resolved => cases m <;> exact trivial
  | done σ deadlock => cases m <;> exact trivial
  | pool σ resolved layer p =>
    cases m with
    | start => exact trivial
    | main =>
      intro s rest hsub n q
      have hkeys : ∀ id ∈ σ.results.keys, id ∉ layer.map StepConfig.id := by
        simpa [quiet, hsub] using h
      have hsame : Context.without σ.results.get (layer.map StepConfig.id) = σ.results.get := by
        funext d
        by_cases hd : d ∈ layer.map StepConfig.id
        · rw [Context.without, if_pos hd]
          cases hv : σ.results.get d with
          | none => rfl
          | some v => exact absurd hd (hkeys d ((Dict.mem_keys_iff _ d).mpr ⟨v, hv⟩))
        · rw [Context.without, if_neg hd]
      rw [hsame]
    | work i =>
      intro j a rest hj hacts dl hdl dl' hdl'
      have hsome : a.letter? σ.retryCount = some dl := hdl
      simp only [quiet, hj, hacts, Option.bind_some, List.head?_cons, hsome, Option.all_some,
        List.all_eq_true, decide_eq_true_eq] at h
      exact h dl' hdl'

/-- The moves of a run, each checked to be quiet. -/
def quietMoves (E : WorkflowExecutor V P) : List Move → Conf V P → Option (Conf V P) :=
  Run.moves fun m c => if quiet m c then E.next m c else none

theorem calmStep_of_quiet (m : Move) (c c' : Conf V P)
    (h : (if quiet m c then E.next m c else none) = some c') : E.CalmStep c c' := by
  split_ifs at h with hq
  exact ⟨m, calm_of_quiet hq, h⟩

/-- A task that looks at a result of its own layer, and two that fail. -/
def race : WorkflowExecutor String Unit where
  config :=
    { name := "race"
      steps := [{ id := "left", task := "left", retries := 0, params := () },
        { id := "right", task := "right", retries := 0, params := () },
        { id := "bad", task := "bad", retries := 0, params := () },
        { id := "worse", task := "bad", retries := 0, params := () }]
      uniqueStepIds := by decide }
  taskRegistry := Dict.ofList [("left", { call := fun _ _ _ _ => (.ok "l", ()) }),
    ("right", { call := fun _ _ context _ =>
      (.ok (if (context "left").isSome then "after left" else "alone"), ()) }),
    ("bad", { call := fun _ _ _ _ => (.error "bad", ()) })]
  concurrencyLimit := some 4

/-- Everything is submitted first, and the steps run one after another. -/
def inOrder : List Move :=
  List.replicate 5 .main ++ List.replicate 4 .start ++ List.replicate 24 (.work 0) ++ [.main, .main]

/-- As before, but the second step runs before the first. -/
def swapped : List Move :=
  List.replicate 5 .main ++ List.replicate 4 .start ++ List.replicate 5 (.work 1) ++
    List.replicate 19 (.work 0) ++ [.main, .main]

/-- The first step finishes before the second is submitted, and the last fails before the third. -/
def early : List Move :=
  [.main, .main, .start] ++ List.replicate 5 (.work 0) ++ List.replicate 3 .main ++
    List.replicate 3 .start ++ List.replicate 5 (.work 0) ++ List.replicate 7 (.work 1) ++
    List.replicate 7 (.work 0) ++ [.main, .main]

theorem race_depends_on_timing : detectCycles race.config.steps = .ok () ∧ race.parallel = true ∧
    ∃ σ τ, race.Finishes σ ∧ race.Finishes τ ∧
      σ.results.get "right" = some "alone" ∧ τ.results.get "right" = some "after left" ∧
      σ.deadLetters.map DeadLetter.stepId = ["bad", "worse"] ∧
      τ.deadLetters.map DeadLetter.stepId = ["worse", "bad"] := by
  obtain ⟨σ, hσ, hp⟩ := finishes_of_runMoves (E := race) inOrder
    (p := fun σ => decide (σ.results.get "right" = some "alone" ∧
      σ.deadLetters.map DeadLetter.stepId = ["bad", "worse"])) (by decide +kernel)
  obtain ⟨τ, hτ, hq⟩ := finishes_of_runMoves (E := race) early
    (p := fun τ => decide (τ.results.get "right" = some "after left" ∧
      τ.deadLetters.map DeadLetter.stepId = ["worse", "bad"])) (by decide +kernel)
  obtain ⟨hright, hletters⟩ := of_decide_eq_true hp
  obtain ⟨hright', hletters'⟩ := of_decide_eq_true hq
  exact ⟨rfl, rfl, σ, τ, hσ, hτ, hright, hright', hletters, hletters'⟩

/-- A quiet list of moves that returns is a calm run. -/
theorem exists_calm (E : WorkflowExecutor V P) (ms : List Move)
    (h : ((E.quietMoves ms (.loop E.start ∅)).bind Conf.returned?).isSome) :
    ∃ σ d, E.CalmReaches (.done σ d) := by
  obtain ⟨σ, hσ⟩ := Option.isSome_iff_exists.mp h
  obtain ⟨c, hc, hret⟩ := Option.bind_eq_some_iff.mp hσ
  cases c with
  | loop | pool => simp [Conf.returned?] at hret
  | done τ d => exact ⟨τ, d, Run.reaches_of_moves calmStep_of_quiet hc⟩

theorem race_calm_runs_agree : ∃ σ τ d d', race.CalmReaches (.done σ d) ∧
    race.CalmReaches (.done τ d') ∧ σ.deadLetters = τ.deadLetters := by
  obtain ⟨σ, d, hσ⟩ := race.exists_calm inOrder (by decide +kernel)
  obtain ⟨τ, d', hτ⟩ := race.exists_calm swapped (by decide +kernel)
  obtain ⟨-, -, -, hletters⟩ := calm_runs_agree rfl rfl hσ hτ
  exact ⟨σ, τ, d, d', hσ, hτ, hletters⟩

end WorkflowExecutor

end WorkflowEngine
