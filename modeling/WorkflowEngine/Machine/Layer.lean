import WorkflowEngine.Machine.Refinement

/-! One layer of the thread pool, seen from its entry.

    `Same` compares records step by step, and their dead letters in order; whatever the executor
    decides from records it decides alike from records that are the same. `InLayer` says how far the
    pool has come since the records `σ₁` at its entry, as long as every step was submitted to the
    effect of those records, and `LayerEnd` what it has made of them when it joins. -/

namespace WorkflowEngine
open Schemes Relation

variable {V P : Type}

/-- The context without the results of the steps `ids`. -/
def Context.without (context : Context V) (ids : List String) : Context V :=
  fun d => if d ∈ ids then none else context d

/-- The dead letter that an action appends. -/
def Action.letter? (count : String → ℕ) : Action V P → Option (DeadLetter P)
  | .deadLetter id task error params => some ⟨id, task, error, count id, params⟩
  | _ => none

namespace WorkflowExecutor

/-- The records say the same of every step and list the same dead letters. -/
structure Same (σ τ : RunState V P) : Prop where
  view : ∀ id, σ.view id = τ.view id
  letters : σ.deadLetters = τ.deadLetters

variable {E : WorkflowExecutor V P} {σ τ : RunState V P}

theorem act_deadLetters (σ : RunState V P) (a : Action V P) :
    (E.act σ a).deadLetters = σ.deadLetters ++ (a.letter? σ.retryCount).toList := by
  cases a with
  | emit id => rw [act, perform_emit]; simp [Action.letter?]
  | _ => simp [act, perform, Action.letter?]

namespace Same

theorem results (h : Same σ τ) : σ.results.get = τ.results.get := by
  funext id
  exact congrArg StepView.result (h.view id)

theorem retryCount (h : Same σ τ) : σ.retryCount = τ.retryCount := by
  funext id
  exact congrArg (fun n : Option ℕ => n.getD 0) (congrArg StepView.retryCount (h.view id))

theorem attemptCount (h : Same σ τ) (id : String) : σ.attemptCount id = τ.attemptCount id :=
  congrArg (fun n : Option ℕ => n.getD 0) (congrArg StepView.attemptCount (h.view id))

theorem act (h : Same σ τ) (a : Action V P) : Same (E.act σ a) (E.act τ a) where
  view id := by
    by_cases ho : a.owner = some id
    · rw [view_act_own E σ a id ho, view_act_own E τ a id ho, h.view]
    · rw [view_act_frame E σ a id ho, view_act_frame E τ a id ho, h.view]
  letters := by rw [act_deadLetters, act_deadLetters, h.letters, h.retryCount]

theorem acts : ∀ {σ τ : RunState V P}, Same σ τ → ∀ as : List (Action V P),
    Same (E.acts σ as) (E.acts τ as)
  | _, _, h, [] => h
  | _, _, h, a :: as => acts (h.act a) as

/-- Marking a layer RUNNING. -/
theorem startLayer : ∀ (layer : List (StepConfig P)) {σ τ : RunState V P}, Same σ τ →
    Same (layer.foldl (fun σ s => E.acts σ (startActs s)) σ)
      (layer.foldl (fun σ s => E.acts σ (startActs s)) τ)
  | [], _, _, h => h
  | s :: layer, _, _, h => startLayer layer (h.acts (startActs s))

/-- Publishing a layer, with the same outcomes. -/
theorem publish {o o' : Dict String Bool} : ∀ (layer : List (StepConfig P)) {σ τ : RunState V P},
    (∀ s ∈ layer, o.get s.id = o'.get s.id) → Same σ τ →
    Same (layer.foldl (E.publish o) σ) (layer.foldl (E.publish o') τ)
  | [], _, _, _, h => h
  | s :: layer, σ, τ, ho, h => by
      have hone : Same (E.publish o σ s) (E.publish o' τ s) := by
        rw [WorkflowExecutor.publish, WorkflowExecutor.publish, ho s List.mem_cons_self,
          h.retryCount, h.attemptCount]
        exact h.acts _
      exact publish layer (fun t ht => ho t (List.mem_cons_of_mem s ht)) hone

variable [PyValue V]

theorem gate (h : Same σ τ) (resolved : Finset String) (s : StepConfig P) :
    WorkflowExecutor.gate σ resolved s = WorkflowExecutor.gate τ resolved s := by
  have hstatus : σ.statuses.get s.id = τ.statuses.get s.id := congrArg StepView.status (h.view s.id)
  rw [WorkflowExecutor.gate, WorkflowExecutor.gate, hstatus, h.results]

/-- Collecting decides alike on records that are the same. -/
theorem collect : ∀ (l : List (StepConfig P)) {p q : Pass V P}, Same p.state q.state →
    p.resolved = q.resolved → p.runnable = q.runnable →
    Same (l.foldl E.collectStep p).state (l.foldl E.collectStep q).state ∧
      (l.foldl E.collectStep p).resolved = (l.foldl E.collectStep q).resolved ∧
      (l.foldl E.collectStep p).runnable = (l.foldl E.collectStep q).runnable
  | [], _, _, h, hr, hl => ⟨h, hr, hl⟩
  | s :: l, p, q, h, hr, hl => by
      have hgate := h.gate p.resolved s
      rw [List.foldl_cons, List.foldl_cons]
      have hone : Same (E.collectStep p s).state (E.collectStep q s).state ∧
          (E.collectStep p s).resolved = (E.collectStep q s).resolved ∧
          (E.collectStep p s).runnable = (E.collectStep q s).runnable := by
        rw [collectStep, collectStep, ← hr, ← hgate]
        cases WorkflowExecutor.gate p.state p.resolved s with
        | pass => exact ⟨h, hr, hl⟩
        | skip => exact ⟨h.acts _, by rw [Pass.skip, Pass.skip, hr], hl⟩
        | run => exact ⟨h, rfl, by simp only [hl]⟩
      exact collect l hone.1 hone.2.1 hone.2.2

end Same

/-! ### The end of a layer -/

/-- What the pool has made of the records `σ₁` at its entry when it joins with `σ`. -/
structure LayerEnd [PyValue V] (E : WorkflowExecutor V P) (σ₁ : RunState V P)
    (layer : List (StepConfig P)) (outcomes : Dict String Bool) (σ : RunState V P) : Prop where
  nodup : (layer.map StepConfig.id).Nodup
  outside : ∀ id, id ∉ layer.map StepConfig.id → σ.view id = σ₁.view id
  inside : ∀ s ∈ layer, σ.view s.id = startedView.after s (E.ending s σ₁.results.get)
  outcome : ∀ s ∈ layer, outcomes.get s.id = some (E.ending s σ₁.results.get).succeeded
  letters : ∃ new, σ.deadLetters = σ₁.deadLetters ++ new ∧
    (new.map DeadLetter.stepId).Sublist (layer.map StepConfig.id)

variable [PyValue V]

/-- DETERMINISM: a layer ends in the same way from records that are the same. -/
theorem LayerEnd.same {σ₁ τ₁ : RunState V P} {layer : List (StepConfig P)} {o o' : Dict String Bool}
    (h : E.LayerEnd σ₁ layer o σ) (h' : E.LayerEnd τ₁ layer o' τ) (h₁ : Same σ₁ τ₁) :
    Same σ τ ∧ ∀ s ∈ layer, o.get s.id = o'.get s.id := by
  have hview : ∀ id, σ.view id = τ.view id := by
    intro id
    by_cases hid : id ∈ layer.map StepConfig.id
    · obtain ⟨s, hs, rfl⟩ := List.mem_map.mp hid
      rw [h.inside s hs, h'.inside s hs, h₁.results]
    · rw [h.outside id hid, h'.outside id hid, h₁.view]
  refine ⟨⟨hview, ?_⟩, fun s hs => by rw [h.outcome s hs, h'.outcome s hs, h₁.results]⟩
  obtain ⟨new, hnew, hsub⟩ := h.letters
  obtain ⟨new', hnew', hsub'⟩ := h'.letters
  -- the new dead letters of each step are the same, and the steps stand in one order
  have hkeys : ∀ id, (new.filter fun dl => dl.stepId = id) = new'.filter fun dl => dl.stepId = id := by
    intro id
    have hlet := congrArg StepView.deadLetters (hview id)
    simp only [RunState.view, hnew, hnew', List.filter_append, h₁.letters] at hlet
    exact List.append_cancel_left hlet
  rw [hnew, hnew', h₁.letters, History.eq_flatMap_of_sublist DeadLetter.stepId h.nodup hsub,
    History.eq_flatMap_of_sublist DeadLetter.stepId h.nodup hsub']
  simp only [hkeys]

/-! ### Inside the layer -/

/-- A job that does what the results at the entry make it do, and how far it has come. -/
def JobAt (E : WorkflowExecutor V P) (σ₁ : RunState V P) (layer : List (StepConfig P))
    (σ : RunState V P) (j : Job V P) : Prop :=
  ∃ s ∈ layer, s.id = j.id ∧ ∃ context performed,
    (∀ n q, E.invoke s n context q = E.invoke s n σ₁.results.get q) ∧
    E.runWithRetry s context false = (performed ++ j.acts, j.succeeded) ∧
    σ.view s.id = performed.foldl (StepView.act E) startedView

/-- How far the pool has come since its entry. -/
structure InLayer (E : WorkflowExecutor V P) (σ₁ : RunState V P) (layer : List (StepConfig P))
    (p : Pool V P) (σ : RunState V P) : Prop where
  fresh : ∀ s ∈ layer, σ₁.view s.id = startedView
  outside : ∀ id, id ∉ layer.map StepConfig.id → σ.view id = σ₁.view id
  toSubmit : ∀ s ∈ p.toSubmit, σ.view s.id = startedView
  queue : ∀ j ∈ p.queue, E.JobAt σ₁ layer σ j
  busy : ∀ j ∈ p.busy, E.JobAt σ₁ layer σ j
  outcomes : ∀ s ∈ layer, ∀ ok, p.outcomes.get s.id = some ok →
    ok = (E.ending s σ₁.results.get).succeeded ∧
      σ.view s.id = startedView.after s (E.ending s σ₁.results.get)
  letters : ∃ new, σ.deadLetters = σ₁.deadLetters ++ new ∧
    (new.map DeadLetter.stepId).Sublist (layer.map StepConfig.id)

variable {σ₁ : RunState V P} {resolved : Finset String} {layer : List (StepConfig P)} {p : Pool V P}
  {ctl : String → Ctl V P}

theorem JobAt.frame {j : Job V P} (h : E.JobAt σ₁ layer σ j) {a : Action V P} {id : String}
    (ho : a.owner = some id) (hne : j.id ≠ id) : E.JobAt σ₁ layer (E.act σ a) j := by
  obtain ⟨s, hs, hid, context, performed, hinvoke, hrun, hview⟩ := h
  refine ⟨s, hs, hid, context, performed, hinvoke, hrun, ?_⟩
  rw [view_act_frame E σ a s.id (by rw [ho, hid]; simpa using Ne.symm hne), hview]

/-- The rest of a job is made of its step's actions. -/
theorem JobAt.loopAction {j : Job V P} (h : E.JobAt σ₁ layer σ j) {a : Action V P}
    {rest : List (Action V P)} (ha : j.acts = a :: rest) : a.owner = some j.id := by
  obtain ⟨s, -, hid, context, performed, -, hrun, -⟩ := h
  rw [← hid]
  exact (E.runWithRetry_action s context false a (by rw [hrun, ha]; simp)).owner

theorem JobAt.act {j : Job V P} (h : E.JobAt σ₁ layer σ j) {a : Action V P}
    {rest : List (Action V P)} (ha : j.acts = a :: rest) :
    E.JobAt σ₁ layer (E.act σ a) { j with acts := rest } := by
  have howner := h.loopAction ha
  obtain ⟨s, hs, hid, context, performed, hinvoke, hrun, hview⟩ := h
  refine ⟨s, hs, hid, context, performed ++ [a], hinvoke, by simpa [ha] using hrun, ?_⟩
  rw [view_act_own E σ a s.id (by rw [howner, hid]), hview, List.foldl_append]
  rfl

/-- A job without further actions has left its step's records as the results at the entry say. -/
theorem JobAt.complete {j : Job V P} (h : E.JobAt σ₁ layer σ j) (ha : j.acts = []) :
    ∃ s ∈ layer, s.id = j.id ∧ j.succeeded = (E.ending s σ₁.results.get).succeeded ∧
      σ.view s.id = startedView.after s (E.ending s σ₁.results.get) := by
  obtain ⟨s, hs, hid, context, performed, hinvoke, hrun, hview⟩ := h
  rw [ha, List.append_nil] at hrun
  have hending := E.ending_congr hinvoke
  refine ⟨s, hs, hid, ?_, ?_⟩
  · rw [← hending, ← E.runWithRetry_succeeded s context false, hrun]
  · have hloop := E.runWithRetry_view s context false startedView rfl
    rw [hrun] at hloop
    rw [hview, hloop, hending]

theorem InLayer.start (hfresh : ∀ s ∈ layer, σ₁.view s.id = startedView) :
    E.InLayer σ₁ layer { toSubmit := layer } σ₁ where
  fresh := hfresh
  outside _ _ := rfl
  toSubmit := hfresh
  queue := by simp
  busy := by simp
  outcomes := by simp
  letters := ⟨[], by simp, by simp⟩

/-- Without the results of the layer, the results are those at the entry. -/
theorem InLayer.without (h : E.InLayer σ₁ layer p σ) :
    Context.without σ.results.get (layer.map StepConfig.id) = σ₁.results.get := by
  funext d
  by_cases hd : d ∈ layer.map StepConfig.id
  · obtain ⟨s, hs, rfl⟩ := List.mem_map.mp hd
    have hnone : σ₁.results.get s.id = none := congrArg StepView.result (h.fresh s hs)
    rw [Context.without, if_pos hd, hnone]
  · rw [Context.without, if_neg hd]
    exact congrArg StepView.result (h.outside d hd)

theorem InLayer.submit (h : E.InLayer σ₁ layer p σ) (hpool : E.Pooled resolved layer p ctl)
    {s : StepConfig P} {rest : List (StepConfig P)} (hp : p.toSubmit = s :: rest)
    (hcalm : ∀ n q, E.invoke s n σ.results.get q =
      E.invoke s n (Context.without σ.results.get (layer.map StepConfig.id)) q) :
    E.InLayer σ₁ layer { p with toSubmit := rest, queue := p.queue ++ [E.submit σ s] } σ where
  fresh := h.fresh
  outside := h.outside
  toSubmit t ht := h.toSubmit t (by rw [hp]; exact List.mem_cons_of_mem s ht)
  queue j hj := by
    rcases List.mem_append.mp hj with hj | hj
    · exact h.queue j hj
    · rw [List.mem_singleton.mp hj]
      have hs : s ∈ p.toSubmit := by rw [hp]; exact List.mem_cons_self
      rw [h.without] at hcalm
      exact ⟨s, (hpool.toSubmit s hs).1, rfl, σ.results.get, [], hcalm, rfl, h.toSubmit s hs⟩
  busy := h.busy
  outcomes := h.outcomes
  letters := h.letters

theorem InLayer.take (h : E.InLayer σ₁ layer p σ) {j : Job V P} {rest : List (Job V P)}
    (hp : p.queue = j :: rest) :
    E.InLayer σ₁ layer { p with queue := rest, busy := p.busy ++ [j] } σ where
  fresh := h.fresh
  outside := h.outside
  toSubmit := h.toSubmit
  queue i hi := h.queue i (by rw [hp]; exact List.mem_cons_of_mem j hi)
  busy i hi := by
    rcases List.mem_append.mp hi with hi | hi
    · exact h.busy i hi
    · rw [List.mem_singleton.mp hi]; exact h.queue j (by rw [hp]; exact List.mem_cons_self)
  outcomes := h.outcomes
  letters := h.letters

theorem InLayer.work (h : E.InLayer σ₁ layer p σ) (hpool : E.Pooled resolved layer p ctl)
    {l r : List (Job V P)} {j : Job V P} {a : Action V P} {rest : List (Action V P)}
    (hp : p.busy = l ++ j :: r) (ha : j.acts = a :: rest)
    (hcalm : ∀ dl ∈ a.letter? σ.retryCount, ∀ dl' ∈ σ.deadLetters,
      dl'.stepId ∈ layer.map StepConfig.id →
      [dl'.stepId, dl.stepId].Sublist (layer.map StepConfig.id)) :
    E.InLayer σ₁ layer { p with busy := l ++ { j with acts := rest } :: r } (E.act σ a) := by
  have hj : E.JobAt σ₁ layer σ j := h.busy j (by rw [hp]; simp)
  have howner : a.owner = some j.id := hj.loopAction ha
  obtain ⟨hsub, hqueue, hbusy, hkeys⟩ := hpool.busy_fresh hp
  obtain ⟨s, hs, hid⟩ : ∃ s ∈ layer, s.id = j.id := by
    obtain ⟨s, hs, hid, -⟩ := hj
    exact ⟨s, hs, hid⟩
  have hview : ∀ id, id ≠ j.id → (E.act σ a).view id = σ.view id := fun id hne =>
    view_act_frame E σ a id (by rw [howner]; simpa using Ne.symm hne)
  refine ⟨h.fresh, fun id hout => ?_, fun t ht => ?_, fun i hi => ?_, fun i hi => ?_,
    fun t ht ok hok => ?_, ?_⟩
  · have hne : id ≠ j.id := by
      rintro rfl
      exact hout (hid ▸ List.mem_map_of_mem hs)
    rw [hview id hne]; exact h.outside id hout
  · rw [hview t.id (ne_of_notMem_map hsub ht)]; exact h.toSubmit t ht
  · exact (h.queue i hi).frame howner (ne_of_notMem_map hqueue hi)
  · rcases List.mem_append.mp hi with hi | hi
    · refine (h.busy i ?_).frame howner (ne_of_notMem_map hbusy (List.mem_append_left r hi))
      rw [hp]; exact List.mem_append_left _ hi
    · rcases List.mem_cons.mp hi with rfl | hi
      · exact hj.act ha
      · refine (h.busy i ?_).frame howner (ne_of_notMem_map hbusy (List.mem_append_right l hi))
        rw [hp]; exact List.mem_append_right _ (List.mem_cons_of_mem j hi)
  · have hk : t.id ∈ p.outcomes.keys := (p.outcomes.mem_keys_iff t.id).mpr ⟨ok, hok⟩
    rw [hview t.id (ne_of_mem_of_not_mem hk hkeys)]
    exact h.outcomes t ht ok hok
  · obtain ⟨new, hnew, hsorted⟩ := h.letters
    rw [act_deadLetters]
    cases hdl : a.letter? σ.retryCount with
    | none => exact ⟨new, by simpa using hnew, hsorted⟩
    | some dl =>
      refine ⟨new ++ [dl], by simp [hnew], ?_⟩
      rw [List.map_append]
      refine History.sublist_concat hpool.nodup hsorted ?_ fun k hk => ?_
      · have hdlid : dl.stepId = j.id := by
          cases a with
          | deadLetter id task error params =>
            obtain rfl := Option.some.inj hdl
            exact Option.some.inj howner
          | _ => cases hdl
        rw [hdlid, ← hid]; exact List.mem_map_of_mem hs
      · obtain ⟨dl', hdl', rfl⟩ := List.mem_map.mp hk
        exact hcalm dl hdl dl' (by rw [hnew]; exact List.mem_append_right _ hdl')
          (hsorted.subset hk)

theorem InLayer.complete (h : E.InLayer σ₁ layer p σ) (hpool : E.Pooled resolved layer p ctl)
    {l r : List (Job V P)} {j : Job V P} (hp : p.busy = l ++ j :: r) (ha : j.acts = []) :
    E.InLayer σ₁ layer
      { p with busy := l ++ r, outcomes := p.outcomes.set j.id j.succeeded } σ where
  fresh := h.fresh
  outside := h.outside
  toSubmit := h.toSubmit
  queue := h.queue
  busy i hi := h.busy i (by rw [hp]; exact mem_of_mem_without hi)
  outcomes t ht ok hok := by
    rw [Dict.get_set] at hok
    by_cases he : t.id = j.id
    · rw [if_pos he] at hok
      obtain ⟨s, hs, hid, hok', hview⟩ := (h.busy j (by rw [hp]; simp)).complete ha
      obtain rfl : s = t := eq_of_id_eq (hpool.mem s hs) (hpool.mem t ht) (hid.trans he.symm)
      exact ⟨(Option.some.inj hok).symm.trans hok', hview⟩
    · rw [if_neg he] at hok
      exact h.outcomes t ht ok hok
  letters := h.letters

theorem InLayer.join (h : E.InLayer σ₁ layer p σ) (hpool : E.Pooled resolved layer p ctl)
    (hsub : p.toSubmit = []) (hqueue : p.queue = []) (hbusy : p.busy = []) :
    E.LayerEnd σ₁ layer p.outcomes σ := by
  have hout : ∀ s ∈ layer, ∃ ok, p.outcomes.get s.id = some ok := by
    intro s hs
    have hk : s.id ∈ p.ids := hpool.ids.mem_iff.mpr (List.mem_map_of_mem hs)
    simp only [Pool.ids, hsub, hqueue, hbusy, List.map_nil, List.nil_append] at hk
    exact (p.outcomes.mem_keys_iff s.id).mp hk
  refine ⟨hpool.nodup, h.outside, fun s hs => ?_, fun s hs => ?_, h.letters⟩
  · obtain ⟨ok, hok⟩ := hout s hs
    exact (h.outcomes s hs ok hok).2
  · obtain ⟨ok, hok⟩ := hout s hs
    rw [hok, (h.outcomes s hs ok hok).1]

end WorkflowExecutor

end WorkflowEngine
