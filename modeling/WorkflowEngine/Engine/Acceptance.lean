import WorkflowEngine.Engine.Parser
import WorkflowEngine.Schemes.Topological
import Mathlib.Data.List.Count
import Mathlib.Tactic.Linarith

/-! What the static check guarantees.

    The queue loop is followed with the list `done` of the nodes it has popped: the in-degree of a
    node counts its edges from nodes not yet popped, and the nodes popped or queued are exactly
    those of in-degree zero. So the loop ends, and an accepted definition has a topological order:
    every dependency is a step and stands before the steps that need it. -/

namespace WorkflowEngine
open Schemes

variable {P : Type}

/-- `d` is a dependency of step `x`: listed, or the source of its condition. -/
def Dep (steps : List (StepConfig P)) (d x : String) : Prop :=
  ∃ s ∈ steps, s.id = x ∧ d ∈ s.deps

/-- The dependency pairs in the order in which they are counted. -/
def edges (steps : List (StepConfig P)) : List (String × String) :=
  steps.flatMap fun s => s.deps.map fun d => (d, s.id)

theorem mem_edges (steps : List (StepConfig P)) (d x : String) :
    (d, x) ∈ edges steps ↔ Dep steps d x := by
  simp only [edges, Dep, List.mem_flatMap, List.mem_map, Prod.mk.injEq]
  constructor
  · rintro ⟨s, hs, e, he, rfl, rfl⟩; exact ⟨s, hs, rfl, he⟩
  · rintro ⟨s, hs, rfl, hd⟩; exact ⟨s, hs, d, hd, rfl, rfl⟩

/-! ### Building the graph -/

def Graph.degree (d : Dict String ℤ) (v : String) : ℤ := (d.get v).getD 0

/-- `g` holds exactly the edges `es` over the nodes `ids`. -/
structure Graph.Holds (ids : List String) (es : List (String × String)) (g : Graph) : Prop where
  keys : ∀ v, v ∈ g.inDegree.keys ↔ v ∈ ids
  degree : ∀ v, Graph.degree g.inDegree v = (es.countP fun e => e.2 = v : ℕ)
  adjacency : ∀ v, (g.adjacency.get v).getD [] = (es.filter fun e => e.1 = v).map Prod.snd
  source : ∀ e ∈ es, e.1 ∈ ids

theorem Graph.holds_bare (ids : List String) : (Graph.bare ids).Holds ids [] where
  keys v := by
    rw [Dict.mem_keys_iff, Graph.bare, Dict.get_ofList_map]
    by_cases h : v ∈ ids <;> simp [h]
  degree v := by
    rw [Graph.degree, Graph.bare, Dict.get_ofList_map]
    by_cases h : v ∈ ids <;> simp [h]
  adjacency v := by
    rw [Graph.bare, Dict.get_ofList_map]
    by_cases h : v ∈ ids <;> simp [h]
  source := by simp

theorem Graph.Holds.addDep {ids : List String} {es : List (String × String)} {g g' : Graph}
    {id dep : String} (hg : g.Holds ids es) (hid : id ∈ ids)
    (h : addDep ids id g dep = .ok g') : g'.Holds ids (es ++ [(dep, id)]) := by
  unfold WorkflowEngine.addDep at h
  split at h
  · rename_i hdep
    obtain rfl := (Except.ok.inj h).symm
    refine ⟨fun v => ?_, fun v => ?_, fun v => ?_, ?_⟩
    · have hk := hg.keys v
      rw [Dict.mem_keys_iff] at hk ⊢
      simp only [Dict.get_set]
      by_cases hv : v = id
      · simp [hv, hid]
      · simpa [hv] using hk
    · have hd := hg.degree v
      simp only [Graph.degree, Dict.get_set, List.countP_append, List.countP_cons,
        List.countP_nil] at hd ⊢
      by_cases hv : v = id
      · subst hv; simp [hd]
      · simp [hv, hd, Ne.symm hv]
    · have ha := hg.adjacency
      simp only [Dict.get_set, List.filter_append, List.map_append]
      by_cases hv : v = dep
      · subst hv; simp [ha]
      · simp [hv, ha, Ne.symm hv]
    · intro e he
      rcases List.mem_append.mp he with he | he
      · exact hg.source e he
      · rw [List.mem_singleton.mp he]; exact hdep
  · simp at h

theorem foldlM_ok {S A E : Type} {f : S → A → Except E S} {a : A} {l : List A} {s t : S}
    (h : (a :: l).foldlM f s = .ok t) : ∃ u, f s a = .ok u ∧ l.foldlM f u = .ok t := by
  rw [List.foldlM_cons] at h
  cases hf : f s a with
  | error e => rw [hf] at h; exact absurd h (by simp [bind, Except.bind])
  | ok u => rw [hf] at h; exact ⟨u, rfl, h⟩

theorem Graph.Holds.addDeps {ids : List String} {id : String} (hid : id ∈ ids) :
    ∀ {deps : List String} {es : List (String × String)} {g g' : Graph}, g.Holds ids es →
      deps.foldlM (WorkflowEngine.addDep ids id) g = .ok g' →
      g'.Holds ids (es ++ deps.map fun d => (d, id))
  | [], es, g, g', hg, h => by
      obtain rfl := Except.ok.inj h
      simpa using hg
  | d :: deps, es, g, g', hg, h => by
      obtain ⟨u, hu, h⟩ := foldlM_ok h
      simpa using Graph.Holds.addDeps hid (hg.addDep hid hu) h

theorem Graph.Holds.addSteps {ids : List String} :
    ∀ {steps : List (StepConfig P)} {es : List (String × String)} {g g' : Graph},
      (∀ s ∈ steps, s.id ∈ ids) → g.Holds ids es → steps.foldlM (addStep ids) g = .ok g' →
      g'.Holds ids (es ++ edges steps)
  | [], es, g, g', _, hg, h => by
      obtain rfl := Except.ok.inj h
      simpa [edges] using hg
  | s :: steps, es, g, g', hmem, hg, h => by
      obtain ⟨u, hu, h⟩ := foldlM_ok h
      have hs := hg.addDeps (hmem s List.mem_cons_self) hu
      have hrest := Graph.Holds.addSteps (fun t ht => hmem t (List.mem_cons_of_mem s ht)) hs h
      simpa [edges] using hrest

/-! ### The queue loop -/

/-- Relaxing all of `succ` lowers every degree by its multiplicity and queues, once each, the nodes
    of `succ` that reach zero. -/
theorem relax_foldl (c : String → ℕ) : ∀ (succ : List String) (d : Dict String ℤ)
    (queue : List String), (∀ v, Graph.degree d v = c v + succ.count v) →
    ∃ d' added, succ.foldl relax (d, queue) = (d', queue ++ added) ∧
      (∀ v, Graph.degree d' v = c v) ∧ added.Nodup ∧ (∀ v, v ∈ added ↔ v ∈ succ ∧ c v = 0) ∧
      ∀ v, v ∈ d'.keys ↔ v ∈ d.keys ∨ v ∈ succ
  | [], d, queue, hd => ⟨d, [], by simp, by simpa using hd, List.nodup_nil, by simp, by simp⟩
  | x :: succ, d, queue, hd => by
      have hx : Graph.degree d x - 1 = c x + succ.count x := by
        rw [hd x, List.count_cons_self]; push_cast; omega
      have hd1 : ∀ v, Graph.degree (d.set x (Graph.degree d x - 1)) v = c v + succ.count v := by
        intro v
        by_cases hv : v = x
        · subst hv; simpa [Graph.degree] using hx
        · have := hd v
          simpa [Graph.degree, hv, List.count_cons, Ne.symm hv] using this
      have hk1 : ∀ v, v ∈ (d.set x (Graph.degree d x - 1)).keys ↔ v ∈ d.keys ∨ v = x := by
        intro v
        simp only [Dict.mem_keys_iff, Dict.get_set]
        by_cases hv : v = x <;> simp [hv]
      rw [List.foldl_cons]
      by_cases hz : Graph.degree d x - 1 = 0
      · obtain ⟨d', added, hf, hdeg, hnd, hadd, hkeys⟩ :=
          relax_foldl c succ (d.set x (Graph.degree d x - 1)) (queue ++ [x]) hd1
        have hcx : c x = 0 ∧ x ∉ succ := by
          rw [hx] at hz
          have h0 : c x = 0 ∧ succ.count x = 0 := by omega
          exact ⟨h0.1, List.count_eq_zero.mp h0.2⟩
        refine ⟨d', x :: added, ?_, hdeg, ?_, fun v => ?_, fun v => ?_⟩
        · have hr : relax (d, queue) x = (d.set x (Graph.degree d x - 1), queue ++ [x]) := by
            simp only [relax]; rw [← Graph.degree, if_pos hz]
          rw [hr, hf]; simp
        · exact List.nodup_cons.mpr ⟨fun hm => hcx.2 ((hadd x).mp hm).1, hnd⟩
        · rw [List.mem_cons, hadd v, List.mem_cons]
          constructor
          · rintro (rfl | ⟨hm, h0⟩)
            · exact ⟨Or.inl rfl, hcx.1⟩
            · exact ⟨Or.inr hm, h0⟩
          · rintro ⟨rfl | hm, h0⟩
            · exact Or.inl rfl
            · exact Or.inr ⟨hm, h0⟩
        · rw [hkeys v, hk1 v, List.mem_cons, or_assoc]
      · obtain ⟨d', added, hf, hdeg, hnd, hadd, hkeys⟩ :=
          relax_foldl c succ (d.set x (Graph.degree d x - 1)) queue hd1
        refine ⟨d', added, ?_, hdeg, hnd, fun v => ?_, fun v => ?_⟩
        · have hr : relax (d, queue) x = (d.set x (Graph.degree d x - 1), queue) := by
            simp only [relax]; rw [← Graph.degree, if_neg hz]
          rw [hr, hf]
        · rw [hadd v, List.mem_cons]
          constructor
          · rintro ⟨hm, h0⟩; exact ⟨Or.inr hm, h0⟩
          · rintro ⟨rfl | hm, h0⟩
            · refine ⟨List.count_pos_iff.mp ?_, h0⟩
              rw [hx, h0] at hz; omega
            · exact ⟨hm, h0⟩
        · rw [hkeys v, hk1 v, List.mem_cons, or_assoc]

/-- The state of the queue loop after the nodes `done` have been popped. -/
structure Draining (ids : List String) (es : List (String × String)) (done : List String)
    (d : Dict String ℤ) (queue : List String) : Prop where
  keys : ∀ v, v ∈ d.keys ↔ v ∈ ids
  degree : ∀ v, Graph.degree d v = (es.countP fun e => e.2 = v ∧ e.1 ∉ done : ℕ)
  nodup : (done ++ queue).Nodup
  zero : ∀ v, v ∈ done ++ queue ↔ v ∈ ids ∧ Graph.degree d v = 0
  earlier : ∀ pre x post, done = pre ++ x :: post → ∀ u, (u, x) ∈ es → u ∈ pre

theorem Draining.length_le {ids : List String} {es : List (String × String)} {done : List String}
    {d : Dict String ℤ} {queue : List String} (h : Draining ids es done d queue) :
    (done ++ queue).length ≤ ids.length :=
  (h.nodup.subperm fun v hv => ((h.zero v).mp hv).1).length_le

/-- Popping a node splits the edges still counted into its own and the rest. -/
theorem countP_pop (es : List (String × String)) (done : List String) (node v : String)
    (hn : node ∉ done) :
    es.countP (fun e => e.2 = v ∧ e.1 ∉ done)
      = es.countP (fun e => e.2 = v ∧ e.1 ∉ done ++ [node])
        + ((es.filter fun e => e.1 = node).map Prod.snd).count v := by
  induction es with
  | nil => rfl
  | cons e es ih =>
    obtain ⟨a, b⟩ := e
    by_cases ha : a = node
    · subst ha
      by_cases hb : b = v
      · subst hb; simp [hn] at ih ⊢; omega
      · simp [hb] at ih ⊢; omega
    · by_cases hb : b = v
      · by_cases hd : a ∈ done
        · simp [ha, hb, hd] at ih ⊢; omega
        · simp [ha, hb, hd] at ih ⊢; omega
      · simp [ha, hb] at ih ⊢; omega

theorem Draining.pop {ids : List String} {es : List (String × String)} {done : List String}
    {d : Dict String ℤ} {node : String} {queue : List String} {adj : Dict String (List String)}
    (hes : ∀ e ∈ es, e.2 ∈ ids)
    (hadj : ∀ v, (adj.get v).getD [] = (es.filter fun e => e.1 = v).map Prod.snd)
    (h : Draining ids es done d (node :: queue)) :
    ∃ d' queue', ((adj.get node).getD []).foldl relax (d, queue) = (d', queue') ∧
      Draining ids es (done ++ [node]) d' queue' := by
  have hnode : node ∉ done := fun hm => (List.nodup_append.mp h.nodup).2.2 node hm node (by simp) rfl
  have hsplit := fun v => countP_pop es done node v hnode
  obtain ⟨d', added, hf, hdeg, hnd, hadd, hkeys⟩ :=
    relax_foldl (fun v => es.countP fun e => e.2 = v ∧ e.1 ∉ done ++ [node])
      ((es.filter fun e => e.1 = node).map Prod.snd) d queue
      (fun v => by rw [h.degree v, hsplit v]; push_cast; rfl)
  have hsucc : ∀ v, v ∈ (es.filter fun e => e.1 = node).map Prod.snd → v ∈ ids ∧
      Graph.degree d v ≠ 0 := by
    intro v hv
    obtain ⟨e, he, rfl⟩ := List.mem_map.mp hv
    refine ⟨hes e (List.mem_filter.mp he).1, fun h0 => ?_⟩
    have hpos := List.count_pos_iff.mpr hv
    rw [h.degree, hsplit] at h0
    omega
  refine ⟨d', queue ++ added, by rw [hadj, hf], ⟨fun v => ?_, hdeg, ?_, fun v => ?_, ?_⟩⟩
  · rw [hkeys v, h.keys v]
    exact ⟨fun hv => hv.elim (fun hi => hi) fun hs => (hsucc v hs).1, Or.inl⟩
  · have hre : done ++ [node] ++ (queue ++ added) = done ++ node :: queue ++ added := by simp
    rw [hre, List.nodup_append]
    refine ⟨h.nodup, hnd, ?_⟩
    rintro a ha b hb rfl
    exact (hsucc a ((hadd a).mp hb).1).2 ((h.zero a).mp ha).2
  · have hre : v ∈ done ++ [node] ++ (queue ++ added) ↔ v ∈ done ++ node :: queue ∨ v ∈ added := by
      simp; tauto
    rw [hre, h.zero v, hadd v, hdeg v, h.degree v, hsplit v]
    constructor
    · rintro (⟨hi, h0⟩ | ⟨hs, h0⟩)
      · exact ⟨hi, by omega⟩
      · exact ⟨(hsucc v hs).1, by exact_mod_cast h0⟩
    · rintro ⟨hi, h0⟩
      by_cases hs : v ∈ (es.filter fun e => e.1 = node).map Prod.snd
      · exact Or.inr ⟨hs, by exact_mod_cast h0⟩
      · exact Or.inl ⟨hi, by rw [List.count_eq_zero.mpr hs]; exact_mod_cast h0⟩
  · intro pre x post he u hu
    rcases List.eq_nil_or_concat post with rfl | ⟨post, y, rfl⟩
    · obtain ⟨rfl, hx⟩ := List.append_inj' he rfl
      obtain rfl : node = x := (List.cons.inj hx).1
      have h0 := ((h.zero node).mp (by simp)).2
      rw [h.degree] at h0
      have hno := List.countP_eq_zero.mp (Int.natCast_eq_zero.mp h0) (u, node) hu
      simpa using hno
    · rw [List.concat_eq_append, ← List.cons_append, ← List.append_assoc] at he
      exact h.earlier pre x post (List.append_inj' he rfl).1 u hu

/-- With an iteration for each node left, the loop ends with an empty queue. -/
theorem drain_spec {ids : List String} {es : List (String × String)}
    {adj : Dict String (List String)} (hes : ∀ e ∈ es, e.2 ∈ ids)
    (hadj : ∀ v, (adj.get v).getD [] = (es.filter fun e => e.1 = v).map Prod.snd) :
    ∀ (fuel : ℕ) (done : List String) (d : Dict String ℤ) (queue : List String),
      Draining ids es done d queue → ids.length ≤ fuel + done.length →
      ∃ d' done', drain adj fuel d queue done.length = some (d', done'.length) ∧
        Draining ids es done' d' []
  | fuel, done, d, [], h, _ => ⟨d, done, by cases fuel <;> rfl, h⟩
  | 0, done, d, node :: queue, h, hf => by
      have hle := h.length_le
      simp only [List.length_append, List.length_cons] at hle
      omega
  | fuel + 1, done, d, node :: queue, h, hf => by
      obtain ⟨d', queue', hpop, h'⟩ := h.pop hes hadj
      have hlen : (done ++ [node]).length = done.length + 1 := by simp
      obtain ⟨d'', done'', hd, hfin⟩ := drain_spec hes hadj fuel (done ++ [node]) d' queue' h'
        (by omega)
      exact ⟨d'', done'', by rw [drain, hpop, ← hlen]; exact hd, hfin⟩

/-- The queue before the first iteration: the nodes without an edge. -/
theorem draining_start {ids : List String} {es : List (String × String)} {g : Graph}
    (hg : g.Holds ids es) :
    Draining ids es [] g.inDegree ((g.inDegree.entries.filter fun e => e.2 = 0).map Prod.fst) where
  keys := hg.keys
  degree v := by simpa using hg.degree v
  nodup := by simpa using g.inDegree.nodup.sublist (List.filter_sublist.map _)
  zero v := by
    have hk := hg.keys v
    rw [Dict.mem_keys_iff] at hk
    have hmem : v ∈ (g.inDegree.entries.filter fun e => e.2 = 0).map Prod.fst ↔
        g.inDegree.get v = some 0 := by simp [Dict.mem_entries_iff]
    rw [List.nil_append, hmem, ← hk, Graph.degree]
    constructor
    · intro h; rw [h]; exact ⟨⟨0, rfl⟩, rfl⟩
    · rintro ⟨⟨w, hw⟩, h0⟩; rw [hw] at h0 ⊢; exact congrArg some h0
  earlier pre x post h := by simp at h

/-! ### What the check does -/

theorem dep_target {steps : List (StepConfig P)} {d x : String} (h : Dep steps d x) :
    x ∈ steps.map StepConfig.id := by
  obtain ⟨s, hs, rfl, -⟩ := h
  exact List.mem_map_of_mem hs

theorem foldlM_error {S A E : Type} {f : S → A → Except E S} : ∀ {l : List A} {s : S} {e : E},
    l.foldlM f s = .error e → ∃ a ∈ l, ∃ t, f t a = .error e
  | [], s, e, h => by simp [pure, Except.pure] at h
  | a :: l, s, e, h => by
      rw [List.foldlM_cons] at h
      cases hf : f s a with
      | error e' =>
        rw [hf] at h
        obtain rfl : e' = e := Except.error.inj h
        exact ⟨a, List.mem_cons_self, s, hf⟩
      | ok u =>
        rw [hf] at h
        obtain ⟨b, hb, t, ht⟩ := foldlM_error h
        exact ⟨b, List.mem_cons_of_mem a hb, t, ht⟩

/-- Counting fails only at a dependency that is no step. -/
theorem addSteps_error {ids : List String} {steps : List (StepConfig P)} {g : Graph}
    {e : ValidationError} (h : steps.foldlM (addStep ids) g = .error e) :
    ∃ s ∈ steps, ∃ d ∈ s.deps, d ∉ ids ∧ e = .unknownStep s.id d := by
  obtain ⟨s, hs, t, hstep⟩ := foldlM_error h
  obtain ⟨d, hd, u, hdep⟩ := foldlM_error hstep
  refine ⟨s, hs, d, hd, ?_⟩
  rw [addDep] at hdep
  split_ifs at hdep with hmem
  exact ⟨hmem, (Except.error.inj hdep).symm⟩

/-- The nodes that the queue loop is left with, as `detectCycles` reports them. -/
def unresolved (inDegree : Dict String ℤ) : List String :=
  ((inDegree.entries.filter fun e => e.2 > 0).map Prod.fst).insertionSort (· ≤ ·)

/-- The check stops at an unknown dependency, or pops nodes until none of in-degree zero is left. -/
inductive Checked (steps : List (StepConfig P)) : Except ValidationError Unit → Prop where
  | unknown {s : StepConfig P} {d : String} (step : s ∈ steps) (dep : d ∈ s.deps)
      (missing : d ∉ steps.map StepConfig.id) : Checked steps (.error (.unknownStep s.id d))
  | popped {done : List String} {inDegree : Dict String ℤ}
      (known : ∀ d x, Dep steps d x → d ∈ steps.map StepConfig.id)
      (drained : Draining (steps.map StepConfig.id) (edges steps) done inDegree []) :
      Checked steps (if done.length ≠ steps.length then .error (.cycle (unresolved inDegree))
        else .ok ())

/-- SPEC: the queue loop ends within its iterations. -/
theorem detectCycles_checked (steps : List (StepConfig P)) : Checked steps (detectCycles steps) := by
  unfold detectCycles
  cases hg : steps.foldlM (addStep (steps.map StepConfig.id)) (Graph.bare (steps.map StepConfig.id))
    with
  | error e =>
    obtain ⟨s, hs, d, hd, hmem, rfl⟩ := addSteps_error hg
    simp only [hg, bind, Except.bind]
    exact .unknown hs hd hmem
  | ok g =>
    have hholds : g.Holds (steps.map StepConfig.id) (edges steps) := by
      simpa using Graph.Holds.addSteps (fun s hs => List.mem_map_of_mem hs)
        (Graph.holds_bare (steps.map StepConfig.id)) hg
    have hes : ∀ e ∈ edges steps, e.2 ∈ steps.map StepConfig.id := by
      rintro ⟨d, x⟩ he
      exact dep_target ((mem_edges steps d x).mp he)
    obtain ⟨d', done, hdrain, hfin⟩ := drain_spec hes hholds.adjacency steps.length [] g.inDegree _
      (draining_start hholds) (by simp)
    simp only [List.length_nil] at hdrain
    simp only [hg, bind, Except.bind, hdrain]
    exact .popped (fun d x h => hholds.source _ ((mem_edges steps d x).mpr h)) hfin

/-- The nodes popped are ordered by the dependencies. -/
theorem Draining.isInitial {steps : List (StepConfig P)} {ids done : List String}
    {inDegree : Dict String ℤ} (h : Draining ids (edges steps) done inDegree []) :
    Topological.IsInitial (Dep steps) done where
  nodup := by simpa using h.nodup
  earlier pre x post he d hd := h.earlier pre x post he d ((mem_edges steps d x).mpr hd)

theorem Draining.mem_done {ids done : List String} {es : List (String × String)}
    {inDegree : Dict String ℤ} (h : Draining ids es done inDegree []) (v : String) :
    v ∈ done ↔ v ∈ ids ∧ Graph.degree inDegree v = 0 := by
  simpa using h.zero v

/-- With distinct ids, as many nodes are popped as there are steps exactly if all of them are. -/
theorem Draining.all_done_iff {ids done : List String} {es : List (String × String)}
    {inDegree : Dict String ℤ} (h : Draining ids es done inDegree []) (hids : ids.Nodup) :
    done.length = ids.length ↔ ∀ v ∈ ids, v ∈ done := by
  have hnodup : done.Nodup := by simpa using h.nodup
  have hsub : done ⊆ ids := fun v hv => ((h.mem_done v).mp hv).1
  constructor
  · intro hlen v hv
    exact ((hnodup.subperm hsub).perm_of_length_le hlen.ge).mem_iff.mpr hv
  · intro hall
    exact le_antisymm (hnodup.subperm hsub).length_le (hids.subperm hall).length_le

/-! ### Accepted definitions -/

/-- Every dependency is a step, and the steps have a topological order. -/
structure Acyclic (steps : List (StepConfig P)) : Prop where
  known : ∀ d x, Dep steps d x → d ∈ steps.map StepConfig.id
  order : ∃ order, Topological.IsOrder (Dep steps) order ∧ ∀ s ∈ steps, s.id ∈ order

theorem dep_perm {steps steps' : List (StepConfig P)} (h : steps'.Perm steps) :
    Dep steps' = Dep steps := by
  funext d x
  exact propext (exists_congr fun s => and_congr_left fun _ => h.mem_iff)

/-- The order of the definition's list does not matter. -/
theorem Acyclic.perm {steps steps' : List (StepConfig P)} (h : Acyclic steps)
    (hp : steps'.Perm steps) : Acyclic steps' where
  known d x hd := by
    rw [dep_perm hp] at hd
    exact (hp.map StepConfig.id).mem_iff.mpr (h.known d x hd)
  order := by
    rw [dep_perm hp]
    obtain ⟨order, ho, hmem⟩ := h.order
    exact ⟨order, ho, fun s hs => hmem s (hp.mem_iff.mp hs)⟩

/-- ACCEPTED: a definition that passes the check has only known dependencies and a topological
    order of all its steps. -/
theorem acyclic_of_accepted {steps : List (StepConfig P)} (hacc : detectCycles steps = .ok ()) :
    Acyclic steps := by
  have hchecked := detectCycles_checked steps
  rw [hacc] at hchecked
  generalize hr : Except.ok () = r at hchecked
  cases hchecked with
  | unknown => exact absurd hr (by simp)
  | @popped done inDegree known drained =>
    have hlen : done.length = steps.length := by
      by_contra hne
      rw [if_pos hne] at hr
      exact absurd hr (by simp)
    have hperm := (List.Nodup.subperm (by simpa using drained.nodup) fun v hv =>
      ((drained.mem_done v).mp hv).1).perm_of_length_le (by simp [hlen])
    have hall : ∀ x ∈ steps.map StepConfig.id, x ∈ done := fun x hx => hperm.mem_iff.mpr hx
    exact ⟨known, done, ⟨drained.isInitial.nodup, fun d x h => hall x (dep_target h),
      drained.isInitial.earlier⟩, fun s hs => hall s.id (List.mem_map_of_mem hs)⟩

end WorkflowEngine
