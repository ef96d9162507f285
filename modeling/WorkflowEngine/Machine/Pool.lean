import WorkflowEngine.Machine.Modes

/-! The thread pool follows the workflow machine.

    While `_run_parallel` is inside its pool, the steps of the layer are spread over the submission
    loop, the queue, the busy workers and the finished futures, each step in exactly one place. A
    submission takes the snapshot, a worker's action is an action of its step, and the join closes
    the layer in configuration order. -/

namespace WorkflowEngine
open Schemes Relation

variable {V P : Type}

namespace WorkflowExecutor

variable {E : WorkflowExecutor V P} {live : Bool}

/-! ### Inside the pool -/

/-- The ids in the pool, place by place. -/
def Pool.ids (p : Pool V P) : List String :=
  p.toSubmit.map StepConfig.id ++ (p.queue.map Job.id ++ (p.busy.map Job.id ++ p.outcomes.keys))

/-- The control points of the steps while the pool holds a layer. -/
structure Pooled (E : WorkflowExecutor V P) (resolved : Finset String)
    (layer : List (StepConfig P)) (p : Pool V P) (ctl : String → Ctl V P) : Prop where
  nonempty : layer ≠ []
  mem : ∀ s ∈ layer, s ∈ E.config.steps
  unresolved : ∀ s ∈ layer, s.id ∉ resolved
  nodup : (layer.map StepConfig.id).Nodup
  settled : ∀ id ∈ resolved, ctl id = .done
  other : ∀ id, id ∉ resolved → id ∉ layer.map StepConfig.id → ctl id = .idle
  toSubmit : ∀ s ∈ p.toSubmit, s ∈ layer ∧ ctl s.id = .started
  queue : ∀ j ∈ p.queue, ctl j.id = .working j.acts j.succeeded
  busy : ∀ j ∈ p.busy, ctl j.id = .working j.acts j.succeeded
  outcomes : ∀ id ok, p.outcomes.get id = some ok → ctl id = .working [] ok
  ids : p.ids.Perm (layer.map StepConfig.id)

theorem ne_of_notMem_map {α β : Type} {f : α → β} {l : List α} {b : β} (hb : b ∉ l.map f) {a : α}
    (ha : a ∈ l) : f a ≠ b := by
  rintro rfl
  exact hb (List.mem_map_of_mem ha)

/-- What was beside `j` was there before `j` left. -/
theorem mem_of_mem_without {α : Type} {l r : List α} {i j : α} (hi : i ∈ l ++ r) :
    i ∈ l ++ j :: r :=
  ((List.sublist_cons_self j r).append_left l).subset hi

/-- A layer at one control point, step by step. -/
theorem ctl_layer_cons (c : Ctl V P) (ctl : String → Ctl V P) (s : StepConfig P)
    (layer : List (StepConfig P)) :
    (fun id => if id ∈ (s :: layer).map StepConfig.id then c else ctl id) =
      fun id => if id ∈ layer.map StepConfig.id then c else Function.update ctl s.id c id := by
  funext id
  by_cases he : id = s.id
  · simp [he]
  · simp [he]

variable {σ : RunState V P} {resolved : Finset String} {layer : List (StepConfig P)} {p : Pool V P}
  {ctl : String → Ctl V P}

/-- The step of an id in the pool. -/
theorem Pooled.step_of (h : Pooled E resolved layer p ctl) {id : String} (hid : id ∈ p.ids) :
    ∃ s ∈ layer, s.id = id := by
  obtain ⟨s, hs, rfl⟩ := List.mem_map.mp (h.ids.mem_iff.mp hid)
  exact ⟨s, hs, rfl⟩

theorem Pooled.take (h : Pooled E resolved layer p ctl) {j : Job V P} {rest : List (Job V P)}
    (hp : p.queue = j :: rest) :
    Pooled E resolved layer { p with queue := rest, busy := p.busy ++ [j] } ctl where
  nonempty := h.nonempty
  mem := h.mem
  unresolved := h.unresolved
  nodup := h.nodup
  settled := h.settled
  other := h.other
  toSubmit := h.toSubmit
  queue i hi := h.queue i (by rw [hp]; exact List.mem_cons_of_mem j hi)
  busy i hi := by
    rcases List.mem_append.mp hi with hi | hi
    · exact h.busy i hi
    · rw [List.mem_singleton.mp hi]; exact h.queue j (by rw [hp]; simp)
  outcomes := h.outcomes
  ids := by
    refine List.Perm.trans ?_ h.ids
    rw [List.perm_iff_count]
    intro a
    simp only [Pool.ids, hp, List.map_cons, List.map_append, List.map_nil, List.count_append,
      List.count_cons, List.count_nil]
    omega

/-- The id of a busy worker's step occurs nowhere else in the pool. -/
theorem Pooled.busy_fresh (h : Pooled E resolved layer p ctl) {l r : List (Job V P)} {j : Job V P}
    (hp : p.busy = l ++ j :: r) : j.id ∉ p.toSubmit.map StepConfig.id ∧ j.id ∉ p.queue.map Job.id ∧
      j.id ∉ (l ++ r).map Job.id ∧ j.id ∉ p.outcomes.keys := by
  have hperm : p.ids.Perm (j.id :: (p.toSubmit.map StepConfig.id ++ (p.queue.map Job.id ++
      ((l ++ r).map Job.id ++ p.outcomes.keys)))) := by
    rw [List.perm_iff_count]
    intro a
    simp only [Pool.ids, hp, List.map_append, List.map_cons, List.count_append, List.count_cons]
    omega
  have hnd := hperm.nodup_iff.mp (h.ids.nodup_iff.mpr h.nodup)
  simpa only [List.mem_append, not_or] using (List.nodup_cons.mp hnd).1

theorem Pooled.finish (h : Pooled E resolved layer p ctl) {l r : List (Job V P)} {j : Job V P}
    (hp : p.busy = l ++ j :: r) (ha : j.acts = []) :
    Pooled E resolved layer
      { p with busy := l ++ r, outcomes := p.outcomes.set j.id j.succeeded } ctl where
  nonempty := h.nonempty
  mem := h.mem
  unresolved := h.unresolved
  nodup := h.nodup
  settled := h.settled
  other := h.other
  toSubmit := h.toSubmit
  queue := h.queue
  busy i hi := h.busy i (by rw [hp]; exact mem_of_mem_without hi)
  outcomes id ok hok := by
    rw [Dict.get_set] at hok
    by_cases he : id = j.id
    · rw [if_pos he] at hok
      have hw := h.busy j (by rw [hp]; simp)
      rw [he, hw, ha, Option.some.inj hok]
    · rw [if_neg he] at hok; exact h.outcomes id ok hok
  ids := by
    refine List.Perm.trans ?_ h.ids
    rw [List.perm_iff_count]
    intro a
    simp only [Pool.ids, Dict.keys_set_of_notMem _ _ _ (h.busy_fresh hp).2.2.2, hp, List.map_cons,
      List.map_append, List.count_append, List.count_cons, List.count_nil]
    omega

variable [PyValue V]

/-! ### The moves of the pool -/

/-- `_run_parallel` marks its whole layer RUNNING first. -/
theorem startLayer_follows : ∀ {layer : List (StepConfig P)} {σ : RunState V P}
    {ctl : String → Ctl V P}, (∀ s ∈ layer, s ∈ E.config.steps) →
    (∀ s ∈ layer, ctl s.id = .idle) → (∀ s ∈ layer, ∀ d ∈ s.deps, ctl d = .done) →
    (∀ s ∈ layer, holds s σ.results.get = true) → (layer.map StepConfig.id).Nodup →
    ReflTransGen (E.MStep live) ⟨σ, ctl⟩
      ⟨layer.foldl (fun σ s => E.acts σ (startActs s)) σ,
        fun id => if id ∈ layer.map StepConfig.id then .started else ctl id⟩
  | [], σ, ctl, _, _, _, _, _ => by simpa using .refl
  | s :: layer, σ, ctl, hmem, hidle, hdeps, hh, hnd => by
      obtain ⟨hs, hnd⟩ := List.nodup_cons.mp hnd
      have hstart : E.MStep live ⟨σ, ctl⟩
          ⟨E.acts σ (startActs s), Function.update ctl s.id .started⟩ :=
        .start (hmem s List.mem_cons_self) (hidle s List.mem_cons_self)
          (hdeps s List.mem_cons_self) (hh s List.mem_cons_self)
      have hne : ∀ t ∈ layer, t.id ≠ s.id := fun t ht he =>
        hs (he ▸ List.mem_map_of_mem ht)
      have hrest : ReflTransGen (E.MStep live)
          ⟨E.acts σ (startActs s), Function.update ctl s.id .started⟩
          ⟨layer.foldl (fun σ s => E.acts σ (startActs s)) (E.acts σ (startActs s)),
            fun id => if id ∈ layer.map StepConfig.id then .started
              else Function.update ctl s.id .started id⟩ := by
        refine startLayer_follows (fun t ht => hmem t (List.mem_cons_of_mem s ht))
          (fun t ht => ?_) (fun t ht d hd => ?_)
          (fun t ht => hh t (List.mem_cons_of_mem s ht)) hnd
        · rw [Function.update_of_ne (hne t ht)]; exact hidle t (List.mem_cons_of_mem s ht)
        · have hdone := hdeps t (List.mem_cons_of_mem s ht) d hd
          have hds : d ≠ s.id := by
            rintro rfl; rw [hidle s List.mem_cons_self] at hdone; simp at hdone
          rw [Function.update_of_ne hds]; exact hdone
      rw [List.foldl_cons, ctl_layer_cons]
      exact hrest.head hstart

/-- After the join the layer is closed in configuration order. -/
theorem publish_follows {outcomes : Dict String Bool} : ∀ {layer : List (StepConfig P)}
    {σ : RunState V P} {ctl : String → Ctl V P}, (∀ s ∈ layer, s ∈ E.config.steps) →
    (∀ s ∈ layer, ∃ ok, outcomes.get s.id = some ok ∧ ctl s.id = .working [] ok) →
    (layer.map StepConfig.id).Nodup →
    ReflTransGen (E.MStep false) ⟨σ, ctl⟩
      ⟨layer.foldl (E.publish outcomes) σ,
        fun id => if id ∈ layer.map StepConfig.id then .done else ctl id⟩
  | [], σ, ctl, _, _, _ => by simpa using .refl
  | s :: layer, σ, ctl, hmem, hout, hnd => by
      obtain ⟨hs, hnd⟩ := List.nodup_cons.mp hnd
      obtain ⟨ok, hok, hw⟩ := hout s List.mem_cons_self
      have hclose : E.MStep false ⟨σ, ctl⟩
          ⟨E.publish outcomes σ s, Function.update ctl s.id .done⟩ := by
        have hp : E.publish outcomes σ s = E.acts σ (closing false s ok σ) := by
          rw [publish, hok]; rfl
        rw [hp]; exact .close (hmem s List.mem_cons_self) hw
      have hrest : ReflTransGen (E.MStep false)
          ⟨E.publish outcomes σ s, Function.update ctl s.id .done⟩
          ⟨layer.foldl (E.publish outcomes) (E.publish outcomes σ s),
            fun id => if id ∈ layer.map StepConfig.id then .done
              else Function.update ctl s.id .done id⟩ := by
        refine publish_follows
          (fun t ht => hmem t (List.mem_cons_of_mem s ht)) (fun t ht => ?_) hnd
        have hne : t.id ≠ s.id := fun he => hs (he ▸ List.mem_map_of_mem ht)
        rw [Function.update_of_ne hne]; exact hout t (List.mem_cons_of_mem s ht)
      rw [List.foldl_cons, ctl_layer_cons]
      exact hrest.head hclose

theorem Pooled.start (h : E.Layer σ resolved layer) (hne : layer ≠ []) :
    Pooled E resolved layer { toSubmit := layer }
      (fun id => if id ∈ layer.map StepConfig.id then .started else ctlOf resolved id) where
  nonempty := hne
  mem := h.mem
  unresolved := h.idle
  nodup := h.nodup
  settled id hid := by
    have hno : id ∉ layer.map StepConfig.id := by
      rintro hm
      obtain ⟨s, hs, rfl⟩ := List.mem_map.mp hm
      exact h.idle s hs hid
    rw [if_neg hno, ctlOf, if_pos hid]
  other id hr hl := by rw [if_neg hl, ctlOf, if_neg hr]
  toSubmit s hs := ⟨hs, if_pos (List.mem_map_of_mem hs)⟩
  queue := by simp
  busy := by simp
  outcomes := by simp
  ids := by simp [Pool.ids, Dict.keys, Dict.empty]

theorem Pooled.submit (h : Pooled E resolved layer p ctl) {s : StepConfig P}
    {rest : List (StepConfig P)} (hp : p.toSubmit = s :: rest) :
    ReflTransGen (E.MStep false) ⟨σ, ctl⟩ ⟨σ, Function.update ctl s.id
      (.working (E.submit σ s).acts (E.submit σ s).succeeded)⟩ ∧
    Pooled E resolved layer { p with toSubmit := rest, queue := p.queue ++ [E.submit σ s] }
      (Function.update ctl s.id (.working (E.submit σ s).acts (E.submit σ s).succeeded)) := by
  obtain ⟨hs, hstarted⟩ := h.toSubmit s (by rw [hp]; simp)
  have hnd : p.ids.Nodup := h.ids.nodup_iff.mpr h.nodup
  rw [Pool.ids, hp, List.map_cons, List.cons_append, List.nodup_cons] at hnd
  obtain ⟨hrest, hqueue, hbusy, hkeys⟩ : s.id ∉ rest.map StepConfig.id ∧
      s.id ∉ p.queue.map Job.id ∧ s.id ∉ p.busy.map Job.id ∧ s.id ∉ p.outcomes.keys := by
    simpa only [List.mem_append, not_or] using hnd.1
  refine ⟨.single (.submit (h.mem s hs) hstarted), ⟨h.nonempty, h.mem, h.unresolved, h.nodup,
    fun id hid => ?_, fun id hr hl => ?_, fun t ht => ?_, fun j hj => ?_, fun j hj => ?_,
    fun id ok hid => ?_, ?_⟩⟩
  · rw [Function.update_of_ne (ne_of_mem_of_not_mem hid (h.unresolved s hs))]
    exact h.settled id hid
  · rw [Function.update_of_ne (ne_of_mem_of_not_mem (List.mem_map_of_mem hs) hl).symm]
    exact h.other id hr hl
  · rw [Function.update_of_ne (ne_of_notMem_map hrest ht)]
    exact h.toSubmit t (by rw [hp]; exact List.mem_cons_of_mem s ht)
  · rcases List.mem_append.mp hj with hj | hj
    · rw [Function.update_of_ne (ne_of_notMem_map hqueue hj)]
      exact h.queue j hj
    · rw [List.mem_singleton.mp hj]; exact Function.update_self ..
  · rw [Function.update_of_ne (ne_of_notMem_map hbusy hj)]; exact h.busy j hj
  · have hk : id ∈ p.outcomes.keys := (p.outcomes.mem_keys_iff id).mpr ⟨ok, hid⟩
    rw [Function.update_of_ne (ne_of_mem_of_not_mem hk hkeys)]; exact h.outcomes id ok hid
  · refine List.Perm.trans ?_ h.ids
    rw [List.perm_iff_count]
    intro a
    simp only [Pool.ids, hp, List.map_cons, List.map_append, List.map_nil, List.count_append,
      List.count_cons, List.count_nil, WorkflowExecutor.submit]
    omega

theorem Pooled.work (h : Pooled E resolved layer p ctl) {l r : List (Job V P)} {j : Job V P}
    {a : Action V P} {rest : List (Action V P)} (hp : p.busy = l ++ j :: r)
    (ha : j.acts = a :: rest) :
    ReflTransGen (E.MStep false) ⟨σ, ctl⟩
      ⟨E.act σ a, Function.update ctl j.id (.working rest j.succeeded)⟩ ∧
    Pooled E resolved layer { p with busy := l ++ { j with acts := rest } :: r }
      (Function.update ctl j.id (.working rest j.succeeded)) := by
  have hj : j ∈ p.busy := by rw [hp]; simp
  have hin : j.id ∈ p.ids := by simp [Pool.ids, hp]
  obtain ⟨s, hs, hid⟩ := h.step_of hin
  have hw := h.busy j hj
  rw [ha, ← hid] at hw
  obtain ⟨hsub, hqueue, hbusy, hkeys⟩ := h.busy_fresh hp
  refine ⟨?_, ⟨h.nonempty, h.mem, h.unresolved, h.nodup, fun id hr => ?_, fun id hr hl => ?_,
    fun t ht => ?_, fun i hi => ?_, fun i hi => ?_, fun id ok hok => ?_, ?_⟩⟩
  · rw [← hid]; exact .single (.work (h.mem s hs) hw)
  · rw [Function.update_of_ne (fun he => h.unresolved s hs (by rw [hid, ← he]; exact hr))]
    exact h.settled id hr
  · have hne : id ≠ j.id := fun he => hl (by rw [he, ← hid]; exact List.mem_map_of_mem hs)
    rw [Function.update_of_ne hne]; exact h.other id hr hl
  · rw [Function.update_of_ne (ne_of_notMem_map hsub ht)]; exact h.toSubmit t ht
  · rw [Function.update_of_ne (ne_of_notMem_map hqueue hi)]; exact h.queue i hi
  · by_cases hl : i ∈ l ++ r
    · rw [Function.update_of_ne (ne_of_notMem_map hbusy hl)]
      refine h.busy i ?_
      rw [hp]
      rcases List.mem_append.mp hl with hl | hl
      · exact List.mem_append_left _ hl
      · exact List.mem_append_right _ (List.mem_cons_of_mem j hl)
    · have hi' : i = { j with acts := rest } := by
        simp only [List.mem_append, List.mem_cons, not_or] at hi hl
        tauto
      rw [hi']; exact Function.update_self ..
  · have hk : id ∈ p.outcomes.keys := (p.outcomes.mem_keys_iff id).mpr ⟨ok, hok⟩
    rw [Function.update_of_ne (ne_of_mem_of_not_mem hk hkeys)]; exact h.outcomes id ok hok
  · have hids := h.ids
    simpa [Pool.ids, hp] using hids

theorem Pooled.join (h : Pooled E resolved layer p ctl) (hsub : p.toSubmit = [])
    (hqueue : p.queue = []) (hbusy : p.busy = []) :
    ReflTransGen (E.MStep false) ⟨σ, ctl⟩ ⟨layer.foldl (E.publish p.outcomes) σ,
      ctlOf (resolved ∪ (layer.map StepConfig.id).toFinset)⟩ := by
  have hctl : (ctlOf (resolved ∪ (layer.map StepConfig.id).toFinset) : String → Ctl V P) =
      fun id => if id ∈ layer.map StepConfig.id then .done else ctl id := by
    funext id
    by_cases hl : id ∈ layer.map StepConfig.id
    · simp only [ctlOf, Finset.mem_union, List.mem_toFinset, hl, or_true, if_true]
    · by_cases hr : id ∈ resolved
      · simp only [ctlOf, Finset.mem_union, List.mem_toFinset, hl, hr, true_or, if_true, if_false]
        exact (h.settled id hr).symm
      · simp only [ctlOf, Finset.mem_union, List.mem_toFinset, hl, hr, or_false, if_false]
        exact (h.other id hr hl).symm
  rw [hctl]
  refine publish_follows h.mem (fun s hs => ?_) h.nodup
  have hk : s.id ∈ p.ids := h.ids.mem_iff.mpr (List.mem_map_of_mem hs)
  simp only [Pool.ids, hsub, hqueue, hbusy, List.map_nil, List.nil_append] at hk
  obtain ⟨ok, hok⟩ := (p.outcomes.mem_keys_iff s.id).mp hk
  exact ⟨ok, hok, h.outcomes s.id ok hok⟩

end WorkflowExecutor

end WorkflowEngine
