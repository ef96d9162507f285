import WorkflowEngine.Engine.Acceptance

/-! What the static check decides.

    The graph has an edge to a step from every entry of its `depends_on` and from its condition's
    source. The check fails for an unknown source; otherwise it fails exactly for a cycle, and then
    names the steps on or after one. It sees the graph only, so listing a dependency twice, or the
    condition's source in `depends_on` as well, makes no difference. -/

namespace WorkflowEngine
open Schemes Relation Topological

variable {P : Type}

/-- `d` is an entry of `depends_on` of step `x`, or the source of its condition. -/
def Needs (steps : List (StepConfig P)) (d x : String) : Prop :=
  ∃ s ∈ steps, s.id = x ∧ (d ∈ s.listed ∨ ∃ c, s.condition = some c ∧ c.step = d)

theorem needs_eq_dep (steps : List (StepConfig P)) : Needs steps = Dep steps := by
  funext d x
  refine propext (exists_congr fun s => and_congr_right fun _ => and_congr_right fun _ => ?_)
  exact (s.mem_deps d).symm

/-- Whatever is on a cycle is a step. -/
theorem needs_target {steps : List (StepConfig P)} {u v : String}
    (h : TransGen (Needs steps) u v) : v ∈ steps.map StepConfig.id := by
  rw [needs_eq_dep] at h
  cases h with
  | single hd => exact dep_target hd
  | tail _ hd => exact dep_target hd

/-- Every source of an edge is a step. -/
def Closed (steps : List (StepConfig P)) : Prop :=
  ∀ d x, Needs steps d x → d ∈ steps.map StepConfig.id

/-- Two outcomes of the check that differ at most in the unknown step they name. -/
def SameVerdict : Except ValidationError Unit → Except ValidationError Unit → Prop
  | .error (.unknownStep _ _), .error (.unknownStep _ _) => True
  | a, b => a = b

/-- The strictly sorted list of the steps on or after a cycle. -/
structure Unresolved (steps : List (StepConfig P)) (l : List String) : Prop where
  sorted : l.Pairwise (· < ·)
  mem : ∀ v, v ∈ l ↔ v ∈ steps.map StepConfig.id ∧ Tangled (Needs steps) v

theorem Unresolved.unique {steps : List (StepConfig P)} {l l' : List String}
    (h : Unresolved steps l) (h' : Unresolved steps l') : l = l' := by
  have hperm : l.Perm l' := (List.perm_ext_iff_of_nodup h.sorted.nodup h'.sorted.nodup).mpr
    fun v => (h.mem v).trans (h'.mem v).symm
  exact hperm.eq_of_pairwise (fun a b _ _ hab hba => absurd hab (lt_asymm hba)) h.sorted h'.sorted

/-- What the check says of a list of steps. -/
inductive Verdict (steps : List (StepConfig P)) : Except ValidationError Unit → Prop where
  | unknown {s d : String} (needs : Needs steps d s) (missing : d ∉ steps.map StepConfig.id) :
      Verdict steps (.error (.unknownStep s d))
  | cycle {l : List String} (closed : Closed steps) (cyclic : ∃ u, TransGen (Needs steps) u u)
      (unresolved : Unresolved steps l) : Verdict steps (.error (.cycle l))
  | acyclic (closed : Closed steps) (acyclic : ¬ ∃ u, TransGen (Needs steps) u u) :
      Verdict steps (.ok ())

section Popped
variable {steps : List (StepConfig P)} {done : List String} {inDegree : Dict String ℤ}
  (closed : Closed steps)
  (drained : Draining (steps.map StepConfig.id) (edges steps) done inDegree [])
include closed drained

/-- A step that was not popped needs another one. -/
theorem Draining.stuck {v : String} (hv : v ∈ steps.map StepConfig.id) (hno : v ∉ done) :
    ∃ d ∈ steps.map StepConfig.id, d ∉ done ∧ Needs steps d v := by
  have hdegree : Graph.degree inDegree v ≠ 0 := fun h0 => hno ((drained.mem_done v).mpr ⟨hv, h0⟩)
  rw [drained.degree v] at hdegree
  obtain ⟨⟨d, x⟩, he, hd⟩ := List.countP_pos_iff.mp (Nat.pos_of_ne_zero (by exact_mod_cast hdegree))
  obtain ⟨rfl, hnot⟩ : x = v ∧ d ∉ done := by simpa using hd
  have hneeds : Needs steps d x := needs_eq_dep steps ▸ (mem_edges steps d x).mp he
  exact ⟨d, closed d x hneeds, hnot, hneeds⟩

/-- The steps that were not popped are those on or after a cycle. -/
theorem Draining.not_done_iff {v : String} (hv : v ∈ steps.map StepConfig.id) :
    v ∉ done ↔ Tangled (Needs steps) v := by
  constructor
  · intro hno
    let rest : Set String := {x | x ∈ steps.map StepConfig.id ∧ x ∉ done}
    have hrest : v ∈ rest := ⟨hv, hno⟩
    refine tangled_of_stuck ?_ ?_ hrest
    · exact (steps.map StepConfig.id).finite_toSet.subset fun x hx => hx.1
    · rintro x ⟨hx, hxno⟩
      obtain ⟨d, hd, hdno, hneeds⟩ := drained.stuck closed hx hxno
      exact ⟨d, ⟨hd, hdno⟩, hneeds⟩
  · intro htangled hdone
    rw [needs_eq_dep] at htangled
    exact drained.isInitial.not_tangled hdone htangled

/-- The nodes reported are those that were not popped. -/
theorem Draining.unresolved : Unresolved steps (WorkflowEngine.unresolved inDegree) := by
  have hperm := List.perm_insertionSort (· ≤ ·)
    ((inDegree.entries.filter fun e => e.2 > 0).map Prod.fst)
  have hnodup : (WorkflowEngine.unresolved inDegree).Nodup :=
    hperm.nodup_iff.mpr (inDegree.nodup.sublist (List.filter_sublist.map _))
  refine ⟨?_, fun v => ?_⟩
  · have hle := List.pairwise_insertionSort (· ≤ ·)
      ((inDegree.entries.filter fun e => e.2 > 0).map Prod.fst)
    exact (hle.and hnodup).imp fun h => lt_of_le_of_ne h.1 h.2
  · rw [WorkflowEngine.unresolved, hperm.mem_iff]
    have hmem : v ∈ (inDegree.entries.filter fun e => e.2 > 0).map Prod.fst ↔
        v ∈ inDegree.keys ∧ 0 < Graph.degree inDegree v := by
      rw [Dict.mem_keys_iff, Graph.degree]
      constructor
      · intro h
        obtain ⟨⟨k, n⟩, he, rfl⟩ := List.mem_map.mp h
        obtain ⟨hentry, hpos⟩ := List.mem_filter.mp he
        have hget := (Dict.mem_entries_iff _ _ _).mp hentry
        exact ⟨⟨n, hget⟩, by rw [hget]; simpa using hpos⟩
      · rintro ⟨⟨n, hget⟩, hpos⟩
        rw [hget] at hpos
        refine List.mem_map.mpr ⟨(v, n), List.mem_filter.mpr ⟨?_, by simpa using hpos⟩, rfl⟩
        exact (Dict.mem_entries_iff _ _ _).mpr hget
    rw [hmem, drained.keys v]
    refine and_congr_right fun hv => ?_
    rw [← drained.not_done_iff closed hv, drained.mem_done v, drained.degree v]
    constructor
    · intro hpos hdone
      omega
    · intro hno
      have : ¬ ((edges steps).countP fun e => e.2 = v ∧ e.1 ∉ done : ℕ) = (0 : ℤ) :=
        fun h0 => hno ⟨hv, h0⟩
      omega

end Popped

theorem detectCycles_verdict {steps : List (StepConfig P)}
    (distinct : (steps.map StepConfig.id).Nodup) : Verdict steps (detectCycles steps) := by
  have hchecked := detectCycles_checked steps
  generalize detectCycles steps = r at hchecked
  cases hchecked with
  | unknown step dep missing =>
    exact .unknown (needs_eq_dep steps ▸ ⟨_, step, rfl, dep⟩) missing
  | @popped done inDegree known drained =>
    have closed : Closed steps := by
      intro d x h
      rw [needs_eq_dep] at h
      exact known d x h
    have hall := drained.all_done_iff distinct
    rw [List.length_map] at hall
    split_ifs with hlen
    · refine .cycle closed ?_ (drained.unresolved closed)
      obtain ⟨v, hv, hno⟩ : ∃ v ∈ steps.map StepConfig.id, v ∉ done := by
        simpa using mt hall.mpr hlen
      exact exists_tangled_iff.mp ⟨v, (drained.not_done_iff closed hv).mp hno⟩
    · refine .acyclic closed fun ⟨u, hu⟩ => ?_
      have hstep : u ∈ steps.map StepConfig.id := needs_target hu
      exact (drained.not_done_iff closed hstep).mpr ⟨u, hu, .refl⟩ (hall.mp (not_not.mp hlen) u hstep)

/-! ### The three answers -/

section Answers
variable {steps : List (StepConfig P)} {r : Except ValidationError Unit} (h : Verdict steps r)
include h

theorem Verdict.unknown_iff : (∃ s d, r = .error (.unknownStep s d)) ↔ ¬ Closed steps := by
  cases h with
  | unknown needs missing =>
    exact ⟨fun _ hclosed => missing (hclosed _ _ needs), fun _ => ⟨_, _, rfl⟩⟩
  | cycle closed | acyclic closed => simp [closed]

theorem Verdict.unknown_named {s d : String} (hr : r = .error (.unknownStep s d)) :
    Needs steps d s ∧ d ∉ steps.map StepConfig.id := by
  cases h with
  | unknown needs missing =>
    obtain ⟨rfl, rfl⟩ := ValidationError.unknownStep.inj (Except.error.inj hr)
    exact ⟨needs, missing⟩
  | cycle | acyclic => exact absurd hr (by simp)

theorem Verdict.cycle_iff (l : List String) : r = .error (.cycle l) ↔
    Closed steps ∧ (∃ u, TransGen (Needs steps) u u) ∧ Unresolved steps l := by
  cases h with
  | unknown needs missing => simpa using fun hclosed : Closed steps => absurd (hclosed _ _ needs) missing
  | @cycle l' closed cyclic unresolved =>
    constructor
    · intro hr
      obtain rfl := ValidationError.cycle.inj (Except.error.inj hr)
      exact ⟨closed, cyclic, unresolved⟩
    · rintro ⟨-, -, hl⟩
      rw [unresolved.unique hl]
  | acyclic closed acyclic => simpa using fun _ u hu => absurd ⟨u, hu⟩ acyclic

theorem Verdict.ok_iff : r = .ok () ↔ Closed steps ∧ ¬ ∃ u, TransGen (Needs steps) u u := by
  cases h with
  | unknown needs missing => simpa using fun hclosed : Closed steps => absurd (hclosed _ _ needs) missing
  | cycle closed cyclic => simpa using fun _ => cyclic
  | acyclic closed acyclic => exact iff_of_true rfl ⟨closed, acyclic⟩

/-- The verdict depends on the ids and the graph only. -/
theorem Verdict.same {steps' : List (StepConfig P)} {r' : Except ValidationError Unit}
    (h' : Verdict steps' r') (hids : steps'.map StepConfig.id = steps.map StepConfig.id)
    (hneeds : Needs steps' = Needs steps) : SameVerdict r r' := by
  have hclosed : Closed steps' ↔ Closed steps := by rw [Closed, Closed, hids, hneeds]
  cases h with
  | unknown needs missing =>
    have hno : ¬ Closed steps' := fun hc => missing (hclosed.mp hc _ _ needs)
    obtain ⟨s, d, rfl⟩ := h'.unknown_iff.mpr hno
    trivial
  | cycle closed cyclic unresolved =>
    have hr' := (h'.cycle_iff _).mpr ⟨hclosed.mpr closed, hneeds ▸ cyclic, unresolved.sorted,
      fun v => by rw [hids, hneeds]; exact unresolved.mem v⟩
    rw [hr']
    rfl
  | acyclic closed acyclic =>
    rw [h'.ok_iff.mpr ⟨hclosed.mpr closed, hneeds ▸ acyclic⟩]
    rfl

end Answers

/-- CORRECT (static check): for steps with distinct ids the check names an unknown step exactly if there
    is one; otherwise it fails for a cycle exactly if there is one, and names the steps on or after a
    cycle in order; otherwise it passes. It always ends, and its verdict depends on the ids and on
    which steps need which only. -/
theorem detectCycles_decides (steps : List (StepConfig P))
    (distinct : (steps.map StepConfig.id).Nodup) :
    ((∃ s d, detectCycles steps = .error (.unknownStep s d)) ↔ ¬ Closed steps) ∧
    (∀ s d, detectCycles steps = .error (.unknownStep s d) →
      Needs steps d s ∧ d ∉ steps.map StepConfig.id) ∧
    (∀ l, detectCycles steps = .error (.cycle l) ↔
      Closed steps ∧ (∃ u, TransGen (Needs steps) u u) ∧ Unresolved steps l) ∧
    (detectCycles steps = .ok () ↔ Closed steps ∧ ¬ ∃ u, TransGen (Needs steps) u u) ∧
    detectCycles steps ≠ .error .endless ∧
    ∀ steps' : List (StepConfig P), steps'.map StepConfig.id = steps.map StepConfig.id →
      (∀ d x, Needs steps' d x ↔ Needs steps d x) →
      SameVerdict (detectCycles steps) (detectCycles steps') := by
  have h := detectCycles_verdict distinct
  refine ⟨h.unknown_iff, fun s d => h.unknown_named, h.cycle_iff, h.ok_iff, fun he => ?_,
    fun steps' hids hneeds => ?_⟩
  · rw [he] at h
    cases h
  · have h' := detectCycles_verdict (hids ▸ distinct : (steps'.map StepConfig.id).Nodup)
    exact h.same h' hids (funext₂ fun d x => propext (hneeds d x))

/-- A cycle of two steps, one after it, with a dependency listed twice, and one before it. -/
def tangle : List (StepConfig Unit) :=
  [{ id := "a", task := "t", dependsOn := some ["b", "d", "b"], params := () },
   { id := "b", task := "t", dependsOn := none, params := (), condition := some { step := "a" } },
   { id := "c", task := "t", dependsOn := some ["b"], params := (), condition := some { step := "b" } },
   { id := "d", task := "t", params := () }]

theorem tangle_decides : detectCycles tangle = .error (.cycle ["a", "b", "c"]) ∧
    (detectCycles tangle = .ok () ↔ Closed tangle ∧ ¬ ∃ u, TransGen (Needs tangle) u u) :=
  ⟨by decide +kernel, (detectCycles_decides tangle (by decide)).2.2.2.1⟩

end WorkflowEngine
