import Mathlib.Logic.Relation
import Mathlib.Order.WellFounded

/-! Runs of transition systems.

    An invariant that every step keeps holds in every reached state; a measure that every step lowers
    rules out infinite runs; a relation that is deterministic up to a relation of states has runs
    that end alike. A run can be given by its moves. -/

namespace Schemes.Run

open Relation

variable {S M : Type*}

/-- INVARIANT: what holds at the start and survives each step holds in every reached state. -/
theorem invariant {R : S → S → Prop} {I : S → Prop} (keep : ∀ s t, I s → R s t → I t) {s t : S}
    (h0 : I s) (run : ReflTransGen R s t) : I t := by
  induction run with
  | refl => exact h0
  | tail _ step ih => exact keep _ _ ih step

/-- TERMINATION: a measure that every step from an invariant state lowers leaves no infinite run. -/
theorem acc_of_measure {R : S → S → Prop} {I : S → Prop} (keep : ∀ s t, I s → R s t → I t)
    {lt : M → M → Prop} (wf : WellFounded lt) (μ : S → M)
    (lower : ∀ s t, I s → R s t → lt (μ t) (μ s)) (s : S) (hs : I s) :
    Acc (fun t s => R s t) s := by
  induction hm : μ s using wf.induction generalizing s with
  | _ m ih =>
    subst hm
    exact ⟨s, fun t step => ih _ (lower s t hs step) t (keep s t hs step) rfl⟩

/-- A terminating run from an invariant state that can always go on unless it is final reaches a
    final state. -/
theorem reaches_final {R : S → S → Prop} {I F : S → Prop} (keep : ∀ s t, I s → R s t → I t)
    (progress : ∀ s, I s → F s ∨ ∃ t, R s t) {s : S} (hs : I s)
    (acc : Acc (fun t s => R s t) s) : ∃ t, ReflTransGen R s t ∧ F t := by
  induction acc with
  | intro s _ ih =>
    rcases progress s hs with hF | ⟨t, step⟩
    · exact ⟨s, .refl, hF⟩
    · obtain ⟨u, run, hF⟩ := ih t step (keep s t hs step)
      exact ⟨u, run.head step, hF⟩

/-- DETERMINISM: runs of a relation that is deterministic up to `sim` end in related states, when
    they start in related states and end in final ones. -/
theorem ends_agree (sim : S → S → Prop) {R : S → S → Prop} {F : S → Prop}
    (det : ∀ a a' b b', sim a a' → R a b → R a' b' → sim b b') (stop : ∀ a b, F a → ¬ R a b)
    (final : ∀ a a', sim a a' → (F a ↔ F a')) {a a' b b' : S} (h0 : sim a a')
    (run : ReflTransGen R a b) (hb : F b) (run' : ReflTransGen R a' b') (hb' : F b') :
    sim b b' := by
  induction run using ReflTransGen.head_induction_on generalizing a' with
  | refl =>
    rcases ReflTransGen.cases_head run' with rfl | ⟨c', step', -⟩
    · exact h0
    · exact absurd step' (stop _ _ ((final _ _ h0).mp hb))
  | head step _ ih =>
    rcases ReflTransGen.cases_head run' with rfl | ⟨c', step', rest'⟩
    · exact absurd step (stop _ _ ((final _ _ h0).mpr hb'))
    · exact ih (det _ _ _ _ h0 step step') rest'

/-! ### Runs move by move -/

/-- The moves of a list, made one after another, if each of them can be made. -/
def moves (next : M → S → Option S) : List M → S → Option S
  | [], s => some s
  | m :: ms, s => (next m s).bind (moves next ms)

/-- LOCKSTEP: two machines that agree on every move from an invariant state make the same runs. -/
theorem moves_congr {next next' : M → S → Option S} {I : S → Prop}
    (keep : ∀ m s t, I s → next m s = some t → I t) (agree : ∀ m s, I s → next' m s = next m s) :
    ∀ (ms : List M) {s : S}, I s → moves next' ms s = moves next ms s
  | [], _, _ => rfl
  | m :: ms, s, hs => by
      rw [moves, moves, agree m s hs]
      cases hm : next m s with
      | none => rfl
      | some t => exact moves_congr keep agree ms (keep m s t hs hm)

theorem reaches_of_moves {next : M → S → Option S} {R : S → S → Prop}
    (step : ∀ m s t, next m s = some t → R s t) : ∀ {ms : List M} {s t : S},
    moves next ms s = some t → ReflTransGen R s t
  | [], s, t, h => by
      obtain rfl := Option.some.inj h
      exact .refl
  | m :: ms, s, t, h => by
      obtain ⟨u, hu, hrest⟩ := Option.bind_eq_some_iff.mp h
      exact (reaches_of_moves step hrest).head (step m s u hu)

end Schemes.Run
