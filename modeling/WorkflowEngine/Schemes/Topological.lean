import Mathlib.Data.List.Nodup
import Mathlib.Logic.Relation
import Mathlib.Order.WellFounded
import Mathlib.Data.Finset.Card
import Mathlib.Data.Fintype.Card
import Mathlib.Data.Set.Finite.Basic

/-! Topological orders.

    A list is a topological order of a relation when whatever a member comes after stands earlier in
    the list. Such a relation is well-founded, so are its descendants, and every nonempty set of
    members has one whose predecessors all lie outside the set. A list that can only be ordered in
    part has no member on or after a cycle, and finitely many points that all have a predecessor among
    themselves are all on or after one. -/

namespace Schemes.Topological

open Relation

variable {α : Type*}

/-- `order` lists every target of `E` after all of its sources. -/
structure IsOrder (E : α → α → Prop) (order : List α) : Prop where
  nodup : order.Nodup
  target : ∀ d x, E d x → x ∈ order
  earlier : ∀ pre x post, order = pre ++ x :: post → ∀ d, E d x → d ∈ pre

variable {E : α → α → Prop} {order : List α}

/-- Every property met by some member is met by a first one, no predecessor of which meets it. -/
theorem IsOrder.exists_minimal (ho : IsOrder E order) {U : α → Prop} {x : α} (hx : x ∈ order)
    (hU : U x) : ∃ y ∈ order, U y ∧ ∀ d, E d y → ¬ U d := by
  classical
  have hex : ∃ y ∈ order, U y := ⟨x, hx, hU⟩
  obtain ⟨y, hfind⟩ : ∃ y, order.find? (fun y => decide (U y)) = some y := by
    rw [← Option.isSome_iff_exists, List.find?_isSome]
    simpa using hex
  obtain ⟨hy, pre, post, heq, hpre⟩ := List.find?_eq_some_iff_append.mp hfind
  refine ⟨y, by rw [heq]; simp, by simpa using hy, fun d hd hUd => ?_⟩
  have hnot := hpre d (ho.earlier pre y post heq d hd)
  simp [hUd] at hnot

theorem IsOrder.wf (ho : IsOrder E order) : WellFounded E := by
  rw [WellFounded.wellFounded_iff_has_min]
  intro s hs
  obtain ⟨x, hx⟩ := hs
  by_cases hm : x ∈ order
  · obtain ⟨y, -, hy, hmin⟩ := ho.exists_minimal (U := (· ∈ s)) hm hx
    exact ⟨y, hy, fun d hd hE => hmin d hE hd⟩
  · exact ⟨x, hx, fun d _ hE => hm (ho.target d x hE)⟩

theorem IsOrder.transGen_wf (ho : IsOrder E order) : WellFounded (TransGen E) := ho.wf.transGen

/-! ### Cycles -/

/-- On a cycle, or reached from one. -/
def Tangled (E : α → α → Prop) (v : α) : Prop := ∃ u, TransGen E u u ∧ ReflTransGen E u v

/-- There is a cycle exactly if some point is tangled. -/
theorem exists_tangled_iff : (∃ v, Tangled E v) ↔ ∃ u, TransGen E u u := by
  constructor
  · rintro ⟨v, u, hcycle, -⟩
    exact ⟨u, hcycle⟩
  · rintro ⟨u, hcycle⟩
    exact ⟨u, u, hcycle, .refl⟩

/-- `done` lists each of its members after all of that member's predecessors. -/
structure IsInitial (E : α → α → Prop) (done : List α) : Prop where
  nodup : done.Nodup
  earlier : ∀ pre x post, done = pre ++ x :: post → ∀ d, E d x → d ∈ pre

theorem IsInitial.pred {done : List α} (h : IsInitial E done) {d x : α} (hx : x ∈ done)
    (hd : E d x) : d ∈ done := by
  obtain ⟨pre, post, rfl⟩ := List.append_of_mem hx
  exact List.mem_append_left _ (h.earlier pre x post rfl d hd)

/-- Among the members it is a topological order. -/
theorem IsInitial.isOrder {done : List α} (h : IsInitial E done) :
    IsOrder (fun d x => E d x ∧ x ∈ done) done where
  nodup := h.nodup
  target _ _ hd := hd.2
  earlier pre x post he d hd := h.earlier pre x post he d hd.1

theorem IsInitial.not_tangled {done : List α} (h : IsInitial E done) {v : α} (hv : v ∈ done) :
    ¬ Tangled E v := by
  rintro ⟨u, hcycle, hreach⟩
  have hu : u ∈ done := by
    induction hreach with
    | refl => exact hv
    | tail _ hd ih => exact ih (h.pred hv hd)
  -- the cycle stays among the members
  have hinside : ∀ {x}, TransGen E u x → x ∈ done →
      TransGen (fun d x => E d x ∧ x ∈ done) u x := by
    intro x hx
    induction hx with
    | single hd => exact fun hm => .single ⟨hd, hm⟩
    | tail _ hd ih => exact fun hm => (ih (h.pred hm hd)).tail ⟨hd, hm⟩
  exact h.isOrder.transGen_wf.irrefl.irrefl u (hinside hcycle hu)

/-- Finitely many points, each with a predecessor among them, are all tangled. -/
theorem tangled_of_stuck {rest : Set α} (hfin : rest.Finite)
    (hpred : ∀ x ∈ rest, ∃ d ∈ rest, E d x) {v : α} (hv : v ∈ rest) : Tangled E v := by
  by_contra hno
  -- otherwise being an ancestor is a strict order on the ancestors of `v` among them
  let A : Set α := {u | u ∈ rest ∧ ReflTransGen E u v}
  have : Finite A := (hfin.subset fun u hu => hu.1).to_subtype
  let before : A → A → Prop := fun a b => TransGen E a.1 b.1
  have htrans : IsTrans A before := ⟨fun _ _ _ hab hbc => TransGen.trans hab hbc⟩
  have hirrefl : Std.Irrefl before := ⟨fun a ha => hno ⟨a.1, ha, a.2.2⟩⟩
  obtain ⟨a, -, hmin⟩ := (Finite.wellFounded_of_trans_of_irrefl before).has_min Set.univ
    ⟨⟨v, hv, .refl⟩, trivial⟩
  obtain ⟨d, hd, hE⟩ := hpred a.1 a.2.1
  exact hmin ⟨d, hd, a.2.2.head hE⟩ trivial (.single hE)

/-! ### Recursion along a well-founded relation -/

section Solution
variable {β : Type*}

/-- The value at each point computed from the values at its predecessors; elsewhere `step` sees
    nothing. -/
noncomputable def solution (wf : WellFounded E) (step : α → (α → Option β) → Option β) :
    α → Option β := by
  classical
  exact wf.fix fun x earlier => step x fun d => if h : E d x then earlier d h else none

/-- Where `step` looks at predecessors only, the solution solves its own equation. -/
theorem solution_eq (wf : WellFounded E) {step : α → (α → Option β) → Option β} {x : α}
    (hlocal : ∀ f g : α → Option β, (∀ d, E d x → f d = g d) → step x f = step x g) :
    solution wf step x = step x (solution wf step) := by
  classical
  refine (WellFounded.fix_eq wf _ x).trans (hlocal _ _ fun d hd => ?_)
  simp only [dif_pos hd]
  rfl

end Solution

end Schemes.Topological
