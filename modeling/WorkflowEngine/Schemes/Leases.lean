import Mathlib.Logic.Function.Basic
import Mathlib.Tactic.SplitIfs

/-! Leases on keys.

    A client asks once for a lease on its key, stays inside with or without it, and leaves. A lease is
    granted when nobody holds one on the key; it ends when its holder leaves, or before that, when it
    lapses. Whoever holds a lease is inside (`Valid`); as long as nothing lapses, whoever was granted
    one and is still inside holds it (`Firm`). -/

namespace Schemes

variable {K ι : Type*}

/-- Where a client stands. -/
inductive Visit where
  | before
  | inside (granted : Bool)
  | left
  deriving DecidableEq

/-- Who holds the lease on each key, and where the clients stand. -/
structure Leases (K ι : Type*) where
  holder : K → Option ι := fun _ => none
  visit : ι → Visit := fun _ => .before

namespace Leases
variable [DecidableEq K] [DecidableEq ι] (key : ι → K)

/-- A client enters, and is granted the lease if its key is free. -/
def enter (l : Leases K ι) (i : ι) : Leases K ι :=
  match l.visit i, l.holder (key i) with
  | .before, none =>
    { holder := Function.update l.holder (key i) (some i)
      visit := Function.update l.visit i (.inside true) }
  | .before, some _ => { l with visit := Function.update l.visit i (.inside false) }
  | _, _ => l

/-- A client leaves, and gives its lease back if it still holds it. -/
def leave (l : Leases K ι) (i : ι) : Leases K ι :=
  match l.visit i with
  | .inside _ =>
    { holder := if l.holder (key i) = some i then Function.update l.holder (key i) none else l.holder
      visit := Function.update l.visit i .left }
  | _ => l

/-- The lease on a key lapses. -/
def lapse (l : Leases K ι) (k : K) : Leases K ι :=
  { l with holder := Function.update l.holder k none }

/-- Whoever holds a lease holds it on its own key, was granted it and is inside. -/
def Valid (l : Leases K ι) : Prop :=
  ∀ k i, l.holder k = some i → key i = k ∧ l.visit i = .inside true

/-- Whoever was granted a lease and is inside holds it. -/
def Firm (l : Leases K ι) : Prop := ∀ i, l.visit i = .inside true → l.holder (key i) = some i

variable {key} {l : Leases K ι} {i j : ι} {k : K}

/-! ### What the operations do -/

theorem enter_granted (hi : l.visit i = .before) (hk : l.holder (key i) = none) :
    l.enter key i = { holder := Function.update l.holder (key i) (some i)
                      visit := Function.update l.visit i (.inside true) } := by
  rw [enter, hi, hk]

theorem enter_refused (hi : l.visit i = .before) (hk : l.holder (key i) = some j) :
    l.enter key i = { l with visit := Function.update l.visit i (.inside false) } := by
  rw [enter, hi, hk]

theorem enter_of_ne (hi : l.visit i ≠ .before) : l.enter key i = l := by
  unfold enter
  split
  · exact absurd ‹_› hi
  · exact absurd ‹_› hi
  · rfl

theorem leave_of_holder (hi : l.visit i = .inside true) (hk : l.holder (key i) = some i) :
    l.leave key i = { holder := Function.update l.holder (key i) none
                      visit := Function.update l.visit i .left } := by
  rw [leave, hi]
  simp only [hk, if_true]

theorem leave_of_ne {granted : Bool} (hi : l.visit i = .inside granted)
    (hk : l.holder (key i) ≠ some i) :
    l.leave key i = { l with visit := Function.update l.visit i .left } := by
  rw [leave, hi]
  simp only [if_neg hk]

/-- Nobody else moves. -/
theorem visit_enter_of_ne (h : j ≠ i) : (l.enter key i).visit j = l.visit j := by
  unfold enter
  split
  · exact Function.update_of_ne h ..
  · exact Function.update_of_ne h ..
  · rfl

theorem visit_leave_of_ne (h : j ≠ i) : (l.leave key i).visit j = l.visit j := by
  unfold leave
  split
  · exact Function.update_of_ne h ..
  · rfl

/-- A client that leaves has been inside, and is not any more. -/
theorem visit_leave (l : Leases K ι) (i j : ι) :
    ((l.leave key i).visit j = .before ↔ l.visit j = .before) ∧
    ∀ granted, (l.leave key i).visit j = .inside granted → j ≠ i ∧ l.visit j = .inside granted := by
  by_cases hj : j = i
  · subst hj
    cases hi : l.visit j with
    | inside granted =>
      have hleft : (l.leave key j).visit j = .left := by
        rw [leave, hi]
        exact Function.update_self ..
      simp [hleft]
    | before | left =>
      have hsame : l.leave key j = l := by rw [leave, hi]
      simp [hsame, hi]
  · rw [visit_leave_of_ne hj]
    exact ⟨Iff.rfl, fun granted h => ⟨hj, h⟩⟩

/-- A client that enters takes no lease from anybody. -/
theorem holder_enter (h : l.holder k = some j) : (l.enter key i).holder k = some j := by
  unfold enter
  split
  · next hfree =>
    have hk : k ≠ key i := fun he => absurd (h.symm.trans (he ▸ hfree)) (by simp)
    exact (Function.update_of_ne hk ..).trans h
  · exact h
  · exact h

/-- A client that has entered holds the lease if it was granted. -/
theorem holder_of_enter (hi : l.visit i = .before)
    (h : (l.enter key i).visit i = .inside true) : (l.enter key i).holder (key i) = some i := by
  cases hk : l.holder (key i) with
  | none =>
    rw [enter_granted hi hk]
    exact Function.update_self ..
  | some j =>
    rw [enter_refused hi hk] at h
    exact absurd ((Function.update_self ..).symm.trans h) (by simp)

/-- A client that leaves gives back its own lease only. -/
theorem holder_leave_of_ne (h : l.holder k = some j) (hj : j ≠ i) :
    (l.leave key i).holder k = some j := by
  unfold leave
  split
  · dsimp only
    split_ifs with hi
    · have hk : k ≠ key i := fun he => hj (Option.some.inj (h.symm.trans (he ▸ hi)))
      exact (Function.update_of_ne hk ..).trans h
    · exact h
  · exact h

/-! ### Holders are inside -/

omit [DecidableEq K] [DecidableEq ι] in
/-- A lease has one holder. -/
theorem Firm.unique (h : l.Firm key) (hi : l.visit i = .inside true) (hj : l.visit j = .inside true)
    (hk : key i = key j) : i = j :=
  Option.some.inj ((h i hi).symm.trans (hk ▸ h j hj))

theorem Valid.enter (h : l.Valid key) (i : ι) : (l.enter key i).Valid key := by
  by_cases hi : l.visit i = .before
  · have hother : ∀ k j, l.holder k = some j → j ≠ i := by
      rintro k _ hj rfl
      exact absurd (hi.symm.trans (h k _ hj).2) (by simp)
    cases hk : l.holder (key i) with
    | none =>
      rw [enter_granted hi hk]
      intro k j hj
      dsimp only at hj ⊢
      rw [Function.update_apply] at hj
      split_ifs at hj with hkey
      · obtain rfl := Option.some.inj hj
        exact ⟨hkey.symm, Function.update_self ..⟩
      · rw [Function.update_of_ne (hother k j hj)]
        exact h k j hj
    | some j' =>
      rw [enter_refused hi hk]
      intro k j hj
      dsimp only at hj ⊢
      rw [Function.update_of_ne (hother k j hj)]
      exact h k j hj
  · rw [enter_of_ne hi]
    exact h

theorem Valid.leave (h : l.Valid key) (i : ι) : (l.leave key i).Valid key := by
  unfold Leases.leave
  split
  · intro k j hj
    dsimp only at hj ⊢
    have hold : l.holder k = some j ∧ j ≠ i := by
      split_ifs at hj with hk
      · rw [Function.update_apply] at hj
        split_ifs at hj with hkey
        refine ⟨hj, ?_⟩
        rintro rfl
        exact hkey (h k j hj).1.symm
      · refine ⟨hj, ?_⟩
        rintro rfl
        exact hk ((h k j hj).1 ▸ hj)
    rw [Function.update_of_ne hold.2]
    exact h k j hold.1
  · exact h

omit [DecidableEq ι] in
theorem Valid.lapse (h : l.Valid key) (k : K) : (l.lapse k).Valid key := by
  intro k' i hi
  dsimp only [Leases.lapse] at hi
  rw [Function.update_apply] at hi
  split_ifs at hi
  exact h k' i hi

/-! ### Without lapses -/

theorem Firm.enter (h : l.Firm key) (i : ι) : (l.enter key i).Firm key := by
  by_cases hi : l.visit i = .before
  · cases hk : l.holder (key i) with
    | none =>
      rw [enter_granted hi hk]
      intro j hj
      dsimp only at hj ⊢
      rcases eq_or_ne j i with rfl | hji
      · exact Function.update_self ..
      · rw [Function.update_of_ne hji] at hj
        have hkey : key j ≠ key i := fun he => by
          have := h j hj
          rw [he, hk] at this
          exact absurd this (by simp)
        rw [Function.update_of_ne hkey]
        exact h j hj
    | some j' =>
      rw [enter_refused hi hk]
      intro j hj
      dsimp only at hj ⊢
      rw [Function.update_apply] at hj
      split_ifs at hj with hji
      · exact absurd hj (by simp)
      · exact h j hj
  · rw [enter_of_ne hi]
    exact h

theorem Firm.leave (h : l.Firm key) (i : ι) : (l.leave key i).Firm key := by
  unfold Leases.leave
  split
  · intro j hj
    dsimp only at hj ⊢
    rw [Function.update_apply] at hj
    split_ifs at hj with hji
    have hold := h j hj
    split_ifs with hk
    · have hkey : key j ≠ key i := fun he =>
        hji (Option.some.inj (hold.symm.trans (he ▸ hk)))
      rw [Function.update_of_ne hkey]
      exact hold
    · exact hold
  · exact h

end Leases

end Schemes
