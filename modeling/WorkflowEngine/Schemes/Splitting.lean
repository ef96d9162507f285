import Mathlib.Data.List.Infix

/-! Splitting at a separator of two symbols.

    The pieces of a text are what lies between the separators, found from the left. A piece never
    contains the separator. So a text that was joined from pieces can be split into them again exactly
    if none of them contains it, provided the two symbols differ, for then no separator begins inside a
    piece and ends outside. -/

namespace Schemes

variable {α : Type*} [DecidableEq α]

/-- The pieces of a text between the separators `a, b`. -/
def splitPair (a b : α) : List α → List (List α)
  | [] => [[]]
  | [x] => [[x]]
  | x :: y :: l =>
    if x = a ∧ y = b then [] :: splitPair a b l
    else (splitPair a b (y :: l)).modifyHead (x :: ·)

omit [DecidableEq α] in
theorem pair_infix_cons {a b x y : α} {l : List α} :
    [a, b] <:+: x :: y :: l ↔ (x = a ∧ y = b) ∨ [a, b] <:+: y :: l := by
  rw [List.infix_cons_iff, List.cons_prefix_cons, List.cons_prefix_cons]
  simp [eq_comm]

section Pieces
variable {a b : α}

theorem splitPair_ne_nil (l : List α) : splitPair a b l ≠ [] := by
  fun_induction splitPair a b l with
  | case1 | case2 | case3 => simp
  | case4 x y l h ih => simpa [List.modifyHead_eq_nil_iff] using ih

/-- The first piece begins the text. -/
theorem head_prefix_of_splitPair {l p : List α} {ps : List (List α)}
    (h : splitPair a b l = p :: ps) : p <+: l := by
  fun_induction splitPair a b l generalizing p ps with
  | case1 => simp_all
  | case2 x => simp_all
  | case3 x y l hxy ih =>
    obtain ⟨rfl, -⟩ := List.cons.inj h
    exact List.nil_prefix
  | case4 x y l hne ih =>
    obtain ⟨q, qs, hq⟩ := List.exists_cons_of_ne_nil (splitPair_ne_nil (a := a) (b := b) (y :: l))
    rw [hq, List.modifyHead_cons] at h
    obtain ⟨rfl, -⟩ := List.cons.inj h
    exact List.cons_prefix_cons.mpr ⟨rfl, ih hq⟩

/-- No piece contains the separator. -/
theorem not_infix_of_mem_splitPair {l p : List α} (hp : p ∈ splitPair a b l) : ¬ [a, b] <:+: p := by
  fun_induction splitPair a b l generalizing p with
  | case1 =>
    obtain rfl := List.mem_singleton.mp hp
    simp
  | case2 x =>
    obtain rfl := List.mem_singleton.mp hp
    exact fun h => absurd h.length_le (by simp)
  | case3 x y l hxy ih =>
    rcases List.mem_cons.mp hp with rfl | hp
    · simp
    · exact ih hp
  | case4 x y l hne ih =>
    obtain ⟨q, qs, hq⟩ := List.exists_cons_of_ne_nil (splitPair_ne_nil (a := a) (b := b) (y :: l))
    rw [hq, List.modifyHead_cons] at hp
    rcases List.mem_cons.mp hp with rfl | hp
    · intro h
      have hprefix := head_prefix_of_splitPair hq
      cases q with
      | nil => exact absurd h.length_le (by simp)
      | cons z q =>
        obtain ⟨rfl, -⟩ := List.cons_prefix_cons.mp hprefix
        rcases pair_infix_cons.mp h with hxy | hin
        · exact hne hxy
        · exact ih (hq ▸ List.mem_cons_self) hin
    · exact ih (hq ▸ List.mem_cons_of_mem _ hp)

/-- A text without the separator is its own piece. -/
theorem splitPair_of_not_infix {l : List α} (h : ¬ [a, b] <:+: l) : splitPair a b l = [l] := by
  fun_induction splitPair a b l with
  | case1 | case2 => rfl
  | case3 x y l hxy => exact absurd (pair_infix_cons.mpr (.inl hxy)) h
  | case4 x y l hne ih =>
    rw [ih fun hin => h (pair_infix_cons.mpr (.inr hin))]
    rfl

/-- ROUND TRIP: what precedes a separator is a piece, if it does not contain the separator itself. -/
theorem splitPair_append (hab : a ≠ b) (r : List α) : ∀ {l : List α}, ¬ [a, b] <:+: l →
    splitPair a b (l ++ a :: b :: r) = l :: splitPair a b r
  | [], _ => by rw [List.nil_append, splitPair, if_pos ⟨rfl, rfl⟩]
  | [x], _ => by
      rw [List.singleton_append, splitPair, if_neg fun h => hab h.2, splitPair, if_pos ⟨rfl, rfl⟩]
      rfl
  | x :: y :: l, h => by
      have hxy : ¬ (x = a ∧ y = b) := fun hxy => h (pair_infix_cons.mpr (.inl hxy))
      have hrest : ¬ [a, b] <:+: y :: l := fun hin => h (pair_infix_cons.mpr (.inr hin))
      have ih := splitPair_append hab r hrest
      rw [List.cons_append] at ih
      rw [List.cons_append, List.cons_append, splitPair, if_neg hxy, ih]
      rfl

end Pieces

end Schemes
