import Mathlib.Data.List.Nodup
import Mathlib.Data.List.Perm.Subperm
import Mathlib.Logic.Function.Basic
import Mathlib.Logic.Relation
import Mathlib.Order.Lattice.Nat
import Mathlib.Order.Nat
import Mathlib.Order.MinMax

/-! Layers of an acyclic graph.

    A point lies in the layer whose number is the length of the longest path that ends in it. An edge
    leads to a higher layer, and below every layer that is taken all are. The layers are found by
    raising the target of every edge above its source, edge after edge: a round that goes through all
    the edges settles the paths that are one edge longer, in whatever order it takes them. -/

namespace Schemes.Layers

open Relation

variable {α : Type*}

/-! ### Longest paths -/

/-- A path of this many edges ends in this point. -/
inductive PathTo (E : α → α → Prop) : ℕ → α → Prop where
  | nil (v : α) : PathTo E 0 v
  | snoc {n : ℕ} {u v : α} (path : PathTo E n u) (edge : E u v) : PathTo E (n + 1) v

/-- `n` is the length of the longest path that ends in `v`. -/
structure Longest (E : α → α → Prop) (v : α) (n : ℕ) : Prop where
  path : PathTo E n v
  max : ∀ m, PathTo E m v → m ≤ n

section Longest
variable {E : α → α → Prop} {u v : α} {m n : ℕ}

theorem Longest.unique (h : Longest E v m) (h' : Longest E v n) : m = n :=
  Nat.le_antisymm (h'.max _ h.path) (h.max _ h'.path)

/-- An edge leads to a higher layer. -/
theorem Longest.lt (hu : Longest E u m) (hv : Longest E v n) (edge : E u v) : m < n :=
  hv.max _ (hu.path.snoc edge)

/-- A layer that is taken has a point in the layer below, with an edge between them. -/
theorem Longest.pred (hv : Longest E v (n + 1)) : ∃ u, E u v ∧ Longest E u n := by
  obtain ⟨hpath, hmax⟩ := hv
  cases hpath with
  | @snoc _ u _ path edge =>
    exact ⟨u, edge, path, fun m hm => Nat.le_of_succ_le_succ (hmax _ (hm.snoc edge))⟩

/-- CONTIGUOUS: below a layer that is taken all are taken. -/
theorem Longest.below (hv : Longest E v n) (h : m ≤ n) : ∃ u, ReflTransGen E u v ∧ Longest E u m := by
  induction n generalizing v with
  | zero =>
    obtain rfl : m = 0 := Nat.le_zero.mp h
    exact ⟨v, .refl, hv⟩
  | succ n ih =>
    rcases Nat.lt_or_eq_of_le h with hlt | rfl
    · obtain ⟨w, edge, hw⟩ := hv.pred
      obtain ⟨u, hreach, hu⟩ := ih hw (Nat.le_of_lt_succ hlt)
      exact ⟨u, hreach.tail edge, hu⟩
    · exact ⟨v, .refl, hv⟩

/-- Without cycles the targets on a path are all different. -/
theorem PathTo.le_length {nodes : List α} (target : ∀ u v, E u v → v ∈ nodes)
    (acyclic : ∀ u, ¬ TransGen E u u) (h : PathTo E n v) : n ≤ nodes.length := by
  have hvisited : ∃ l : List α, l.length = n ∧ l.Nodup ∧ ∀ x ∈ l, x ∈ nodes ∧ ReflTransGen E x v := by
    induction h with
    | nil => exact ⟨[], rfl, List.nodup_nil, by simp⟩
    | @snoc n u v _ edge ih =>
      obtain ⟨l, hlen, hnodup, hmem⟩ := ih
      have hnew : v ∉ l := fun hv => acyclic v (TransGen.tail' (hmem v hv).2 edge)
      refine ⟨v :: l, by rw [List.length_cons, hlen], List.nodup_cons.mpr ⟨hnew, hnodup⟩,
        fun x hx => ?_⟩
      rcases List.mem_cons.mp hx with rfl | hx
      · exact ⟨target u x edge, .refl⟩
      · exact ⟨(hmem x hx).1, (hmem x hx).2.tail edge⟩
  obtain ⟨l, rfl, hnodup, hmem⟩ := hvisited
  exact (hnodup.subperm fun x hx => (hmem x hx).1).length_le

/-- The number of the layer of a point, if its paths are bounded. -/
noncomputable def depth (E : α → α → Prop) (v : α) : ℕ := sSup {n | PathTo E n v}

theorem depth_longest {b : ℕ} (hbound : ∀ n, PathTo E n v → n ≤ b) : Longest E v (depth E v) := by
  have hbdd : BddAbove {n | PathTo E n v} := ⟨b, fun n hn => hbound n hn⟩
  exact ⟨Nat.sSup_mem ⟨0, .nil v⟩ hbdd, fun m hm => le_csSup hbdd hm⟩

end Longest

/-! ### Edges back -/

/-- `u` has an edge that leads back, in the order `pos`, to a point that reaches `x`. -/
def Back (E : α → α → Prop) (pos : α → ℕ) (u x : α) : Prop :=
  ∃ w, E u w ∧ pos w < pos u ∧ ReflTransGen E w x

section Back
variable {E : α → α → Prop} {pos : α → ℕ} {level : α → ℕ}

theorem Back.transGen {u x : α} (h : Back E pos u x) : TransGen E u x := by
  obtain ⟨w, edge, -, hreach⟩ := h
  exact TransGen.head' edge hreach

/-- A level is the greatest number of edges back on a path: an edge back adds one to the level of its
    source, any other edge passes it on. -/
theorem back_le_iff (hlevel : ∀ v, Longest (Back E pos) v (level v)) (x : α) (k : ℕ) :
    level x ≤ k ↔ ∀ d, E d x → level d + (if pos x < pos d then 1 else 0) ≤ k := by
  constructor
  · intro h d edge
    split_ifs with hback
    · exact ((hlevel d).lt (hlevel x) ⟨x, edge, hback, .refl⟩).trans_le h
    · refine le_trans ?_ h
      cases hd : level d with
      | zero => exact Nat.zero_le _
      | succ m =>
        obtain ⟨u, ⟨w, hw, hlt, hreach⟩, hu⟩ := (hd ▸ hlevel d).pred
        exact (hlevel x).max _ (hu.path.snoc ⟨w, hw, hlt, hreach.tail edge⟩)
  · intro h
    cases hx : level x with
    | zero => exact Nat.zero_le k
    | succ n =>
      obtain ⟨u, ⟨w, hw, hlt, hreach⟩, hu⟩ := (hx ▸ hlevel x).pred
      have hn : level u = n := (hlevel u).unique hu
      -- the last edge of the path is the edge back itself, or comes after it
      rcases ReflTransGen.cases_tail hreach with rfl | ⟨d, hwd, edge⟩
      · have hle := h u hw
        rw [if_pos hlt] at hle
        omega
      · have hud := (hlevel u).lt (hlevel d) ⟨w, hw, hlt, hwd⟩
        have hle := h d edge
        omega

end Back

/-! ### Relaxation -/

section Relaxation
variable [DecidableEq α]

/-- Raise the target of an edge above its source. -/
def raise (level : α → ℕ) (e : α × α) : α → ℕ :=
  Function.update level e.2 (max (level e.2) (level e.1 + 1))

/-- One round over all edges, in place. -/
def round (edges : List (α × α)) (level : α → ℕ) : α → ℕ := edges.foldl raise level

/-- Every level is the length of some path. -/
def Sound (E : α → α → Prop) (level : α → ℕ) : Prop := ∀ v, PathTo E (level v) v

/-- The paths of at most `k` edges are settled. -/
def Covers (E : α → α → Prop) (k : ℕ) (level : α → ℕ) : Prop :=
  ∀ m ≤ k, ∀ v, PathTo E m v → m ≤ level v

variable {E : α → α → Prop} {level : α → ℕ}

theorem le_raise (level : α → ℕ) (e : α × α) (v : α) : level v ≤ raise level e v := by
  unfold raise
  by_cases h : v = e.2
  · subst h
    rw [Function.update_self]
    exact le_max_left _ _
  · rw [Function.update_of_ne h]

theorem le_round (edges : List (α × α)) (level : α → ℕ) (v : α) : level v ≤ round edges level v := by
  induction edges generalizing level with
  | nil => exact le_rfl
  | cons e edges ih => exact (le_raise level e v).trans (ih (raise level e))

/-- STEP: raising along an edge is sound. -/
theorem Sound.raise (h : Sound E level) {e : α × α} (he : E e.1 e.2) : Sound E (raise level e) := by
  intro v
  unfold Layers.raise
  by_cases hv : v = e.2
  · subst hv
    rw [Function.update_self]
    rcases max_choice (level e.2) (level e.1 + 1) with hmax | hmax
    · rw [hmax]
      exact h e.2
    · rw [hmax]
      exact (h e.1).snoc he
  · rw [Function.update_of_ne hv]
    exact h v

theorem Sound.round {edges : List (α × α)} (h : Sound E level) (hE : ∀ e ∈ edges, E e.1 e.2) :
    Sound E (round edges level) := by
  induction edges generalizing level with
  | nil => exact h
  | cons e edges ih =>
    exact ih (h.raise (hE e List.mem_cons_self)) fun e' he' => hE e' (List.mem_cons_of_mem _ he')

/-- After a round the target of an edge is above where its source was before. -/
theorem round_above {edges : List (α × α)} {e : α × α} (he : e ∈ edges) (level : α → ℕ) :
    level e.1 + 1 ≤ round edges level e.2 := by
  induction edges generalizing level with
  | nil => exact absurd he (List.not_mem_nil)
  | cons d edges ih =>
    rcases List.mem_cons.mp he with rfl | he
    · refine le_trans ?_ (le_round edges (raise level e) e.2)
      rw [raise, Function.update_self]
      exact le_max_right _ _
    · exact (Nat.succ_le_succ (le_raise level d e.1)).trans (ih he (raise level d))

/-- STEP: a round settles the paths that are one edge longer. -/
theorem Covers.round {edges : List (α × α)} {k : ℕ} (h : Covers E k level)
    (hE : ∀ u v, E u v → (u, v) ∈ edges) : Covers E (k + 1) (round edges level) := by
  intro m hm v hpath
  cases hpath with
  | nil => exact Nat.zero_le _
  | @snoc n u _ path edge =>
    exact (Nat.succ_le_succ (h n (Nat.le_of_succ_le_succ hm) u path)).trans
      (round_above (hE u v edge) level)

omit [DecidableEq α] in
/-- Once all paths are settled the levels are the layers. -/
theorem Covers.longest {k : ℕ} (hs : Sound E level) (hc : Covers E k level)
    (hlen : ∀ n v, PathTo E n v → n ≤ k) (v : α) : Longest E v (level v) :=
  ⟨hs v, fun m hm => hc m (hlen m v hm) v hm⟩

omit [DecidableEq α] in
/-- Sound levels that every edge leads up are the layers. -/
theorem Sound.longest (hs : Sound E level) (hup : ∀ u v, E u v → level u + 1 ≤ level v) (v : α) :
    Longest E v (level v) := by
  refine ⟨hs v, fun m hm => ?_⟩
  induction hm with
  | nil => exact Nat.zero_le _
  | snoc _ edge ih => exact (Nat.succ_le_succ ih).trans (hup _ _ edge)

theorem raise_eq_self {e : α × α} (h : level e.1 + 1 ≤ level e.2) : raise level e = level := by
  rw [raise, max_eq_left h, Function.update_eq_self]

/-- A round changes nothing where every edge leads up already. -/
theorem round_eq_self {edges : List (α × α)} (h : ∀ e ∈ edges, level e.1 + 1 ≤ level e.2) :
    round edges level = level := by
  induction edges with
  | nil => rfl
  | cons e edges ih =>
    rw [round, List.foldl_cons, raise_eq_self (h e List.mem_cons_self)]
    exact ih fun e' he' => h e' (List.mem_cons_of_mem _ he')

end Relaxation

end Schemes.Layers
