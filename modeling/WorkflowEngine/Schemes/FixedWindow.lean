import Mathlib.Algebra.Order.Ring.Defs
import Mathlib.Data.List.Count
import Mathlib.Data.List.Induction
import Mathlib.Tactic.Linarith
import Mathlib.Tactic.SplitIfs

/-! Fixed-window counters.

    A counter remembers when its window started and how many events it admitted in it. A window that
    has lapsed starts anew at the next event, and a window that is full refuses. The windows of a run
    lie at least a width apart, so an interval of one width meets two of them at most. -/

namespace Schemes.FixedWindow

variable {T : Type*} [CommRing T] [LinearOrder T] [IsStrictOrderedRing T]

/-- The window an event at `now` falls in and what was admitted in it: the counter's own, unless it
    has none yet or has lapsed. -/
def current (width : T) (counter : Option (T × ℕ)) (now : T) : T × ℕ :=
  let window := counter.getD (now, 0)
  if width ≤ now - window.1 then (now, 0) else window

/-- The answer to an event at `now`, and the counter after it. A refusal leaves the counter. -/
def grant (limit : ℕ) (width : T) (counter : Option (T × ℕ)) (now : T) :
    Bool × Option (T × ℕ) :=
  let window := current width counter now
  if limit ≤ window.2 then (false, counter) else (true, some (window.1, window.2 + 1))

/-- One event of a run: the counter, and the times admitted so far. -/
def step (limit : ℕ) (width : T) (s : Option (T × ℕ) × List T) (now : T) :
    Option (T × ℕ) × List T :=
  ((grant limit width s.1 now).2, s.2 ++ if (grant limit width s.1 now).1 then [now] else [])

/-- A run from a counter without a window. -/
def run (limit : ℕ) (width : T) (times : List T) : Option (T × ℕ) × List T :=
  times.foldl (step limit width) (none, [])

/-- The times in `[t, t + width)`. -/
def within (width t : T) (times : List T) : ℕ :=
  times.countP fun a => t ≤ a ∧ a < t + width

omit [IsStrictOrderedRing T] in
theorem within_append (width t : T) (as bs : List T) :
    within width t (as ++ bs) = within width t as + within width t bs :=
  List.countP_append ..

/-- What was admitted before the running window, and in it. -/
structure Split (limit : ℕ) (width start : T) (count : ℕ) (old cur : List T) : Prop where
  length : cur.length = count
  full : count ≤ limit
  inside : ∀ a ∈ cur, start ≤ a ∧ a < start + width
  before : ∀ a ∈ old, a ≤ start
  near : (old.countP fun a => start - width < a) ≤ limit
  within : ∀ t, within width t old ≤ 2 * limit

/-- The admitted times fit the counter, and all of it happened by `last`. -/
def Fits (limit : ℕ) (width last : T) : Option (T × ℕ) → List T → Prop
  | none, admitted => admitted = []
  | some (start, count), admitted =>
      start ≤ last ∧ (∀ a ∈ admitted, a ≤ last) ∧
        ∃ old cur, admitted = old ++ cur ∧ Split limit width start count old cur

section Counter
variable {limit : ℕ} {width : T} {counter : Option (T × ℕ)} {admitted : List T}

/-- An interval that meets the running window meets no window but the one before it. -/
theorem Split.within_append_le {start : T} {count : ℕ} {old cur : List T}
    (h : Split limit width start count old cur) (t : T) :
    FixedWindow.within width t (old ++ cur) ≤ 2 * limit := by
  have hcur : FixedWindow.within width t cur ≤ limit :=
    (List.countP_le_length).trans (h.length.trans_le h.full)
  rw [within_append]
  by_cases ht : start < t + width
  · have hold : FixedWindow.within width t old ≤ limit := by
      refine (List.countP_mono_left fun a _ ha => ?_).trans h.near
      simp only [decide_eq_true_eq] at ha ⊢
      linarith [ha.1]
    omega
  · have hnone : FixedWindow.within width t cur = 0 := by
      refine List.countP_eq_zero.mpr fun a ha => ?_
      have hstart := (h.inside a ha).1
      simp only [decide_eq_true_eq, not_and, not_lt]
      intro _
      linarith
    have hold := h.within t
    omega

/-- What was admitted so far lies before a window that starts anew, and the last window alone is
    near it. -/
theorem Split.lapse {start now : T} {count : ℕ} {old cur : List T} (hw : 0 < width)
    (h : Split limit width start count old cur) (hnow : width ≤ now - start) (hlimit : 0 < limit) :
    Split limit width now 1 (old ++ cur) [now] where
  length := rfl
  full := hlimit
  inside a ha := by
    obtain rfl := List.mem_singleton.mp ha
    exact ⟨le_refl _, by linarith⟩
  before a ha := by
    rcases List.mem_append.mp ha with ha | ha
    · linarith [h.before a ha]
    · linarith [(h.inside a ha).2]
  near := by
    have hold : (old.countP fun a => now - width < a) = 0 := by
      refine List.countP_eq_zero.mpr fun a ha => ?_
      have := h.before a ha
      simp only [decide_eq_true_eq, not_lt]
      linarith
    rw [List.countP_append, hold, Nat.zero_add]
    exact (List.countP_le_length).trans (h.length.trans_le h.full)
  within := h.within_append_le

/-- An event joins the running window. -/
theorem Split.join {start now : T} {count : ℕ} {old cur : List T}
    (h : Split limit width start count old cur) (hstart : start ≤ now)
    (hnow : now - start < width) (hcount : count < limit) :
    Split limit width start (count + 1) old (cur ++ [now]) where
  length := by rw [List.length_append, h.length, List.length_singleton]
  full := hcount
  inside a ha := by
    rcases List.mem_append.mp ha with ha | ha
    · exact h.inside a ha
    · obtain rfl := List.mem_singleton.mp ha
      exact ⟨hstart, by linarith⟩
  before := h.before
  near := h.near
  within := h.within

omit [IsStrictOrderedRing T] in
theorem Fits.mono {last now : T} (h : Fits limit width last counter admitted)
    (hle : last ≤ now) : Fits limit width now counter admitted := by
  rcases counter with _ | ⟨start, count⟩
  · exact h
  · obtain ⟨hstart, hpast, hsplit⟩ := h
    exact ⟨hstart.trans hle, fun a ha => (hpast a ha).trans hle, hsplit⟩

/-- STEP: an event that is not earlier than the others keeps the fit. -/
theorem Fits.grant (hw : 0 < width) {now : T} (h : Fits limit width now counter admitted) :
    Fits limit width now (grant limit width counter now).2
      (admitted ++ if (FixedWindow.grant limit width counter now).1 then [now] else []) := by
  by_cases hfull : limit ≤ (current width counter now).2
  · simpa only [FixedWindow.grant, if_pos hfull, Bool.false_eq_true, if_false, List.append_nil]
      using h
  simp only [FixedWindow.grant, if_neg hfull, if_true]
  rcases counter with _ | ⟨start, count⟩
  · -- the first event opens a window
    obtain rfl : admitted = [] := h
    have hcur : current width none now = (now, 0) := by simp [current]
    rw [hcur] at hfull ⊢
    refine ⟨le_refl _, by simp, [], [now], rfl, rfl, not_le.mp hfull, fun a ha => ?_, by simp,
      by simp, fun t => by simp [FixedWindow.within]⟩
    obtain rfl := List.mem_singleton.mp ha
    exact ⟨le_refl _, by linarith⟩
  obtain ⟨hstart, hpast, old, cur, rfl, hsplit⟩ := h
  have hpast' : ∀ a ∈ old ++ cur ++ [now], a ≤ now := by
    intro a ha
    rcases List.mem_append.mp ha with ha | ha
    · exact hpast a ha
    · exact (List.mem_singleton.mp ha).le
  by_cases hlapse : width ≤ now - start
  · have hcur : current width (some (start, count)) now = (now, 0) := by
      simp [current, if_pos hlapse]
    rw [hcur] at hfull ⊢
    exact ⟨le_refl _, hpast', old ++ cur, [now], rfl, hsplit.lapse hw hlapse (not_le.mp hfull)⟩
  · have hcur : current width (some (start, count)) now = (start, count) := by
      simp [current, if_neg hlapse]
    rw [hcur] at hfull ⊢
    exact ⟨hstart, hpast', old, cur ++ [now], List.append_assoc ..,
      hsplit.join hstart (not_le.mp hlapse) (not_le.mp hfull)⟩

/-- A refused event finds its window full, and the window lies in the width before it. -/
theorem Fits.refused {now : T} (h : Fits limit width now counter admitted)
    (hno : (FixedWindow.grant limit width counter now).1 = false) :
    limit ≤ admitted.countP fun a => now - width < a ∧ a ≤ now := by
  have hfull : limit ≤ (current width counter now).2 := by
    by_contra hroom
    simp [FixedWindow.grant, if_neg hroom] at hno
  rcases counter with _ | ⟨start, count⟩
  · simp only [current, Option.getD_none, ite_self, Nat.le_zero] at hfull
    omega
  by_cases hlapse : width ≤ now - start
  · simp only [current, Option.getD_some, if_pos hlapse, Nat.le_zero] at hfull
    omega
  · simp only [current, Option.getD_some, if_neg hlapse] at hfull
    obtain ⟨-, hpast, old, cur, rfl, hsplit⟩ := h
    have hall : (cur.countP fun a => now - width < a ∧ a ≤ now) = cur.length := by
      refine List.countP_eq_length.mpr fun a ha => ?_
      have hinside := hsplit.inside a ha
      simp only [decide_eq_true_eq]
      exact ⟨by linarith [not_le.mp hlapse], hpast a (List.mem_append_right _ ha)⟩
    rw [List.countP_append, hall, hsplit.length]
    omega

theorem Fits.within_le {last : T} (h : Fits limit width last counter admitted) (t : T) :
    FixedWindow.within width t admitted ≤ 2 * limit := by
  rcases counter with _ | ⟨start, count⟩
  · obtain rfl : admitted = [] := h
    simp [FixedWindow.within]
  · obtain ⟨-, -, old, cur, rfl, hsplit⟩ := h
    exact hsplit.within_append_le t

end Counter

section Run
variable {limit : ℕ} {width : T}

omit [IsStrictOrderedRing T] in
theorem run_concat (times : List T) (now : T) :
    run limit width (times ++ [now]) = step limit width (run limit width times) now := by
  rw [run, List.foldl_append]
  rfl

/-- RUN: after events in order of time the admitted times fit the counter. -/
theorem run_fits (hw : 0 < width) (times : List T) (hs : times.Pairwise (· ≤ ·)) (last : T)
    (hlast : ∀ a ∈ times, a ≤ last) :
    Fits limit width last (run limit width times).1 (run limit width times).2 := by
  induction times using List.reverseRecOn generalizing last with
  | nil => rfl
  | append_singleton times now ih =>
    obtain ⟨hs, -, hnow⟩ := List.pairwise_append.mp hs
    rw [run_concat]
    have hfits := ih hs now fun a ha => hnow a ha now (List.mem_singleton_self _)
    exact (hfits.grant hw).mono (hlast now (by simp))

/-- An event is refused only if the width before it saw `limit` admissions. -/
theorem refused_full (hw : 0 < width) (times : List T) (now : T)
    (hs : (times ++ [now]).Pairwise (· ≤ ·))
    (hno : (grant limit width (run limit width times).1 now).1 = false) :
    limit ≤ (run limit width times).2.countP fun a => now - width < a ∧ a ≤ now := by
  obtain ⟨hs, -, hnow⟩ := List.pairwise_append.mp hs
  exact (run_fits hw times hs now fun a ha => hnow a ha now (List.mem_singleton_self _)).refused
    hno

/-- No interval of one width holds more than twice `limit` admissions. -/
theorem run_within (hw : 0 < width) (times : List T) (hs : times.Pairwise (· ≤ ·)) (t : T) :
    within width t (run limit width times).2 ≤ 2 * limit := by
  cases times using List.reverseRecOn with
  | nil => simp [run, within]
  | append_singleton pre now =>
    refine (run_fits hw _ hs now fun a ha => ?_).within_le t
    obtain ⟨-, -, hnow⟩ := List.pairwise_append.mp hs
    rcases List.mem_append.mp ha with ha | ha
    · exact hnow a ha now (List.mem_singleton_self _)
    · exact (List.mem_singleton.mp ha).le

end Run

end Schemes.FixedWindow
