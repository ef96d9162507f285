import WorkflowEngine.Schemes.Digits
import Mathlib.Data.Prod.Lex
import Mathlib.Data.String.Basic
import Mathlib.Order.Lattice

/-! Points in time.

    The engine's datetimes are in UTC. They are compared field by field, and `isoformat` writes every
    field, so it distinguishes any two of them. Years are not bounded above, so every point in time
    has a later one. -/

namespace WorkflowEngine
open Schemes

def isLeap (year : ℕ) : Bool := year % 4 = 0 ∧ (year % 100 ≠ 0 ∨ year % 400 = 0)

def daysInMonth (year month : ℕ) : ℕ :=
  if month = 2 then if isLeap year then 29 else 28
  else if month ∈ [4, 6, 9, 11] then 30
  else 31

/-- A `datetime` with `tzinfo` UTC. -/
@[ext] structure Datetime where
  year : ℕ
  month : ℕ
  day : ℕ
  hour : ℕ := 0
  minute : ℕ := 0
  second : ℕ := 0
  microsecond : ℕ := 0
  date : 1 ≤ year ∧ 1 ≤ month ∧ month ≤ 12 ∧ 1 ≤ day ∧ day ≤ daysInMonth year month := by decide
  time : hour < 24 ∧ minute < 60 ∧ second < 60 ∧ microsecond < 1000000 := by decide
  deriving DecidableEq

namespace Datetime

/-- The fields, from the most to the least significant. -/
def key (t : Datetime) : ℕ ×ₗ ℕ ×ₗ ℕ ×ₗ ℕ ×ₗ ℕ ×ₗ ℕ ×ₗ ℕ :=
  toLex (t.year, toLex (t.month, toLex (t.day, toLex (t.hour, toLex (t.minute,
    toLex (t.second, t.microsecond))))))

theorem key_injective : Function.Injective key := by
  intro s t h
  simp only [key, EmbeddingLike.apply_eq_iff_eq, Prod.mk.injEq] at h
  obtain ⟨h1, h2, h3, h4, h5, h6, h7⟩ := h
  exact Datetime.ext h1 h2 h3 h4 h5 h6 h7

instance : LinearOrder Datetime := LinearOrder.lift' key key_injective

/-- What `isoformat` writes after the seconds. -/
def isoTail (microsecond : ℕ) : List Char :=
  if microsecond = 0 then "+00:00".toList else '.' :: (padded 6 microsecond ++ "+00:00".toList)

/-- `t.isoformat()`, as characters. -/
def isoChars (t : Datetime) : List Char :=
  padded 4 t.year ++ '-' :: (padded 2 t.month ++ '-' :: (padded 2 t.day ++ 'T' ::
    (padded 2 t.hour ++ ':' :: (padded 2 t.minute ++ ':' :: (padded 2 t.second ++
      isoTail t.microsecond)))))

def isoformat (t : Datetime) : String := String.ofList t.isoChars

theorem isoTail_separated (n : ℕ) : Separated (isoTail n) := by
  unfold isoTail
  split_ifs
  · exact separated_cons rfl
  · exact separated_cons rfl

theorem isoTail_injective : Function.Injective isoTail := by
  intro a b h
  unfold isoTail at h
  split_ifs at h with ha hb hb
  · rw [ha, hb]
  · exact absurd (List.cons.inj h).1 (by decide)
  · exact absurd (List.cons.inj h).1 (by decide)
  · exact (padded_append_inj (separated_cons rfl) (separated_cons rfl) (List.cons.inj h).2).1

theorem isoChars_injective : Function.Injective isoChars := by
  intro s t h
  obtain ⟨hyear, h⟩ := padded_append_inj (separated_cons rfl) (separated_cons rfl) h
  obtain ⟨hmonth, h⟩ :=
    padded_append_inj (separated_cons rfl) (separated_cons rfl) (List.cons.inj h).2
  obtain ⟨hday, h⟩ :=
    padded_append_inj (separated_cons rfl) (separated_cons rfl) (List.cons.inj h).2
  obtain ⟨hhour, h⟩ :=
    padded_append_inj (separated_cons rfl) (separated_cons rfl) (List.cons.inj h).2
  obtain ⟨hminute, h⟩ :=
    padded_append_inj (separated_cons rfl) (separated_cons rfl) (List.cons.inj h).2
  obtain ⟨hsecond, h⟩ :=
    padded_append_inj (isoTail_separated _) (isoTail_separated _) (List.cons.inj h).2
  exact Datetime.ext hyear hmonth hday hhour hminute hsecond (isoTail_injective h)

theorem isoformat_injective : Function.Injective isoformat := by
  intro s t h
  exact isoChars_injective (String.ofList_injective h)

theorem isoTail_lt {a b : ℕ} (hb : b < 1000000) (h : a < b) : isoTail a < isoTail b := by
  have hb0 : b ≠ 0 := by omega
  unfold isoTail
  rw [if_neg hb0]
  split_ifs with ha
  · exact .rel (by decide)
  · exact .cons (field_lt (by decide) hb (.inl h))

/-- A field and the separator after it. -/
theorem field_sep_lt {width a b : ℕ} {c : Char} {x y : List Char} (hw : 0 < width)
    (hb : b < 10 ^ width) (h : a < b ∨ a = b ∧ x < y) :
    padded width a ++ c :: x < padded width b ++ c :: y :=
  field_lt hw hb (h.imp_right (And.imp_right List.Lex.cons))

theorem day_lt (t : Datetime) : t.day < 100 := by
  have hday := t.date.2.2.2.2
  unfold daysInMonth at hday
  split_ifs at hday <;> omega

theorem isoChars_lt {s t : Datetime} (hyear : t.year ≤ 9999) (h : s < t) :
    s.isoChars < t.isoChars := by
  obtain ⟨hhour, hminute, hsecond, hmicro⟩ := t.time
  have hmonth := t.date.2.2.1
  change s.key < t.key at h
  simp only [key, Prod.Lex.toLex_lt_toLex] at h
  -- from the first field on, either it decides or it agrees and the rest decides
  refine field_sep_lt (by decide) (by omega) (h.imp_right fun h => ⟨h.1, ?_⟩)
  refine field_sep_lt (by decide) (by omega) (h.2.imp_right fun h => ⟨h.1, ?_⟩)
  refine field_sep_lt (by decide) t.day_lt (h.2.imp_right fun h => ⟨h.1, ?_⟩)
  refine field_sep_lt (by decide) (by omega) (h.2.imp_right fun h => ⟨h.1, ?_⟩)
  refine field_sep_lt (by decide) (by omega) (h.2.imp_right fun h => ⟨h.1, ?_⟩)
  exact field_lt (by decide) (by omega)
    (h.2.imp_right fun h => ⟨h.1, isoTail_lt hmicro h.2⟩)

/-- EXACT (order): with years of four digits the texts are ordered like the points in time, whether
    they have a fraction or not. -/
theorem isoformat_lt_iff {s t : Datetime} (hs : s.year ≤ 9999) (ht : t.year ≤ 9999) :
    s.isoformat < t.isoformat ↔ s < t := by
  rw [String.lt_iff_toList_lt, isoformat, isoformat, String.toList_ofList, String.toList_ofList]
  refine ⟨fun h => ?_, isoChars_lt ht⟩
  rcases lt_trichotomy s t with hlt | rfl | hgt
  · exact hlt
  · exact absurd h (lt_irrefl _)
  · exact absurd h (isoChars_lt hs hgt).asymm

/-- An `isoformat` begins with a digit. -/
theorem isoformat_ne {text : String} (t : Datetime) (h : Separated text.toList) :
    t.isoformat ≠ text := by
  intro he
  have hchars : t.isoChars = text.toList := by rw [← he, isoformat, String.toList_ofList]
  obtain ⟨c, rest, hc⟩ := List.exists_cons_of_ne_nil (padded_ne_nil 4 t.year)
  have hdigit : c.isDigit := isDigit_of_mem_padded (hc ▸ List.mem_cons_self)
  rw [isoChars, hc] at hchars
  have hno := h c (hchars ▸ rfl)
  rw [hno] at hdigit
  exact absurd hdigit (by simp)

end Datetime

end WorkflowEngine
