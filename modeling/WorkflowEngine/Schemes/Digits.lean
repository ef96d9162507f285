import Mathlib.Data.List.TakeWhile
import Mathlib.Data.List.Lex
import Mathlib.Data.Char
import Mathlib.Data.Nat.Digits.Defs

/-! Decimal fields.

    A number written in decimal and padded with zeros can be read back, and so can the rest of a text
    that goes on with something other than a digit. A text made of such fields with separators
    between them therefore determines its numbers, field by field. Texts whose fields all have their
    full width are ordered like their numbers. -/

namespace Schemes

/-- `n` in decimal, padded with zeros to at least `width` digits. -/
def padded (width n : ℕ) : List Char := (Nat.toDigits 10 n).leftpad width '0'

theorem isDigit_of_mem_padded {width n : ℕ} {c : Char} (h : c ∈ padded width n) :
    c.isDigit := by
  rw [padded, List.leftpad, List.mem_append] at h
  rcases h with h | h
  · obtain ⟨-, rfl⟩ := List.mem_replicate.mp h
    rfl
  · exact Nat.isDigit_of_mem_toDigits (by decide) (by decide) h

theorem padded_ne_nil (width n : ℕ) : padded width n ≠ [] := by
  rw [padded, List.leftpad]
  exact List.append_ne_nil_of_right_ne_nil _ Nat.toDigits_ne_nil

theorem ofDigitChars_padded (width n : ℕ) : Nat.ofDigitChars 10 (padded width n) 0 = n := by
  rw [padded, List.leftpad, Nat.ofDigitChars_append, Nat.ofDigitChars_replicate_zero,
    Nat.mul_zero, Nat.ofDigitChars_ten_toDigits]

theorem padded_injective (width : ℕ) : Function.Injective (padded width) := by
  intro a b h
  rw [← ofDigitChars_padded width a, h, ofDigitChars_padded]

/-- A text that is empty or goes on with something other than a digit. -/
def Separated (l : List Char) : Prop := ∀ c ∈ l.head?, c.isDigit = false

theorem separated_cons {c : Char} {l : List Char} (h : c.isDigit = false) : Separated (c :: l) := by
  intro c' hc
  obtain rfl := Option.some.inj hc
  exact h

theorem takeWhile_padded {width n : ℕ} {l : List Char} (hl : Separated l) :
    (padded width n ++ l).takeWhile Char.isDigit = padded width n := by
  rw [List.takeWhile_append_of_pos fun c hc => isDigit_of_mem_padded hc]
  cases l with
  | nil => exact List.append_nil _
  | cons c l => rw [List.takeWhile_cons_of_neg (by simp [hl c rfl]), List.append_nil]

/-- A field can be read off a text, whatever follows its last digit. -/
theorem padded_append_inj {width a b : ℕ} {l l' : List Char} (hl : Separated l)
    (hl' : Separated l') (h : padded width a ++ l = padded width b ++ l') : a = b ∧ l = l' := by
  have hfield : padded width a = padded width b := by
    rw [← takeWhile_padded hl, h, takeWhile_padded hl']
  exact ⟨padded_injective width hfield, List.append_cancel_left (hfield ▸ h)⟩

/-! ### Order -/

theorem length_padded {width n : ℕ} (hw : 0 < width) (hn : n < 10 ^ width) :
    (padded width n).length = width := by
  rw [padded, List.length_leftpad]
  exact max_eq_left (Nat.toDigits_length 10 n width hw hn)

theorem toNat_sub_of_isDigit {c : Char} (h : c.isDigit) : c.toNat - '0'.toNat ≤ 9 := by
  have h9 := (Char.isDigit_iff_toNat.mp h).2
  rw [show '9'.toNat = 57 from rfl] at h9
  rw [show '0'.toNat = 48 from rfl]
  omega

/-- Of two equally long digit texts the one that starts from less ends with less. -/
theorem ofDigitChars_lt_of_init_lt : ∀ {as bs : List Char} {i j : ℕ}, as.length = bs.length →
    (∀ c ∈ as, c.isDigit) → i < j → Nat.ofDigitChars 10 as i < Nat.ofDigitChars 10 bs j
  | [], [], i, j, _, _, h => by simpa [Nat.ofDigitChars] using h
  | [], _ :: _, _, _, hl, _, _ => by simp at hl
  | _ :: _, [], _, _, hl, _, _ => by simp at hl
  | a :: as, b :: bs, i, j, hl, hd, h => by
      rw [Nat.ofDigitChars_cons, Nat.ofDigitChars_cons]
      have ha := toNat_sub_of_isDigit (hd a List.mem_cons_self)
      exact ofDigitChars_lt_of_init_lt (Nat.succ.inj hl)
        (fun c hc => hd c (List.mem_cons_of_mem _ hc)) (by omega)

/-- Equally long digit texts are ordered like their numbers. -/
theorem ofDigitChars_lt_of_lt {as bs : List Char} (h : as < bs) {i : ℕ}
    (hl : as.length = bs.length) (hd : ∀ c ∈ as, c.isDigit) :
    Nat.ofDigitChars 10 as i < Nat.ofDigitChars 10 bs i := by
  induction h generalizing i with
  | nil => simp at hl
  | @cons a as bs _ ih =>
    rw [Nat.ofDigitChars_cons, Nat.ofDigitChars_cons]
    exact ih (Nat.succ.inj hl) fun c hc => hd c (List.mem_cons_of_mem _ hc)
  | @rel a as b bs hab =>
    rw [Nat.ofDigitChars_cons, Nat.ofDigitChars_cons]
    have h0 : '0'.toNat ≤ a.toNat := (Char.isDigit_iff_toNat.mp (hd a List.mem_cons_self)).1
    have hab' : a.toNat < b.toNat := hab
    exact ofDigitChars_lt_of_init_lt (Nat.succ.inj hl)
      (fun c hc => hd c (List.mem_cons_of_mem _ hc)) (by omega)

theorem padded_lt {width a b : ℕ} (hw : 0 < width) (hb : b < 10 ^ width) (h : a < b) :
    padded width a < padded width b := by
  have ha := h.trans hb
  rcases lt_trichotomy (padded width a) (padded width b) with hlt | heq | hgt
  · exact hlt
  · exact absurd (padded_injective width heq) h.ne
  · have hvalue := ofDigitChars_lt_of_lt (i := 0) hgt
      ((length_padded hw hb).trans (length_padded hw ha).symm) fun c hc => isDigit_of_mem_padded hc
    rw [ofDigitChars_padded, ofDigitChars_padded] at hvalue
    exact absurd hvalue h.asymm

/-- A smaller word puts a text first, whatever follows it and an equally long one. -/
theorem append_lt_append_of_lt {as bs : List Char} (h : as < bs) (hl : as.length = bs.length)
    (x y : List Char) : as ++ x < bs ++ y := by
  induction h with
  | nil => simp at hl
  | cons _ ih => exact List.Lex.cons (ih (Nat.succ.inj hl))
  | rel hab => exact List.Lex.rel hab

/-- The first field in which two texts differ orders them. -/
theorem field_lt {width a b : ℕ} (hw : 0 < width) (hb : b < 10 ^ width) {x y : List Char}
    (h : a < b ∨ a = b ∧ x < y) : padded width a ++ x < padded width b ++ y := by
  rcases h with h | ⟨rfl, h⟩
  · exact append_lt_append_of_lt (padded_lt hw hb h)
      ((length_padded hw (h.trans hb)).trans (length_padded hw hb).symm) x y
  · exact List.append_left_lt h

end Schemes
