import Mathlib.Algebra.Order.Floor.Ring
import Mathlib.Data.Rat.Floor
import Mathlib.Tactic.Linarith
import Mathlib.Tactic.SplitIfs

/-! The `parse_text` task.

    It cuts its text into chunks of the size its params name, which nobody checks. The chunker moves
    on by the size less the overlap. It lowers an overlap that would stop it, but to a quarter of the
    size, which is no less than the size unless the size is positive. -/

namespace WorkflowEngine

/-! ### The chunker -/

/-- Where a slice bound falls in a list of this length. -/
def sliceIndex (length : ℕ) (bound : ℤ) : ℕ :=
  if bound < 0 then (bound + length).toNat else min bound.toNat length

/-- `text[start:stop]`. -/
def slice {α : Type} (text : List α) (start stop : ℤ) : List α :=
  (text.take (sliceIndex text.length stop)).drop (sliceIndex text.length start)

section Chunker
variable (text : List Char) (chunkSize : ℤ)

/-- The loop of `_chunk_fixed` from `start` on; `none` when it runs out of iterations. -/
def chunkLoop (overlap : ℤ) : ℕ → ℤ → Option (List (List Char))
  | 0, _ => none
  | fuel + 1, start =>
    if start < text.length then
      let stop := min (start + chunkSize) text.length
      if text.length ≤ stop then some [slice text start stop]
      else (chunkLoop overlap fuel (stop - overlap)).map (slice text start stop :: ·)
    else some []

/-- The overlap that `_chunk_fixed` works with; `//` rounds down. -/
def fixedOverlap (overlap : ℤ) : ℤ := if chunkSize ≤ overlap then chunkSize / 4 else overlap

/-- `_chunk_fixed`. -/
def chunkFixed (overlap : ℤ) (fuel : ℕ) : Option (List (List Char)) :=
  chunkLoop text chunkSize (fixedOverlap chunkSize overlap) fuel 0

/-- `chunk_text`, by the default strategy. -/
def chunkText (overlap : ℤ) (fuel : ℕ) : Option (List (List Char)) :=
  if text = [] then some [] else chunkFixed text chunkSize overlap fuel

end Chunker

/-! ### The task -/

/-- The white space that `str.split` splits at. -/
def isSpace (c : Char) : Bool :=
  let n := c.toNat
  (9 ≤ n ∧ n ≤ 13) ∨ (28 ≤ n ∧ n ≤ 32) ∨ n = 0x85 ∨ n = 0xa0 ∨ n = 0x1680 ∨
    (0x2000 ≤ n ∧ n ≤ 0x200a) ∨ n = 0x2028 ∨ n = 0x2029 ∨ n = 0x202f ∨ n = 0x205f ∨ n = 0x3000

/-- `str.strip`. -/
def strip (text : List Char) : List Char :=
  ((text.dropWhile isSpace).reverse.dropWhile isSpace).reverse

/-- `len(text.split())`: a word starts after white space, or at the start. -/
def wordCount (text : List Char) : ℕ :=
  ((' ' :: text).zip text).countP fun p => isSpace p.1 && !isSpace p.2

/-- The params that `parse_text` reads; a `chunk_size` can be any value. -/
structure ParseParams (W : Type) where
  text : Option String := none
  chunkSize : Option W := none

structure Parsed where
  status : String := "parsed"
  wordCount : ℕ
  chunkCount : ℕ
  preview : List Char

def sampleText : String :=
  "Lead inbound: ACME Corp requests a quote for 500 widgets. " ++
    "Priority customer, follow up within 24h."

section ParseText
variable {W : Type} (int : W → Except String ℤ)

/-- `params.get("text") or (…)`. -/
def ParseParams.chosenText (params : ParseParams W) : List Char :=
  ((params.text.filter fun text => text ≠ "").getD sampleText).toList

/-- `int(params.get("chunk_size", 256))`, where `int` is the builtin: a number, or what it raises. -/
def ParseParams.chosenSize (params : ParseParams W) : Except String ℤ :=
  (params.chunkSize.map int).getD (.ok 256)

/-- `parse_text`: what it returns or raises, if the chunker ends within `fuel` iterations. -/
def parseText (fuel : ℕ) (params : ParseParams W) : Option (Except String Parsed) :=
  match params.chosenSize int with
  | .error e => some (.error e)
  | .ok chunkSize =>
    (chunkText params.chosenText chunkSize 0 fuel).map fun chunks =>
      .ok { wordCount := wordCount params.chosenText
            chunkCount := chunks.length
            preview := slice params.chosenText 0 80 }

end ParseText

/-! ### When the chunker ends -/

section Loop
variable {text : List Char} {chunkSize overlap : ℤ}

/-- STEP: an iteration that is not the last moves on by the size less the overlap. -/
theorem chunkLoop_step {start : ℤ} (hstart : start < text.length)
    (hmore : start + chunkSize < text.length) (fuel : ℕ) :
    chunkLoop text chunkSize overlap (fuel + 1) start =
      (chunkLoop text chunkSize overlap fuel (start + chunkSize - overlap)).map
        (slice text start (start + chunkSize) :: ·) := by
  rw [chunkLoop, if_pos hstart, min_eq_left hmore.le, if_neg (not_le.mpr hmore)]

theorem chunkLoop_last {start : ℤ} (hstart : start < text.length)
    (hlast : text.length ≤ start + chunkSize) (fuel : ℕ) :
    chunkLoop text chunkSize overlap (fuel + 1) start =
      some [slice text start text.length] := by
  rw [chunkLoop, if_pos hstart, min_eq_right hlast, if_pos le_rfl]

theorem chunkLoop_done {start : ℤ} (hstart : text.length ≤ start) (fuel : ℕ) :
    chunkLoop text chunkSize overlap (fuel + 1) start = some [] := by
  rw [chunkLoop, if_neg (not_lt.mpr hstart)]

/-- It ends if it gets on. -/
theorem chunkLoop_ends (h : overlap < chunkSize) : ∀ (left : ℕ) (start : ℤ),
    text.length - start ≤ left → ∃ chunks, chunkLoop text chunkSize overlap (left + 1) start = some chunks
  | 0, start, hleft => ⟨[], chunkLoop_done (by simpa using hleft) 0⟩
  | left + 1, start, hleft => by
      rcases le_or_gt (text.length : ℤ) start with hdone | hstart
      · exact ⟨[], chunkLoop_done hdone _⟩
      rcases le_or_gt (text.length : ℤ) (start + chunkSize) with hlast | hmore
      · exact ⟨_, chunkLoop_last hstart hlast _⟩
      · obtain ⟨chunks, hchunks⟩ :=
          chunkLoop_ends h left (start + chunkSize - overlap) (by push_cast at hleft; omega)
        exact ⟨_, by rw [chunkLoop_step hstart hmore, hchunks, Option.map_some]⟩

/-- It does not end if it stays where it is or goes back. -/
theorem chunkLoop_runs (hsize : chunkSize ≤ 0) (h : chunkSize ≤ overlap) : ∀ (fuel : ℕ) (start : ℤ),
    start < text.length → chunkLoop text chunkSize overlap fuel start = none
  | 0, _, _ => rfl
  | fuel + 1, start, hstart => by
      rw [chunkLoop_step hstart (by omega), chunkLoop_runs hsize h fuel _ (by omega),
        Option.map_none]

/-- Without overlap every chunk but the last has the full size. -/
theorem chunkLoop_count (hsize : 0 < chunkSize) : ∀ (left : ℕ) (start : ℤ), start < text.length →
    text.length - start ≤ left → ∃ chunks, chunkLoop text chunkSize 0 (left + 1) start = some chunks ∧
      ((chunks.length : ℤ) - 1) * chunkSize < text.length - start ∧
      text.length - start ≤ chunks.length * chunkSize
  | 0, start, hstart, hleft => absurd hstart (by push_cast at hleft; omega)
  | left + 1, start, hstart, hleft => by
      rcases le_or_gt (text.length : ℤ) (start + chunkSize) with hlast | hmore
      · refine ⟨_, chunkLoop_last hstart hlast _, ?_, ?_⟩
        · simpa using hstart
        · simpa [add_comm] using hlast
      · obtain ⟨chunks, hchunks, hlow, hhigh⟩ := chunkLoop_count hsize left
          (start + chunkSize - 0) (by omega) (by push_cast at hleft; omega)
        refine ⟨slice text start (start + chunkSize) :: chunks,
          by rw [chunkLoop_step hstart hmore, hchunks, Option.map_some], ?_, ?_⟩
        · rw [List.length_cons]
          push_cast
          linarith
        · rw [List.length_cons]
          push_cast
          linarith

end Loop

/-- A positive size leaves its overlap, if there is one, below it; any other size does so only for an
    overlap that was below it before. -/
theorem fixedOverlap_lt_iff (chunkSize overlap : ℤ) :
    fixedOverlap chunkSize overlap < chunkSize ↔ 0 < chunkSize ∨ overlap < chunkSize := by
  unfold fixedOverlap
  split_ifs with h <;> omega

/-- EXACT (chunker): it ends on a nonempty text if and only if its size is positive or above the
    overlap. -/
theorem chunkFixed_ends_iff {text : List Char} (htext : text ≠ []) (chunkSize overlap : ℤ) :
    (∃ fuel chunks, chunkFixed text chunkSize overlap fuel = some chunks) ↔
      0 < chunkSize ∨ overlap < chunkSize := by
  rw [← fixedOverlap_lt_iff]
  constructor
  · rintro ⟨fuel, chunks, hends⟩
    by_contra hstuck
    have hover := not_lt.mp hstuck
    have hsize : chunkSize ≤ 0 := by
      rw [fixedOverlap_lt_iff] at hstuck
      omega
    have hpos : (0 : ℤ) < text.length := by exact_mod_cast List.length_pos_iff.mpr htext
    rw [chunkFixed, chunkLoop_runs hsize hover fuel 0 hpos] at hends
    exact absurd hends (by simp)
  · intro h
    have hleft : (text.length : ℤ) - 0 ≤ text.length := by omega
    obtain ⟨chunks, hends⟩ := chunkLoop_ends h text.length 0 hleft
    exact ⟨_, chunks, hends⟩

/-! ### The task ends -/

section Ends
variable {W : Type} {int : W → Except String ℤ} {params : ParseParams W}

theorem chosenText_ne_nil (params : ParseParams W) : params.chosenText ≠ [] := by
  unfold ParseParams.chosenText
  cases htext : params.text.filter fun text => text ≠ "" with
  | none => exact fun h => absurd (congrArg List.length h) (by decide)
  | some text =>
    have hne : text ≠ "" := by
      have hp := (Option.filter_eq_some_iff.mp htext).2
      simpa using hp
    exact fun h => hne (String.toList_injective h)

/-- The task returns or raises, and a positive size gives as many chunks as it takes to hold the
    text. -/
def ParsesRight (int : W → Except String ℤ) (params : ParseParams W) : Prop :=
  (∃ fuel answer, parseText int fuel params = some answer) ∧
    ∀ chunkSize, params.chosenSize int = .ok chunkSize → 0 < chunkSize →
      ∃ fuel parsed, parseText int fuel params = some (.ok parsed) ∧
        (parsed.chunkCount : ℤ) = ⌈(params.chosenText.length : ℚ) / chunkSize⌉

theorem parseText_chunks {chunkSize : ℤ} (hsize : params.chosenSize int = .ok chunkSize)
    (fuel : ℕ) : parseText int fuel params =
      (chunkFixed params.chosenText chunkSize 0 fuel).map fun chunks =>
        .ok { wordCount := wordCount params.chosenText
              chunkCount := chunks.length
              preview := slice params.chosenText 0 80 } := by
  rw [parseText, hsize]
  simp only [chunkText, if_neg (chosenText_ne_nil params)]

/-- The number of chunks of a positive size. -/
theorem parseText_count {chunkSize : ℤ} (hsize : params.chosenSize int = .ok chunkSize)
    (hpos : 0 < chunkSize) : ∃ fuel parsed, parseText int fuel params = some (.ok parsed) ∧
      (parsed.chunkCount : ℤ) = ⌈(params.chosenText.length : ℚ) / chunkSize⌉ := by
  have hlen : (0 : ℤ) < params.chosenText.length := by
    exact_mod_cast List.length_pos_iff.mpr (chosenText_ne_nil params)
  obtain ⟨chunks, hchunks, hlow, hhigh⟩ :=
    chunkLoop_count hpos params.chosenText.length 0 hlen (by omega)
  have hfixed : fixedOverlap chunkSize 0 = 0 := if_neg (by omega)
  refine ⟨_, _, by rw [parseText_chunks hsize, chunkFixed, hfixed, hchunks, Option.map_some], ?_⟩
  have hposQ : (0 : ℚ) < chunkSize := by exact_mod_cast hpos
  rw [eq_comm, Int.ceil_eq_iff, lt_div_iff₀ hposQ, div_le_iff₀ hposQ]
  rw [sub_zero] at hlow hhigh
  constructor
  · exact_mod_cast hlow
  · exact_mod_cast hhigh

/-- EXACT (end): `parse_text` does its work if and only if `int` raises on the size or makes it a
    positive number. -/
theorem parsesRight_iff (int : W → Except String ℤ) (params : ParseParams W) :
    ParsesRight int params ↔ ∀ chunkSize, params.chosenSize int = .ok chunkSize → 0 < chunkSize := by
  constructor
  · rintro ⟨⟨fuel, answer, hends⟩, -⟩ chunkSize hsize
    rw [parseText_chunks hsize, Option.map_eq_some_iff] at hends
    obtain ⟨chunks, hchunks, -⟩ := hends
    have hiff := chunkFixed_ends_iff (chosenText_ne_nil params) chunkSize 0
    exact (hiff.mp ⟨fuel, chunks, hchunks⟩).elim (fun h => h) fun h => h
  · intro hpositive
    refine ⟨?_, fun chunkSize hsize => parseText_count hsize⟩
    cases hsize : params.chosenSize int with
    | error e => exact ⟨0, .error e, by rw [parseText, hsize]⟩
    | ok chunkSize =>
      obtain ⟨fuel, parsed, hparsed, -⟩ := parseText_count hsize (hpositive chunkSize hsize)
      exact ⟨fuel, _, hparsed⟩

end Ends

/-- A size of 0 keeps the chunker at the start of the text. -/
theorem zero_not_parsesRight :
    ¬ ParsesRight (W := ℤ) .ok { text := some "lead", chunkSize := some 0 } := by
  rintro ⟨⟨fuel, answer, hends⟩, -⟩
  have hsize : ParseParams.chosenSize (W := ℤ) .ok { text := some "lead", chunkSize := some 0 } = .ok 0 :=
    rfl
  rw [parseText_chunks hsize, Option.map_eq_some_iff] at hends
  obtain ⟨chunks, hchunks, -⟩ := hends
  have htext : "lead".toList ≠ [] := by decide
  have hiff := chunkFixed_ends_iff htext 0 0
  exact absurd (hiff.mp ⟨fuel, chunks, hchunks⟩) (by decide)

end WorkflowEngine
