import WorkflowEngine.Tasks.ParseText

/-! The chunks of a text.

    Consecutive chunks share as many characters as the chunker's overlap says, and all but the last
    have the full size. So the text can be put together again from its chunks: the first one, and of
    every other one what comes after the overlap. -/

namespace WorkflowEngine

/-- Put chunks together, each but the first without what it shares with the one before it. -/
def rejoin (overlap : ℕ) : List (List Char) → List Char
  | [] => []
  | chunk :: chunks => chunk ++ chunks.flatMap (List.drop overlap)

/-- The chunks of a text from `start` on. -/
structure Chunked (text : List Char) (size overlap start : ℕ) (chunks : List (List Char)) : Prop where
  rejoined : rejoin overlap chunks = text.drop start
  full : ∀ chunk ∈ chunks.dropLast, chunk.length = size
  bounded : ∀ chunk ∈ chunks, chunk ≠ [] ∧ chunk.length ≤ size

section Loop
variable {text : List Char} {size overlap start : ℕ}

theorem slice_natCast {start stop : ℕ} (hstart : start ≤ text.length) (hstop : stop ≤ text.length) :
    slice text start stop = (text.take stop).drop start := by
  have hindex : ∀ bound : ℕ, bound ≤ text.length → sliceIndex text.length bound = bound := by
    intro bound hbound
    rw [sliceIndex, if_neg (by omega)]
    omega
  rw [slice, hindex start hstart, hindex stop hstop]

theorem length_slice {start stop : ℕ} (hstart : start ≤ text.length) (hstop : stop ≤ text.length) :
    (slice text start stop).length = stop - start := by
  rw [slice_natCast hstart hstop, List.length_drop, List.length_take, min_eq_left hstop]

/-- The last chunk is the rest of the text. -/
theorem chunked_last (hstart : start < text.length) (hlast : text.length ≤ start + size) :
    Chunked text size overlap start [slice text start text.length] where
  rejoined := by
    rw [rejoin, List.flatMap_nil, List.append_nil, slice_natCast hstart.le le_rfl, List.take_length]
  full := by simp
  bounded chunk hchunk := by
    obtain rfl := List.mem_singleton.mp hchunk
    have hlength := length_slice hstart.le (le_refl text.length)
    exact ⟨List.ne_nil_of_length_pos (by omega), by omega⟩

/-- STEP: a chunk in front of those that start where it ends, less the overlap. -/
theorem Chunked.cons (hlt : overlap < size) (hmore : start + size < text.length)
    {chunks : List (List Char)} (h : Chunked text size overlap (start + size - overlap) chunks) :
    Chunked text size overlap start (slice text start (start + size : ℕ) :: chunks) := by
  have hle : start ≤ text.length := by omega
  have hlength := length_slice hle hmore.le
  have hslice := slice_natCast hle hmore.le
  cases chunks with
  | nil =>
    -- there is text left
    have hempty := congrArg List.length h.rejoined
    rw [rejoin, List.length_nil, List.length_drop] at hempty
    omega
  | cons next rest =>
    refine ⟨?_, fun chunk hchunk => ?_, fun chunk hchunk => ?_⟩
    · -- the next chunk is longer than the overlap
      have hnext : overlap ≤ next.length := by
        cases rest with
        | nil =>
          have hall := congrArg List.length h.rejoined
          rw [rejoin, List.flatMap_nil, List.append_nil, List.length_drop] at hall
          omega
        | cons last rest => exact (h.full next (by simp)).symm ▸ hlt.le
      have htail : (next :: rest).flatMap (List.drop overlap) = text.drop (start + size) := by
        have hdropped := congrArg (List.drop overlap) h.rejoined
        rw [rejoin, List.drop_append_of_le_length hnext, List.drop_drop] at hdropped
        rw [List.flatMap_cons, hdropped]
        congr 1
        omega
      rw [rejoin, htail, hslice, ← List.drop_append_of_le_length (by simp; omega)]
      rw [List.take_append_drop]
    · rw [List.dropLast_cons_of_ne_nil (by simp)] at hchunk
      rcases List.mem_cons.mp hchunk with rfl | hchunk
      · omega
      · exact h.full chunk hchunk
    · rcases List.mem_cons.mp hchunk with rfl | hchunk
      · exact ⟨List.ne_nil_of_length_pos (by omega), by omega⟩
      · exact h.bounded chunk hchunk

/-- RUN: the loop makes the chunks from its start on. -/
theorem chunkLoop_chunks (hlt : overlap < size) : ∀ (left start : ℕ), start < text.length →
    text.length - start ≤ left → ∃ chunks,
      chunkLoop text size overlap (left + 1) start = some chunks ∧
        Chunked text size overlap start chunks
  | 0, start, hstart, hleft => absurd hstart (by omega)
  | left + 1, start, hstart, hleft => by
      have hstart' : (start : ℤ) < text.length := by exact_mod_cast hstart
      rcases le_or_gt text.length (start + size) with hlast | hmore
      · exact ⟨_, chunkLoop_last hstart' (by exact_mod_cast hlast) _, chunked_last hstart hlast⟩
      · obtain ⟨chunks, hchunks, hchunked⟩ :=
          chunkLoop_chunks hlt left (start + size - overlap) (by omega) (by omega)
        have hnext : (start : ℤ) + size - overlap = ((start + size - overlap : ℕ) : ℤ) := by omega
        refine ⟨_, ?_, hchunked.cons hlt hmore⟩
        rw [chunkLoop_step hstart' (by exact_mod_cast hmore), hnext, hchunks, Option.map_some]
        rfl

end Loop

/-- ROUND TRIP (chunks): for every text, every positive size and every overlap that is not negative,
    also one above the size, the chunker ends, the text can be put together again from its chunks, and
    all of them but the last have the full size. -/
theorem chunks_rejoin (text : List Char) (chunkSize overlap : ℤ) (hsize : 0 < chunkSize)
    (hoverlap : 0 ≤ overlap) : ∃ fuel chunks, chunkFixed text chunkSize overlap fuel = some chunks ∧
      Chunked text chunkSize.toNat (fixedOverlap chunkSize overlap).toNat 0 chunks := by
  have hlt : fixedOverlap chunkSize overlap < chunkSize :=
    (fixedOverlap_lt_iff chunkSize overlap).mpr (.inl hsize)
  have hnonneg : 0 ≤ fixedOverlap chunkSize overlap := by
    unfold fixedOverlap
    split_ifs <;> omega
  rcases eq_or_ne text [] with rfl | htext
  · exact ⟨1, [], chunkLoop_done (by simp) 0, ⟨rfl, by simp, by simp⟩⟩
  · have hnat : (fixedOverlap chunkSize overlap).toNat < chunkSize.toNat := by omega
    obtain ⟨chunks, hchunks, hchunked⟩ :=
      chunkLoop_chunks hnat text.length 0 (List.length_pos_iff.mpr htext) (by omega)
    refine ⟨text.length + 1, chunks, ?_, hchunked⟩
    rw [Int.toNat_of_nonneg hsize.le, Int.toNat_of_nonneg hnonneg] at hchunks
    exact hchunks

/-- An overlap above the size is lowered to a quarter of it. -/
theorem quote_rejoins : ∃ fuel chunks,
    chunkFixed "quote for 500 widgets".toList 8 9 fuel = some chunks ∧
      rejoin 2 chunks = "quote for 500 widgets".toList := by
  obtain ⟨fuel, chunks, hchunks, hchunked⟩ :=
    chunks_rejoin "quote for 500 widgets".toList 8 9 (by decide) (by decide)
  exact ⟨fuel, chunks, hchunks, hchunked.rejoined⟩

end WorkflowEngine
