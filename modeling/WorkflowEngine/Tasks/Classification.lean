import WorkflowEngine.Engine.Parser
import Mathlib.Data.Prod.Lex

/-! The classifier of `classify_with_llm` that needs no provider.

    It sorts the labels by how often the text has them and takes the first one. Where the text has
    none of them, a hash of the text picks one. So how the labels are listed matters only there. -/

namespace WorkflowEngine

/-! ### Counting -/

/-- The occurrences of `sub` that do not overlap, from left to right, after `skip` characters. -/
def countFrom (sub : List Char) : ℕ → List Char → ℕ
  | _, [] => 0
  | skip + 1, _ :: text => countFrom sub skip text
  | 0, c :: text =>
    if sub <+: c :: text then countFrom sub (sub.length - 1) text + 1 else countFrom sub 0 text

/-- `text.count(sub)`. -/
def strCount (text sub : String) : ℕ :=
  if sub = "" then text.length + 1 else countFrom sub.toList 0 text.toList

theorem infix_of_countFrom {sub : List Char} : ∀ {skip : ℕ} {text : List Char},
    0 < countFrom sub skip text → sub <:+: text
  | _, [], h => absurd h (lt_irrefl 0)
  | _ + 1, c :: text, h => by
      rw [countFrom] at h
      exact (infix_of_countFrom h).trans (List.suffix_cons c text).isInfix
  | 0, c :: text, h => by
      rw [countFrom] at h
      by_cases hfirst : sub <+: c :: text
      · exact hfirst.isInfix
      · rw [if_neg hfirst] at h
        exact (infix_of_countFrom h).trans (List.suffix_cons c text).isInfix

theorem countFrom_pos {sub : List Char} (hsub : sub ≠ []) : ∀ {text : List Char},
    sub <:+: text → 0 < countFrom sub 0 text
  | [], h => absurd (List.infix_nil.mp h) hsub
  | c :: text, h => by
      rw [countFrom]
      by_cases hfirst : sub <+: c :: text
      · rw [if_pos hfirst]
        exact Nat.succ_pos _
      · rw [if_neg hfirst]
        exact countFrom_pos hsub ((List.infix_cons_iff.mp h).resolve_left hfirst)

/-- A text is counted to have what it contains. -/
theorem strCount_pos {text sub : String} : 0 < strCount text sub ↔ sub.toList <:+: text.toList := by
  unfold strCount
  split_ifs with hsub
  · subst hsub
    exact iff_of_true (Nat.succ_pos _) List.nil_infix
  · exact ⟨infix_of_countFrom, countFrom_pos fun h => hsub (String.toList_injective h)⟩

/-! ### The classifier -/

/-- What Python makes of a string: `lower`, and the number of its SHA-256 digest. -/
structure StringLibrary where
  lower : String → String
  digest : String → ℕ

namespace StringLibrary
variable (py : StringLibrary)

/-- How often the text has the label, in whatever case. -/
def score (text label : String) : ℕ := strCount (py.lower text) (py.lower label)

/-- What the labels are sorted by. -/
def key (text label : String) : ℕ ×ₗ String := toLex (py.score text label, label)

/-- `reverse=True`. -/
def ranks (text a b : String) : Bool := decide (py.key text b ≤ py.key text a)

/-- `_simulate_classification`. -/
def simulateClassification (text : String) (labels : List String) : String :=
  let scored := labels.mergeSort (py.ranks text)
  let best := scored.headD "uncategorized"
  if best ≠ "" ∧ py.score text best = 0 then
    if labels ≠ [] then labels.getD (py.digest text % labels.length) "uncategorized"
    else "uncategorized"
  else best

/-- The label that the text has most often, and of several the greatest. -/
structure Best (text : String) (labels : List String) (best : String) : Prop where
  label : best ∈ labels
  first : ∀ label ∈ labels, py.key text label ≤ py.key text best

variable {py} {text best : String} {labels : List String}

namespace Best
variable (h : py.Best text labels best)
include h

theorem score_le {label : String} (hlabel : label ∈ labels) :
    py.score text label ≤ py.score text best := by
  rcases Prod.Lex.toLex_le_toLex.mp (h.first label hlabel) with hlt | ⟨heq, -⟩
  · exact hlt.le
  · exact heq.le

/-- It is the best of any list of the same labels. -/
theorem unique {labels' : List String} {best' : String} (h' : py.Best text labels' best')
    (hsame : ∀ label, label ∈ labels' ↔ label ∈ labels) : best' = best := by
  have hkey : py.key text best' = py.key text best :=
    le_antisymm (h.first best' ((hsame best').mp h'.label))
      (h'.first best ((hsame best).mpr h.label))
  exact congrArg (fun k => (ofLex k).2) hkey

end Best

/-- The first of the sorted labels is the best one. -/
theorem best_sorted (hlabels : labels ≠ []) :
    py.Best text labels ((labels.mergeSort (py.ranks text)).headD "uncategorized") := by
  have hperm := List.mergeSort_perm labels (py.ranks text)
  have hsorted : (labels.mergeSort (py.ranks text)).Pairwise fun a b => py.ranks text a b = true :=
    List.pairwise_mergeSort
      (fun a b c hab hbc => decide_eq_true ((of_decide_eq_true hbc).trans (of_decide_eq_true hab)))
      (fun a b => by simpa [ranks] using le_total (py.key text b) (py.key text a)) labels
  cases hlist : labels.mergeSort (py.ranks text) with
  | nil => exact absurd (List.nil_perm.mp (hlist ▸ hperm)) hlabels
  | cons best rest =>
    rw [hlist] at hperm hsorted
    refine ⟨hperm.mem_iff.mp List.mem_cons_self, fun label hlabel => ?_⟩
    rcases List.mem_cons.mp (hperm.mem_iff.mpr hlabel) with rfl | hrest
    · exact le_rfl
    · exact of_decide_eq_true (List.rel_of_pairwise_cons hsorted hrest)

theorem simulate_nil : py.simulateClassification text [] = "uncategorized" := by
  simp [simulateClassification]

/-- Where the text has some label, the answer is the best one. -/
theorem best_simulate (hsome : ∃ label ∈ labels, 0 < py.score text label) :
    py.Best text labels (py.simulateClassification text labels) := by
  obtain ⟨label, hlabel, hscore⟩ := hsome
  have hbest : py.Best text labels _ := best_sorted (List.ne_nil_of_mem hlabel)
  have hpos := (hscore.trans_le (hbest.score_le hlabel)).ne'
  rw [simulateClassification, if_neg fun hnone => hpos hnone.2]
  exact hbest

theorem simulate_mem (hlabels : labels ≠ []) : py.simulateClassification text labels ∈ labels := by
  rw [simulateClassification]
  split_ifs with hnone
  · have hindex := Nat.mod_lt (py.digest text) (List.length_pos_iff.mpr hlabels)
    rw [List.getD_eq_getElem?_getD, List.getElem?_eq_getElem hindex]
    exact List.getElem_mem hindex
  · exact (best_sorted hlabels).label

/-- CORRECT (classifier): it answers one of the labels, if there are any. If the text contains one of
    them, it contains the answer, it has no label more often, and any list of the same labels gets
    this answer. -/
theorem classification_occurs (py : StringLibrary) (text : String) (labels : List String) :
    (labels = [] → py.simulateClassification text labels = "uncategorized") ∧
    (labels ≠ [] → py.simulateClassification text labels ∈ labels) ∧
    ((∃ label ∈ labels, (py.lower label).toList <:+: (py.lower text).toList) →
      (py.lower (py.simulateClassification text labels)).toList <:+: (py.lower text).toList ∧
      (∀ label ∈ labels, py.score text label ≤
        py.score text (py.simulateClassification text labels)) ∧
      ∀ labels', (∀ label, label ∈ labels' ↔ label ∈ labels) →
        py.simulateClassification text labels' = py.simulateClassification text labels) := by
  refine ⟨fun hnil => hnil ▸ simulate_nil, simulate_mem, ?_⟩
  rintro ⟨label, hlabel, hoccurs⟩
  have hscore : 0 < py.score text label := strCount_pos.mpr hoccurs
  have hbest := best_simulate ⟨label, hlabel, hscore⟩
  refine ⟨strCount_pos.mp (hscore.trans_le (hbest.score_le hlabel)), fun _ => hbest.score_le,
    fun labels' hsame => ?_⟩
  exact hbest.unique (best_simulate ⟨label, (hsame label).mpr hlabel, hscore⟩) hsame

/-- `str.lower` for ASCII, and a stand-in for the digest. -/
def asciiLibrary : StringLibrary where
  lower text := String.ofList (text.toList.map Char.toLower)
  digest := String.length

theorem spam_classified :
    (asciiLibrary.lower
      (asciiLibrary.simulateClassification "A SPAM offer" ["support", "Spam"])).toList <:+:
        (asciiLibrary.lower "A SPAM offer").toList := by
  have hspam : (asciiLibrary.lower "Spam").toList <:+:
      (asciiLibrary.lower "A SPAM offer").toList := by
    simp only [asciiLibrary, String.toList_ofList]
    decide
  exact ((classification_occurs asciiLibrary _ _).2.2 ⟨"Spam", by decide, hspam⟩).1

end StringLibrary

end WorkflowEngine
