import Mathlib.Data.Fin.VecNotation
import Mathlib.Tactic.FinCases
import Mathlib.Logic.Equiv.List
import WorkflowEngine.Schemes.Serialization
import WorkflowEngine.Service.Definitions

/-! The data behind a canonical hash.

    `yaml.safe_load` constructs objects, and an alias is the object of its anchor once more.
    `yaml.safe_dump` tells that: it writes anchors and aliases of its own, and it leaves the keys of a
    mapping as they are when they cannot be sorted. So two definitions with the same data have one
    hash only if they also agree on those. The members of a set stand in the order in which Python
    iterates over it, scalars are the same if they are spelled the same, and every graph is dumped
    without an exception. -/

namespace WorkflowEngine
open Schemes.Objects

/-- A `dict`, or a `set` as its members with null values. -/
inductive MapTag where
  | map
  | set
  deriving DecidableEq

variable {S P : Type} [LinearOrder S]

/-- The libraries, where `safe_load` constructs graphs of the scalars `S`. The order of `S` is the
    one of keys that can be compared, and `emit` the text of a stream of tokens, which can be read
    back from it. -/
structure GraphLibrary (S P : Type) where
  safeLoad : String → Except YamlFailure (ObjectGraph MapTag S)
  workflowConfig : ObjectGraph MapTag S → Except Exn (WorkflowConfig P)
  format : Format S
  emit : List (Token MapTag S) → String
  sha256 : String → String
  repr : List String → String
  emit_injective : Function.Injective emit
  sha256_injective : Function.Injective sha256
  plainLoad : ∀ text e, safeLoad text = .error (.raised e) → e.isHttp = false
  plainConfig : ∀ g e, workflowConfig g = .error e → e.isHttp = false

/-- `isinstance(data, dict)`. -/
def isDict (g : ObjectGraph MapTag S) : Bool :=
  match g.root with
  | .scalar _ => false
  | .collection c =>
    match g.collection c with
    | .map .map _ => true
    | _ => false

namespace GraphLibrary
variable (lib : GraphLibrary S P)

/-- `yaml.safe_dump(data, sort_keys=True, …)`. -/
def safeDump (g : ObjectGraph MapTag S) : String := lib.emit (g.serialize lib.format)

def yaml : YamlLibrary (ObjectGraph MapTag S) P where
  safeLoad := lib.safeLoad
  isMapping := isDict
  workflowConfig := lib.workflowConfig
  digest g := .ok (lib.sha256 (lib.safeDump g))
  repr := lib.repr
  plainLoad := lib.plainLoad
  plainConfig := lib.plainConfig
  plainDigest _ _ h := absurd h (by simp)

variable {lib} {text text' : String} {g g' : ObjectGraph MapTag S}

theorem canonicalYamlHash_of_load (h : lib.safeLoad text = .ok g) :
    lib.yaml.canonicalYamlHash text = .ok (lib.sha256 (lib.safeDump g)) := by
  have hparse : lib.yaml.parse text = .ok g := by simp only [YamlLibrary.parse, yaml, h]
  exact (YamlLibrary.parse_ok hparse).1

/-- Hashes are equal exactly if the same is written. -/
theorem canonicalYamlHash_eq_iff (h : lib.safeLoad text = .ok g)
    (h' : lib.safeLoad text' = .ok g') :
    lib.yaml.canonicalYamlHash text = lib.yaml.canonicalYamlHash text' ↔
      g.SameData g' ∧ g.SameSharing lib.format g' ∧ g.SameOrder lib.format g' := by
  rw [canonicalYamlHash_of_load h, canonicalYamlHash_of_load h', Except.ok.injEq,
    lib.sha256_injective.eq_iff, safeDump, safeDump, lib.emit_injective.eq_iff,
    ObjectGraph.serialize_eq_iff]

/-- EXACT (canonical hashes): hashes tell definitions apart by their data exactly when the same data
    come with the same sharing and the same order of the keys that cannot be sorted. -/
theorem identifies_iff (h : lib.safeLoad text = .ok g) (h' : lib.safeLoad text' = .ok g') :
    (lib.yaml.canonicalYamlHash text = lib.yaml.canonicalYamlHash text' ↔ g.SameData g') ↔
      (g.SameData g' → g.SameSharing lib.format g' ∧ g.SameOrder lib.format g') := by
  rw [canonicalYamlHash_eq_iff h h']
  exact ⟨fun hiff hd => (hiff.mpr hd).2, fun hrest => ⟨And.left, fun hd => ⟨hd, hrest hd⟩⟩⟩

end GraphLibrary

/-! ### An example -/

/-- `1: &x []` and `2: *x`. -/
def aliasedLists : ObjectGraph MapTag ℤ where
  scalars := 2
  collections := 2
  scalar := ![1, 2]
  collection := ![.map .map [(0, .collection 1), (1, .collection 1)], .seq []]
  root := .collection 0
  distinct c tag entries h := by
    fin_cases c <;> simp at h
    obtain ⟨-, rfl⟩ := h
    decide

/-- `1: []` and `2: []`. -/
def repeatedLists : ObjectGraph MapTag ℤ where
  scalars := 2
  collections := 3
  scalar := ![1, 2]
  collection := ![.map .map [(0, .collection 1), (1, .collection 2)], .seq [], .seq []]
  root := .collection 0
  distinct c tag entries h := by
    fin_cases c <;> simp at h
    obtain ⟨-, rfl⟩ := h
    decide

/-- The two lists become one. -/
def mergedLists : repeatedLists.Merging aliasedLists where
  scalar := id
  collection := (![0, 1, 1] : Fin 3 → Fin 2)
  root := rfl
  scalar_eq _ := rfl
  collection_eq c := by fin_cases c <;> rfl

theorem lists_sameData : repeatedLists.SameData aliasedLists := mergedLists.sameData

/-- Integers can be compared, and get no anchors. -/
def integers : Format ℤ := ⟨fun _ _ => true, fun _ => false⟩

theorem lists_not_sameSharing : ¬ repeatedLists.SameSharing integers aliasedLists := by
  intro h
  let one : List (Fin 2 × Ref 2 2) := [(0, .collection 1), (1, .collection 1)]
  have hone : aliasedLists.collection (0 : Fin 2) = .map .map one := rfl
  have hat : ∀ e ∈ one, aliasedLists.At [.value (aliasedLists.scalar e.1)] e.2 := fun e he =>
    .step .root (.value hone he)
  let two : List (Fin 2 × Ref 2 3) := [(0, .collection 1), (1, .collection 2)]
  have htwo : repeatedLists.collection (0 : Fin 3) = .map .map two := rfl
  have hat' : ∀ e ∈ two, repeatedLists.At [.value (repeatedLists.scalar e.1)] e.2 := fun e he =>
    .step .root (.value htwo he)
  obtain ⟨r, h1, h2, -⟩ := (h [.value 1] [.value 2]).mpr
    ⟨.collection (1 : Fin 2), hat _ (.head _), hat _ (.tail _ (.head _)), rfl⟩
  have hr : (.collection 1 : Ref 2 3) = r := (hat' _ (.head _)).unique h1
  have hr' : (.collection 2 : Ref 2 3) = r := (hat' _ (.tail _ (.head _))).unique h2
  exact absurd (hr.trans hr'.symm) (by decide)

/-- The codes of tokens. -/
def tokenCode : Token MapTag ℤ → (ℤ ⊕ ℕ) ⊕ (Bool × ℕ) ⊕ ℕ
  | .scalar n => .inl (.inl n)
  | .seqStart n => .inl (.inr n)
  | .mapStart tag n => .inr (.inl (decide (tag = .map), n))
  | .alias n => .inr (.inr n)

theorem tokenCode_injective : Function.Injective tokenCode := by
  intro t t' h
  cases t <;> cases t' <;> simp_all [tokenCode]
  case mapStart.mapStart tag _ tag' _ => cases tag <;> cases tag' <;> simp_all

/-- A text for any stream. -/
def spell (tokens : List (Token MapTag ℤ)) : String :=
  String.ofList (List.replicate (Encodable.encode (tokens.map tokenCode) + 1) 'x')

theorem spell_injective : Function.Injective spell := by
  intro ts ts' h
  have hlength := congrArg List.length (String.ofList_injective h)
  simp only [List.length_replicate, Nat.add_right_cancel_iff] at hlength
  exact tokenCode_injective.list_map (Encodable.encode_injective hlength)

theorem spell_head (tokens : List (Token MapTag ℤ)) :
    (spell tokens).toList.head? = some 'x' := by simp [spell, List.replicate_succ]

/-- A text for any text. -/
def marked (text : String) : String := String.ofList ('x' :: text.toList)

theorem marked_injective : Function.Injective marked := fun _ _ h =>
  String.toList_inj.mp (List.cons.inj (String.ofList_injective h)).2

theorem marked_head (text : String) : (marked text).toList.head? = some 'x' := by simp [marked]

/-- An injective function stays one with a new value in one place. -/
theorem update_injective {α : Type} [DecidableEq α] {f : α → String} (hf : Function.Injective f)
    {x : α} {a : String} (ha : ∀ z, f z ≠ a) : Function.Injective (Function.update f x a) := by
  intro z z' h
  by_cases hz : z = x
  · by_cases hz' : z' = x
    · rw [hz, hz']
    · rw [hz, Function.update_self, Function.update_of_ne hz'] at h
      exact absurd h.symm (ha z')
  · by_cases hz' : z' = x
    · rw [hz', Function.update_self, Function.update_of_ne hz] at h
      exact absurd h (ha z)
    · rw [Function.update_of_ne hz, Function.update_of_ne hz'] at h
      exact hf h

/-- `f`, but `a` at `x` and `b` at `y`. -/
def patched {α : Type} [DecidableEq α] (f : α → String) (x y : α) (a b : String) : α → String :=
  Function.update (Function.update f x a) y b

theorem patched_injective {α : Type} [DecidableEq α] {f : α → String} (hf : Function.Injective f)
    (hx : ∀ z, (f z).toList.head? = some 'x') {x y : α} {a b : String} (hab : a ≠ b)
    (ha : a.toList.head? ≠ some 'x') (hb : b.toList.head? ≠ some 'x') :
    Function.Injective (patched f x y a b) := by
  refine update_injective (update_injective hf ?_) fun z => ?_
  · rintro z rfl
    exact ha (hx z)
  · rw [Function.update_apply]
    split_ifs
    · exact hab
    · rintro rfl
      exact hb (hx z)

/-- The libraries on two definitions, with the real texts and hashes of these. -/
def twoDefinitions : GraphLibrary ℤ Unit where
  safeLoad text :=
    if text = "1: &x []\n2: *x\n" then .ok aliasedLists
    else if text = "1: []\n2: []\n" then .ok repeatedLists
    else .error (.malformed "could not find expected ':'")
  workflowConfig _ := .error (.other "keywords must be strings")
  format := integers
  emit := patched spell [.mapStart .map 2, .scalar 1, .seqStart 0, .scalar 2, .alias 1]
    [.mapStart .map 2, .scalar 1, .seqStart 0, .scalar 2, .seqStart 0]
    "1: &id001 []\n2: *id001\n" "1: []\n2: []\n"
  sha256 := patched marked "1: &id001 []\n2: *id001\n" "1: []\n2: []\n"
    "8b0c07a6e3a0f77042fb53c66c7de8dc3951d8968fc27f396ca5281eb9a5f8e3"
    "f717ed40fe1e96b466f4c5b1c0e11d48f5666e066354c3a8c1c171fa21e93600"
  repr ids := "[" ++ String.intercalate ", " (ids.map fun i => s!"'{i}'") ++ "]"
  emit_injective :=
    patched_injective spell_injective spell_head (by decide) (by decide) (by decide)
  sha256_injective :=
    patched_injective marked_injective marked_head (by decide) (by decide) (by decide)
  plainLoad text e h := by
    split_ifs at h
    exact absurd (Except.error.inj h) (by simp)
  plainConfig g e h := by rw [← Except.error.inj h]; rfl

theorem lists_identifies_iff :
    (twoDefinitions.yaml.canonicalYamlHash "1: []\n2: []\n" =
        twoDefinitions.yaml.canonicalYamlHash "1: &x []\n2: *x\n" ↔
      repeatedLists.SameData aliasedLists) ↔
    (repeatedLists.SameData aliasedLists →
      repeatedLists.SameSharing integers aliasedLists ∧
      repeatedLists.SameOrder integers aliasedLists) :=
  GraphLibrary.identifies_iff rfl rfl

/-- The same data with an alias has another hash. -/
theorem alias_splits :
    ¬ (twoDefinitions.yaml.canonicalYamlHash "1: []\n2: []\n" =
        twoDefinitions.yaml.canonicalYamlHash "1: &x []\n2: *x\n" ↔
      repeatedLists.SameData aliasedLists) := by
  intro h
  have hsame := GraphLibrary.canonicalYamlHash_eq_iff rfl rfl |>.mp (h.mpr lists_sameData)
  exact lists_not_sameSharing hsame.2.1

end WorkflowEngine
