import WorkflowEngine.Engine.Parser

/-! Documents, and the validators of the schema.

    `Value` is what `yaml.safe_load` constructs. Pydantic turns a document into the fields of a
    workflow, where `retries` is any integer and ids may repeat; the two validators of the schema
    then refuse what is negative and what repeats. -/

namespace WorkflowEngine
open Schemes

/-- The scalars that `safe_load` constructs: a float by its binary64 pattern, a date by its ordinal, a
    timestamp by its microsecond and its UTC offset, if it has one. -/
inductive Scalar where
  | null
  | bool (b : Bool)
  | int (n : ℤ)
  | float (bits : UInt64)
  | str (text : String)
  | bytes (data : List UInt8)
  | date (ordinal : ℤ)
  | datetime (microsecond : ℤ) (offset : Option ℤ)
  deriving DecidableEq

/-- The keyword that a key can be. -/
def Scalar.str? : Scalar → Option String
  | .str text => some text
  | _ => none

/-- Python values: a tuple is an entry of `!!omap` or `!!pairs`, and `enclosing n` is an alias of the
    `n`-th collection that it stands in. -/
inductive Value where
  | scalar (s : Scalar)
  | list (items : List Value)
  | tuple (items : List Value)
  | map (entries : List (Scalar × Value))
  | set (members : List Scalar)
  | enclosing (n : ℕ)

/-! ### The fields of a definition -/

/-- A `StepConfig` before `retries` is checked. -/
structure RawStep (P : Type) where
  id : String
  task : String
  dependsOn : Option (List String) := some []
  retries : ℤ := 3
  params : P
  condition : Option StepCondition := none

/-- A `WorkflowConfig` before its steps are checked. -/
structure RawWorkflow (P : Type) where
  name : String
  steps : List (RawStep P)
  schedule : Option String := none
  typedIo : Bool := false

variable {P : Type}

/-- `_non_negative_retries`. -/
def nonNegativeRetries (value : ℤ) : Except String ℕ :=
  if value < 0 then .error "retries must be >= 0" else .ok value.toNat

/-- `_unique_step_ids`, from the ids `seen` on. -/
def uniqueStepIds : List String → List String → Except String Unit
  | _, [] => .ok ()
  | seen, id :: ids =>
    if id ∈ seen then .error s!"Duplicate step id '{id}'" else uniqueStepIds (id :: seen) ids

/-- The step with a retry count that was accepted. -/
def RawStep.checked (s : RawStep P) (retries : ℕ) : StepConfig P :=
  ⟨s.id, s.task, s.dependsOn, retries, s.params, s.condition⟩

/-- One step: the message of its validator, or the step. -/
def RawStep.check (s : RawStep P) : Except String (StepConfig P) :=
  (nonNegativeRetries s.retries).map s.checked

theorem uniqueStepIds_ok_iff : ∀ (ids seen : List String),
    uniqueStepIds seen ids = .ok () ↔ ids.Nodup ∧ ∀ id ∈ ids, id ∉ seen
  | [], seen => by simp [uniqueStepIds]
  | id :: ids, seen => by
    rw [uniqueStepIds]
    split_ifs with hseen
    · exact iff_of_false (by simp) fun h => h.2 id List.mem_cons_self hseen
    · rw [uniqueStepIds_ok_iff ids (id :: seen), List.nodup_cons]
      constructor
      · rintro ⟨hnodup, hall⟩
        refine ⟨⟨fun hid => hall id hid List.mem_cons_self, hnodup⟩, fun i hi => ?_⟩
        rcases List.mem_cons.mp hi with rfl | hi
        · exact hseen
        · exact fun hmem => hall i hi (List.mem_cons_of_mem _ hmem)
      · rintro ⟨⟨hid, hnodup⟩, hall⟩
        refine ⟨hnodup, fun i hi hmem => ?_⟩
        rcases List.mem_cons.mp hmem with rfl | hmem
        · exact hid hi
        · exact hall i (List.mem_cons_of_mem _ hi) hmem

theorem RawStep.check_ok_iff {s : RawStep P} {step : StepConfig P} :
    s.check = .ok step ↔ 0 ≤ s.retries ∧ step = s.checked s.retries.toNat := by
  rw [check, nonNegativeRetries]
  split_ifs with hneg
  · exact iff_of_false (by simp [Except.map]) fun h => absurd h.1 (not_le.mpr hneg)
  · simp only [Except.map, Except.ok.injEq]
    exact ⟨fun h => ⟨not_lt.mp hneg, h.symm⟩, fun h => h.2.symm⟩

/-- The steps that their validator accepts, or its messages. -/
def checkSteps : List (RawStep P) → Except (List String) (List (StepConfig P))
  | [] => .ok []
  | s :: steps =>
    match s.check, checkSteps steps with
    | .ok step, .ok rest => .ok (step :: rest)
    | .ok _, .error messages => .error messages
    | .error message, .ok _ => .error [message]
    | .error message, .error messages => .error (message :: messages)

theorem checkSteps_ok : ∀ {raw : List (RawStep P)} {steps : List (StepConfig P)},
    checkSteps raw = .ok steps → (∀ s ∈ raw, 0 ≤ s.retries) ∧
      steps = raw.map fun s => s.checked s.retries.toNat
  | [], steps, h => by
    obtain rfl := Except.ok.inj h
    simp
  | s :: raw, steps, h => by
    rw [checkSteps] at h
    cases hs : s.check with
    | error message => rw [hs] at h; cases hr : checkSteps raw <;> rw [hr] at h <;> simp at h
    | ok step =>
      rw [hs] at h
      cases hr : checkSteps raw with
      | error messages => rw [hr] at h; simp at h
      | ok rest =>
        rw [hr] at h
        obtain rfl := Except.ok.inj h
        obtain ⟨hnonneg, rfl⟩ := RawStep.check_ok_iff.mp hs
        obtain ⟨hall, rfl⟩ := checkSteps_ok hr
        exact ⟨List.forall_mem_cons.mpr ⟨hnonneg, hall⟩, rfl⟩

/-- The validators of the schema: first the steps' own, then the one of the list. -/
def RawWorkflow.validate (raw : RawWorkflow P) : Except (List String) (WorkflowConfig P) :=
  match checkSteps raw.steps with
  | .error messages => .error messages
  | .ok steps =>
    match h : uniqueStepIds [] (steps.map StepConfig.id) with
    | .error message => .error [message]
    | .ok () =>
      .ok { name := raw.name, steps := steps, schedule := raw.schedule, typedIo := raw.typedIo
            uniqueStepIds := ((uniqueStepIds_ok_iff _ _).mp h).1 }

/-- What the validators let through is what they were given. -/
structure RawWorkflow.Accepted (raw : RawWorkflow P) (config : WorkflowConfig P) : Prop where
  name : config.name = raw.name
  schedule : config.schedule = raw.schedule
  typedIo : config.typedIo = raw.typedIo
  steps : config.steps = raw.steps.map fun s => s.checked s.retries.toNat
  nonneg : ∀ s ∈ raw.steps, 0 ≤ s.retries
  distinct : (raw.steps.map RawStep.id).Nodup

theorem RawWorkflow.validate_ok {raw : RawWorkflow P} {config : WorkflowConfig P}
    (h : raw.validate = .ok config) : raw.Accepted config := by
  unfold validate at h
  cases hs : checkSteps raw.steps with
  | error messages => simp [hs] at h
  | ok steps =>
    simp only [hs] at h
    split at h
    · exact absurd h (by simp)
    · next hunique =>
      obtain rfl := Except.ok.inj h
      obtain ⟨hnonneg, rfl⟩ := checkSteps_ok hs
      have hnodup := ((uniqueStepIds_ok_iff _ _).mp hunique).1
      rw [List.map_map] at hnodup
      exact ⟨rfl, rfl, rfl, rfl, hnonneg, hnodup⟩

end WorkflowEngine
