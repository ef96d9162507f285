import WorkflowEngine.Engine.Contracts
import Mathlib.Data.List.Infix
import Mathlib.Data.List.Sort
import Mathlib.Data.String.Basic

/-! Workflow definitions and their static check.

    A workflow is a name and a list of steps with distinct ids; a step names a task, the steps it
    depends on, a retry count, its parameters and an optional condition on an earlier result.
    `detectCycles` is the in-degree queue that a definition must pass before it can run. -/

namespace WorkflowEngine
open Schemes

/-- `sub in s` on strings. -/
def isSubstring (sub s : String) : Bool := decide (sub.toList <:+: s.toList)

/-- Conditional gate for a step: compares the result of `step`, as a string. -/
structure StepCondition where
  step : String
  equals : Option String := none
  notEquals : Option String := none
  contains : Option String := none
  deriving DecidableEq

/-- True if the condition is satisfied given the results so far. -/
def StepCondition.evaluate {V : Type} [PyValue V] (c : StepCondition) (results : Context V) :
    Bool :=
  match results c.step with
  | none => false
  | some v =>
    let actual := PyValue.str v
    if c.equals.any fun e => decide (actual ≠ e) then false
    else if c.notEquals.any fun e => decide (actual = e) then false
    else if c.contains.any fun e => !isSubstring e actual then false
    else true

/-- One step; `retries` is a natural number because the validator refuses a negative one. -/
structure StepConfig (P : Type) where
  id : String
  task : String
  dependsOn : Option (List String) := some []
  retries : ℕ := 3
  params : P
  condition : Option StepCondition := none

/-- A parsed workflow; `_unique_step_ids` refuses a repeated id. -/
structure WorkflowConfig (P : Type) where
  name : String
  steps : List (StepConfig P)
  schedule : Option String := none
  typedIo : Bool := false
  uniqueStepIds : (steps.map StepConfig.id).Nodup

variable {P : Type}

/-- `step.depends_on or []`. -/
def StepConfig.listed (s : StepConfig P) : List String := s.dependsOn.getD []

/-- The dependencies that `detect_cycles` counts: the listed ones, and the condition's source unless
    it is listed already. -/
def StepConfig.deps (s : StepConfig P) : List String :=
  match s.condition with
  | none => s.listed
  | some c => if c.step ∈ s.listed then s.listed else s.listed ++ [c.step]

theorem StepConfig.mem_deps (s : StepConfig P) (d : String) :
    d ∈ s.deps ↔ d ∈ s.listed ∨ ∃ c, s.condition = some c ∧ c.step = d := by
  unfold StepConfig.deps
  cases hc : s.condition with
  | none => simp
  | some c =>
    by_cases h : c.step ∈ s.listed
    · simp only [if_pos h, Option.some.injEq, exists_eq_left']
      exact ⟨Or.inl, fun h' => h'.elim (fun hd => hd) fun he => he ▸ h⟩
    · simp only [if_neg h, List.mem_append, List.mem_singleton, Option.some.injEq, exists_eq_left']
      tauto

/-- The structural errors of a definition. -/
inductive ValidationError where
  | unknownStep (step dep : String)
  | cycle (unresolved : List String)
  | endless
  deriving DecidableEq

/-- The error text; `repr` is Python's rendering of a list of strings. -/
def ValidationError.message (repr : List String → String) : ValidationError → String
  | .unknownStep step dep => s!"Step '{step}' depends on unknown step '{dep}'"
  | .cycle unresolved => s!"Cycle detected in workflow DAG. Unresolved nodes: {repr unresolved}"
  | .endless => ""

/-! ### Kahn's algorithm, as the parser runs it -/

/-- `in_degree` and `adjacency`. -/
structure Graph where
  inDegree : Dict String ℤ
  adjacency : Dict String (List String)

/-- Count one dependency `dep` of step `id`. -/
def addDep (stepIds : List String) (id : String) (g : Graph) (dep : String) :
    Except ValidationError Graph :=
  if dep ∈ stepIds then
    .ok { adjacency := g.adjacency.set dep ((g.adjacency.get dep).getD [] ++ [id])
          inDegree := g.inDegree.set id ((g.inDegree.get id).getD 0 + 1) }
  else .error (.unknownStep id dep)

def addStep (stepIds : List String) (g : Graph) (s : StepConfig P) : Except ValidationError Graph :=
  s.deps.foldlM (addDep stepIds s.id) g

/-- The graph before any step is counted. -/
def Graph.bare (stepIds : List String) : Graph where
  inDegree := Dict.ofList (stepIds.map fun i => (i, 0))
  adjacency := Dict.ofList (stepIds.map fun i => (i, []))

/-- One neighbour loses an incoming edge and joins the queue when it was the last. -/
def relax (acc : Dict String ℤ × List String) (neighbor : String) : Dict String ℤ × List String :=
  let deg := (acc.1.get neighbor).getD 0 - 1
  (acc.1.set neighbor deg, if deg = 0 then acc.2 ++ [neighbor] else acc.2)

/-- The queue loop; `none` if `fuel` iterations do not empty the queue. -/
def drain (adjacency : Dict String (List String)) :
    ℕ → Dict String ℤ → List String → ℕ → Option (Dict String ℤ × ℕ)
  | _, inDegree, [], visited => some (inDegree, visited)
  | 0, _, _ :: _, _ => none
  | fuel + 1, inDegree, node :: queue, visited =>
    let next := ((adjacency.get node).getD []).foldl relax (inDegree, queue)
    drain adjacency fuel next.1 next.2 (visited + 1)

/-- Validate the DAG: every dependency exists and the graph is acyclic. The queue loop is given one
    iteration for each step; `endless` would mean that this was not enough. -/
def detectCycles (steps : List (StepConfig P)) : Except ValidationError Unit := do
  let stepIds := steps.map StepConfig.id
  let g ← steps.foldlM (addStep stepIds) (Graph.bare stepIds)
  let queue := (g.inDegree.entries.filter fun e => e.2 = 0).map Prod.fst
  match drain g.adjacency steps.length g.inDegree queue 0 with
  | none => .error .endless
  | some (inDegree, visited) =>
    if visited ≠ steps.length then
      let remaining := (inDegree.entries.filter fun e => e.2 > 0).map Prod.fst
      .error (.cycle (remaining.insertionSort (· ≤ ·)))
    else .ok ()

end WorkflowEngine
