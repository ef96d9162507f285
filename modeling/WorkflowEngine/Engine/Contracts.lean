import Mathlib.Algebra.Group.Nat.Defs
import WorkflowEngine.Schemes.Dict

/-! Tasks and the adapter that runs them.

    A task is given by what happens each time it is invoked for a step: the invocation returns a
    value or raises, and may change the entries of the params mapping it was handed. What an
    invocation does may depend on which attempt it is, on the context and on the params. It does not
    write to the context, which the later attempts of the step get too. An exception is represented
    by its text: `str` of an exception and of a result never raises here, nor does a log message
    made of them. -/

namespace WorkflowEngine
open Schemes

/-- The first integer without a decimal text: `str` takes up to 4300 digits. -/
@[irreducible] def digitLimit : Nat := 10 ^ 4300

theorem lt_digitLimit {n k : Nat} (hk : k ≤ 4300) (h : n < 10 ^ k) : n < digitLimit := by
  unfold digitLimit
  generalize 4300 = m at hk
  exact Nat.lt_of_lt_of_le h (Nat.pow_le_pow_right (by decide) hk)

/-- `str` of an integer. -/
def strInt (n : Int) : Except String String :=
  if digitLimit ≤ n.natAbs then
    .error "Exceeds the limit (4300 digits) for integer string conversion"
  else .ok (toString n)

theorem strInt_ok {n : Int} (h : n.natAbs < digitLimit) : strInt n = .ok (toString n) :=
  if_neg (Nat.not_le.mpr h)

theorem strInt_error {n : Int} (h : digitLimit ≤ n.natAbs) : ∃ e, strInt n = .error e :=
  ⟨_, if_pos h⟩

/-- `TaskResult`: an output, or an error text. -/
structure TaskResult (V : Type) where
  output : V
  error : Option String := none

/-- What Python can do with a task's return value: `str(v)`, `type(v).__name__`, and
    `isinstance(v, TaskResult)`. -/
class PyValue (V : Type) where
  str : V → String
  typeName : V → String
  taskResult? : V → Option (TaskResult V)

/-- A `str` is its own text and no `TaskResult`. -/
instance : PyValue String where
  str v := v
  typeName _ := "str"
  taskResult? _ := none

/-- The results a task can see. Python compares dictionaries by their lookups, so a context is its
    lookup function. -/
abbrev Context (V : Type) := String → Option V

structure TaskInput (V P : Type) where
  context : Context V
  params : P

/-- A registry entry. `call step n context params` is the `n`-th invocation for `step` as
    `task(context=…, params=…)`, with the params mapping it leaves behind; `run` is the method of a
    typed task object. -/
structure Task (V P : Type) where
  call : String → ℕ → Context V → P → Except String V × P
  run : Option (String → ℕ → TaskInput V P → Except String V) := none

variable {V P : Type} [PyValue V]

/-- `TaskResult.unwrap`. -/
def TaskResult.unwrap (r : TaskResult V) : Except String V :=
  match r.error with
  | some e => .error e
  | none => .ok r.output

/-- `TaskRunner(registry).run(name, input)`. -/
def TaskRunner.run (registry : Dict String (Task V P)) (name step : String) (n : ℕ)
    (input : TaskInput V P) : Except String (TaskResult V) :=
  match registry.get name with
  | none => .error s!"'{name}'"
  | some task =>
    match task.run with
    | some run =>
      match run step n input with
      | .error e => .error e
      | .ok result =>
        match PyValue.taskResult? result with
        | some r => .ok r
        | none =>
          .error s!"Typed task '{name}' must return TaskResult, got {PyValue.typeName result}"
    | none =>
      match (task.call step n input.context input.params).1 with
      | .error e => .error e
      | .ok result => .ok ((PyValue.taskResult? result).getD ⟨result, none⟩)

end WorkflowEngine
