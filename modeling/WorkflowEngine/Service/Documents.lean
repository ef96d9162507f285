import WorkflowEngine.Engine.Schema
import WorkflowEngine.Engine.Cycles
import WorkflowEngine.Service.Definitions

/-! Loading any document.

    A document has to pass a type test, the expansion of its mapping to keyword arguments, the schema
    and the graph check. All of them refuse with an exception that the service answers by 422, except
    the expansion: a key that is no string makes the call itself raise. -/

namespace WorkflowEngine
open Schemes Relation

variable {P : Type}

/-- Pydantic: what it makes of keyword arguments before the validators of the schema run, with the
    text of its `ValidationError`, and the text it gives to the messages of validators. -/
structure Pydantic (P : Type) where
  fields : List (String × Value) → Except String (RawWorkflow P)
  report : List String → String

/-- `**data`. -/
def keywords : List (Scalar × Value) → Except Exn (List (String × Value))
  | [] => .ok []
  | (key, value) :: entries =>
    match key.str? with
    | none => .error (.other "keywords must be strings")
    | some text => (keywords entries).map fun rest => (text, value) :: rest

/-- `WorkflowConfig(**data)`. -/
def Pydantic.workflowConfig (pydantic : Pydantic P) : Value → Except Exn (WorkflowConfig P)
  | .map entries =>
    match keywords entries with
    | .error e => .error e
    | .ok arguments =>
      match pydantic.fields arguments with
      | .error message => .error (.value message)
      | .ok raw =>
        match raw.validate with
        | .error messages => .error (.value (pydantic.report messages))
        | .ok config => .ok config
  | _ => .error (.other "argument after ** must be a mapping")

def Value.isMapping : Value → Bool
  | .map _ => true
  | _ => false

theorem keywords_cases : ∀ entries : List (Scalar × Value),
    (∃ arguments, keywords entries = .ok arguments ∧ ∀ entry ∈ entries, entry.1.str? ≠ none) ∨
    (keywords entries = .error (.other "keywords must be strings") ∧
      ∃ entry ∈ entries, entry.1.str? = none)
  | [] => .inl ⟨[], rfl, by simp⟩
  | (key, value) :: entries => by
    rw [keywords]
    cases hkey : key.str? with
    | none => exact .inr ⟨rfl, _, List.mem_cons_self, hkey⟩
    | some text =>
      rcases keywords_cases entries with ⟨arguments, hrest, hall⟩ | ⟨hrest, entry, hentry, hnone⟩
      · rw [hrest]
        refine .inl ⟨_, rfl, List.forall_mem_cons.mpr ⟨?_, hall⟩⟩
        rw [hkey]; simp
      · rw [hrest]
        exact .inr ⟨rfl, entry, List.mem_cons_of_mem _ hentry, hnone⟩

/-- What `WorkflowConfig(**data)` does, in cases. -/
theorem Pydantic.workflowConfig_cases (pydantic : Pydantic P) (entries : List (Scalar × Value)) :
    (pydantic.workflowConfig (.map entries) = .error (.other "keywords must be strings") ∧
      ∃ entry ∈ entries, entry.1.str? = none) ∨
    ((∀ entry ∈ entries, entry.1.str? ≠ none) ∧
      ((∃ message, pydantic.workflowConfig (.map entries) = .error (.value message)) ∨
        ∃ arguments raw config, keywords entries = .ok arguments ∧
          pydantic.fields arguments = .ok raw ∧ raw.Accepted config ∧
          pydantic.workflowConfig (.map entries) = .ok config)) := by
  rw [workflowConfig]
  rcases keywords_cases entries with ⟨arguments, hkeywords, hall⟩ | ⟨hkeywords, hnone⟩
  · refine .inr ⟨hall, ?_⟩
    rw [hkeywords]
    cases hfields : pydantic.fields arguments with
    | error message => exact .inl ⟨message, by simp only [hfields]⟩
    | ok raw =>
      cases hvalid : raw.validate with
      | error messages => exact .inl ⟨pydantic.report messages, by simp only [hfields, hvalid]⟩
      | ok config =>
        exact .inr ⟨arguments, raw, config, rfl, hfields, RawWorkflow.validate_ok hvalid,
          by simp only [hfields, hvalid]⟩
  · rw [hkeywords]
    exact .inl ⟨rfl, hnone⟩

theorem Pydantic.workflowConfig_plain (pydantic : Pydantic P) (d : Value) (e : Exn)
    (h : pydantic.workflowConfig d = .error e) : e.isHttp = false := by
  cases d with
  | map entries =>
    rcases pydantic.workflowConfig_cases entries with
      ⟨hc, -⟩ | ⟨-, ⟨message, hc⟩ | ⟨_, _, config, -, -, -, hc⟩⟩
    · rw [← Except.error.inj (hc.symm.trans h)]; rfl
    · rw [← Except.error.inj (hc.symm.trans h)]; rfl
    · exact absurd (hc.symm.trans h) (by simp)
  | _ => rw [← Except.error.inj h]; rfl

/-- The libraries, with documents for data. -/
structure DocumentLibrary (P : Type) where
  safeLoad : String → Except YamlFailure Value
  pydantic : Pydantic P
  digest : Value → Except Exn String
  repr : List String → String
  plainLoad : ∀ text e, safeLoad text = .error (.raised e) → e.isHttp = false
  plainDigest : ∀ d e, digest d = .error e → e.isHttp = false

def DocumentLibrary.yaml (lib : DocumentLibrary P) : YamlLibrary Value P where
  safeLoad := lib.safeLoad
  isMapping := Value.isMapping
  workflowConfig := lib.pydantic.workflowConfig
  digest := lib.digest
  repr := lib.repr
  plainLoad := lib.plainLoad
  plainConfig := lib.pydantic.workflowConfig_plain
  plainDigest := lib.plainDigest

/-- A configuration that `load_workflow_yaml` may return: pydantic and the validators have accepted
    it, and its graph is closed and acyclic. -/
structure DocumentLibrary.Loaded (lib : DocumentLibrary P) (config : WorkflowConfig P) : Prop where
  accepted : ∃ arguments raw, lib.pydantic.fields arguments = .ok raw ∧ raw.Accepted config
  closed : Closed config.steps
  acyclic : ¬ ∃ u, TransGen (Needs config.steps) u u

/-- SPEC: a sound configuration, or an exception that is answered by 422. -/
def DocumentLibrary.Settles (lib : DocumentLibrary P) (text : String) : Prop :=
  (∃ config, lib.yaml.loadWorkflowYaml text = .ok config ∧ lib.Loaded config) ∨
  ∃ e, lib.yaml.loadWorkflowYaml text = .error e ∧ e.invalid = true

/-- A mapping with a configuration is loaded, or refused for its graph. -/
theorem DocumentLibrary.loadData_ok {lib : DocumentLibrary P} {entries : List (Scalar × Value)}
    {config : WorkflowConfig P} (hc : lib.pydantic.workflowConfig (.map entries) = .ok config) :
    (detectCycles config.steps = .ok () ∧ lib.yaml.loadData (.map entries) = .ok config) ∨
    ∃ message, lib.yaml.loadData (.map entries) = .error (.validation message) := by
  have hmap : lib.yaml.isMapping (.map entries) = true := rfl
  have hconfig : lib.yaml.workflowConfig (.map entries) = .ok config := hc
  rw [YamlLibrary.loadData, if_pos hmap, hconfig]
  cases hd : detectCycles config.steps with
  | ok u => exact .inl ⟨rfl, by simp only [bind, Except.bind, hd]⟩
  | error e => exact .inr ⟨e.message lib.yaml.repr, by simp only [bind, Except.bind, hd]⟩

theorem DocumentLibrary.loadData_error {lib : DocumentLibrary P} {entries : List (Scalar × Value)}
    {e : Exn} (hc : lib.pydantic.workflowConfig (.map entries) = .error e) :
    lib.yaml.loadData (.map entries) = .error e := by
  have hmap : lib.yaml.isMapping (.map entries) = true := rfl
  have hconfig : lib.yaml.workflowConfig (.map entries) = .error e := hc
  rw [YamlLibrary.loadData, if_pos hmap, hconfig]
  rfl

/-- CORRECT (loading): every document is loaded or refused in this way, except a mapping with a key
    that is no string. -/
theorem settles_iff (lib : DocumentLibrary P) {text : String} {d : Value}
    (h : lib.safeLoad text = .ok d) :
    lib.Settles text ↔ ∀ entries, d = .map entries → ∀ entry ∈ entries, entry.1.str? ≠ none := by
  have hparse : lib.yaml.parse text = .ok d := by
    simp only [YamlLibrary.parse, DocumentLibrary.yaml, h]
  rw [DocumentLibrary.Settles, (YamlLibrary.parse_ok hparse).2]
  cases d with
  | map entries =>
    have hkeys : (∀ entries', Value.map entries = .map entries' →
        ∀ entry ∈ entries', entry.1.str? ≠ none) ↔ ∀ entry ∈ entries, entry.1.str? ≠ none :=
      ⟨fun hall => hall entries rfl, fun hall _ he => Value.map.inj he ▸ hall⟩
    rw [hkeys]
    rcases lib.pydantic.workflowConfig_cases entries with
      ⟨hc, entry, hentry, hnone⟩ | ⟨hall, ⟨message, hc⟩ | ⟨arguments, raw, config, -, hf, ha, hc⟩⟩
    · rw [DocumentLibrary.loadData_error hc]
      refine iff_of_false ?_ fun hall => hall entry hentry hnone
      rintro (⟨config, hok, -⟩ | ⟨e, he, hinvalid⟩)
      · exact absurd hok (by simp)
      · rw [← Except.error.inj he] at hinvalid
        exact absurd hinvalid (by decide)
    · rw [DocumentLibrary.loadData_error hc]
      exact iff_of_true (.inr ⟨_, rfl, rfl⟩) hall
    · refine iff_of_true ?_ hall
      rcases DocumentLibrary.loadData_ok hc with ⟨hd, hload⟩ | ⟨message, hload⟩
      · obtain ⟨hclosed, hacyclic⟩ := (detectCycles_verdict config.uniqueStepIds).ok_iff.mp hd
        exact .inl ⟨config, hload, ⟨⟨arguments, raw, hf, ha⟩, hclosed, hacyclic⟩⟩
      · exact .inr ⟨_, hload, rfl⟩
  | _ => exact iff_of_true (.inr ⟨_, rfl, rfl⟩) fun entries he => absurd he (by simp)

/-! ### An example -/

/-- A step with an id, a task and a list of the steps it needs. -/
def smallStep? : Value → Option (RawStep Unit)
  | .map [(.str "id", .scalar (.str id)), (.str "task", .scalar (.str task)),
      (.str "depends_on", .list [.scalar (.str needed)])] =>
    some { id := id, task := task, dependsOn := some [needed], params := () }
  | .map [(.str "id", .scalar (.str id)), (.str "task", .scalar (.str task))] =>
    some { id := id, task := task, params := () }
  | _ => none

/-- What `name: etl` with the steps `extract` and, after it, `load` is read as. -/
def smallDocument : Value :=
  .map [(.str "name", .scalar (.str "etl")),
    (.str "steps", .list [
      .map [(.str "id", .scalar (.str "extract")), (.str "task", .scalar (.str "read"))],
      .map [(.str "id", .scalar (.str "load")), (.str "task", .scalar (.str "write")),
        (.str "depends_on", .list [.scalar (.str "extract")])]])]

/-- Pydantic on workflows of such steps; it misses the fields of anything else. -/
def smallWorkflows : DocumentLibrary Unit where
  safeLoad text :=
    if text = "etl" then .ok smallDocument
    else if text = "1: a\n" then .ok (.map [(.int 1, .scalar (.str "a"))])
    else .error (.malformed "while parsing a flow mapping")
  pydantic :=
    { fields := fun
        | [("name", .scalar (.str name)), ("steps", .list steps)] =>
          match steps.mapM smallStep? with
          | some steps => .ok { name := name, steps := steps }
          | none => .error "1 validation error for WorkflowConfig"
        | _ => .error "2 validation errors for WorkflowConfig"
      report := String.intercalate "\n" }
  digest _ := .ok ""
  repr ids := "[" ++ String.intercalate ", " (ids.map fun i => s!"'{i}'") ++ "]"
  plainLoad text e h := by
    split_ifs at h
    exact absurd (Except.error.inj h) (by simp)
  plainDigest d e h := absurd h (by simp)

theorem smallWorkflow_settles_iff : smallWorkflows.Settles "etl" ↔
    ∀ entries, smallDocument = .map entries → ∀ entry ∈ entries, entry.1.str? ≠ none :=
  settles_iff smallWorkflows rfl

example : (smallWorkflows.yaml.loadWorkflowYaml "etl").toOption.map
    (fun config => config.steps.map StepConfig.id) = some ["extract", "load"] := by decide +kernel

/-- A mapping with an integer key: the call raises a `TypeError`. -/
theorem numbered_escapes : ¬ smallWorkflows.Settles "1: a\n" := by
  rintro (⟨config, hok, -⟩ | ⟨e, he, hinvalid⟩)
  · have hraised : smallWorkflows.yaml.loadWorkflowYaml "1: a\n" =
        .error (.other "keywords must be strings") := rfl
    exact absurd (hraised.symm.trans hok) (by simp)
  · have hraised : smallWorkflows.yaml.loadWorkflowYaml "1: a\n" =
        .error (.other "keywords must be strings") := rfl
    rw [← Except.error.inj (hraised.symm.trans he)] at hinvalid
    exact absurd hinvalid (by decide)

end WorkflowEngine
