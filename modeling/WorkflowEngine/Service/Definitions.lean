import WorkflowEngine.Engine.Parser
import WorkflowEngine.Schemes.Prog

/-! Definition texts, their hashes and their versions.

    A text is read by the YAML library and checked by the parser; its canonical hash depends only on
    what the library reads. A version store keeps the first text of each hash. -/

namespace WorkflowEngine
open Schemes

/-- Exceptions, as far as a handler can tell them apart. -/
inductive Exn where
  | validation (message : String) -- `WorkflowValidationError`
  | value (message : String) -- `ValueError`, and pydantic's `ValidationError`
  | persistence (message : String) -- `SQLAlchemyError`
  | http (status : ℕ) (detail code : String) -- `HTTPException`
  | other (message : String)
  deriving DecidableEq

namespace Exn

/-- `str(exc)`. -/
def text : Exn → String
  | .validation message | .value message | .persistence message | .other message => message
  | .http status detail _ => s!"{status}: {detail}"

/-- The HTTP status of an exception that leaves an endpoint. -/
def status : Exn → ℕ
  | .http status _ _ => status
  | _ => 500

/-- An exception that only an endpoint raises. -/
def isHttp : Exn → Bool
  | .http _ _ _ => true
  | _ => false

/-- `except (WorkflowValidationError, ValueError)`. -/
def invalid : Exn → Bool
  | .validation _ | .value _ => true
  | _ => false

end Exn

/-- How `yaml.safe_load` fails: with a `YAMLError`, or with another exception. -/
inductive YamlFailure where
  | malformed (message : String)
  | raised (e : Exn)

/-- The libraries that read definitions: what `yaml.safe_load` reads, whether it is a `dict`, the
    result of `WorkflowConfig(**data)`, the SHA-256 of `yaml.safe_dump(data, sort_keys=True, …)`, and
    the text of a list of strings. They know nothing of HTTP. -/
structure YamlLibrary (D P : Type) where
  safeLoad : String → Except YamlFailure D
  isMapping : D → Bool
  workflowConfig : D → Except Exn (WorkflowConfig P)
  digest : D → Except Exn String
  repr : List String → String
  plainLoad : ∀ text e, safeLoad text = .error (.raised e) → e.isHttp = false
  plainConfig : ∀ d e, workflowConfig d = .error e → e.isHttp = false
  plainDigest : ∀ d e, digest d = .error e → e.isHttp = false

namespace YamlLibrary
variable {D P : Type} (lib : YamlLibrary D P)

/-- `yaml.safe_load`, with a `YAMLError` turned into a `WorkflowValidationError`. -/
def parse (text : String) : Except Exn D :=
  match lib.safeLoad text with
  | .ok data => .ok data
  | .error (.malformed message) => .error (.validation s!"Invalid YAML: {message}")
  | .error (.raised e) => .error e

/-- `canonical_yaml_hash`: hash the data, not key order or whitespace. -/
def canonicalYamlHash (text : String) : Except Exn String := do
  let parsed ← lib.parse text
  lib.digest parsed

/-- The part of `load_workflow_yaml` after parsing. -/
def loadData (data : D) : Except Exn (WorkflowConfig P) :=
  if lib.isMapping data then do
    let config ← lib.workflowConfig data
    match detectCycles config.steps with
    | .ok () => .ok config
    | .error e => .error (.validation (e.message lib.repr))
  else .error (.validation "Workflow definition must be a YAML mapping with 'name' and 'steps'")

/-- Parse YAML text into a validated workflow. -/
def loadWorkflowYaml (text : String) : Except Exn (WorkflowConfig P) := do
  let data ← lib.parse text
  lib.loadData data

variable {lib}

/-- A text that cannot be parsed has neither a hash nor a workflow. -/
theorem parse_error {text : String} {e : Exn} (h : lib.parse text = .error e) :
    lib.canonicalYamlHash text = .error e ∧ lib.loadWorkflowYaml text = .error e := by
  rw [canonicalYamlHash, loadWorkflowYaml, h]
  exact ⟨rfl, rfl⟩

theorem parse_ok {text : String} {data : D} (h : lib.parse text = .ok data) :
    lib.canonicalYamlHash text = lib.digest data ∧
    lib.loadWorkflowYaml text = lib.loadData data := by
  rw [canonicalYamlHash, loadWorkflowYaml, h]
  exact ⟨rfl, rfl⟩

/-- A text with a hash can be parsed. -/
theorem parse_of_hash {text hash : String} (h : lib.canonicalYamlHash text = .ok hash) :
    ∃ data, lib.parse text = .ok data ∧ lib.digest data = .ok hash := by
  cases hp : lib.parse text with
  | error e => rw [(parse_error hp).1] at h; exact absurd h (by simp)
  | ok data => exact ⟨data, rfl, (parse_ok hp).1.symm.trans h⟩

theorem parse_plain {text : String} {e : Exn} (h : lib.parse text = .error e) :
    e.isHttp = false := by
  unfold parse at h
  cases hload : lib.safeLoad text with
  | ok data => rw [hload] at h; exact absurd h (by simp)
  | error failure =>
    rw [hload] at h
    cases failure with
    | malformed message => rw [← Except.error.inj h]; rfl
    | raised e' => rw [← Except.error.inj h]; exact lib.plainLoad text e' hload

theorem hash_plain {text : String} {e : Exn} (h : lib.canonicalYamlHash text = .error e) :
    e.isHttp = false := by
  cases hp : lib.parse text with
  | error e' =>
    rw [(parse_error hp).1] at h
    rw [← Except.error.inj h]
    exact parse_plain hp
  | ok data => exact lib.plainDigest data e ((parse_ok hp).1.symm.trans h)

theorem load_plain {text : String} {e : Exn} (h : lib.loadWorkflowYaml text = .error e) :
    e.isHttp = false := by
  cases hp : lib.parse text with
  | error e' =>
    rw [(parse_error hp).2] at h
    rw [← Except.error.inj h]
    exact parse_plain hp
  | ok data =>
    rw [(parse_ok hp).2, loadData] at h
    split_ifs at h
    · cases hc : lib.workflowConfig data with
      | error e' =>
        rw [hc] at h
        obtain rfl : e' = e := Except.error.inj h
        exact lib.plainConfig data _ hc
      | ok config =>
        rw [hc] at h
        cases hd : detectCycles config.steps with
        | ok u => simp [bind, Except.bind, hd] at h
        | error e' =>
          simp only [bind, Except.bind, hd, Except.error.injEq] at h
          rw [← h]
          rfl
    · rw [← Except.error.inj h]
      rfl

/-- A loaded workflow is acyclic. -/
theorem accepted_of_load {text : String} {config : WorkflowConfig P}
    (h : lib.loadWorkflowYaml text = .ok config) : detectCycles config.steps = .ok () := by
  cases hp : lib.parse text with
  | error e => rw [(parse_error hp).2] at h; exact absurd h (by simp)
  | ok data =>
    rw [(parse_ok hp).2, loadData] at h
    split_ifs at h
    cases hc : lib.workflowConfig data with
    | error e => rw [hc] at h; exact absurd h (by simp [bind, Except.bind])
    | ok config' =>
      rw [hc] at h
      cases hd : detectCycles config'.steps with
      | error e => simp [bind, Except.bind, hd] at h
      | ok u =>
        simp only [bind, Except.bind, hd, Except.ok.injEq] at h
        rw [← h, hd]

end YamlLibrary

/-! ### Versions -/

structure WorkflowVersion where
  contentHash : String
  yamlDefinition : String
  deriving DecidableEq

/-- Which stores are in use: in memory, or in the database. -/
inductive Backend where | memory | database
  deriving DecidableEq

/-- A version store. Every version is stored under its hash, which is the hash of its text. -/
structure VersionStore {D P : Type} (lib : YamlLibrary D P) where
  backend : Backend
  versions : Dict String WorkflowVersion := Dict.empty
  pinned : ∀ hash v, versions.get hash = some v →
    v.contentHash = hash ∧ lib.canonicalYamlHash v.yamlDefinition = .ok hash := by simp

namespace VersionStore
variable {D P : Type} {lib : YamlLibrary D P}

def get (store : VersionStore lib) (contentHash : String) : Option WorkflowVersion :=
  store.versions.get contentHash

/-- The store after `put` of a text with this hash: only a new hash adds a version. -/
def add (store : VersionStore lib) (hash text : String)
    (h : lib.canonicalYamlHash text = .ok hash) : VersionStore lib :=
  match store.versions.get hash with
  | some _ => store
  | none =>
    { store with
      versions := store.versions.set hash ⟨hash, text⟩
      pinned := by
        intro hash' v hv
        rw [Dict.get_set] at hv
        split_ifs at hv with he
        · obtain rfl := Option.some.inj hv
          exact ⟨he.symm, he ▸ h⟩
        · exact store.pinned hash' v hv }

/-- What `put` returns: the in-memory store the version that is stored now, the database one with the
    text it was given. -/
def returned (store : VersionStore lib) (hash text : String) : WorkflowVersion :=
  match store.backend with
  | .memory => (store.versions.get hash).getD ⟨hash, text⟩
  | .database => ⟨hash, text⟩

/-- `put`, unless the text has no hash. -/
def put (store : VersionStore lib) (text : String) :
    Except Exn (VersionStore lib × WorkflowVersion) :=
  match h : lib.canonicalYamlHash text with
  | .error e => .error e
  | .ok hash => .ok (store.add hash text h, store.returned hash text)

/-- The store after a `put`, whether it raised or not. -/
def after (store : VersionStore lib) (text : String) : VersionStore lib :=
  match store.put text with
  | .ok (store, _) => store
  | .error _ => store

variable {store : VersionStore lib} {text hash : String}

theorem put_error {e : Exn} (h : lib.canonicalYamlHash text = .error e) :
    store.put text = .error e := by
  unfold put
  split
  · next e' he => rw [Except.error.inj (he.symm.trans h)]
  · next hash he => exact absurd (he.symm.trans h) (by simp)

theorem put_ok (h : lib.canonicalYamlHash text = .ok hash) :
    store.put text = .ok (store.add hash text h, store.returned hash text) := by
  unfold put
  split
  · next e he => exact absurd (he.symm.trans h) (by simp)
  · next hash' he =>
    obtain rfl := Except.ok.inj (he.symm.trans h)
    rfl

theorem returned_hash : (store.returned hash text).contentHash = hash := by
  unfold returned
  cases store.backend with
  | database => rfl
  | memory =>
    cases hget : store.versions.get hash with
    | none => rfl
    | some v => exact (store.pinned hash v hget).1

theorem after_of_error {e : Exn} (h : lib.canonicalYamlHash text = .error e) :
    store.after text = store := by
  rw [after, put_error h]

theorem after_of_ok (h : lib.canonicalYamlHash text = .ok hash) :
    store.after text = store.add hash text h := by
  rw [after, put_ok h]

theorem put_of_hash (h : lib.canonicalYamlHash text = .ok hash) :
    store.put text = .ok (store.after text, store.returned hash text) := by
  rw [after_of_ok h, put_ok h]

/-- A `put` changes no version that is there. -/
theorem get_after_of_some {hash' : String} {v : WorkflowVersion}
    (hv : store.get hash' = some v) : (store.after text).get hash' = some v := by
  rcases hhash : lib.canonicalYamlHash text with e | hash
  · rw [after_of_error hhash, hv]
  · rw [after_of_ok hhash]
    unfold add
    split
    · exact hv
    · next hnone =>
      have hne : hash' ≠ hash := by
        rintro rfl
        exact absurd (hnone.symm.trans hv) (by simp)
      exact (Dict.get_set ..).trans ((if_neg hne).trans hv)

/-- After a `put` the text's hash has a version. -/
theorem get_after_self (h : lib.canonicalYamlHash text = .ok hash) :
    ∃ v, (store.after text).get hash = some v := by
  rw [after_of_ok h]
  unfold add
  split
  · next v hv => exact ⟨v, hv⟩
  · exact ⟨_, (Dict.get_set ..).trans (if_pos rfl)⟩

/-- A `put` leaves the store as it is exactly if the text has no hash, or its hash has a version. -/
theorem after_eq_self_iff : store.after text = store ↔
    ∀ hash, lib.canonicalYamlHash text = .ok hash → ∃ v, store.get hash = some v := by
  constructor
  · intro he hash h
    obtain ⟨v, hv⟩ : ∃ v, (store.after text).get hash = some v := get_after_self h
    rw [he] at hv
    exact ⟨v, hv⟩
  · intro hall
    rcases hhash : lib.canonicalYamlHash text with e | hash
    · exact after_of_error hhash
    · obtain ⟨v, hv⟩ := hall hash hhash
      rw [after_of_ok hhash]
      unfold add
      split
      · rfl
      · next hnone => exact absurd (hnone.symm.trans hv) (by simp)

end VersionStore

/-! ### Some definitions -/

/-- A list, a workflow without steps, and one whose task nobody has registered. -/
inductive Document where | names | idle | typo
  deriving DecidableEq

def Document.text : Document → String
  | .names => "- a\n"
  | .idle => "name: etl\nsteps: []\n"
  | .typo => "name: wf\nsteps:\n- id: a\n  task: missing\n"

/-- The SHA-256 of the text, which is already as `safe_dump` writes it. -/
def Document.sha256 : Document → String
  | .names => "24f157beb3bb6981726ef92d104c4aa1e7e0e34bb1e84a3b233a020a963dfd53"
  | .idle => "a81a0a98a137c95e5f0cd68a74bc9ddad4284f9f059f0e4ca1debb005887e1de"
  | .typo => "60797b4d41a529c8ecb2fb468119456575d5b0089de4b23163af9388d69c6abe"

def idle : WorkflowConfig Unit := { name := "etl", steps := [], uniqueStepIds := by simp }

def typo : WorkflowConfig Unit :=
  { name := "wf", steps := [{ id := "a", task := "missing", params := () }],
    uniqueStepIds := by simp }

/-- What the libraries make of these texts, and of one that is no YAML. -/
def documents : YamlLibrary Document Unit where
  safeLoad text :=
    match [Document.names, .idle, .typo].find? fun d => d.text = text with
    | some d => .ok d
    | none => .error (.malformed "while parsing a flow mapping")
  isMapping d := d ≠ .names
  workflowConfig
    | .names => .error (.other "argument after ** must be a mapping")
    | .idle => .ok idle
    | .typo => .ok typo
  digest d := .ok d.sha256
  repr ids := "[" ++ String.intercalate ", " (ids.map fun i => s!"'{i}'") ++ "]"
  plainLoad text e h := by
    split at h
    · exact absurd h (by simp)
    · exact absurd (Except.error.inj h) (by simp)
  plainConfig d e h := by
    cases d with
    | names => rw [← Except.error.inj h]; rfl
    | idle | typo => exact absurd h (by simp)
  plainDigest d e h := absurd h (by simp)

end WorkflowEngine
