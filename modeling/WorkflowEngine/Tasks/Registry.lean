import WorkflowEngine.Runs.Edits
import WorkflowEngine.Tasks.Classification
import WorkflowEngine.Tasks.ParseText

/-! The built-in tasks.

    `parse_text` and `always_fail` look at their params only. `classify_with_llm` may look at the
    result of one step, or ask a provider, and `send_notification` looks at which steps have a
    result by then. So these are all the ways in which two runs of a definition can come to
    differ. -/

namespace WorkflowEngine
open Schemes

/-! ### What the tasks read and return -/

/-- The builtins that the tasks use: `int` of a value, `str` of a value, and `repr` of a string. -/
structure PythonLibrary (W : Type) extends StringLibrary where
  int : W → Except String ℤ
  str : W → String
  repr : String → String

variable {W : Type} {py : PythonLibrary W}

/-- The params that the tasks read. They do not keep `parse_text` from returning. -/
structure TaskParams (py : PythonLibrary W) extends ParseParams W where
  labels : Option (List String) := none
  fromStep : Option String := none
  mockedResponse : Option W := none
  model : Option String := none
  channel : Option String := none
  message : Option String := none
  ends : ∀ chunkSize, toParseParams.chosenSize py.int = .ok chunkSize → 0 < chunkSize

/-- The dictionaries that the tasks return. -/
inductive TaskOutput (py : PythonLibrary W) where
  | parsed (result : Parsed)
  | classified (category source : String) (model : Option String)
  | sent (channel message : String) (contextKeys : List String)

/-- The text of a dictionary, by the texts of its values. -/
def dictText (entries : List (String × String)) : String :=
  "\x7b" ++ ", ".intercalate (entries.map fun e => "'" ++ e.1 ++ "': " ++ e.2) ++ "\x7d"

def TaskOutput.text : TaskOutput py → String
  | .parsed result => dictText [("status", py.repr result.status),
      ("word_count", toString result.wordCount), ("chunk_count", toString result.chunkCount),
      ("preview", py.repr (String.ofList result.preview))]
  | .classified category source model => dictText
      ([("category", py.repr category), ("source", py.repr source)] ++
        (model.map fun model => ("model", py.repr model)).toList)
  | .sent channel message contextKeys => dictText [("status", py.repr "sent"),
      ("channel", py.repr channel), ("message", py.repr message),
      ("context_keys", "[" ++ ", ".intercalate (contextKeys.map py.repr) ++ "]")]

/-- A `dict` is no `TaskResult`. -/
instance : PyValue (TaskOutput py) where
  str := TaskOutput.text
  typeName _ := "dict"
  taskResult? _ := none

/-! ### The tasks -/

/-- A provider of language models, with the keys in the environment. `answer` is the text of its
    reply to the `n`-th invocation for a step, by whether it is the one of `claude`, the model, the
    labels and the text; there is none if anything raises. -/
structure LlmProvider where
  openaiApiKey : Option String := none
  anthropicApiKey : Option String := none
  answer : Bool → String → List String → String → String → ℕ → Option String

/-- `os.getenv("OPENAI_API_KEY") or os.getenv("ANTHROPIC_API_KEY")`, as a condition. -/
def LlmProvider.keyed (provider : LlmProvider) : Bool :=
  provider.openaiApiKey.getD "" ≠ "" || provider.anthropicApiKey.getD "" ≠ ""

/-- Where `str.splitlines` ends a line. -/
def isLineBreak (c : Char) : Bool :=
  let n := c.toNat
  (10 ≤ n ∧ n ≤ 13) ∨ (28 ≤ n ∧ n ≤ 30) ∨ n = 0x85 ∨ n = 0x2028 ∨ n = 0x2029

/-- `text.strip().splitlines()[0].lower()`, which raises if there is no line. -/
def StringLibrary.firstLine (py : StringLibrary) (text : String) : Option String :=
  match strip text.toList with
  | [] => none
  | c :: rest => some (py.lower (String.ofList ((c :: rest).takeWhile fun c => !isLineBreak c)))

namespace TaskParams
variable (params : TaskParams py)

/-- The loop of the chunker ends within as many iterations as there are characters. -/
theorem parseText_isSome :
    (parseText py.int (params.chosenText.length + 1) params.toParseParams).isSome = true := by
  cases hsize : params.chosenSize py.int with
  | error e => rw [parseText, hsize]; rfl
  | ok chunkSize =>
    have hoverlap : fixedOverlap chunkSize 0 < chunkSize :=
      (fixedOverlap_lt_iff chunkSize 0).mpr (.inl (params.ends chunkSize hsize))
    have hleft : (params.chosenText.length : ℤ) - 0 ≤ params.chosenText.length := by omega
    obtain ⟨chunks, hchunks⟩ := chunkLoop_ends hoverlap params.chosenText.length 0 hleft
    rw [parseText_chunks hsize, chunkFixed, hchunks]
    rfl

/-- `parse_text`. -/
def parsed : Except String (TaskOutput py) :=
  ((parseText py.int (params.chosenText.length + 1) params.toParseParams).get
    params.parseText_isSome).map .parsed

/-- The text that is classified. -/
def classifiedText (context : Context (TaskOutput py)) : String :=
  let text := (params.text.filter fun text => text ≠ "").getD
    (((context (params.fromStep.getD "")).map PyValue.str).getD "")
  if text = "" then "general inquiry" else text

/-- What the provider makes of a text, and the model that was asked; `none` if none was, or if
    anything raised. -/
def asked (provider : LlmProvider) (labels : List String) (text step : String) (n : ℕ) :
    Option (String × String) :=
  let model := params.model.getD "gpt-4o-mini"
  if provider.keyed then
    ((provider.answer (isSubstring "claude" (py.lower model)) model labels text step n).bind
      py.firstLine).map fun category => (category, model)
  else none

/-- `classify_with_llm`. -/
def classified (provider : LlmProvider) (step : String) (n : ℕ)
    (context : Context (TaskOutput py)) : TaskOutput py :=
  let labels := params.labels.getD ["business", "support", "spam"]
  let text := params.classifiedText context
  match params.mockedResponse with
  | some mocked => .classified (py.str mocked) "mock" none
  | none =>
    match params.asked provider labels text step n with
    | some (category, model) => .classified category "llm" (some model)
    | none => .classified (py.simulateClassification text labels) "sim" none

/-- `send_notification`. `ids` are the ids of the workflow's steps, which all keys are among. -/
def sent (ids : List String) (context : Context (TaskOutput py)) : TaskOutput py :=
  .sent (params.channel.getD "email") (params.message.getD "Workflow step completed.")
    ((ids.filter fun id => (context id).isSome).mergeSort fun a b => decide (a ≤ b))

/-- `always_fail`. -/
def failed : Except String (TaskOutput py) := .error (params.message.getD "intentional failure")

end TaskParams

/-- `TASK_REGISTRY`. No task changes its params. -/
def builtinTasks (provider : LlmProvider) (ids : List String) :
    Dict String (Task (TaskOutput py) (TaskParams py)) :=
  Dict.ofList
    [("parse_text", { call := fun _ _ _ p => (p.parsed, p) }),
     ("classify_with_llm",
       { call := fun step n context p => (.ok (p.classified provider step n context), p) }),
     ("send_notification", { call := fun _ _ context p => (.ok (p.sent ids context), p) }),
     ("always_fail", { call := fun _ _ _ p => (p.failed, p) })]

/-! ### What the tasks look at -/

section Reads
variable {provider provider' : LlmProvider} {ids ids' : List String}

/-- What an invocation of the task of this name returns or raises. -/
def builtin (provider : LlmProvider) (ids : List String) (task step : String) (n : ℕ)
    (context : Context (TaskOutput py)) (params : TaskParams py) : Except String (TaskOutput py) :=
  match (builtinTasks provider ids).get task with
  | some t => (t.call step n context params).1
  | none => .error s!"'{task}'"

theorem builtinTasks_get (task : String) :
    (builtinTasks provider ids : Dict String (Task (TaskOutput py) (TaskParams py))).get task =
      if task = "always_fail" then some { call := fun _ _ _ p => (p.failed, p) }
      else if task = "send_notification" then
        some { call := fun _ _ context p => (.ok (p.sent ids context), p) }
      else if task = "classify_with_llm" then
        some { call := fun step n context p => (.ok (p.classified provider step n context), p) }
      else if task = "parse_text" then some { call := fun _ _ _ p => (p.parsed, p) }
      else none := by
  simp only [builtinTasks, Dict.ofList, List.foldl_cons, List.foldl_nil, Dict.get_set,
    Dict.get_empty]

theorem asked_offline {params : TaskParams py} (hkey : provider.keyed = false)
    (labels : List String) (text step : String) (n : ℕ) :
    params.asked provider labels text step n = none := by
  rw [TaskParams.asked, if_neg (by simp [hkey])]

/-- The classification depends on a provider only if one is asked, and on the context only if there
    is no text. -/
theorem classified_same {params : TaskParams py} {c c' : Context (TaskOutput py)} {step : String}
    {n : ℕ}
    (hasks : params.mockedResponse = none → provider.keyed = false ∧ provider'.keyed = false)
    (hreads : params.mockedResponse = none → params.text.getD "" = "" →
      c' (params.fromStep.getD "") = c (params.fromStep.getD "")) :
    params.classified provider' step n c' = params.classified provider step n c := by
  unfold TaskParams.classified
  cases hmocked : params.mockedResponse with
  | some mocked => rfl
  | none =>
    obtain ⟨hkey, hkey'⟩ := hasks hmocked
    have htext : params.classifiedText c' = params.classifiedText c := by
      unfold TaskParams.classifiedText
      cases hfilter : params.text.filter fun text => text ≠ "" with
      | some text => rfl
      | none =>
        have hempty : params.text.getD "" = "" := by
          cases htext : params.text with
          | none => rfl
          | some text => simpa [htext, Option.filter] using hfilter
        rw [hreads hmocked hempty]
    simp only [htext, asked_offline hkey, asked_offline hkey']

end Reads

namespace WorkflowExecutor
open Relation

variable {E E' : WorkflowExecutor (TaskOutput py) (TaskParams py)}
  {provider provider' : LlmProvider} {s : StepConfig (TaskParams py)}

/-- The step lists who has a result by then, asks a provider if there is one, or classifies the
    result of a step that does not lead to it. -/
inductive Volatile (E : WorkflowExecutor (TaskOutput py) (TaskParams py)) (online : Prop)
    (s : StepConfig (TaskParams py)) : Prop
  | notifies (task : s.task = "send_notification")
  | asks (task : s.task = "classify_with_llm") (unmocked : s.params.mockedResponse = none)
      (online : online)
  | peeks (task : s.task = "classify_with_llm") (unmocked : s.params.mockedResponse = none)
      (untexted : s.params.text.getD "" = "")
      (stranger : ¬ E.Ancestor (s.params.fromStep.getD "") s.id)

/-- Without and with typed I/O. -/
theorem invoke_builtin {ids : List String} (hregistry : E.taskRegistry = builtinTasks provider ids)
    (n : ℕ) (c : Context (TaskOutput py)) (p : TaskParams py) :
    E.invoke s n c p = (builtin provider ids s.task s.id n c p, p) := by
  unfold invoke taskFn TaskRunner.run builtin
  rw [hregistry, builtinTasks_get]
  cases hparsed : p.parsed <;> split_ifs <;>
    simp [hparsed, TaskParams.failed, PyValue.taskResult?, TaskResult.unwrap]

/-- The attempts of a task that leaves its params alone. -/
theorem attemptFrom_builtin {ids : List String}
    (hregistry : E.taskRegistry = builtinTasks provider ids) (c : Context (TaskOutput py))
    (p : TaskParams py) : ∀ (k a : ℕ),
      E.attemptFrom s c a p k = (builtin provider ids s.task s.id (a + k + 1) c p, p)
  | 0, a => invoke_builtin hregistry (a + 1) c p
  | k + 1, a => by
      have hattempt : a + 1 + k + 1 = a + (k + 1) + 1 := by omega
      rw [attemptFrom, invoke_builtin hregistry, attemptFrom_builtin hregistry c p k (a + 1),
        hattempt]

/-- A step that is not volatile does the same with the results of its ancestors. -/
theorem builtin_same {online : Prop} {ids ids' : List String} (hs : ¬ E.Volatile online s)
    (hoffline : ¬ online → provider.keyed = false ∧ provider'.keyed = false)
    {c c' : Context (TaskOutput py)} (hc : ∀ d, E.Ancestor d s.id → c' d = c d) (n : ℕ) :
    builtin provider' ids' s.task s.id n c' s.params =
      builtin provider ids s.task s.id n c s.params := by
  unfold builtin
  rw [builtinTasks_get, builtinTasks_get]
  by_cases hfail : s.task = "always_fail"
  · simp only [if_pos hfail]
  by_cases hsend : s.task = "send_notification"
  · exact absurd (.notifies hsend) hs
  by_cases hclassify : s.task = "classify_with_llm"
  · have hsame : s.params.classified provider' s.id n c' =
        s.params.classified provider s.id n c := by
      refine classified_same (fun hmocked => ?_) fun hmocked htext => ?_
      · exact hoffline fun honline => hs (.asks hclassify hmocked honline)
      · exact hc _ (not_not.mp fun hstranger => hs (.peeks hclassify hmocked htext hstranger))
    simp only [if_neg hfail, if_neg hsend, if_pos hclassify, hsame]
  · simp only [if_neg hfail, if_neg hsend, if_neg hclassify]
    by_cases hparse : s.task = "parse_text"
    · simp only [if_pos hparse]
    · simp only [if_neg hparse]

/-- CORRECT (built-in tasks): any two runs of a definition with the built-in tasks, in any modes,
    file orders and interleavings and with any providers, have the same records of every step that is
    not volatile and that no volatile step leads to. -/
theorem builtin_runs_agree (hacc : detectCycles E.config.steps = .ok ())
    (hsteps : E'.config.steps.Perm E.config.steps)
    (hregistry : E.taskRegistry = builtinTasks provider (E.config.steps.map StepConfig.id))
    (hregistry' : E'.taskRegistry = builtinTasks provider' (E'.config.steps.map StepConfig.id))
    {σ σ' : RunState (TaskOutput py) (TaskParams py)} (hσ : E.Finishes σ) (hσ' : E'.Finishes σ')
    {id : String} (hid : ¬ E.Affected (fun x => ∃ s ∈ E.config.steps, s.id = x ∧
      E.Volatile (provider.keyed = true ∨ provider'.keyed = true) s) id) : SameAt σ σ' id := by
  have hdag := acyclic_of_accepted hacc
  refine Preserves.sameAt ⟨fun s _ => hsteps.mem_iff, fun s hs hfree c c' hc k => ?_⟩ hdag
    (hdag.perm hsteps) hσ hσ' hid
  have hsteady : ¬ E.Volatile (provider.keyed = true ∨ provider'.keyed = true) s :=
    fun hvolatile => not_edited hfree ⟨s, hs, rfl, hvolatile⟩
  have hsame : builtin provider' (E'.config.steps.map StepConfig.id) s.task s.id (0 + k + 1) c'
      s.params = builtin provider (E.config.steps.map StepConfig.id) s.task s.id (0 + k + 1) c
        s.params :=
    builtin_same hsteady (by simp [not_or]) hc (0 + k + 1)
  rw [attemptFrom_builtin hregistry, attemptFrom_builtin hregistry', hsame]

def leadLibrary : PythonLibrary ℤ where
  lower text := String.ofList (text.toList.map Char.toLower)
  digest := String.length
  int := .ok
  str := toString
  repr text := "'" ++ text ++ "'"

def leadParams (fromStep : Option String) : TaskParams leadLibrary where
  labels := some ["lead", "spam"]
  fromStep := fromStep
  ends := by rintro n ⟨⟩; decide

/-- A notification that waits for nothing, and the classification of a parsed text. -/
def leadSteps : List (StepConfig (TaskParams leadLibrary)) :=
  [{ id := "note", task := "send_notification", params := leadParams none },
   { id := "kind", task := "classify_with_llm", dependsOn := some ["lead"],
     params := leadParams (some "lead") },
   { id := "lead", task := "parse_text", params := leadParams none }]

def offline : LlmProvider where
  answer _ _ _ _ _ _ := none

/-- In a thread pool. -/
def leads : WorkflowExecutor (TaskOutput leadLibrary) (TaskParams leadLibrary) where
  config := { name := "leads", steps := leadSteps, uniqueStepIds := by decide }
  taskRegistry := builtinTasks offline (leadSteps.map StepConfig.id)
  concurrencyLimit := some 2

/-- One after another, with the notification last. -/
def leadsInOrder : WorkflowExecutor (TaskOutput leadLibrary) (TaskParams leadLibrary) where
  config := { name := "leads", steps := leadSteps.reverse, uniqueStepIds := by decide }
  taskRegistry := builtinTasks offline (leadSteps.reverse.map StepConfig.id)

theorem leads_kind : ∃ σ σ', leads.Finishes σ ∧ leadsInOrder.Finishes σ' ∧
    σ'.results.get "kind" = σ.results.get "kind" := by
  obtain ⟨σ, hσ, -⟩ := exists_finish (E := leads) .refl
  obtain ⟨σ', hσ', -⟩ := exists_finish (E := leadsInOrder) .refl
  have hsources : ∀ x ∈ ["lead", "kind"], ∀ t ∈ leads.config.steps, t.id = x → ∀ d ∈ t.deps,
      d ∈ ["lead", "kind"] := by decide
  have hclosed : ∀ e, ReflTransGen (Dep leads.config.steps) e "kind" → e ∈ ["lead", "kind"] := by
    intro e he
    induction he using ReflTransGen.head_induction_on with
    | refl => decide
    | head hdep _ ih =>
      obtain ⟨t, ht, hid, hd⟩ := hdep
      exact hsources _ ih t ht hid _ hd
  have hfree : ¬ leads.Affected (fun x => ∃ s ∈ leads.config.steps, s.id = x ∧
      leads.Volatile (offline.keyed = true ∨ offline.keyed = true) s) "kind" := by
    rintro ⟨e, ⟨s, hs, rfl, hvolatile⟩, hreach⟩
    have hmem := hclosed _ hreach
    have hlead : leads.Ancestor "lead" "kind" :=
      .single ⟨_, List.mem_cons_of_mem _ List.mem_cons_self, rfl, by decide⟩
    rcases hs with _ | ⟨_, _ | ⟨_, _ | ⟨_, ⟨⟩⟩⟩⟩
    · exact absurd hmem (by decide)
    · cases hvolatile with
      | notifies task => exact absurd task (by decide)
      | asks _ _ online => exact absurd online (by decide)
      | peeks _ _ _ stranger => exact stranger hlead
    · cases hvolatile with
      | notifies task | asks task | peeks task => exact absurd task (by decide)
  exact ⟨σ, σ', hσ, hσ', (builtin_runs_agree rfl (List.reverse_perm _) rfl rfl hσ hσ' hfree).result⟩

end WorkflowExecutor

end WorkflowEngine
