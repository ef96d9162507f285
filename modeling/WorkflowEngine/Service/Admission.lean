import WorkflowEngine.Service.Endpoints

/-! Which definitions the endpoints let in.

    `/workflows/validate` loads a definition and looks its tasks up. A run hashes it first, and a run
    that is enqueued does nothing else; a trigger is registered for any definition that loads. So the
    paths agree exactly on definitions whose hash and whose tasks make no difference. -/

namespace WorkflowEngine
open Schemes

variable {D P V J : Type} {lib : YamlLibrary D P} [PyValue V]

/-! ### Registries -/

omit [PyValue V] in
theorem WorkflowExecutor.validateRegistry_ok_iff {E : WorkflowExecutor V P} :
    E.validateRegistry = .ok () ↔
      ∀ step ∈ E.config.steps, (E.taskRegistry.get step.task).isSome = true := by
  have hmissing : ((E.config.steps.map StepConfig.task).filter fun t =>
      (E.taskRegistry.get t).isNone) = [] ↔
      ∀ step ∈ E.config.steps, (E.taskRegistry.get step.task).isSome = true := by
    rw [List.filter_eq_nil_iff, List.forall_mem_map]
    refine forall₂_congr fun step _ => ?_
    cases E.taskRegistry.get step.task <;> simp
  rw [validateRegistry]
  dsimp only
  split_ifs with h
  · exact ⟨fun _ => hmissing.mp (List.isEmpty_iff.mp h), fun _ => rfl⟩
  · refine ⟨fun he => absurd he (by simp), fun hall => absurd ?_ h⟩
    exact List.isEmpty_iff.mpr (hmissing.mpr hall)

/-- Every task of a workflow is registered. -/
def Service.Registers (s : Service V P J) (config : WorkflowConfig P) : Prop :=
  ∀ step ∈ config.steps, (s.taskRegistry.get step.task).isSome = true

/-- A definition that validation refuses: it does not load, with a `WorkflowValidationError` or a
    `ValueError`, or it has a task that is not registered. -/
inductive Refused (lib : YamlLibrary D P) (s : Service V P J) (text : String) : Prop
  | load {e : Exn} (h : lib.loadWorkflowYaml text = .error e)
      (invalid : e.invalid = true)
  | registry {config : WorkflowConfig P} (h : lib.loadWorkflowYaml text = .ok config)
      (missing : ¬ s.Registers config)

/-- An exception that `orInvalid` lets out as a 422. -/
def Exn.Unprocessable (e : Exn) : Prop := e.invalid = true ∨ e.status = 422

theorem Exn.unprocessable_iff {e : Exn} (h : e.isHttp = false) :
    e.Unprocessable ↔ e.invalid = true := by
  cases e with
  | http => exact absurd h (by simp [Exn.isHttp])
  | _ => simp [Exn.Unprocessable, Exn.status]

/-- The answer is 422. -/
def Answers422 {α : Type} (r : Except Exn α) : Prop := ∃ e, r = .error e ∧ e.status = 422

section
variable {s : Service V P J} {c : Circumstances V P} {w : World lib V J} {α : Type}

theorem orInvalid_answers {m : Program lib V J α} : Answers422 (orInvalid m w).1 ↔
    ∃ e, (m w).1 = .error e ∧ e.Unprocessable := by
  rw [orInvalid_run]
  rcases (m w).1 with e | a
  · constructor
    · rintro ⟨e', he', hst⟩
      obtain rfl := Except.error.inj he'
      refine ⟨e, rfl, ?_⟩
      cases hinvalid : e.invalid with
      | true => exact .inl hinvalid
      | false => exact .inr (by simpa [hinvalid] using hst)
    · rintro ⟨e', he', hrefused⟩
      obtain rfl := Except.error.inj he'
      refine ⟨_, rfl, ?_⟩
      cases hinvalid : e.invalid with
      | true => simp [hinvalid, Exn.status]
      | false => simpa [hinvalid] using hrefused.resolve_left (by simp [hinvalid])
  · simp [Answers422, Except.mapError]

theorem orPersistence_answers {m : Program lib V J α} :
    Answers422 (orPersistence m w).1 ↔ Answers422 (m w).1 := by
  rw [orPersistence_run]
  rcases (m w).1 with e | a
  · cases e <;> simp [Answers422, Except.mapError, Exn.status]
  · simp [Answers422, Except.mapError]

/-! ### Validation -/

theorem validate_answers (h : c.denied = none) (text : String) :
    Answers422 ((validateWorkflow s c text : Program lib V J Validated) w).1 ↔
      Refused lib s text := by
  unfold validateWorkflow
  rw [Prog.bind_of_ok (checkAccess_granted h), orInvalid_answers]
  rcases hload : lib.loadWorkflowYaml text with e | config
  · simp only [Prog.lift_error_bind_run]
    constructor
    · rintro ⟨e', he, hrefused⟩
      obtain rfl := Except.error.inj he
      exact .load hload ((Exn.unprocessable_iff (YamlLibrary.load_plain hload)).mp hrefused)
    · rintro (⟨hno, hinvalid⟩ | ⟨hno, -⟩)
      · obtain rfl := Except.error.inj (hload.symm.trans hno)
        exact ⟨_, rfl, .inl hinvalid⟩
      · exact absurd (hload.symm.trans hno) (by simp)
  · simp only [Prog.lift_ok_bind_run]
    rcases hregistry : ({ config := config, taskRegistry := s.taskRegistry } :
      WorkflowExecutor V P).validateRegistry with message | ⟨⟩
    · refine ⟨fun _ => .registry hload fun hall => ?_, fun _ => ⟨_, rfl, .inl rfl⟩⟩
      have hok := (WorkflowExecutor.validateRegistry_ok_iff
        (E := { config := config, taskRegistry := s.taskRegistry })).mpr hall
      exact absurd (hregistry.symm.trans hok) (by simp)
    · constructor
      · rintro ⟨e, he, -⟩
        exact absurd he (by simp)
      · rintro (⟨hno, -⟩ | ⟨hload', hmissing⟩)
        · exact absurd (hload.symm.trans hno) (by simp)
        · obtain rfl := Except.ok.inj (hload.symm.trans hload')
          exact absurd (WorkflowExecutor.validateRegistry_ok_iff.mp hregistry) hmissing

/-! ### Runs of fresh definitions -/

/-- A call for a definition that is not pinned yet, with the registry of the installation. -/
structure RunCall.Fresh (call : RunCall V P) : Prop where
  versioned : call.versioned = true
  unpinned : call.versionHash = none
  registry : call.taskRegistry = none

omit [PyValue V] in
theorem RunCall.Fresh.named {call : RunCall V P} (h : call.Fresh) (uuid : String) :
    (call.named uuid).Fresh := by
  obtain ⟨trace, runId, hnamed⟩ := named_eq call uuid
  rw [hnamed]
  exact ⟨h.versioned, h.unpinned, h.registry⟩

omit [PyValue V] in
theorem RunCall.Fresh.registers_iff {call : RunCall V P} (h : call.Fresh)
    (config : WorkflowConfig P) :
    (call.executor s config).validateRegistry = .ok () ↔ s.Registers config := by
  rw [WorkflowExecutor.validateRegistry_ok_iff, RunCall.executor, h.registry]
  rfl

omit [PyValue V] in
theorem RunCall.Rejects.unique {call : RunCall V P} {text : String} {e e' : Exn}
    (h : call.Rejects lib s text e) (h' : call.Rejects lib s text e') : e = e' := by
  rcases h with hload | ⟨hload, hmissing⟩
  · rcases h' with hload' | ⟨hload', -⟩
    · exact Except.error.inj (hload.symm.trans hload')
    · exact absurd (hload.symm.trans hload') (by simp)
  · rcases h' with hload' | ⟨hload', hmissing'⟩
    · exact absurd (hload.symm.trans hload') (by simp)
    · obtain rfl := Except.ok.inj (hload.symm.trans hload')
      exact congrArg Exn.value (Except.error.inj (hmissing.symm.trans hmissing'))

omit [PyValue V] in
theorem RunCall.Fresh.rejects_iff {call : RunCall V P} (h : call.Fresh) (text : String) :
    (∃ e, call.Rejects lib s text e ∧ e.Unprocessable) ↔
      Refused lib s text := by
  constructor
  · rintro ⟨e, hload | ⟨hload, hmissing⟩, hrefused⟩
    · exact .load hload ((Exn.unprocessable_iff (YamlLibrary.load_plain hload)).mp hrefused)
    · refine .registry hload fun hall => ?_
      exact absurd (hmissing.symm.trans ((h.registers_iff _).mpr hall)) (by simp)
  · rintro (⟨hload, hinvalid⟩ | ⟨hload, hmissing⟩)
    · exact ⟨_, .load hload, .inl hinvalid⟩
    · rename_i config
      rcases hregistry : (call.executor s config).validateRegistry with message | ⟨⟩
      · exact ⟨_, .registry hload hregistry, .inl rfl⟩
      · exact absurd ((h.registers_iff config).mp hregistry) hmissing

/-- With stores that work, a fresh call raises what hashing its definition raises, or why the
    definition is rejected. -/
theorem RunCall.Fresh.error_iff {call : RunCall V P} (h : call.Fresh)
    (hc : ∀ op, c.fails op = none) (w : World lib V J) (e : Exn) :
    (runWorkflow s c call w).1 = .error e ↔
      lib.canonicalYamlHash call.yamlDefinition = .error e ∨
      (∃ hash, lib.canonicalYamlHash call.yamlDefinition = .ok hash) ∧
        call.Rejects lib s call.yamlDefinition e := by
  have hnamed := h.named (c.uuid .trace)
  have hgiven : Chosen w (call.named (c.uuid .trace)) call.yamlDefinition :=
    chosen_named.mpr (.given h.unpinned)
  have hleaves := runWorkflow_cases s c call w
  generalize (runWorkflow s c call w).1 = r at hleaves
  generalize (runWorkflow s c call w).2 = w' at hleaves
  cases hleaves with
  | unpinnable why =>
    cases why with
    | store hsome | missing hsome => exact absurd (hnamed.unpinned.symm.trans hsome) (by simp)
    | failed hf => exact absurd ((hc _).symm.trans hf) (by simp)
  | unhashable hchosen _ why =>
    obtain rfl := hgiven.unique hchosen
    rcases why with hno | ⟨-, hf⟩
    · constructor
      · intro he
        obtain rfl := Except.error.inj he
        exact .inl hno
      · rintro (he | ⟨⟨hash, hok⟩, -⟩)
        · rw [Except.error.inj (hno.symm.trans he)]
        · exact absurd (hok.symm.trans hno) (by simp)
    · exact absurd ((hc _).symm.trans hf) (by simp)
  | rejected hchosen pinned why =>
    obtain rfl := hgiven.unique hchosen
    constructor
    · intro he
      obtain rfl := Except.error.inj he
      exact .inr ⟨pinned.hash_ok hnamed.versioned, rejects_named.mp why⟩
    · rintro (he | ⟨-, he⟩)
      · obtain ⟨hash, hok⟩ := pinned.hash_ok hnamed.versioned
        exact absurd (hok.symm.trans he) (by simp)
      · rw [(rejects_named.mp why).unique he]
  | unsaved _ _ _ hf | unrecorded _ _ _ hf => exact absurd ((hc _).symm.trans hf) (by simp)
  | finished hchosen pinned runs =>
    obtain rfl := hgiven.unique hchosen
    refine ⟨fun he => absurd he (by simp), ?_⟩
    rintro (he | ⟨-, he⟩)
    · obtain ⟨hash, hok⟩ := pinned.hash_ok hnamed.versioned
      exact absurd (hok.symm.trans he) (by simp)
    · exact absurd (rejects_named.mpr he) runs.not_rejects

/-- Whether a run of a definition in the request is answered with 422. -/
theorem runInline_refused (hc : ∀ op, c.fails op = none) (w : World lib V J) {call : DispatchCall}
    (hcall : call.versionHash = none) (runId : String) :
    (∃ e, (runInline s c call runId w).1 = .error e ∧ e.Unprocessable) ↔
      (∃ e, lib.canonicalYamlHash call.yamlDefinition = .error e ∧ e.invalid = true) ∨
      (∃ hash, lib.canonicalYamlHash call.yamlDefinition = .ok hash) ∧
        Refused lib s call.yamlDefinition := by
  have hfresh : (call.runCall s c runId).Fresh := ⟨rfl, hcall, rfl⟩
  have herror : ∀ e, (runInline s c call runId w).1 = .error e ↔
      (runWorkflow s c (call.runCall s c runId) w).1 = .error e := by
    intro e
    rw [runInline_run]
    rcases (runWorkflow s c (call.runCall s c runId) w).1 with e' | result <;> simp [Except.map]
  rw [← hfresh.rejects_iff]
  constructor
  · rintro ⟨e, he, hrefused⟩
    rcases (hfresh.error_iff hc w e).mp ((herror e).mp he) with hhash | ⟨hok, hrejects⟩
    · exact .inl ⟨e, hhash, (Exn.unprocessable_iff (YamlLibrary.hash_plain hhash)).mp hrefused⟩
    · exact .inr ⟨hok, e, hrejects, hrefused⟩
  · rintro (⟨e, hhash, hinvalid⟩ | ⟨hok, e, hrejects, hrefused⟩)
    · exact ⟨e, (herror e).mpr ((hfresh.error_iff hc w e).mpr (.inl hhash)), .inl hinvalid⟩
    · exact ⟨e, (herror e).mpr ((hfresh.error_iff hc w e).mpr (.inr ⟨hok, hrejects⟩)), hrefused⟩

/-- A definition that is enqueued is never answered with 422. -/
theorem dispatch_async_refused {call : DispatchCall} (h : call.async s = true) (w : World lib V J) :
    ¬ ∃ e, (dispatch s c call w).1 = .error e ∧ e.Unprocessable := by
  rintro ⟨e, he, hrefused⟩
  rw [dispatch_async h] at he
  rcases hrun : enqueue s c call (idOr call.runId (c.uuid .run)) w with ⟨e' | result, w'⟩
  · rw [Prog.handle_of_error hrun] at he
    obtain rfl := Except.error.inj he
    rcases hrefused with hno | hno <;> simp [Exn.invalid, Exn.status] at hno
  · rw [Prog.handle_of_ok hrun] at he
    exact absurd he (by simp)

theorem claimIdempotency_fresh {ns : String} {key : Option String} (hc : ∀ op, c.fails op = none)
    (hkey : ∀ k, truthy key = some k → (ns, k) ∉ w.schedules.idempotency.claims) :
    ∃ w', claimIdempotency c ns key w = (.ok (), w') := by
  have hclaims := claimIdempotency_cases c w ns key
  rcases hrun : claimIdempotency c ns key w with ⟨r, w'⟩
  rw [hrun] at hclaims
  cases hclaims with
  | keyless | granted => exact ⟨_, rfl⟩
  | failed hf => exact absurd ((hc _).symm.trans hf) (by simp)
  | refused hgiven htaken => exact absurd htaken (hkey _ hgiven)

/-- The condition under which the two answers agree. -/
def Consistent (lib : YamlLibrary D P) (s : Service V P J) (text : String)
    (asyncDispatch : Bool) : Prop :=
  if asyncDispatch || s.asyncEnabled then ¬ Refused lib s text
  else ∀ e, lib.canonicalYamlHash text = .error e → (e.invalid = true ↔ Refused lib s text)

/-- EXACT (validation and run): with locking off, working stores and a key that is not taken, a run is
    answered with 422 if and only if validation is, exactly if the definition is consistent: for an
    asynchronous dispatch, it is not refused; for a synchronous one, it has a hash, or hashing it
    fails as validation does. -/
theorem run_iff_validate (s : Service V P J) (c : Circumstances V P) (w : World lib V J)
    (text : String) (asyncDispatch : Bool) (key : Option String) (hlock : s.lockingEnabled = false)
    (hgranted : c.denied = none) (hc : ∀ op, c.fails op = none)
    (hkey : ∀ k, truthy key = some k → ("workflow:run", k) ∉ w.schedules.idempotency.claims) :
    (Answers422 (runWorkflowEndpoint s c text asyncDispatch key w).1 ↔
      Answers422 ((validateWorkflow s c text : Program lib V J Validated) w).1) ↔
    Consistent lib s text asyncDispatch := by
  obtain ⟨w₁, hclaim⟩ := claimIdempotency_fresh (fun op => hc op) hkey
  have hrun : Answers422 (runWorkflowEndpoint s c text asyncDispatch key w).1 ↔
      ∃ e, (dispatch s c { yamlDefinition := text, forceAsync := asyncDispatch } w₁).1 = .error e ∧
        e.Unprocessable := by
    unfold runWorkflowEndpoint
    rw [Prog.bind_of_ok (checkAccess_granted hgranted), orPersistence_answers, orInvalid_answers,
      Prog.bind_of_ok hclaim]
  rw [hrun, validate_answers hgranted, Consistent]
  split_ifs with hasync
  · have hasync : DispatchCall.async s { yamlDefinition := text, forceAsync := asyncDispatch } =
        true := hasync
    have hno := dispatch_async_refused (c := c) hasync w₁
    exact ⟨fun h hrefused => hno (h.mpr hrefused), fun h => ⟨fun he => absurd he hno,
      fun hrefused => absurd hrefused h⟩⟩
  · have hsync : DispatchCall.async s { yamlDefinition := text, forceAsync := asyncDispatch } =
        false := Bool.eq_false_iff.mpr hasync
    rw [dispatch_inline hsync hlock, runInline_refused hc w₁ rfl]
    constructor
    · intro h e he
      constructor
      · exact fun hrefused => h.mp (.inl ⟨e, he, hrefused⟩)
      · intro hrefused
        rcases h.mpr hrefused with ⟨e', he', hr⟩ | ⟨⟨hash, hok⟩, -⟩
        · rwa [Except.error.inj (he.symm.trans he')]
        · exact absurd (hok.symm.trans he) (by simp)
    · intro h
      constructor
      · rintro (⟨e, he, hr⟩ | ⟨-, hrefused⟩)
        · exact (h e he).mp hr
        · exact hrefused
      · intro hrefused
        rcases hhash : lib.canonicalYamlHash text with e | hash
        · exact .inl ⟨e, rfl, (h e hhash).mpr hrefused⟩
        · exact .inr ⟨⟨hash, rfl⟩, hrefused⟩

/-! ### Triggers -/

/-- A definition that its triggers can run: it has a hash, it loads, and its tasks are registered. -/
structure Fit (lib : YamlLibrary D P) (s : Service V P J) (text : String) : Prop where
  hash : ∃ hash, lib.canonicalYamlHash text = .ok hash
  load : ∃ config, lib.loadWorkflowYaml text = .ok config ∧ s.Registers config

/-- The stores, the broker and the lock provider raise exceptions of their own. -/
def Circumstances.Ordinary (c : Circumstances V P) : Prop :=
  ∀ op e, c.fails op = some e → e.invalid = false

/-- The program raises no `WorkflowValidationError` and no `ValueError`. -/
abbrev Accepts (m : Program lib V J α) : Prop := Prog.Raises (fun e => e.invalid = false) m

omit [PyValue V] in
theorem Fit.not_rejects {text : String} (hfit : Fit lib s text) {call : RunCall V P}
    (hcall : call.Fresh) {e : Exn} : ¬ call.Rejects lib s text e := by
  obtain ⟨config, hload, hregisters⟩ := hfit.load
  rintro (hno | ⟨hload', hmissing⟩)
  · exact absurd (hload.symm.trans hno) (by simp)
  · obtain rfl := Except.ok.inj (hload.symm.trans hload')
    exact absurd (((hcall.registers_iff _).mpr hregisters).symm.trans hmissing) (by simp)

/-- A fresh call of a fit definition raises nothing invalid. -/
theorem Fit.runWorkflow {text : String} (hfit : Fit lib s text) (hc : c.Ordinary)
    {call : RunCall V P} (hcall : call.Fresh) (htext : call.yamlDefinition = text) :
    Accepts (runWorkflow s c call : Program lib V J _) := by
  intro w e w' he
  have hnamed := hcall.named (c.uuid .trace)
  have hgiven : Chosen w (call.named (c.uuid .trace)) text :=
    htext ▸ chosen_named.mpr (.given hcall.unpinned)
  have hleaves := runWorkflow_cases s c call w
  rw [he] at hleaves
  cases hleaves with
  | unpinnable why =>
    cases why with
    | store hsome | missing hsome => exact absurd (hnamed.unpinned.symm.trans hsome) (by simp)
    | failed hf => exact hc _ _ hf
  | unhashable hchosen _ why =>
    obtain rfl := hgiven.unique hchosen
    rcases why with hno | ⟨-, hf⟩
    · obtain ⟨hash, hhash⟩ := hfit.hash
      exact absurd (hhash.symm.trans hno) (by simp)
    · exact hc _ _ hf
  | rejected hchosen _ why =>
    obtain rfl := hgiven.unique hchosen
    exact absurd why (hfit.not_rejects hnamed)
  | unsaved _ _ _ hf | unrecorded _ _ _ hf => exact hc _ _ hf

theorem Fit.enqueueOrRun {text : String} (hfit : Fit lib s text) (hc : c.Ordinary) :
    Accepts (dispatch s c { yamlDefinition := text } : Program lib V J _) := by
  have hinline : ∀ runId, Accepts
      (runInline s c { yamlDefinition := text } runId : Program lib V J _) := fun runId =>
    (hfit.runWorkflow hc ⟨rfl, rfl, rfl⟩ rfl).bind fun _ => .pure _
  rcases hasync : DispatchCall.async s { yamlDefinition := text } with _ | _
  · rcases hlock : s.lockingEnabled with _ | _
    · rw [dispatch_inline hasync hlock]
      exact hinline _
    · rw [dispatch_locked hasync hlock]
      obtain ⟨hash, hhash⟩ := hfit.hash
      refine Prog.Raises.bind (.lift fun e he => absurd (hhash.symm.trans he) (by simp)) fun _ => ?_
      refine (attempt_raises (hc _)).bind fun _ => ?_
      split_ifs
      · exact (hinline _).ensure (attempt_raises (hc _))
      · exact .raise rfl
  · rw [dispatch_async hasync]
    exact Prog.Raises.handle (q := fun _ => True) (fun _ _ _ _ => trivial) fun _ _ => .raise rfl

/-- With working stores, a definition that loads is fit exactly if a fresh call returns. -/
theorem fit_iff_returns {text : String} {config : WorkflowConfig P}
    (hload : lib.loadWorkflowYaml text = .ok config) (hc : ∀ op, c.fails op = none)
    {call : RunCall V P} (hcall : call.Fresh) (htext : call.yamlDefinition = text)
    (w : World lib V J) : (∃ result, (runWorkflow s c call w).1 = .ok result) ↔ Fit lib s text := by
  have herror := hcall.error_iff (s := s) hc w
  rw [htext] at herror
  constructor
  · rintro ⟨result, hresult⟩
    have hno : ∀ e, ¬ (runWorkflow s c call w).1 = .error e := fun e he =>
      absurd (hresult.symm.trans he) (by simp)
    rcases hhash : lib.canonicalYamlHash text with e | hash
    · exact absurd ((herror e).mpr (.inl hhash)) (hno e)
    · refine ⟨⟨hash, hhash⟩, config, hload, ?_⟩
      by_contra hmissing
      obtain ⟨e, hrejects, -⟩ := (hcall.rejects_iff text).mpr (.registry hload hmissing)
      exact hno e ((herror e).mpr (.inr ⟨⟨hash, hhash⟩, hrejects⟩))
  · intro hfit
    rcases hrun : (runWorkflow s c call w).1 with e | result
    · rcases (herror e).mp hrun with hno | ⟨-, hrejects⟩
      · obtain ⟨hash, hhash⟩ := hfit.hash
        exact absurd (hhash.symm.trans hno) (by simp)
      · exact absurd hrejects (hfit.not_rejects hcall)
    · exact ⟨result, rfl⟩

theorem Fit.returns {text : String} (hfit : Fit lib s text) (hc : ∀ op, c.fails op = none)
    {call : RunCall V P} (hcall : call.Fresh) (htext : call.yamlDefinition = text) :
    Prog.Returns (WorkflowEngine.runWorkflow s c call : Program lib V J _) := by
  obtain ⟨config, hload, -⟩ := hfit.load
  intro w
  obtain ⟨result, hresult⟩ := (fit_iff_returns hload hc hcall htext w).mpr hfit
  exact ⟨result, _, by rw [← hresult]⟩

/-- A fit definition is dispatched when nothing fails and the lock is free. -/
theorem Fit.dispatches {text : String} (hfit : Fit lib s text) (hc : ∀ op, c.fails op = none)
    (hheld : c.held = true) :
    Prog.Returns (dispatch s c { yamlDefinition := text } : Program lib V J _) := by
  obtain ⟨hash, hhash⟩ := hfit.hash
  have hinline : ∀ runId, Prog.Returns
      (runInline s c { yamlDefinition := text } runId : Program lib V J _) := fun runId =>
    (hfit.returns hc ⟨rfl, rfl, rfl⟩ rfl).bind fun _ => .pure _
  rcases hasync : DispatchCall.async s { yamlDefinition := text } with _ | _
  · rcases hlock : s.lockingEnabled with _ | _
    · rw [dispatch_inline hasync hlock]
      exact hinline _
    · rw [dispatch_locked hasync hlock, runLocked, hhash]
      refine Prog.Returns.bind (fun w => ⟨hash, w, rfl⟩) fun _ => ?_
      refine (attempt_returns (hc _)).bind fun _ => ?_
      rw [if_pos hheld]
      exact (hinline _).ensure (attempt_returns (hc _))
  · rw [dispatch_async hasync]
    refine Prog.Returns.handle (Prog.Returns.bind (fun w => ?_) fun _ => ?_)
    · rcases putVersion_cases c .dispatchPut w text with ⟨e, -, hno | ⟨-, hf⟩⟩ | ⟨v, hv, -⟩
      · exact absurd (hhash.symm.trans hno) (by simp)
      · exact absurd ((hc _).symm.trans hf) (by simp)
      · exact ⟨v, _, hv⟩
    · exact (attempt_returns (hc _)).bind fun _ w => ⟨_, _, rfl⟩

/-- A definition that a registration endpoint has accepted. -/
inductive Admitted (lib : YamlLibrary D P) (s : Service V P J) (text : String) : Prop
  | webhook {c : Circumstances V P} {w : World lib V J} {name description : String}
      {secret : Option String} (h : (registerWebhook c name text description secret w).1 = .ok ())
  | schedule {c : Circumstances V P} {w : World lib V J} {name cron : String} {now : Datetime}
      (h : (createSchedule s c name cron text now w).1 = .ok ())

theorem mapError_ok {r : Except Exn α} {f : Exn → Exn} {a : α} (h : r.mapError f = .ok a) :
    r = .ok a := by
  cases r with
  | ok a' => exact h
  | error e => exact absurd h (by simp [Except.mapError])

theorem orInvalid_ok {m : Program lib V J α} {a : α} (h : (orInvalid m w).1 = .ok a) :
    (m w).1 = .ok a := by
  rw [orInvalid_run] at h
  exact mapError_ok h

theorem orPersistence_ok {m : Program lib V J α} {a : α} (h : (orPersistence m w).1 = .ok a) :
    (m w).1 = .ok a := by
  rw [orPersistence_run] at h
  exact mapError_ok h

/-- The endpoints accept what loads. -/
theorem Admitted.loads {text : String} (h : Admitted lib s text) :
    ∃ config, lib.loadWorkflowYaml text = .ok config := by
  have hlift : ∀ {f : WorkflowConfig P → Program lib V J Unit} {w : World lib V J},
      ((Prog.lift (lib.loadWorkflowYaml text) >>= f) w).1 = .ok () →
      ∃ config, lib.loadWorkflowYaml text = .ok config := by
    intro f w hok
    rcases hload : lib.loadWorkflowYaml text with e | config
    · rw [hload, Prog.lift_error_bind_run] at hok
      exact absurd hok (by simp)
    · exact ⟨config, rfl⟩
  have haccess : ∀ {c : Circumstances V P} {f : Unit → Program lib V J Unit} {w : World lib V J},
      ((checkAccess c >>= f) w).1 = .ok () → (f () w).1 = .ok () := by
    intro c f w hok
    rcases hd : c.denied with _ | denial
    · rwa [Prog.bind_of_ok (checkAccess_granted hd)] at hok
    · rw [Prog.bind_of_error (checkAccess_denied hd)] at hok
      exact absurd hok (by simp)
  rcases h with hok | hok
  · exact hlift (orInvalid_ok (orPersistence_ok (haccess hok)))
  · have hbody := haccess hok
    split_ifs at hbody
    · exact hlift (orInvalid_ok (orPersistence_ok hbody))
    · exact absurd hbody (by simp)

/-- EXACT (triggers): for a definition that a registration endpoint has accepted, no firing through
    `_dispatch` or through the beat ever raises a `WorkflowValidationError` or a `ValueError`, and
    every firing returns when nothing fails and the lock is free, if and only if the definition is
    fit. -/
theorem fires_iff_fit (s : Service V P J) (text : String) (admitted : Admitted lib s text) :
    ((∀ c : Circumstances V P, c.Ordinary →
      Accepts (dispatch s c { yamlDefinition := text } : Program lib V J _) ∧
      Accepts (runDueDefinition s c text : Program lib V J String)) ∧
    ∀ c : Circumstances V P, (∀ op, c.fails op = none) → c.held = true →
      Prog.Returns (dispatch s c { yamlDefinition := text } : Program lib V J _) ∧
      Prog.Returns (runDueDefinition s c text : Program lib V J String)) ↔ Fit lib s text := by
  obtain ⟨config, hload⟩ := admitted.loads
  have hfresh : RunCall.Fresh (dueCall s text : RunCall V P) := ⟨rfl, rfl, rfl⟩
  constructor
  · rintro ⟨-, h⟩
    obtain ⟨w⟩ : Nonempty (World lib V J) := by
      rcases admitted with hok | hok
      all_goals exact ⟨by assumption⟩
    have hcalm : ∀ op, (calm "" : Circumstances V P).fails op = none := fun _ => rfl
    obtain ⟨runId, w', hrunId⟩ := (h _ hcalm rfl).2 w
    obtain ⟨result, w₁, hresult, -⟩ := Prog.bind_ok.mp hrunId
    exact (fit_iff_returns hload hcalm hfresh rfl w).mp ⟨result, by rw [hresult]⟩
  · intro hfit
    refine ⟨fun c hc => ⟨hfit.enqueueOrRun hc, ?_⟩, fun c hc hheld => ⟨hfit.dispatches hc hheld, ?_⟩⟩
    · exact (hfit.runWorkflow hc hfresh rfl).bind fun _ => .pure _
    · exact (hfit.returns hc hfresh rfl).bind fun _ => .pure _

end

/-! ### Examples -/

/-- Validation refuses a text that is no YAML and a workflow with an unknown task; dispatched
    asynchronously, the first is answered with 503 and the second is enqueued. -/
theorem unvalidated_async :
    Answers422 ((validateWorkflow quiet (calm "1") "\x7b" : Program documents _ _ _) blank).1 ∧
    (runWorkflowEndpoint quiet (calm "1") "\x7b" true none blank).1 = .error (.http 503
      "Async dispatch failed: Invalid YAML: while parsing a flow mapping" "dispatch_failed") ∧
    Answers422
      ((validateWorkflow quiet (calm "1") Document.typo.text : Program documents _ _ _) blank).1 ∧
    (runWorkflowEndpoint quiet (calm "1") Document.typo.text true none blank).1 =
      .ok (.async "1-run" Document.typo.sha256) :=
  ⟨⟨_, rfl, rfl⟩, rfl, ⟨_, rfl, rfl⟩, rfl⟩

theorem typo_run_iff_validate :
    (Answers422 (runWorkflowEndpoint quiet (calm "1") Document.typo.text true none blank).1 ↔
      Answers422
        ((validateWorkflow quiet (calm "1") Document.typo.text : Program documents _ _ _) blank).1) ↔
    Consistent documents quiet Document.typo.text true :=
  run_iff_validate quiet (calm "1") blank Document.typo.text true none rfl rfl (fun _ => rfl)
    fun k hk => absurd hk (by simp [truthy])

/-- A webhook and a schedule for the workflow with the unknown task are accepted. -/
theorem typo_admitted : Admitted documents quiet Document.typo.text := by
  have haccepted :
      (registerWebhook (calm "1") "push" Document.typo.text "" none blank).1 = .ok () := rfl
  exact .webhook haccepted

/-- The webhook is answered with 422, and the schedule ends its tick. -/
theorem typo_fires_invalid :
    (registerWebhook (calm "1") "push" Document.typo.text "" none blank).1 = .ok () ∧
    (triggerWebhook quiet (calm "2") "push" [] none none
      (registerWebhook (calm "1") "push" Document.typo.text "" none blank).2).1 =
      .error (.http 422 "Tasks not found in registry: missing" "validation_failed") ∧
    (createSchedule quiet (calm "1") "minute" "* * * * *" Document.typo.text newYear blank).1 =
      .ok () ∧
    (dispatchDue quiet (fun _ => calm "2") (runDueDefinition quiet) newYear.nextMinute
      (createSchedule quiet (calm "1") "minute" "* * * * *" Document.typo.text newYear blank).2).1 =
      .error (.value "Tasks not found in registry: missing") :=
  ⟨rfl, rfl, rfl, by rfl⟩

theorem typo_fires_iff_fit :
    ((∀ c : Circumstances String Unit, c.Ordinary →
      Accepts (dispatch quiet c { yamlDefinition := Document.typo.text } : Program documents _ _ _) ∧
      Accepts (runDueDefinition quiet c Document.typo.text : Program documents _ _ String)) ∧
    ∀ c : Circumstances String Unit, (∀ op, c.fails op = none) → c.held = true →
      Prog.Returns
        (dispatch quiet c { yamlDefinition := Document.typo.text } : Program documents _ _ _) ∧
      Prog.Returns (runDueDefinition quiet c Document.typo.text : Program documents _ _ String)) ↔
    Fit documents quiet Document.typo.text :=
  fires_iff_fit quiet Document.typo.text typo_admitted

end WorkflowEngine
