import WorkflowEngine.Service.Requests

/-! Reruns and the definition they are pinned to.

    A run id is used by executions, by the stored record, and by messages that were enqueued, and
    every use has a definition and a version hash. All uses of an id have one hash, which is that of
    their definitions and has a version (`World.Bound`). A rerun looks its definition up under that
    hash, so it may run another text, but never one with another hash. The canonical hash of a text
    is the same whenever it is asked for, also in another process. -/

namespace WorkflowEngine
open Schemes

variable {D P V J : Type} {lib : YamlLibrary D P} [PyValue V]

/-! ### Uses of a run id -/

/-- A run id is used with a definition and a version hash. -/
inductive World.Uses (s : Service V P J) (w : World lib V J) :
    String → String → Option String → Prop
  | executed {x : Execution lib V} (mem : x ∈ w.executed) :
      Uses s w x.id x.yamlDefinition x.versionHash
  | stored {id : String} {record : RunRecord P} (get : w.runs.getRun s.column id = some record) :
      Uses s w id record.yamlDefinition record.versionHash
  | queued {m : Message} {id : String} (mem : m ∈ w.queue) (named : m.runId = some id) :
      Uses s w id m.yamlDefinition m.versionHash

/-- The version hash is that of the text, and has a version. -/
def World.Pins (w : World lib V J) (text : String) (versionHash : Option String) : Prop :=
  ∃ hash, versionHash = some hash ∧ lib.canonicalYamlHash text = .ok hash ∧
    ∃ v, w.versions.get hash = some v

/-- No version changes. -/
def World.VersionsKept (w w' : World lib V J) : Prop :=
  ∀ hash v, w.versions.get hash = some v → w'.versions.get hash = some v

/-- The invariant. -/
structure World.Bound (s : Service V P J) (w : World lib V J) : Prop where
  sound : w.runs.Sound
  named : ∀ m ∈ w.queue, ∃ id, m.runId = some id
  pins : ∀ id text versionHash, w.Uses s id text versionHash → w.Pins text versionHash
  agree : ∀ id text versionHash text' versionHash', w.Uses s id text versionHash →
    w.Uses s id text' versionHash' → versionHash = versionHash'

/-- At most one more execution and one more message, under an id. -/
structure World.OneMore (w w' : World lib V J) (id : String) : Prop where
  executed : w'.executed = w.executed ∨
    ∃ x : Execution lib V, w'.executed = w.executed ++ [x] ∧ x.id = id
  queue : w'.queue = w.queue ∨ ∃ m : Message, w'.queue = w.queue ++ [m] ∧ m.runId = some id

/-- What one more use of an id leaves: the invariant, and no use of other ids. -/
structure World.Adds (s : Service V P J) (w w' : World lib V J) (id : String) : Prop where
  bound : w'.Bound s
  uses : ∀ id' text versionHash, w'.Uses s id' text versionHash →
    w.Uses s id' text versionHash ∨ id' = id
  oneMore : w.OneMore w' id

section Steps
variable {s : Service V P J} {c : Circumstances V P} {w w' : World lib V J} {id text hash : String}

/-- The uses of an id are those of the executions, the records and the messages. -/
theorem World.Uses.mono {i t : String} {v : Option String} (h : w'.Uses s i t v)
    (executed : ∀ x ∈ w'.executed, x ∈ w.executed)
    (runs : ∀ i r, w'.runs.getRun s.column i = some r → w.runs.getRun s.column i = some r)
    (queue : ∀ m ∈ w'.queue, m ∈ w.queue) : w.Uses s i t v := by
  cases h with
  | executed mem => exact .executed (executed _ mem)
  | stored get => exact .stored (runs _ _ get)
  | queued mem named => exact .queued (queue _ mem) named

theorem World.Pins.mono {versionHash : Option String} (h : w.Pins text versionHash)
    (kept : w.VersionsKept w') : w'.Pins text versionHash := by
  obtain ⟨hash, hhash, htext, v, hv⟩ := h
  exact ⟨hash, hhash, htext, v, kept hash v hv⟩

/-- More versions. -/
theorem World.Bound.withVersion (h : w.Bound s) (text : String) : (w.withVersion text).Bound s :=
  have huses : ∀ i t v, (w.withVersion text).Uses s i t v → w.Uses s i t v := fun _ _ _ hu =>
    hu.mono (fun _ h => h) (fun _ _ h => h) fun _ h => h
  { sound := h.sound
    named := h.named
    pins := fun i t v hu => (h.pins i t v (huses i t v hu)).mono fun _ _ =>
      VersionStore.get_after_of_some
    agree := fun i t v t' v' hu hu' => h.agree i t v t' v' (huses i t v hu) (huses i t' v' hu') }

theorem World.Bound.adds_withVersion (h : w.Bound s) (text : String) :
    w.Adds s (w.withVersion text) id where
  bound := h.withVersion text
  uses _ _ _ hu := .inl (hu.mono (fun _ h => h) (fun _ _ h => h) fun _ h => h)
  oneMore := ⟨.inl rfl, .inl rfl⟩

/-- More uses of an id, with the hash that its uses have. -/
theorem World.Bound.extend (h : w.Bound s) (sound : w'.runs.Sound)
    (named : ∀ m ∈ w'.queue, ∃ id, m.runId = some id)
    (kept : w.VersionsKept w')
    (version : ∃ v, w'.versions.get hash = some v)
    (agree : ∀ t v, w.Uses s id t v → v = some hash)
    (uses : ∀ i t v, w'.Uses s i t v → w.Uses s i t v ∨
      i = id ∧ v = some hash ∧ lib.canonicalYamlHash t = .ok hash) : w'.Bound s where
  sound := sound
  named := named
  pins i t v hu := by
    rcases uses i t v hu with hold | ⟨rfl, rfl, ht⟩
    · exact (h.pins i t v hold).mono kept
    · exact ⟨hash, rfl, ht, version⟩
  agree i t v t' v' hu hu' := by
    rcases uses i t v hu with hold | ⟨rfl, rfl, -⟩ <;>
      rcases uses i t' v' hu' with hold' | ⟨hi, rfl, -⟩
    · exact h.agree i t v t' v' hold hold'
    · exact agree t v (hi ▸ hold)
    · exact (agree t' v' hold').symm
    · rfl

omit [PyValue V] in
theorem chosenId_eq {args : SaveArgs V P} {uuid : String} (hid : args.runId = some id)
    (hne : id ≠ "") : args.chosenId uuid = id := by
  rw [SaveArgs.chosenId, hid]
  exact if_neg hne

theorem World.uses_ran {x : Execution lib V} {i t : String} {v : Option String}
    (h : (w.ran x).Uses s i t v) : w.Uses s i t v ∨
      i = x.id ∧ t = x.yamlDefinition ∧ v = x.versionHash := by
  cases h with
  | executed mem =>
    rcases List.mem_append.mp mem with mem | mem
    · exact .inl (.executed mem)
    · obtain rfl := List.mem_singleton.mp mem
      exact .inr ⟨rfl, rfl, rfl⟩
  | stored get => exact .inl (.stored get)
  | queued mem named => exact .inl (.queued mem named)

theorem World.uses_recordRun (hsound : w.runs.Sound) {x : FinishedRun V P} {i t : String}
    {v : Option String} (h : (w.recordRun s x).Uses s i t v) : w.Uses s i t v ∨
      i = x.id ∧ t = x.yamlDefinition ∧ v = x.versionHash := by
  cases h with
  | executed mem => exact .inl (.executed mem)
  | queued mem named => exact .inl (.queued mem named)
  | stored get =>
    rw [World.recordRun, RunStore.getRun_saveRun hsound] at get
    split_ifs at get with hi
    · obtain rfl := Option.some.inj get
      exact .inr ⟨hi, (RunStore.shown_fields x.args i).1, (RunStore.shown_fields x.args i).2.1⟩
    · exact .inl (.stored get)

/-! ### One call of the runner -/

/-- The definition of a call agrees with the uses of an id. -/
def World.Agrees (s : Service V P J) (w : World lib V J) (call : RunCall V P) (id : String) : Prop :=
  ∀ text hash, Chosen w call text → lib.canonicalYamlHash text = .ok hash →
    ∀ t v, w.Uses s id t v → v = some hash

/-- The uses once a call has executed its definition, and once it has stored it. -/
theorem RunCall.uses_ran {call : RunCall V P} {x : Execution lib V} {i t : String}
    {v : Option String} (h : ((call.pin w text).ran x).Uses s i t v) : w.Uses s i t v ∨
      i = x.id ∧ t = x.yamlDefinition ∧ v = x.versionHash :=
  (World.uses_ran h).imp_left fun hu => hu.mono (fun _ h => h) (fun _ _ h => h) fun _ h => h

theorem RunCall.uses_recordRun (h : w.Bound s) {call : RunCall V P} {x : Execution lib V}
    {i t : String} {v : Option String}
    (hu : (((call.pin w text).ran x).recordRun s x.toFinishedRun).Uses s i t v) :
    w.Uses s i t v ∨ i = x.id ∧ t = x.yamlDefinition ∧ v = x.versionHash := by
  have hsound : ((call.pin w text).ran x).runs.Sound := h.sound
  rcases World.uses_recordRun hsound hu with hu | hu
  · exact uses_ran hu
  · exact .inr hu

/-- One more execution of an id, stored or not. -/
theorem World.Bound.adds_execution (h : w.Bound s) {call : RunCall V P}
    (hversioned : call.versioned = true) (hid : call.runId = some id) (hne : id ≠ "")
    (hagree : w.Agrees s call id) {version : Option WorkflowVersion} {x : Execution lib V}
    (chosen : Chosen w call text) (pinned : Pinned lib c call text version)
    (runs : call.Runs s c text ((version.map WorkflowVersion.contentHash).or call.versionHash) x)
    (sound : w'.runs.Sound) (queue : w'.queue = w.queue)
    (versions : w'.versions = w.versions.after text) (executed : w'.executed = w.executed ++ [x])
    (uses : ∀ i t v, w'.Uses s i t v → w.Uses s i t v ∨
      i = x.id ∧ t = x.yamlDefinition ∧ v = x.versionHash) : w.Adds s w' id := by
  have hx : x.id = id := chosenId_eq (runs.runId.trans hid) hne
  cases pinned with
  | free hfree => exact absurd (hfree.symm.trans hversioned) (by simp)
  | put _ htext _ =>
    refine ⟨?_, fun i t v hu => (uses i t v hu).imp_right fun hnew => hnew.1.trans hx,
      .inr ⟨x, executed, hx⟩, .inl queue⟩
    refine h.extend sound (queue ▸ h.named) ?_ ?_ (hagree _ _ chosen htext) fun i t v hu => ?_
    · rw [World.VersionsKept, versions]
      exact fun _ _ => VersionStore.get_after_of_some
    · rw [versions]
      exact VersionStore.get_after_self htext
    · refine (uses i t v hu).imp_right ?_
      rintro ⟨hi, rfl, rfl⟩
      exact ⟨hi.trans hx, runs.hash, runs.text ▸ htext⟩

theorem run_adds (h : w.Bound s) {call : RunCall V P} (hversioned : call.versioned = true)
    (hid : call.runId = some id) (hne : id ≠ "") (hagree : w.Agrees s call id) :
    w.Adds s (call.run s c w).2 id := by
  have hleaves := run_cases s c call w
  generalize (call.run s c w).1 = r at hleaves
  generalize (call.run s c w).2 = w' at hleaves
  have hversions : ∀ text, (call.pin w text).versions = w.versions.after text := fun text => by
    rw [RunCall.pin, if_pos hversioned]
  cases hleaves with
  | unpinnable | unhashable => exact ⟨h, fun _ _ _ hu => .inl hu, .inl rfl, .inl rfl⟩
  | rejected =>
    rw [RunCall.pin, if_pos hversioned]
    exact h.adds_withVersion _
  | unsaved chosen pinned runs =>
    exact h.adds_execution hversioned hid hne hagree chosen pinned runs h.sound rfl (hversions _)
      rfl fun _ _ _ => RunCall.uses_ran
  | unrecorded chosen pinned runs =>
    exact h.adds_execution hversioned hid hne hagree chosen pinned runs
      (RunStore.Sound.saveRun h.sound) rfl (hversions _) rfl fun _ _ _ => RunCall.uses_recordRun h
  | finished chosen pinned runs =>
    refine h.adds_execution hversioned hid hne hagree chosen pinned runs
      (RunStore.Sound.saveRun h.sound) rfl (hversions _) rfl fun i t v hu => ?_
    exact RunCall.uses_recordRun h (hu.mono (fun _ h => h) (fun _ _ h => h) fun _ h => h)

theorem runWorkflow_adds (h : w.Bound s) {call : RunCall V P} (hversioned : call.versioned = true)
    (hid : (call.named (c.uuid .trace)).runId = some id) (hne : id ≠ "")
    (hagree : w.Agrees s call id) : w.Adds s (runWorkflow s c call w).2 id := by
  obtain ⟨trace, runId, hnamed⟩ := named_eq call (c.uuid .trace)
  refine run_adds h ?_ hid hne fun text hash hchosen => hagree text hash (chosen_named.mp hchosen)
  rw [hnamed]
  exact hversioned

/-! ### One dispatch -/

/-- What a dispatch is asked to run: a definition whose hash is that of all uses of its id, and the
    pinned hash, if there is one. -/
structure World.Allows (s : Service V P J) (w : World lib V J) (call : DispatchCall) (id : String) :
    Prop where
  agree : ∀ hash, lib.canonicalYamlHash call.yamlDefinition = .ok hash →
    ∀ t v, w.Uses s id t v → v = some hash
  pinned : ∀ hash, call.versionHash = some hash →
    lib.canonicalYamlHash call.yamlDefinition = .ok hash

variable {call : DispatchCall}

/-- The runner's call may choose another text, with the same hash. -/
theorem World.Allows.agrees (h : w.Allows s call id) (runId : String) :
    w.Agrees s (call.runCall s c runId) id := by
  intro text hash hchosen htext
  cases hchosen with
  | given => exact h.agree hash htext
  | @pinned pin version _ hpin hget =>
    obtain ⟨-, hpinned⟩ := w.versions.pinned pin version hget
    obtain rfl := Except.ok.inj (hpinned.symm.trans htext)
    exact h.agree pin (h.pinned pin hpin)

theorem World.Allows.message (h : w.Allows s call id)
    (hash_ok : lib.canonicalYamlHash call.yamlDefinition = .ok hash) :
    (call.message s id hash).versionHash = some hash := by
  rw [DispatchCall.message]
  rcases ht : truthy call.versionHash with _ | pin
  · rfl
  · have hpin := h.pinned pin (Option.filter_eq_some_iff.mp ht).1
    exact congrArg some (Except.ok.inj (hpin.symm.trans hash_ok))

/-- One more message for an id. -/
theorem World.Bound.adds_message (h : w.Bound s) (hallows : w.Allows s call id)
    (hash_ok : lib.canonicalYamlHash call.yamlDefinition = .ok hash) :
    w.Adds s { w.withVersion call.yamlDefinition with
      queue := w.queue ++ [call.message s id hash] } id := by
  have huses : ∀ i t v, World.Uses s { w.withVersion call.yamlDefinition with
      queue := w.queue ++ [call.message s id hash] } i t v → w.Uses s i t v ∨
        i = id ∧ v = some hash ∧ lib.canonicalYamlHash t = .ok hash := by
    intro i t v hu
    cases hu with
    | executed mem => exact .inl (.executed mem)
    | stored get => exact .inl (.stored get)
    | queued mem named =>
      rcases List.mem_append.mp mem with mem | mem
      · exact .inl (.queued mem named)
      · obtain rfl := List.mem_singleton.mp mem
        exact .inr ⟨(Option.some.inj named).symm, hallows.message hash_ok, hash_ok⟩
  refine ⟨?_, fun i t v hu => (huses i t v hu).imp_right And.left, .inl rfl, .inr ⟨_, rfl, rfl⟩⟩
  refine h.extend h.sound (fun m hm => ?_) (fun _ _ => VersionStore.get_after_of_some)
    (VersionStore.get_after_self hash_ok) (hallows.agree hash hash_ok) huses
  rcases List.mem_append.mp hm with hm | hm
  · exact h.named m hm
  · obtain rfl := List.mem_singleton.mp hm
    exact ⟨id, rfl⟩

/-- A dispatch that is allowed under its id. -/
theorem dispatch_adds (h : w.Bound s) (hid : idOr call.runId (c.uuid .run) = id) (hne : id ≠ "")
    (hallows : w.Allows s call id) : w.Adds s (dispatch s c call w).2 id := by
  have hleaves := dispatch_cases s c call w
  rw [hid] at hleaves
  generalize (dispatch s c call w).1 = r at hleaves
  generalize (dispatch s c call w).2 = w' at hleaves
  have hran : w.Adds s (runWorkflow s c (call.runCall s c id) w).2 id :=
    runWorkflow_adds h rfl rfl hne (hallows.agrees id)
  cases hleaves with
  | unpinned | unhashable | unlocked | locked =>
    exact ⟨h, fun _ _ _ hu => .inl hu, .inl rfl, .inl rfl⟩
  | undelivered => exact h.adds_withVersion _
  | enqueued hash_ok => exact h.adds_message hallows hash_ok
  | ran | unreleased => exact hran

/-- A dispatch of any definition under an id that is not used. -/
theorem dispatch_fresh_adds (h : w.Bound s) (hne : c.uuid .run ≠ "")
    (unused : ∀ t v, ¬ w.Uses s (c.uuid .run) t v) (asyncDispatch : Bool) :
    w.Adds s (dispatch s c { yamlDefinition := text, forceAsync := asyncDispatch } w).2
      (c.uuid .run) :=
  dispatch_adds h rfl hne
    ⟨fun _ _ t v hu => absurd hu (unused t v), fun _ hpin => absurd hpin (by simp)⟩

/-- The dispatch of a rerun. -/
theorem dispatch_rerun_adds (h : w.Bound s) {record : RunRecord P}
    (hget : w.runs.getRun s.column id = some record) (hne : id ≠ "") (asyncDispatch : Bool) :
    w.Adds s (dispatch s c
      { yamlDefinition := record.yamlDefinition, runId := some id, forceAsync := asyncDispatch,
        versionHash := record.versionHash } w).2 id := by
  have hid : idOr (some id) (c.uuid .run) = id := by
    rw [idOr, truthy, Option.filter_some_pos (by simpa using hne)]
    rfl
  obtain ⟨hash, hhash, htext, -⟩ := h.pins id _ _ (.stored hget)
  refine dispatch_adds h hid hne ⟨fun hash' htext' t v hu => ?_, fun hash' hpin => ?_⟩
  · obtain rfl := Except.ok.inj (htext.symm.trans htext')
    exact (h.agree id _ _ _ _ hu (.stored hget)).trans hhash
  · obtain rfl := Option.some.inj (hhash.symm.trans hpin)
    exact htext

/-! ### The beat and the worker -/

/-- A run of the beat under an id that is not used. -/
theorem due_adds (h : w.Bound s) (hne : c.uuid .trace ≠ "")
    (unused : ∀ t v, ¬ w.Uses s (c.uuid .trace) t v) :
    w.Adds s (runWorkflow s c (dueCall s text) w).2 (c.uuid .trace) :=
  runWorkflow_adds h rfl rfl hne fun _ _ _ _ t v hu => absurd hu (unused t v)

/-- The call for a message agrees with the uses of its id. -/
theorem World.Bound.agrees_message (h : w.Bound s) {m : Message} (hm : m ∈ w.queue)
    (hid : m.runId = some id) : w.Agrees s (m.runCall s) id := by
  have huse : w.Uses s id m.yamlDefinition m.versionHash := .queued hm hid
  obtain ⟨pin, hpin, -⟩ := h.pins _ _ _ huse
  intro text hash hchosen htext t v hu
  rw [h.agree id _ _ _ _ hu huse]
  cases hchosen with
  | given hnone => exact absurd (hnone.symm.trans hpin) (by simp)
  | @pinned pin version _ hpin hget =>
    obtain ⟨-, hpinned⟩ := w.versions.pinned pin version hget
    exact hpin.trans (congrArg some (Except.ok.inj (hpinned.symm.trans htext)))

/-- The worker's run of a message. -/
theorem deliver_adds (h : w.Bound s) {m : Message} (hm : m ∈ w.queue) (hid : m.runId = some id)
    (hne : id ≠ "") : w.Adds s (runWorkflowTask s c m w).2 id := by
  have hrun : ∀ w' : World lib V J, w'.Bound s → m ∈ w'.queue →
      w'.Adds s (runWorkflow s c (m.runCall s) w').2 id := fun w' hw' hm' => by
    refine runWorkflow_adds hw' rfl ?_ hne (hw'.agrees_message hm' hid)
    rw [Message.runCall, hid]
    rfl
  -- the version that the worker may have put changes no uses
  obtain ⟨versions, hensure, hbound⟩ := ensureVersion_keeps (c := c) (m := m)
    (I := fun w' => ∃ versions, w' = { w with versions := versions } ∧ w'.Bound s)
    (by rintro _ ⟨versions, rfl, hw'⟩; exact ⟨_, rfl, hw'.withVersion m.yamlDefinition⟩) w
    ⟨w.versions, rfl, h⟩
  have huses : ∀ i t v, World.Uses s { w with versions := versions } i t v → w.Uses s i t v :=
    fun _ _ _ hu => hu.mono (fun _ h => h) (fun _ _ h => h) fun _ h => h
  rw [runWorkflowTask]
  rcases hens : ensureVersion c m w with ⟨e | ⟨⟩, w'⟩
  · rw [Prog.bind_of_error hens]
    rw [hens] at hensure hbound
    obtain rfl : w' = _ := hensure
    exact ⟨hbound, fun i t v hu => .inl (huses i t v hu), .inl rfl, .inl rfl⟩
  · rw [Prog.bind_of_ok hens]
    rw [hens] at hensure hbound
    obtain rfl : w' = _ := hensure
    have hadds := hrun _ hbound hm
    refine ⟨hadds.bound, fun i t v hu => (hadds.uses i t v hu).imp_left (huses i t v), ?_⟩
    exact ⟨hadds.oneMore.executed, hadds.oneMore.queue⟩

/-! ### One request -/

/-- A change that touches neither runs nor versions. -/
theorem World.Bound.adds_same (h : w.Bound s) (id : String) (runs : w'.runs = w.runs)
    (versions : w'.versions = w.versions) (queue : w'.queue = w.queue)
    (executed : w'.executed = w.executed) : w.Adds s w' id := by
  have huses : ∀ i t v, w'.Uses s i t v → w.Uses s i t v := fun _ _ _ hu =>
    hu.mono (by simp [executed]) (by simp [runs]) (by simp [queue])
  refine ⟨⟨runs ▸ h.sound, queue ▸ h.named, fun i t v hu => ?_, fun i t v t' v' hu hu' => ?_⟩,
    fun i t v hu => .inl (huses i t v hu), .inl executed, .inl queue⟩
  · exact (h.pins i t v (huses i t v hu)).mono fun _ _ hv => versions ▸ hv
  · exact h.agree i t v t' v' (huses i t v hu) (huses i t' v' hu')

/-- After `k` dispatches from `w`: the invariant, and no ids but the used ones and those drawn. -/
structure World.Traces (s : Service V P J) (cs : ℕ → Circumstances V P) (w : World lib V J) (k : ℕ)
    (w' : World lib V J) : Prop where
  bound : w'.Bound s
  uses : ∀ i t v, w'.Uses s i t v → (∃ t v, w.Uses s i t v) ∨ ∃ j < k, ∃ d, i = (cs j).uuid d

/-- The ids that are drawn for a request are used by nothing yet. -/
structure World.Unused (s : Service V P J) (cs : ℕ → Circumstances V P) (w : World lib V J) :
    Prop where
  used : ∀ i t v, w.Uses s i t v → i ≠ ""
  nonempty : ∀ k d, (cs k).uuid d ≠ ""
  unused : ∀ k d t v, ¬ w.Uses s ((cs k).uuid d) t v
  rounds : ∀ k k' d d', (cs k).uuid d = (cs k').uuid d' → k = k'

variable {cs : ℕ → Circumstances V P} {k : ℕ} {w₁ : World lib V J}

theorem World.Traces.adds (h : w.Traces s cs k w') (ha : w'.Adds s w₁ id)
    (hid : (∃ t v, w'.Uses s id t v) ∨ ∃ d, id = (cs k).uuid d) :
    w.Traces s cs (k + 1) w₁ where
  bound := ha.bound
  uses i t v hu := by
    have hold : ∀ i t v, w'.Uses s i t v →
        (∃ t v, w.Uses s i t v) ∨ ∃ j < k + 1, ∃ d, i = (cs j).uuid d := fun i t v hu =>
      (h.uses i t v hu).imp_right fun ⟨j, hj, d, hd⟩ => ⟨j, Nat.lt_succ_of_lt hj, d, hd⟩
    rcases ha.uses i t v hu with hu | rfl
    · exact hold i t v hu
    · rcases hid with ⟨t, v, hu⟩ | ⟨d, hd⟩
      · exact hold _ t v hu
      · exact .inr ⟨k, Nat.lt_succ_self k, d, hd⟩

/-- A change that adds no use. -/
theorem World.Traces.same (h : w.Traces s cs k w') (runs : w₁.runs = w'.runs)
    (versions : w₁.versions = w'.versions) (queue : w₁.queue = w'.queue)
    (executed : w₁.executed = w'.executed) : w.Traces s cs k w₁ where
  bound := (h.bound.adds_same "" runs versions queue executed).bound
  uses i t v hu := h.uses i t v
    (hu.mono (by simp [executed]) (by simp [runs]) (by simp [queue]))

/-- The ids of later rounds stay unused. -/
theorem World.Traces.unused (h : w.Traces s cs k w') (hw : w.Unused s cs) (d : Draw) (t : String)
    (v : Option String) : ¬ w'.Uses s ((cs k).uuid d) t v := by
  intro hu
  rcases h.uses _ t v hu with ⟨t, v, hu⟩ | ⟨j, hj, d', hd⟩
  · exact hw.unused k d t v hu
  · exact absurd (hw.rounds k j d d' hd) (Nat.ne_of_gt hj)

theorem World.Traces.ne_empty (h : w.Traces s cs k w') (hw : w.Unused s cs) {i t : String}
    {v : Option String} (hu : w'.Uses s i t v) : i ≠ "" := by
  rcases h.uses i t v hu with ⟨t, v, hu⟩ | ⟨j, -, d, rfl⟩
  · exact hw.used i t v hu
  · exact hw.nonempty j d

/-- The invariant survives a request whose ids are unused. -/
theorem traces_survive (hw : w.Unused s cs) (request : ServiceRequest) :
    Survives s cs request (w.Traces s cs) where
  next h := ⟨h.bound, fun i t v hu => (h.uses i t v hu).imp_right
    fun ⟨j, hj, d, hd⟩ => ⟨j, Nat.lt_succ_of_lt hj, d, hd⟩⟩
  claimed _ h := h.same rfl rfl rfl rfl
  store _ h := h.same rfl rfl rfl rfl
  webhooks _ h := h.same rfl rfl rfl rfl
  fresh {k _} _ asyncDispatch h := h.adds (dispatch_fresh_adds h.bound (hw.nonempty k .run)
    (h.unused hw .run) asyncDispatch) (.inr ⟨.run, rfl⟩)
  rerun asyncDispatch hget h := h.adds (dispatch_rerun_adds h.bound hget
    (h.ne_empty hw (.stored hget)) asyncDispatch) (.inl ⟨_, _, .stored hget⟩)
  due {k _} _ h := h.adds (due_adds h.bound (hw.nonempty k .trace) (h.unused hw .trace))
    (.inr ⟨.trace, rfl⟩)
  delivered hm h := by
    obtain ⟨id, hid⟩ := h.bound.named _ hm
    have huse := World.Uses.queued (s := s) hm hid
    exact h.adds (deliver_adds h.bound hm hid (h.ne_empty hw huse)) (.inl ⟨_, _, huse⟩)

/-! ### Versions -/

theorem runWorkflow_versions (call : RunCall V P) (w : World lib V J) :
    w.VersionsKept (runWorkflow s c call w).2 := by
  have hpin : ∀ (call : RunCall V P) text, w.VersionsKept (call.pin w text) := by
    intro call text hash v hv
    rw [RunCall.pin]
    dsimp only
    split_ifs
    · exact VersionStore.get_after_of_some hv
    · exact hv
  have hleaves := runWorkflow_cases s c call w
  generalize (runWorkflow s c call w).1 = r at hleaves
  generalize (runWorkflow s c call w).2 = w' at hleaves
  cases hleaves with
  | unpinnable | unhashable => exact fun _ _ hv => hv
  | rejected | unsaved | unrecorded | finished => exact hpin _ _

theorem dispatch_versions (call : DispatchCall) (w : World lib V J) :
    w.VersionsKept (dispatch s c call w).2 := by
  have hleaves := dispatch_cases s c call w
  generalize (dispatch s c call w).1 = r at hleaves
  generalize (dispatch s c call w).2 = w' at hleaves
  cases hleaves with
  | unpinned | unhashable | unlocked | locked => exact fun _ _ hv => hv
  | undelivered | enqueued => exact fun _ _ => VersionStore.get_after_of_some
  | ran | unreleased => exact runWorkflow_versions _ w

theorem runWorkflowTask_versions (m : Message) (w : World lib V J) :
    w.VersionsKept (runWorkflowTask s c m w).2 := by
  have hensure : Prog.Keeps w.VersionsKept (ensureVersion c m) := ensureVersion_keeps
    fun w' hw' => fun hash v hv => VersionStore.get_after_of_some (hw' hash v hv)
  refine hensure.bind (fun _ w' hw' => ?_) w fun _ _ hv => hv
  exact fun hash v hv => runWorkflow_versions _ w' hash v (hw' hash v hv)

/-- A version that is stored survives every request. -/
theorem versions_survive (s : Service V P J) (cs : ℕ → Circumstances V P) (request : ServiceRequest)
    (w : World lib V J) : Survives s cs request fun _ (w' : World lib V J) => w.VersionsKept w' where
  next := id
  claimed _ h := h
  store _ h := h
  webhooks _ h := h
  fresh _ _ h := fun hash v hv => dispatch_versions _ _ hash v (h hash v hv)
  rerun _ _ h := fun hash v hv => dispatch_versions _ _ hash v (h hash v hv)
  due _ h := fun hash v hv => runWorkflow_versions _ _ hash v (h hash v hv)
  delivered _ h := fun hash v hv => runWorkflowTask_versions _ _ hash v (h hash v hv)

end Steps

/-! ### Exceptions -/

/-- What else a run may raise: that tasks are not registered, or an answer that is not a 422. -/
inductive Blames (lib : YamlLibrary D P) (c : Circumstances V P) (e : Exn) : Prop
  | foreign (h : Foreign lib c e)
  | registry {names : String} (h : e = .value s!"Tasks not found in registry: {names}")
  | answer {status : ℕ} {detail code : String} (h : e = .http status detail code)
      (other : status ≠ 422)

section Exceptions
variable {s : Service V P J} {c : Circumstances V P} {w : World lib V J} {e : Exn} {hash : String}

theorem Blames.not_422 (h : Blames lib c e) (detail code : String) :
    e ≠ .http 422 detail code := by
  rintro rfl
  rcases h with hf | he | ⟨he, other⟩
  · exact absurd hf.plain (by simp [Exn.isHttp])
  · exact absurd he (by simp)
  · exact other (Exn.http.inj he).1.symm

omit [PyValue V] in
theorem registry_ne_notFound (names hash : String) :
    s!"Tasks not found in registry: {names}" ≠ notFound hash := by
  have htasks : (s!"Tasks not found in registry: {names}").toList.head? = some 'T' := by
    rw [String.toList_append]
    rfl
  have hversion : (notFound hash).toList.head? = some 'W' := by
    unfold notFound
    rw [String.toList_append, String.toList_append]
    rfl
  intro h
  rw [h, hversion] at htasks
  exact absurd htasks (by decide)

/-- What says that a version was not found is a foreign exception. -/
theorem Blames.notFound (h : Blames lib c e) (plain : e.isHttp = false)
    (htext : e.text = notFound hash) : Foreign lib c e := by
  rcases h with hf | he | ⟨rfl, -⟩
  · exact hf
  · rw [he] at htext
    exact absurd htext (registry_ne_notFound _ _)
  · exact absurd plain (by simp [Exn.isHttp])

/-- A call that has a version store, and whose version is there. -/
theorem RunCall.Raised.blames {call : RunCall V P} (h : call.Raised c w e)
    (hversioned : call.versioned = true)
    (found : ∀ hash, call.versionHash = some hash → ∃ v, w.versions.get hash = some v) :
    Blames lib c e := by
  rcases h with hf | ⟨hfree, -⟩ | ⟨hpin, hmissing, -⟩ | hregistry
  · exact .foreign hf
  · exact absurd (hfree.symm.trans hversioned) (by simp)
  · obtain ⟨v, hv⟩ := found _ hpin
    exact absurd (hmissing.symm.trans hv) (by simp)
  · exact .registry hregistry

theorem dispatch_blames {call : DispatchCall}
    (found : ∀ hash, call.versionHash = some hash → ∃ v, w.versions.get hash = some v)
    (h : (dispatch s c call w).1 = .error e) : Blames lib c e := by
  rcases dispatch_raised h with he | he | hrun
  · exact .answer he (by simp)
  · exact .answer he (by simp)
  · exact hrun.blames rfl found

theorem ensureVersion_raises (m : Message) :
    Prog.Raises (Foreign lib c) (ensureVersion c m : Program lib V J Unit) := by
  have hattempt : ∀ op, Prog.Raises (Foreign lib c) (attempt c op : Program lib V J Unit) :=
    fun op => attempt_raises fun e he => .operation he
  unfold ensureVersion
  cases m.versionHash with
  | none => exact .pure ()
  | some versionHash =>
    refine (hattempt _).bind fun _ => Prog.Raises.bind (.view _) fun version => ?_
    cases version with
    | some version => exact .pure ()
    | none =>
      refine Prog.Raises.bind (fun w e w' he => ?_) fun _ => .pure ()
      rcases putVersion_cases c .workerPut w m.yamlDefinition with ⟨e', hput, hno | ⟨-, hf⟩⟩ |
        ⟨version, hput, -⟩ <;> rw [hput] at he
      · exact .hash (Except.error.inj (Prod.mk.inj he).1 ▸ hno)
      · exact .operation (Except.error.inj (Prod.mk.inj he).1 ▸ hf)
      · exact absurd (Prod.mk.inj he).1 (by simp)

/-- The worker finds the version of every message. -/
theorem deliver_blames (h : w.Bound s) {m : Message} (hm : m ∈ w.queue)
    (he : (runWorkflowTask s c m w).1 = .error e) : Blames lib c e := by
  obtain ⟨id, hid⟩ := h.named m hm
  obtain ⟨pin, hpin, -, v, hv⟩ := h.pins _ _ _ (.queued hm hid)
  have hkept : w.VersionsKept (ensureVersion c m w).2 := ensureVersion_keeps (I := w.VersionsKept)
    (fun w' hw' hash v hv => VersionStore.get_after_of_some (hw' hash v hv)) w fun _ _ hv => hv
  rw [runWorkflowTask] at he
  rcases hens : ensureVersion c m w with ⟨e' | ⟨⟩, w'⟩
  · rw [Prog.bind_of_error hens] at he
    exact .foreign (Except.error.inj he ▸ ensureVersion_raises m w e' w' hens)
  · rw [Prog.bind_of_ok hens] at he
    rw [hens] at hkept
    refine (runWorkflow_raised he).blames rfl fun pin' hpin' => ?_
    obtain rfl := Option.some.inj (hpin.symm.trans hpin')
    exact ⟨v, hkept _ v hv⟩

theorem checkAccess_blames :
    Prog.Raises (Blames lib c) (checkAccess c : Program lib V J Unit) := by
  refine checkAccess_raises fun denial => ?_
  cases denial <;> exact .answer rfl (by simp)

/-- A handler makes a 422 only of another exception, whose text it keeps. -/
theorem orPersistence_422 {α : Type} {m : Program lib V J α} {detail code : String}
    (h : (orPersistence m w).1 = .error (.http 422 detail code)) :
    (m w).1 = .error (.http 422 detail code) := by
  rw [orPersistence_run] at h
  rcases hm : (m w).1 with e | a
  · rw [hm] at h
    cases e with
    | persistence => exact absurd (Except.error.inj h) (by simp)
    | _ => exact h
  · rw [hm] at h
    exact absurd h (by simp [Except.mapError])

theorem orInvalid_422 {α : Type} {m : Program lib V J α} {detail code : String}
    (h : (orInvalid m w).1 = .error (.http 422 detail code)) :
    ∃ e, (m w).1 = .error e ∧ (e = .http 422 detail code ∨ e.isHttp = false ∧ e.text = detail) := by
  rw [orInvalid_run] at h
  rcases hm : (m w).1 with e | a
  · rw [hm] at h
    have he := Except.error.inj h
    refine ⟨e, rfl, ?_⟩
    cases e with
    | validation | value => exact .inr ⟨rfl, (Exn.http.inj he).2.1⟩
    | _ => exact .inl he
  · rw [hm] at h
    exact absurd h (by simp [Except.mapError])

/-- A rerun is answered that a version was not found only if a foreign exception says so. -/
theorem rerun_notFound (h : w.Bound s) {runId code : String} {asyncDispatch : Bool}
    (he : (rerunWorkflow s c runId asyncDispatch w).1 = .error (.http 422 (notFound hash) code)) :
    ∃ e, Foreign lib c e ∧ e.text = notFound hash := by
  rcases Prog.bind_raises (orPersistence_422 he) with hraised | ⟨⟨⟩, w₁, haccess, hrest⟩
  · exact absurd rfl ((checkAccess_blames w _ _ (by rw [← hraised])).not_422 _ code)
  obtain rfl : w₁ = w := by
    have hkept := checkAccess_keeps (c := c) (I := fun w' => w' = w) w rfl
    rwa [haccess] at hkept
  rcases hget : c.fails .getRun with _ | e
  · rw [Prog.bind_of_ok (attempt_of_none hget), Prog.view_bind_run] at hrest
    rcases hrecord : w₁.runs.getRun s.column runId with _ | record
    · rw [hrecord] at hrest
      exact absurd hrest (by simp)
    · rw [hrecord] at hrest
      dsimp only at hrest
      split_ifs at hrest
      · exact absurd hrest (by simp)
      obtain ⟨pin, hpin, -, v, hv⟩ := h.pins _ _ _ (.stored hrecord)
      obtain ⟨e, hraised, hcase⟩ := orInvalid_422 hrest
      have hblames : Blames lib c e := by
        refine dispatch_blames (fun pin' hpin' => ?_) hraised
        obtain rfl := Option.some.inj (hpin.symm.trans hpin')
        exact ⟨v, hv⟩
      rcases hcase with hhttp | ⟨hplain, htext⟩
      · exact absurd hhttp (hblames.not_422 _ _)
      · exact ⟨e, hblames.notFound hplain htext, htext⟩
  · rw [Prog.bind_of_error (attempt_of_some hget)] at hrest
    have hblames : Blames lib c e := .foreign (.operation hget)
    exact absurd (Except.error.inj hrest) (hblames.not_422 _ code)

end Exceptions

/-! ### Every sequence of requests -/

/-- Nothing has run yet. -/
def World.vacant (b b' : Backend) (w : World lib V J) : World lib V J :=
  { w with runs := .empty b, versions := { backend := b' }, queue := [], executed := [] }

/-- No id is drawn twice, and none is empty. -/
structure Drawn (arrivals : List (Arrival V P)) : Prop where
  nonempty : ∀ x ∈ arrivals, ∀ k d, (x.circumstances k).uuid d ≠ ""
  rounds : ∀ x ∈ arrivals, ∀ k k' d d',
    (x.circumstances k).uuid d = (x.circumstances k').uuid d' → k = k'
  apart : arrivals.Pairwise fun x y => ∀ k k' d d',
    (x.circumstances k).uuid d ≠ (y.circumstances k').uuid d'

/-- The run that a rerun or a delivery is for. -/
def ServiceRequest.reruns (w : World lib V J) : ServiceRequest → Option String
  | .rerun runId _ => some runId
  | .deliver i => (w.queue[i]?).bind Message.runId
  | _ => none

namespace Exchange

/-- A rerun is answered that its version was not found, or the worker raises that. -/
def NotFound (x : Exchange lib V J) (hash : String) : Prop :=
  match x.request with
  | .rerun _ _ => ∃ code, x.answer = .error (.http 422 (notFound hash) code)
  | .deliver _ => x.answer = .error (.value (notFound hash))
  | _ => False

end Exchange

section Sequences
variable {s : Service V P J} {w : World lib V J} {b b' : Backend} {arrivals : List (Arrival V P)}

theorem Drawn.of_append {pre post : List (Arrival V P)} (h : Drawn (pre ++ post)) : Drawn pre where
  nonempty x hx := h.nonempty x (List.mem_append_left _ hx)
  rounds x hx := h.rounds x (List.mem_append_left _ hx)
  apart := (List.pairwise_append.mp h.apart).1

theorem not_uses_vacant (i t : String) (v : Option String) :
    ¬ (w.vacant b b').Uses s i t v := by
  rintro (mem | get | mem)
  · exact absurd mem (by simp [World.vacant])
  · exact absurd ((RunStore.getRun_empty b i).symm.trans get) (by simp)
  · exact absurd mem (by simp [World.vacant])

/-- Every id that is used was drawn. -/
def Known (s : Service V P J) (past : List (Arrival V P)) (w : World lib V J) : Prop :=
  ∀ i t v, w.Uses s i t v → ∃ x ∈ past, ∃ k d, i = (x.circumstances k).uuid d

theorem Known.unused {past : List (Arrival V P)} {x : Arrival V P} (h : Known s past w)
    (hdrawn : Drawn (past ++ [x])) : w.Unused s x.circumstances where
  used i t v hu := by
    obtain ⟨y, hy, k, d, rfl⟩ := h i t v hu
    exact hdrawn.nonempty y (List.mem_append_left _ hy) k d
  nonempty := hdrawn.nonempty x (List.mem_append_right _ (List.mem_singleton_self x))
  unused k d t v hu := by
    obtain ⟨y, hy, k', d', he⟩ := h _ t v hu
    exact (List.pairwise_append.mp hdrawn.apart).2.2 y hy x (List.mem_singleton_self x) k' k d' d
      he.symm
  rounds := hdrawn.rounds x (List.mem_append_right _ (List.mem_singleton_self x))

theorem bound_after (s : Service V P J) (w : World lib V J) (b b' : Backend)
    (hdrawn : Drawn arrivals) : ((w.vacant b b').after s arrivals).Bound s ∧
    Known s arrivals ((w.vacant b b').after s arrivals) := by
  induction arrivals using List.reverseRecOn with
  | nil =>
    refine ⟨⟨RunStore.sound_empty b, fun m hm => absurd hm (by simp [World.after, World.vacant]),
      ?_, ?_⟩, ?_⟩
    · exact fun i t v hu => absurd hu (not_uses_vacant i t v)
    · exact fun i t v _ _ hu => absurd hu (not_uses_vacant i t v)
    · exact fun i t v hu => absurd hu (not_uses_vacant i t v)
  | append_singleton past x ih =>
    obtain ⟨hbound, hknown⟩ := ih hdrawn.of_append
    rw [World.after_concat]
    obtain ⟨k, hk⟩ := (traces_survive (hknown.unused hdrawn) x.request).serve _
      ⟨hbound, fun i t v hu => .inl ⟨t, v, hu⟩⟩
    refine ⟨hk.bound, fun i t v hu => ?_⟩
    rcases hk.uses i t v hu with ⟨t, v, hold⟩ | ⟨j, -, d, hd⟩
    · obtain ⟨y, hy, hdraw⟩ := hknown i t v hold
      exact ⟨y, List.mem_append_left _ hy, hdraw⟩
    · exact ⟨x, List.mem_append_right _ (List.mem_singleton_self x), j, d, hd⟩

theorem versions_after (s : Service V P J) (w : World lib V J) (arrivals : List (Arrival V P)) :
    w.VersionsKept (w.after s arrivals) := by
  induction arrivals using List.reverseRecOn with
  | nil => exact fun _ _ hv => hv
  | append_singleton past x ih =>
    rw [World.after_concat]
    obtain ⟨-, hk⟩ := (versions_survive s x.circumstances x.request (w.after s past)).serve _
      fun _ _ hv => hv
    exact fun hash v hv => hk hash v (ih hash v hv)

theorem notFound_foreign (h : w.Bound s) {x : Arrival V P} {hash : String}
    (hx : (x.exchange s w).NotFound hash) :
    ∃ e, Foreign lib (x.circumstances 0) e ∧ e.text = notFound hash := by
  rcases x with ⟨request, cs⟩
  cases request with
  | rerun runId asyncDispatch =>
    obtain ⟨code, hcode⟩ := hx
    rcases Prog.bind_raises hcode with hraised | ⟨_, _, -, hno⟩
    · exact rerun_notFound h hraised
    · exact absurd hno (by simp)
  | deliver i =>
    have he : (serve s cs (.deliver i) w).1 = .error (.value (notFound hash)) := hx
    rw [serve, Prog.view_bind_run] at he
    rcases hm : w.queue[i]? with _ | m
    · rw [hm] at he
      exact absurd he (by simp)
    · rw [hm] at he
      rcases Prog.bind_raises he with hraised | ⟨_, _, -, hno⟩
      · have hblames := deliver_blames h (List.mem_of_getElem? hm) hraised
        exact ⟨_, hblames.notFound rfl rfl, rfl⟩
      · exact absurd hno (by simp)
  | _ => exact hx.elim

theorem oneMore_rerun (h : w.Bound s) {x : Arrival V P} (hunused : w.Unused s x.circumstances)
    {id : String} (hid : x.request.reruns w = some id) : w.OneMore (x.exchange s w).after id := by
  rcases x with ⟨request, cs⟩
  cases request with
  | rerun runId asyncDispatch =>
    obtain rfl := Option.some.inj hid
    have hleads : Prog.Leads (fun w' => w' = w) (fun w' => w.OneMore w' runId)
        (rerunWorkflow s (cs 0) runId asyncDispatch) := by
      refine rerunWorkflow_leads ?_ ?_
      · rintro _ rfl
        exact ⟨.inl rfl, .inl rfl⟩
      · rintro _ record hget rfl
        have hne := hunused.used _ _ _ (.stored hget)
        exact (dispatch_rerun_adds h hget hne asyncDispatch).oneMore
    exact Survives.answer_leads hleads _ w rfl
  | deliver i =>
    rw [Arrival.exchange]
    dsimp only
    rw [serve, Prog.view_bind_run]
    rcases hm : w.queue[i]? with _ | m
    · exact ⟨.inl rfl, .inl rfl⟩
    · have hmem := List.mem_of_getElem? hm
      rw [ServiceRequest.reruns, hm] at hid
      have hne := hunused.used _ _ _ (.queued hmem hid)
      have hleads : Prog.Leads (fun w' => w' = w) (fun w' => w.OneMore w' id)
          (runWorkflowTask s (cs 0) m) := by
        rintro _ rfl
        exact (deliver_adds h hmem hid hne).oneMore
      exact Survives.answer_leads hleads _ w rfl
  | _ => exact absurd hid (by simp [ServiceRequest.reruns])

/-- CORRECT (reruns): from empty stores, whatever requests are served and whatever fails, a stored
    record's version hash is that of its definition and has a version with that hash, no version ever
    changes, only a foreign exception says that a rerun's version was not found, a rerun and the
    worker's run of a message execute and enqueue at most once, under the run's id, and all executions
    of a run id have one hash. -/
theorem reruns_pinned (s : Service V P J) (w : World lib V J) (b b' : Backend)
    (arrivals : List (Arrival V P)) (hdrawn : Drawn arrivals) :
    (∀ id record, ((w.vacant b b').after s arrivals).runs.getRun s.column id = some record →
      ∃ hash v, record.versionHash = some hash ∧
        lib.canonicalYamlHash record.yamlDefinition = .ok hash ∧
        ((w.vacant b b').after s arrivals).versions.get hash = some v ∧
        lib.canonicalYamlHash v.yamlDefinition = .ok hash) ∧
    (∀ pre post, arrivals = pre ++ post → ∀ hash v,
      ((w.vacant b b').after s pre).versions.get hash = some v →
      ((w.vacant b b').after s arrivals).versions.get hash = some v) ∧
    (∀ x ∈ transcript s (w.vacant b b') arrivals, ∀ hash, x.NotFound hash →
      ∃ e, Foreign lib (x.circumstances 0) e ∧ e.text = notFound hash) ∧
    (∀ x ∈ transcript s (w.vacant b b') arrivals, ∀ id, x.request.reruns x.before = some id →
      x.before.OneMore x.after id) ∧
    ∀ x ∈ ((w.vacant b b').after s arrivals).executed,
      ∀ y ∈ ((w.vacant b b').after s arrivals).executed, x.id = y.id →
        ∃ hash, lib.canonicalYamlHash x.yamlDefinition = .ok hash ∧
          lib.canonicalYamlHash y.yamlDefinition = .ok hash := by
  obtain ⟨hbound, -⟩ := bound_after s w b b' hdrawn
  refine ⟨fun id record hget => ?_, ?_, fun x hx hash hnot => ?_, fun x hx id hid => ?_, ?_⟩
  · obtain ⟨hash, hhash, htext, v, hv⟩ := hbound.pins id _ _ (.stored hget)
    exact ⟨hash, v, hhash, htext, hv, (VersionStore.pinned _ hash v hv).2⟩
  · rintro pre post rfl hash v hv
    rw [World.after_append]
    exact versions_after s _ post hash v hv
  · obtain ⟨pre, a, post, rfl, rfl⟩ := exists_of_mem_transcript hx
    exact notFound_foreign (bound_after s w b b' hdrawn.of_append).1 hnot
  · obtain ⟨pre, a, post, rfl, rfl⟩ := exists_of_mem_transcript hx
    obtain ⟨hpre, hknown⟩ := bound_after s w b b' hdrawn.of_append
    have hdrawn' : Drawn (pre ++ [a]) := by
      rw [List.append_cons] at hdrawn
      exact hdrawn.of_append
    exact oneMore_rerun hpre (hknown.unused hdrawn') hid
  · intro x hx y hy hxy
    have hux : World.Uses s _ x.id _ _ := .executed hx
    have huy : World.Uses s _ y.id _ _ := .executed hy
    rw [← hxy] at huy
    obtain ⟨hash, hhash, htext, -⟩ := hbound.pins _ _ _ hux
    obtain ⟨hash', hhash', htext', -⟩ := hbound.pins _ _ _ huy
    have hagree := hbound.agree _ _ _ _ _ hux huy
    rw [hhash, hhash'] at hagree
    obtain rfl := Option.some.inj hagree
    exact ⟨hash, htext, htext'⟩

/-- Where hashes do not collide, all executions under one hash run one workflow. -/
theorem config_eq_of_hash {x y : Execution lib V} {hash : String}
    (collision : ∀ d d' hash, lib.digest d = .ok hash → lib.digest d' = .ok hash → d = d')
    (hx : lib.canonicalYamlHash x.yamlDefinition = .ok hash)
    (hy : lib.canonicalYamlHash y.yamlDefinition = .ok hash) :
    x.executor.config = y.executor.config := by
  obtain ⟨d, hparse, hd⟩ := YamlLibrary.parse_of_hash hx
  obtain ⟨d', hparse', hd'⟩ := YamlLibrary.parse_of_hash hy
  obtain rfl := collision d d' hash hd hd'
  have hload := (YamlLibrary.parse_ok hparse).2.symm.trans x.loaded
  have hload' := (YamlLibrary.parse_ok hparse').2.symm.trans y.loaded
  exact Except.ok.inj (hload.symm.trans hload')

end Sequences

/-! ### An example -/

def Draw.letter : Draw → String
  | .run => "r"
  | .trigger => "t"
  | .trace => "c"
  | .save => "s"

/-- Nothing fails, and every id tells the request, the draw and the round. -/
noncomputable def lettered (tag : String) (k : ℕ) : Circumstances String Unit :=
  { calm tag with uuid := fun d => tag ++ d.letter ++ String.ofList (List.replicate k 'i') }

theorem lettered_uuid (tag : String) (k : ℕ) (d : Draw) : ((lettered tag k).uuid d).toList =
    tag.toList ++ d.letter.toList ++ List.replicate k 'i' := by
  rw [lettered, String.toList_append, String.toList_append, String.toList_ofList]

/-- A run and its rerun. -/
noncomputable def ranTwice : List (Arrival String Unit) :=
  [⟨.run Document.idle.text false none, lettered "1"⟩, ⟨.rerun "1r" false, lettered "2"⟩]

theorem ranTwice_drawn : Drawn ranTwice where
  nonempty x hx k d := by
    have hlength : (x.circumstances k |>.uuid d).toList ≠ [] := by
      rcases List.mem_pair.mp hx with rfl | rfl <;> rw [lettered_uuid] <;> simp
    exact fun he => hlength (by rw [he]; rfl)
  rounds x hx k k' d d' he := by
    have hletter : ∀ d : Draw, d.letter.toList.length = 1 := by rintro (_ | _) <;> rfl
    have hlength := congrArg (fun t : String => t.toList.length) he
    rcases List.mem_pair.mp hx with rfl | rfl
    all_goals
      simp only [lettered_uuid, List.length_append, hletter, List.length_replicate] at hlength
      omega
  apart := by
    refine List.pairwise_pair.mpr fun k k' d d' he => ?_
    have hhead := congrArg (fun t : String => t.toList.head?) he
    simp only [lettered_uuid] at hhead
    exact absurd hhead (by simp)

/-- The definition was executed twice under one id, both times with one hash. -/
theorem ranTwice_pinned :
    ((blank.vacant .memory .database).after quiet ranTwice).executed.map (fun x => x.id) =
      ["1r", "1r"] ∧
    ∀ x ∈ ((blank.vacant .memory .database).after quiet ranTwice).executed,
      ∀ y ∈ ((blank.vacant .memory .database).after quiet ranTwice).executed, x.id = y.id →
        ∃ hash, documents.canonicalYamlHash x.yamlDefinition = .ok hash ∧
          documents.canonicalYamlHash y.yamlDefinition = .ok hash :=
  ⟨rfl, (reruns_pinned quiet blank .memory .database ranTwice ranTwice_drawn).2.2.2.2⟩

end WorkflowEngine
