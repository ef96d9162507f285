import WorkflowEngine.Service.Runner

/-! Definitions that do not run.

    A rejected definition has been put into the version store before it is loaded, so it leaves a
    version unless its hash has one already. It leaves nothing else. -/

namespace WorkflowEngine
open Schemes

variable {D P V J : Type} {lib : YamlLibrary D P} [PyValue V]

/-- EXACT (rejection): a rejected definition is not executed, and leaves the runs and the events as
    they were; it leaves the versions as they were if and only if no version store is given, it has no
    hash, or its hash has a version. -/
theorem rejected_leaves_nothing_iff (s : Service V P J) (c : Circumstances V P) (call : RunCall V P)
    (w : World lib V J) (text : String) (e : Exn) (chosen : Chosen w call text)
    (rejects : call.Rejects lib s text e) (hget : c.fails .getVersion = none)
    (hput : c.fails .putVersion = none) :
    (∃ e', (runWorkflow s c call w).1 = .error e') ∧
    ((runWorkflow s c call w).2 = w ↔ (call.versioned = true →
      ∀ hash, lib.canonicalYamlHash text = .ok hash → ∃ v, w.versions.get hash = some v)) ∧
    ∃ versions, (runWorkflow s c call w).2 = { w with versions := versions } := by
  obtain ⟨trace, runId, hnamed⟩ := named_eq call (c.uuid .trace)
  have hchosen : Chosen w (call.named (c.uuid .trace)) text := chosen_named.mpr chosen
  have hrejects : (call.named (c.uuid .trace)).Rejects lib s text e := rejects_named.mpr rejects
  have hleaves := runWorkflow_cases s c call w
  generalize (runWorkflow s c call w).1 = r at hleaves
  generalize (runWorkflow s c call w).2 = w' at hleaves
  cases hleaves with
  | unpinnable why =>
    cases why with
    | store hpin hv => exact absurd (hchosen.not_missing hpin).1 (by simp [hv])
    | failed hf => exact absurd (hf.symm.trans hget) (by simp)
    | missing hpin hno => exact absurd hno (hchosen.not_missing hpin).2
  | unhashable hchosen' versioned why =>
    obtain rfl := hchosen.unique hchosen'
    refine ⟨⟨_, rfl⟩, ⟨fun _ _ hash hhash => ?_, fun _ => rfl⟩, w.versions, rfl⟩
    rcases why with hno | ⟨-, hf⟩
    · exact absurd (hno.symm.trans hhash) (by simp)
    · exact absurd (hf.symm.trans hput) (by simp)
  | rejected hchosen' _ _ =>
    obtain rfl := hchosen.unique hchosen'
    refine ⟨⟨_, rfl⟩, ?_, _, rfl⟩
    have hv : (call.named (c.uuid .trace)).versioned = call.versioned := by rw [hnamed]
    rw [RunCall.pin, hv, World.mk.injEq]
    rcases hversioned : call.versioned with _ | _
    · simp
    · simpa using VersionStore.after_eq_self_iff
  | unsaved hchosen' _ runs | unrecorded hchosen' _ runs | finished hchosen' _ runs =>
    obtain rfl := hchosen.unique hchosen'
    exact absurd hrejects runs.not_rejects

/-- A workflow with an unknown task, for an empty world. -/
def typoCall : RunCall String Unit := { yamlDefinition := Document.typo.text }

theorem typo_rejected : typoCall.Rejects documents quiet Document.typo.text
    (.value "Tasks not found in registry: missing") :=
  .registry (show documents.loadWorkflowYaml Document.typo.text = .ok typo from rfl) rfl

theorem typo_leaves_version :
    (runWorkflow quiet (calm "1") typoCall blank).1 =
      .error (.value "Tasks not found in registry: missing") ∧
    blank.versions.get Document.typo.sha256 = none ∧
    (runWorkflow quiet (calm "1") typoCall blank).2.versions.get Document.typo.sha256 =
      some ⟨Document.typo.sha256, Document.typo.text⟩ := by
  refine ⟨rfl, rfl, rfl⟩

theorem typo_leaves_nothing_iff :
    (∃ e', (runWorkflow quiet (calm "1") typoCall blank).1 = .error e') ∧
    ((runWorkflow quiet (calm "1") typoCall blank).2 = blank ↔ (typoCall.versioned = true →
      ∀ hash, documents.canonicalYamlHash Document.typo.text = .ok hash →
        ∃ v, blank.versions.get hash = some v)) := by
  have h := rejected_leaves_nothing_iff quiet (calm "1") typoCall blank Document.typo.text _
    (.given rfl) typo_rejected rfl rfl
  exact ⟨h.1, h.2.1⟩

end WorkflowEngine
