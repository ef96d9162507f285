import WorkflowEngine.Service.Definitions
import WorkflowEngine.Schemes.History
import Mathlib.Logic.Function.Basic
import Mathlib.Data.List.Nodup

/-! Version-store puts that overlap.

    In memory a put is one `setdefault`. In the database it looks the hash up and, if it is not there,
    inserts a record; the insert is committed in a transaction of its own, under the primary key. A
    put whose hash has been stored between its lookup and its commit raises. -/

namespace WorkflowEngine
open Schemes

variable {D P ι : Type} {lib : YamlLibrary D P}

/-- A definition that is put; it has a hash. -/
structure Submission {D P : Type} (lib : YamlLibrary D P) where
  yamlDefinition : String
  contentHash : String
  hashed : lib.canonicalYamlHash yamlDefinition = .ok contentHash

/-- Where a put stands. A missing one has found no record of its hash. -/
inductive PutStage where
  | new
  | missing
  | ended (outcome : Except Exn WorkflowVersion)

/-- The atomic steps of the puts. -/
inductive PutStep (ι : Type) where
  | look (i : ι)
  | commit (i : ι)
  deriving DecidableEq

/-- The store, and the puts that are made on it. -/
structure Submissions {D P : Type} (lib : YamlLibrary D P) (ι : Type) where
  store : VersionStore lib
  stage : ι → PutStage := fun _ => .new

/-- The `IntegrityError` of the primary key. -/
def duplicateKey : Exn := .persistence "duplicate key value violates unique constraint"

/-- How many records the store has under a hash. -/
def VersionStore.records (store : VersionStore lib) (contentHash : String) : ℕ :=
  (store.versions.values.filter fun v => v.contentHash = contentHash).length

theorem VersionStore.records_eq (store : VersionStore lib) (contentHash : String) :
    store.records contentHash = if contentHash ∈ store.versions.keys then 1 else 0 := by
  have hkey : ∀ e ∈ store.versions.entries, e.2.contentHash = e.1 := fun e he =>
    (store.pinned _ _ ((Dict.mem_entries_iff _ _ _).mp he)).1
  have hnodup : store.versions.keys.Nodup := store.versions.nodup
  have hcount : store.records contentHash = store.versions.keys.count contentHash := by
    rw [records, Dict.values, Dict.keys, List.filter_map, List.length_map, List.count,
      List.countP_map, List.countP_eq_length_filter]
    congr 1
    refine List.filter_congr fun e he => ?_
    rw [Function.comp_apply, hkey e he]
    exact (beq_eq_decide ..).symm
  rw [hcount]
  split_ifs with hmem
  · exact List.count_eq_one_of_mem hnodup hmem
  · exact List.count_eq_zero_of_not_mem hmem

namespace Submissions
variable [DecidableEq ι] (calls : ι → Submission lib)

/-- The put of `i` ends. -/
def finish (u : Submissions lib ι) (i : ι) (outcome : Except Exn WorkflowVersion) :
    Submissions lib ι :=
  { u with stage := Function.update u.stage i (.ended outcome) }

/-- The store after the record of `i` has been added. -/
def insert (u : Submissions lib ι) (i : ι) : Submissions lib ι :=
  { u with store := u.store.add (calls i).contentHash (calls i).yamlDefinition (calls i).hashed }

/-- One step; a step that its put is not at changes nothing. -/
def take (u : Submissions lib ι) : PutStep ι → Submissions lib ι
  | .look i =>
    match u.stage i with
    | .new =>
      match u.store.backend with
      | .memory => -- `setdefault`
        (u.insert calls i).finish i
          (.ok (u.store.returned (calls i).contentHash (calls i).yamlDefinition))
      | .database =>
        match u.store.get (calls i).contentHash with
        | some _ => u.finish i (.ok ⟨(calls i).contentHash, (calls i).yamlDefinition⟩)
        | none => { u with stage := Function.update u.stage i .missing }
    | _ => u
  | .commit i =>
    match u.stage i with
    | .missing =>
      match u.store.get (calls i).contentHash with
      | some _ => u.finish i (.error duplicateKey)
      | none =>
        (u.insert calls i).finish i (.ok ⟨(calls i).contentHash, (calls i).yamlDefinition⟩)
    | _ => u

/-- On this store, after these steps. -/
def after (store : VersionStore lib) (steps : List (PutStep ι)) : Submissions lib ι :=
  steps.foldl (take calls) { store := store }

/-- The condition: when a put commits its record, nobody has stored the hash since it looked. -/
def Unraced (u : Submissions lib ι) : PutStep ι → Prop
  | .look _ => True
  | .commit i => u.stage i = .missing → u.store.get (calls i).contentHash = none

/-- SPEC: every put that has ended has returned a version with its hash, of which there is one
    record. -/
def Succeed (u : Submissions lib ι) : Prop :=
  ∀ i outcome, u.stage i = .ended outcome → ∃ v, outcome = .ok v ∧
    v.contentHash = (calls i).contentHash ∧ u.store.records (calls i).contentHash = 1

/-! ### What a step keeps -/

/-- The hash of every put that has ended is stored, and it has returned. -/
def Stored (u : Submissions lib ι) : Prop :=
  ∀ i outcome, u.stage i = .ended outcome → ∃ v, outcome = .ok v ∧
    v.contentHash = (calls i).contentHash ∧ (calls i).contentHash ∈ u.store.versions.keys

variable {calls} {u : Submissions lib ι}

omit [DecidableEq ι] in
theorem Stored.succeed (h : Stored calls u) : Succeed calls u := by
  intro i outcome hi
  obtain ⟨v, hv, hhash, hkey⟩ := h i outcome hi
  exact ⟨v, hv, hhash, by rw [VersionStore.records_eq, if_pos hkey]⟩

/-- A put of a stored hash ends with it. -/
theorem Stored.finish (h : Stored calls u) {i : ι} {v : WorkflowVersion}
    (hv : v.contentHash = (calls i).contentHash)
    (hkey : (calls i).contentHash ∈ u.store.versions.keys) :
    Stored calls (u.finish i (.ok v)) := by
  intro j outcome hj
  simp only [Submissions.finish, Function.update_apply] at hj
  split_ifs at hj with hji
  · subst hji
    cases hj
    exact ⟨v, rfl, hv, hkey⟩
  · exact h j outcome hj

omit [DecidableEq ι] in
theorem mem_keys_insert (i : ι) : (calls i).contentHash ∈ (u.insert calls i).store.versions.keys := by
  rw [Dict.mem_keys_iff]
  have hself : ∃ v, (u.store.after (calls i).yamlDefinition).get (calls i).contentHash = some v :=
    VersionStore.get_after_self (calls i).hashed
  rw [VersionStore.after_of_ok (calls i).hashed] at hself
  exact hself

omit [DecidableEq ι] in
theorem Stored.insert (h : Stored calls u) (i : ι) : Stored calls (u.insert calls i) := by
  intro j outcome hj
  obtain ⟨v, hv, hhash, hkey⟩ := h j outcome hj
  refine ⟨v, hv, hhash, ?_⟩
  rw [Dict.mem_keys_iff] at hkey ⊢
  obtain ⟨stored, hstored⟩ := hkey
  have hkept : (u.store.after (calls i).yamlDefinition).get _ = some stored :=
    VersionStore.get_after_of_some hstored
  rw [VersionStore.after_of_ok (calls i).hashed] at hkept
  exact ⟨stored, hkept⟩

/-- A put that goes on to its commit has not ended. -/
theorem Stored.missing (h : Stored calls u) (i : ι) :
    Stored calls { u with stage := Function.update u.stage i .missing } := by
  intro j outcome hj
  dsimp only at hj
  rw [Function.update_apply] at hj
  split_ifs at hj
  exact h j outcome hj

/-- STEP: a commit that is not raced, and any lookup. -/
theorem Stored.take (h : Stored calls u) {a : PutStep ι} (hc : Unraced calls u a) :
    Stored calls (take calls u a) := by
  cases a with
  | look i =>
    simp only [Submissions.take]
    split
    · split
      · exact (h.insert i).finish VersionStore.returned_hash (mem_keys_insert i)
      · split
        · next v hv => exact h.finish rfl ((Dict.mem_keys_iff _ _).mpr ⟨v, hv⟩)
        · exact h.missing i
    · exact h
  | commit i =>
    simp only [Submissions.take]
    split
    · next hstage =>
      rw [hc hstage]
      exact (h.insert i).finish rfl (mem_keys_insert i)
    · exact h

/-- A raced commit raises. -/
theorem not_succeed_take {a : PutStep ι} (hc : ¬ Unraced calls u a) :
    ¬ Succeed calls (take calls u a) := by
  cases a with
  | look i => exact absurd trivial hc
  | commit i =>
    obtain ⟨hstage, hstored⟩ := Classical.not_imp.mp hc
    obtain ⟨v, hv⟩ := Option.ne_none_iff_exists'.mp hstored
    intro h
    have hraised : (take calls u (.commit i)).stage i = .ended (.error duplicateKey) := by
      simp only [take, hstage, hv]
      exact Function.update_self ..
    obtain ⟨w, hw, -⟩ := h i _ hraised
    exact absurd hw (by simp)

/-! ### Every run -/

variable (calls) (store : VersionStore lib)

theorem after_concat (pre : List (PutStep ι)) (a : PutStep ι) :
    after calls store (pre ++ [a]) = take calls (after calls store pre) a := by
  rw [after, List.foldl_append]
  rfl

/-- A put only goes on. -/
theorem stage_take (u : Submissions lib ι) (a : PutStep ι) (i : ι) :
    (take calls u a).stage i = u.stage i ∨
    (u.stage i = .new ∧ (take calls u a).stage i ≠ .new) ∨
    (u.stage i = .missing ∧ ∃ outcome, (take calls u a).stage i = .ended outcome) := by
  cases a with
  | look j =>
    simp only [take]
    split
    · next hnew =>
      rcases eq_or_ne i j with rfl | hij
      · refine .inr (.inl ⟨hnew, ?_⟩)
        split
        · simp [finish]
        · split <;> simp [finish]
      · refine .inl ?_
        split
        · exact Function.update_of_ne hij ..
        · split <;> exact Function.update_of_ne hij ..
    · exact .inl rfl
  | commit j =>
    simp only [take]
    split
    · next hmissing =>
      rcases eq_or_ne i j with rfl | hij
      · refine .inr (.inr ⟨hmissing, ?_⟩)
        split <;> exact ⟨_, Function.update_self ..⟩
      · refine .inl ?_
        split <;> exact Function.update_of_ne hij ..
    · exact .inl rfl

theorem begun_foldl {i : ι} : ∀ (steps : List (PutStep ι)) (u : Submissions lib ι),
    u.stage i ≠ .new → (steps.foldl (take calls) u).stage i ≠ .new
  | [], _, h => h
  | a :: steps, u, h => by
      refine begun_foldl steps _ ?_
      rcases stage_take calls u a i with he | ⟨hnew, -⟩ | ⟨-, outcome, hout⟩
      · rw [he]; exact h
      · exact absurd hnew h
      · rw [hout]; simp

theorem ended_foldl {i : ι} {outcome : Except Exn WorkflowVersion} :
    ∀ (steps : List (PutStep ι)) (u : Submissions lib ι), u.stage i = .ended outcome →
      (steps.foldl (take calls) u).stage i = .ended outcome
  | [], _, h => h
  | a :: steps, u, h => by
      refine ended_foldl steps _ ?_
      rcases stage_take calls u a i with he | ⟨hnew, -⟩ | ⟨hmissing, -⟩
      · exact he.trans h
      · exact absurd (hnew.symm.trans h) (by simp)
      · exact absurd (hmissing.symm.trans h) (by simp)

theorem begun_look (u : Submissions lib ι) (i : ι) : (take calls u (.look i)).stage i ≠ .new := by
  rcases stage_take calls u (.look i) i with he | ⟨-, hne⟩ | ⟨-, outcome, hout⟩
  · intro hnew
    have hold := he.symm.trans hnew
    simp only [take, hold] at hnew
    split at hnew
    · simp [finish] at hnew
    · split at hnew <;> simp [finish] at hnew
  · exact hne
  · rw [hout]; simp

theorem ended_commit {u : Submissions lib ι} {i : ι} (h : u.stage i ≠ .new) :
    ∃ outcome, (take calls u (.commit i)).stage i = .ended outcome := by
  cases hstage : u.stage i with
  | new => exact absurd hstage h
  | missing =>
    simp only [take, hstage]
    split <;> exact ⟨_, Function.update_self ..⟩
  | ended outcome =>
    simp only [take, hstage]
    exact ⟨outcome, rfl⟩

/-- A put that has come to its lookup and then to its commit has ended. -/
theorem ended_after {i : ι} {steps : List (PutStep ι)} (h : [.look i, .commit i].Sublist steps) :
    ∃ outcome, (after calls store steps).stage i = .ended outcome := by
  obtain ⟨r₁, r₂, rfl, hlook, hcommit⟩ := List.cons_sublist_iff.mp h
  obtain ⟨s₁, s₂, rfl⟩ := List.append_of_mem hlook
  obtain ⟨s₃, s₄, rfl⟩ := List.append_of_mem (List.singleton_sublist.mp hcommit)
  rw [after, List.foldl_append, List.foldl_append, List.foldl_cons, List.foldl_append,
    List.foldl_cons]
  obtain ⟨outcome, hout⟩ := ended_commit calls (begun_foldl calls s₃ _
    (begun_foldl calls s₂ _ (begun_look calls (s₁.foldl (take calls) { store := store }) i)))
  exact ⟨outcome, ended_foldl calls s₄ _ hout⟩

/-- What ends does not move. -/
theorem take_commit_ended {u : Submissions lib ι} {i : ι} {outcome : Except Exn WorkflowVersion}
    (h : u.stage i = .ended outcome) : take calls u (.commit i) = u := by
  simp only [take, h]

theorem take_commit_missing {u : Submissions lib ι} {i : ι} (h : u.stage i = .missing)
    (hget : u.store.get (calls i).contentHash = none) : take calls u (.commit i) =
      (u.insert calls i).finish i
        (.ok ⟨(calls i).contentHash, (calls i).yamlDefinition⟩) := by
  simp only [take, h, hget]

/-- A put that ends at its lookup. -/
theorem alone_of_look {u w : Submissions lib ι} {i : ι} {v : WorkflowVersion}
    (hlook : take calls u (.look i) = w.finish i (.ok v)) :
    (take calls (take calls u (.look i)) (.commit i)).store = w.store ∧
      (take calls (take calls u (.look i)) (.commit i)).stage i = .ended (.ok v) := by
  have hended : (w.finish i (.ok v)).stage i = .ended (.ok v) := Function.update_self ..
  rw [hlook, take_commit_ended calls hended]
  exact ⟨rfl, hended⟩

/-- REFINEMENT: a put that runs alone is the atomic one. -/
theorem put_alone {u : Submissions lib ι} {i : ι} (hnew : u.stage i = .new) :
    ∃ v, u.store.put (calls i).yamlDefinition =
        .ok ((take calls (take calls u (.look i)) (.commit i)).store, v) ∧
      (take calls (take calls u (.look i)) (.commit i)).stage i = .ended (.ok v) := by
  refine ⟨u.store.returned (calls i).contentHash (calls i).yamlDefinition, ?_⟩
  rw [VersionStore.put_ok (calls i).hashed]
  cases hbackend : u.store.backend with
  | memory =>
    have hlook : take calls u (.look i) = (u.insert calls i).finish i
        (.ok (u.store.returned (calls i).contentHash (calls i).yamlDefinition)) := by
      simp only [take, hnew, hbackend]
    obtain ⟨hstore, hended⟩ := alone_of_look calls hlook
    rw [hstore]
    exact ⟨rfl, hended⟩
  | database =>
    have hreturned : u.store.returned (calls i).contentHash (calls i).yamlDefinition =
        ⟨(calls i).contentHash, (calls i).yamlDefinition⟩ := by
      rw [VersionStore.returned, hbackend]
    rw [hreturned]
    cases hget : u.store.get (calls i).contentHash with
    | some stored =>
      have hlook : take calls u (.look i) =
          u.finish i (.ok ⟨(calls i).contentHash, (calls i).yamlDefinition⟩) := by
        simp only [take, hnew, hbackend, hget]
      have hadd : u.store.add (calls i).contentHash (calls i).yamlDefinition (calls i).hashed =
          u.store := by
        rw [← VersionStore.after_of_ok, VersionStore.after_eq_self_iff]
        intro hash hhash
        obtain rfl := Except.ok.inj ((calls i).hashed.symm.trans hhash)
        exact ⟨stored, hget⟩
      obtain ⟨hstore, hended⟩ := alone_of_look calls hlook
      rw [hstore, hadd]
      exact ⟨rfl, hended⟩
    | none =>
      have hlook : take calls u (.look i) =
          { u with stage := Function.update u.stage i .missing } := by
        simp only [take, hnew, hbackend, hget]
      have hmissing : (take calls u (.look i)).stage i = .missing := by
        rw [hlook]
        exact Function.update_self ..
      have hnone : (take calls u (.look i)).store.get (calls i).contentHash = none := by
        rw [hlook]
        exact hget
      rw [take_commit_missing calls hmissing hnone, hlook]
      exact ⟨rfl, Function.update_self ..⟩

/-- In memory no put ever waits for its commit. -/
theorem not_missing {store : VersionStore lib} (hmemory : store.backend = .memory)
    (steps : List (PutStep ι)) : (after calls store steps).store.backend = .memory ∧
      ∀ i, (after calls store steps).stage i ≠ .missing := by
  induction steps using List.reverseRecOn with
  | nil => exact ⟨hmemory, fun i => by simp [after]⟩
  | append_singleton steps a ih =>
    obtain ⟨hbackend, hstage⟩ := ih
    have hadd : ∀ i, ((after calls store steps).insert calls i).store.backend = .memory := by
      intro i
      simp only [insert, VersionStore.add]
      split <;> exact hbackend
    rw [after_concat]
    cases a with
    | look i =>
      simp only [take, hbackend]
      split
      · refine ⟨hadd i, fun j => ?_⟩
        simp only [finish, Function.update_apply]
        split_ifs
        · simp
        · exact hstage j
      · exact ⟨hbackend, hstage⟩
    | commit i =>
      simp only [take]
      split
      · next hmissing => exact absurd hmissing (hstage i)
      · exact ⟨hbackend, hstage⟩

/-- EXACT (submissions): at every moment every put that has ended has returned a version with its
    hash, of which there is one record, if and only if no commit is raced; in memory none ever is.
    A put that comes to both its steps ends. -/
theorem succeed_iff_unraced (steps : List (PutStep ι)) :
    ((∀ pre, pre <+: steps → Succeed calls (after calls store pre)) ↔
      History.Each (fun pre a => Unraced calls (after calls store pre) a) steps) ∧
    (store.backend = .memory →
      History.Each (fun pre a => Unraced calls (after calls store pre) a) steps) ∧
    ∀ i, [.look i, .commit i].Sublist steps →
      ∃ outcome, (after calls store steps).stage i = .ended outcome := by
  refine ⟨?_, fun hmemory pre a _ _ => ?_, fun i h => ended_after calls store h⟩
  · refine History.each_iff_good (fun _ => True) (fun pre => Stored calls (after calls store pre))
      (fun _ _ _ => trivial) (fun i outcome hi => ?_) (fun pre h => h.succeed) ?_ ?_ steps trivial
    · exact absurd hi (by simp [after])
    · intro pre a _ h hc
      rw [after_concat]
      exact h.take hc
    · intro pre a _ _ hc
      rw [after_concat]
      exact not_succeed_take hc
  · cases a with
    | look i => trivial
    | commit i =>
      exact fun hmissing => absurd hmissing ((not_missing calls hmemory pre).2 i)

end Submissions

/-! ### An example -/

/-- Two puts of one definition. -/
def twice : Bool → Submission documents := fun _ => ⟨Document.idle.text, Document.idle.sha256, rfl⟩

/-- Both look before either commits. -/
def raced : List (PutStep Bool) := [.look true, .look false, .commit true, .commit false]

/-- The second one raises, though its definition is stored. -/
theorem raced_raises :
    ¬ Submissions.Succeed twice (Submissions.after twice { backend := .database } raced) := by
  intro h
  obtain ⟨v, hv, -⟩ := h false (.error duplicateKey) rfl
  exact absurd hv (by simp)

end WorkflowEngine
