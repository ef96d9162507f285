import WorkflowEngine.Schemes.History
import WorkflowEngine.Schemes.Prog
import WorkflowEngine.Storage.RunStores

/-! `save_run` as a transaction.

    A session works on its own view of the tables: a flush writes what has been added and marked for
    deletion to the open transaction, a commit makes the transaction's view the committed one, and a
    rollback goes back to the committed tables. Every statement may raise, and may have written
    anything to the transaction by then. -/

namespace WorkflowEngine
open Schemes

variable {V P J E : Type}

/-! ### Sessions -/

/-- The committed tables, what the open transaction has made of them, and what is not flushed yet:
    the runs marked for deletion and the rows to add. -/
structure Session (J : Type) where
  committed : DatabaseWorkflowStorage J
  working : DatabaseWorkflowStorage J
  deleted : List String := []
  newRuns : List (WorkflowRun J) := []
  newSteps : List StepExecution := []

namespace Session

/-- A new session on these tables. -/
def opened (db : DatabaseWorkflowStorage J) : Session J := { committed := db, working := db }

/-- A flush writes the new rows first and then the deletions, which cascade to the step rows. -/
def flush (s : Session J) : Session J where
  committed := s.committed
  working := s.deleted.foldl DatabaseWorkflowStorage.delete
    { runs := s.newRuns.foldl (fun runs run => runs.set run.id run) s.working.runs
      steps := s.working.steps ++ s.newSteps }

def commit (s : Session J) : Session J := opened s.flush.working

def rollback (s : Session J) : Session J := opened s.committed

end Session

/-- The statements of `save_run` that talk to the database or compute a row. -/
inductive Statement where
  | lookup | delete | flush | addRun | addStep (stepId : String) | commit
  deriving DecidableEq

/-- A statement that raises: the exception, and what it leaves in the transaction. -/
structure Fault (J E : Type) where
  error : E
  working : DatabaseWorkflowStorage J

/-! ### `save_run` -/

section SaveRun
variable [PyValue V] (faults : Statement → Option (Fault J E))

/-- One statement, which has its effect unless it raises. -/
def statement (st : Statement) (effect : Session J → Session J) : Prog (Session J) E Unit :=
  fun s =>
    match faults st with
    | some fault => (.error fault.error, { s with working := fault.working })
    | none => (.ok (), effect s)

/-- `session.get(WorkflowRun, run_id)`. -/
def lookupRun (runId : String) : Prog (Session J) E (Option (WorkflowRun J)) := do
  statement faults .lookup fun s => s
  Prog.view fun s => s.working.runs.get runId

/-- Delete the run that is being overwritten, at once. -/
def clearRun (existing : Option (WorkflowRun J)) : Prog (Session J) E Unit :=
  match existing with
  | some run => do
    statement faults .delete fun s => { s with deleted := s.deleted ++ [run.id] }
    statement faults .flush Session.flush
  | none => pure ()

def addStepRow (args : SaveArgs V P) (runId : String) (e : String × Status) :
    Prog (Session J) E Unit :=
  statement faults (.addStep e.1) fun s =>
    { s with newSteps := s.newSteps ++ [args.stepRow runId e.1 e.2] }

/-- The statements before the commit. -/
def writeRun (column : JsonColumn J P) (args : SaveArgs V P) (runId : String) :
    Prog (Session J) E Unit := do
  let existing ← lookupRun faults runId
  clearRun faults existing
  statement faults .addRun fun s => { s with newRuns := s.newRuns ++ [args.runRow column runId] }
  Prog.forEach (addStepRow faults args runId) args.statuses.entries

/-- The `try` block. -/
def commitRun (column : JsonColumn J P) (args : SaveArgs V P) (runId : String) :
    Prog (Session J) E String := do
  writeRun faults column args runId
  statement faults .commit Session.commit
  pure runId

/-- `save_run` in a session. -/
def saveRunSession (column : JsonColumn J P) (args : SaveArgs V P) (uuid : String) :
    Prog (Session J) E String :=
  Prog.handle (commitRun faults column args (args.chosenId uuid)) fun e => do
    Prog.change Session.rollback
    Prog.raise e

end SaveRun

/-- One call of `save_run`: its arguments, the id it would draw, and which statements raise. -/
structure SaveCall (V P J E : Type) where
  args : SaveArgs V P
  uuid : String
  faults : Statement → Option (Fault J E) := fun _ => none

/-- The id a call saves under. -/
def SaveCall.id (c : SaveCall V P J E) : String := c.args.chosenId c.uuid

/-- A call in a session of its own, which is closed afterwards: the committed tables, and the id that
    it returns or the exception. -/
def SaveCall.save [PyValue V] (column : JsonColumn J P) (c : SaveCall V P J E)
    (db : DatabaseWorkflowStorage J) : DatabaseWorkflowStorage J × Except E String :=
  let (result, s) := saveRunSession c.faults column c.args c.uuid (Session.opened db)
  (s.committed, result)

/-- The statements that a call comes to on these tables while none raises. -/
def SaveCall.Reaches (c : SaveCall V P J E) (db : DatabaseWorkflowStorage J) : Statement → Prop
  | .lookup | .addRun | .commit => True
  | .delete | .flush => db.runs.get c.id ≠ none
  | .addStep stepId => stepId ∈ c.args.statuses.keys

/-- None of them raises. -/
def SaveCall.Quiet (c : SaveCall V P J E) (db : DatabaseWorkflowStorage J) : Prop :=
  ∀ st, c.Reaches db st → c.faults st = none

/-! ### One call -/

section OneCall
variable [PyValue V] {faults : Statement → Option (Fault J E)} {column : JsonColumn J P}
  {args : SaveArgs V P} {db : DatabaseWorkflowStorage J} {s t : Session J}

theorem statement_run {st : Statement} (effect : Session J → Session J) (h : faults st = none) :
    statement faults st effect s = (.ok (), effect s) := by
  rw [statement, h]

theorem statement_quiet {st : Statement} {effect : Session J → Session J}
    (h : statement faults st effect s = (.ok (), t)) : faults st = none := by
  rw [statement] at h
  cases hf : faults st with
  | some fault => rw [hf] at h; exact absurd (Prod.mk.inj h).1 (by simp)
  | none => rfl

theorem statement_ok {st : Statement} {effect : Session J → Session J}
    (h : statement faults st effect s = (.ok (), t)) : t = effect s := by
  rw [statement_run effect (statement_quiet h)] at h
  exact (Prod.mk.inj h).2.symm

/-- A statement other than the commit leaves the committed tables alone, also when it raises. -/
theorem statement_keeps {st : Statement} {effect : Session J → Session J}
    (h : ∀ s, (effect s).committed = s.committed) :
    Prog.Keeps (fun s => s.committed = db) (statement faults st effect) := by
  intro s hs
  rw [statement]
  cases faults st with
  | some fault => exact hs
  | none => exact (h s).trans hs

theorem statement_error {st : Statement} {effect : Session J → Session J} {e : E}
    (h : statement faults st effect s = (.error e, t)) : t.committed = s.committed := by
  rw [statement] at h
  cases hf : faults st with
  | some fault => rw [hf] at h; rw [← (Prod.mk.inj h).2]
  | none => rw [hf] at h; exact absurd (Prod.mk.inj h).1 (by simp)

theorem addStepRow_keeps (runId : String) (e : String × Status) :
    Prog.Keeps (fun s => s.committed = db) (addStepRow faults args runId e) :=
  statement_keeps fun _ => rfl

theorem writeRun_keeps (runId : String) :
    Prog.Keeps (fun s => s.committed = db) (writeRun faults column args runId) := by
  refine Prog.Keeps.bind ?_ fun existing => Prog.Keeps.bind ?_ fun _ =>
    Prog.Keeps.bind (statement_keeps fun _ => rfl) fun _ =>
      Prog.Keeps.forEach (addStepRow_keeps runId) _
  · exact (statement_keeps fun _ => rfl).bind fun _ => Prog.Keeps.view _
  · cases existing with
    | none => exact Prog.Keeps.pure ()
    | some run => refine Prog.Keeps.bind (statement_keeps ?_) fun _ => statement_keeps ?_ <;>
        exact fun _ => rfl

theorem foldl_addStepRow (runId : String) : ∀ (l : List (String × Status)) (s : Session J),
    l.foldl (fun s e => { s with newSteps := s.newSteps ++ [args.stepRow runId e.1 e.2] }) s =
      { s with newSteps := s.newSteps ++ l.map fun e => args.stepRow runId e.1 e.2 }
  | [], s => by simp
  | e :: l, s => by rw [List.foldl_cons, foldl_addStepRow runId l]; simp

/-- What the open session holds before the commit. -/
theorem writeRun_ok (hids : ∀ id run, db.runs.get id = some run → run.id = id) {runId : String}
    (h : writeRun faults column args runId (Session.opened db) = (.ok (), t)) :
    t = { committed := db,
          working := match db.runs.get runId with
            | some _ => db.delete runId
            | none => db,
          newRuns := [args.runRow column runId],
          newSteps := args.stepRows runId } := by
  obtain ⟨existing, s₁, hlookup, h⟩ := Prog.bind_ok.mp h
  obtain ⟨_, s₀, hst, hview⟩ := Prog.bind_ok.mp hlookup
  obtain rfl := statement_ok hst
  obtain ⟨hexisting, rfl⟩ := Prod.mk.inj hview
  obtain rfl := Except.ok.inj hexisting
  obtain ⟨_, s₂, hclear, h⟩ := Prog.bind_ok.mp h
  obtain ⟨_, s₃, hadd, hloop⟩ := Prog.bind_ok.mp h
  have hs₂ : s₂ = { committed := db, working := match db.runs.get runId with
      | some _ => db.delete runId
      | none => db } := by
    change clearRun faults (db.runs.get runId) (Session.opened db) = _ at hclear
    cases hrun : db.runs.get runId with
    | none => rw [hrun] at hclear; exact (Prod.mk.inj hclear).2.symm
    | some run =>
      rw [hrun] at hclear
      obtain ⟨_, s, hdelete, hflush⟩ := Prog.bind_ok.mp hclear
      rw [statement_ok hflush, statement_ok hdelete, hids _ _ hrun]
      simp [Session.flush, Session.opened]
  have hloop := Prog.forEach_ok (fun e s t hst => statement_ok hst) hloop
  rw [hloop, foldl_addStepRow, statement_ok hadd, hs₂]
  rfl

theorem commitRun_ok (hids : ∀ id run, db.runs.get id = some run → run.id = id) {runId saved : String}
    (h : commitRun faults column args runId (Session.opened db) = (.ok saved, t)) :
    saved = runId ∧ t.committed =
      { runs := (match db.runs.get runId with
          | some _ => db.delete runId
          | none => db).runs.set runId (args.runRow column runId)
        steps := (match db.runs.get runId with
          | some _ => db.delete runId
          | none => db).steps ++ args.stepRows runId } := by
  obtain ⟨_, s₁, hwrite, hrest⟩ := Prog.bind_ok.mp h
  obtain ⟨_, s₂, hcommit, hpure⟩ := Prog.bind_ok.mp hrest
  obtain ⟨⟨⟩, rfl⟩ := Prod.mk.inj hpure
  rw [statement_ok hcommit, writeRun_ok hids hwrite]
  exact ⟨rfl, rfl⟩

theorem commitRun_error {runId : String} {e : E}
    (h : commitRun faults column args runId (Session.opened db) = (.error e, t)) :
    t.committed = db := by
  have hkept : (writeRun faults column args runId (Session.opened db)).2.committed = db :=
    writeRun_keeps runId (Session.opened db) rfl
  rcases Prog.bind_error.mp h with hwrite | ⟨_, s₁, hwrite, hrest⟩
  · rwa [hwrite] at hkept
  · rw [hwrite] at hkept
    rcases Prog.bind_error.mp hrest with hcommit | ⟨_, _, _, hpure⟩
    · exact (statement_error hcommit).trans hkept
    · exact absurd (Prod.mk.inj hpure).1 (by simp)

/-- ATOMIC: a call leaves the tables as they were and raises, or does what `saveRun` does. -/
theorem SaveCall.save_cases (hids : ∀ id run, db.runs.get id = some run → run.id = id)
    (c : SaveCall V P J E) : (∃ e, c.save column db = (db, .error e)) ∨
      c.save column db = ((db.saveRun column c.args c.uuid).1, .ok c.id) := by
  rw [SaveCall.save, saveRunSession]
  rcases hbody : commitRun c.faults column c.args (c.args.chosenId c.uuid) (Session.opened db) with
    ⟨e | saved, t⟩
  · rw [Prog.handle_of_error hbody]
    have hcommitted : t.committed = db := commitRun_error hbody
    exact .inl ⟨e, congrArg (·, Except.error e) hcommitted⟩
  · rw [Prog.handle_of_ok hbody]
    obtain ⟨rfl, hcommitted⟩ := commitRun_ok hids hbody
    exact .inr (congrArg (·, _) hcommitted)

theorem SaveCall.save_returned (hids : ∀ id run, db.runs.get id = some run → run.id = id)
    {c : SaveCall V P J E} {saved : String} (h : (c.save column db).2 = .ok saved) :
    c.save column db = ((db.saveRun column c.args c.uuid).1, .ok c.id) := by
  rcases c.save_cases hids with ⟨e, he⟩ | hok
  · exact absurd (h.symm.trans (congrArg Prod.snd he)) (by simp)
  · exact hok

theorem SaveCall.save_ok {c : SaveCall V P J E} {saved : String}
    (h : (c.save column db).2 = .ok saved) :
    ∃ t, commitRun c.faults column c.args c.id (Session.opened db) = (.ok saved, t) := by
  rw [SaveCall.save, saveRunSession] at h
  rcases hbody : commitRun c.faults column c.args (c.args.chosenId c.uuid) (Session.opened db) with
    ⟨e | id, t⟩
  · rw [Prog.handle_of_error hbody] at h
    exact absurd h (by simp [Prog.change_bind_run])
  · rw [Prog.handle_of_ok hbody] at h
    obtain rfl : id = saved := Except.ok.inj h
    exact ⟨t, hbody⟩

/-- A call that returns has come to every one of its statements. -/
theorem SaveCall.Quiet.of_returned {c : SaveCall V P J E} {saved : String}
    (h : (c.save column db).2 = .ok saved) : c.Quiet db := by
  obtain ⟨t, ht⟩ := SaveCall.save_ok h
  obtain ⟨_, s₁, hwrite, hrest⟩ := Prog.bind_ok.mp ht
  obtain ⟨_, s₂, hcommit, -⟩ := Prog.bind_ok.mp hrest
  obtain ⟨existing, s₃, hlookup, hrest⟩ := Prog.bind_ok.mp hwrite
  obtain ⟨_, s₄, hclear, hrest⟩ := Prog.bind_ok.mp hrest
  obtain ⟨_, s₅, hadd, hloop⟩ := Prog.bind_ok.mp hrest
  obtain ⟨_, s₆, hget, hview⟩ := Prog.bind_ok.mp hlookup
  obtain rfl := statement_ok hget
  obtain rfl : db.runs.get c.id = existing := Except.ok.inj (Prod.mk.inj hview).1
  have hdelete : db.runs.get c.id ≠ none → c.faults .delete = none ∧ c.faults .flush = none := by
    intro hrun
    obtain ⟨run, hrun⟩ := Option.ne_none_iff_exists'.mp hrun
    rw [hrun] at hclear
    obtain ⟨_, s₇, hdelete, hflush⟩ := Prog.bind_ok.mp hclear
    exact ⟨statement_quiet hdelete, statement_quiet hflush⟩
  intro st hst
  cases st with
  | lookup => exact statement_quiet hget
  | delete => exact (hdelete hst).1
  | flush => exact (hdelete hst).2
  | addRun => exact statement_quiet hadd
  | addStep stepId =>
    obtain ⟨e, he, rfl⟩ := List.mem_map.mp hst
    obtain ⟨r, u, hround⟩ := Prog.forEach_rounds hloop e he
    exact statement_quiet hround
  | commit => exact statement_quiet hcommit

/-- A call returns exactly if no statement that it comes to raises. -/
theorem SaveCall.save_returns_iff {c : SaveCall V P J E} :
    (∃ saved, (c.save column db).2 = .ok saved) ↔ c.Quiet db := by
  constructor
  · rintro ⟨saved, h⟩
    exact .of_returned h
  · intro h
    have hst : ∀ st effect, c.Reaches db st →
        Prog.Returns (statement c.faults st effect : Prog (Session J) E Unit) :=
      fun st effect hr s => ⟨(), effect s, statement_run effect (h st hr)⟩
    have hlookup : lookupRun c.faults c.id (Session.opened db) =
        (.ok (db.runs.get c.id), Session.opened db) :=
      Prog.bind_of_ok (statement_run _ (h .lookup trivial))
    have hclear : Prog.Returns (clearRun c.faults (db.runs.get c.id)) := by
      cases hrun : db.runs.get c.id with
      | none => exact Prog.Returns.pure ()
      | some run =>
        have hreaches : db.runs.get c.id ≠ none := by rw [hrun]; exact Option.some_ne_none run
        exact (hst .delete _ hreaches).bind fun _ => hst .flush _ hreaches
    have hwrite : ∃ t, writeRun c.faults column c.args c.id (Session.opened db) = (.ok (), t) := by
      rw [writeRun, Prog.bind_of_ok hlookup]
      obtain ⟨⟨⟩, t, ht⟩ := (hclear.bind fun _ => (hst .addRun _ trivial).bind fun _ =>
        Prog.Returns.forEach fun (e : String × Status) he =>
          hst (.addStep e.1) _ (List.mem_map_of_mem he))
        (Session.opened db)
      exact ⟨t, ht⟩
    obtain ⟨t, ht⟩ := hwrite
    have hcommit : commitRun c.faults column c.args c.id (Session.opened db) =
        (.ok c.id, t.commit) := by
      rw [commitRun, Prog.bind_of_ok ht, Prog.bind_of_ok (statement_run _ (h .commit trivial))]
      rfl
    exact ⟨c.id, congrArg Prod.fst (Prog.handle_of_ok hcommit)⟩

end OneCall

/-! ### Sequences of calls -/

section Sequences
variable [PyValue V] {column : JsonColumn J P}

/-- The committed tables and the calls that have returned. -/
structure Saves (V P J E : Type) where
  db : DatabaseWorkflowStorage J := {}
  returned : List (SaveCall V P J E) := []

/-- One more call. -/
def Saves.next (column : JsonColumn J P) (s : Saves V P J E) (c : SaveCall V P J E) :
    Saves V P J E :=
  let (db, result) := c.save column s.db
  { db := db, returned := match result with
      | .ok _ => s.returned ++ [c]
      | .error _ => s.returned }

/-- A new database after these calls. -/
def Saves.after (column : JsonColumn J P) (calls : List (SaveCall V P J E)) : Saves V P J E :=
  calls.foldl (Saves.next column) {}

/-- The last call under an id that returned. -/
def Saves.last (s : Saves V P J E) (id : String) : Option (SaveCall V P J E) :=
  History.lastOf SaveCall.id s.returned id

/-- The invariant: the rows of a run are those of the last call under its id that returned. -/
structure Saves.Inv (column : JsonColumn J P) (s : Saves V P J E) : Prop where
  rows : ∀ id, s.db.runs.get id = (s.last id).map fun c => c.args.runRow column id
  steps : ∀ id, s.db.stepsOf id = (s.last id).elim [] fun c => c.args.stepRows id

/-- `get_run` shows the last call under each id that returned, and its step rows are all there are;
    `read` is what becomes of its dead letters. -/
def Saves.Shows (column : JsonColumn J P)
    (read : List (DeadLetter P) → List (DeadLetter P)) (s : Saves V P J E) : Prop :=
  ∀ id, match s.last id with
    | none => s.db.getRun column id = none ∧ s.db.stepsOf id = []
    | some c => s.db.stepsOf id = c.args.stepRows id ∧ ∃ r, s.db.getRun column id = some r ∧
        r.status = c.args.status ∧ r.stepStatuses.Same c.args.statuses ∧
        r.deadLetters = read (c.args.deadLetters.getD [])

namespace Saves
variable {s : Saves V P J E}

theorem Inv.ids (h : Inv column s) : ∀ id run, s.db.runs.get id = some run → run.id = id := by
  intro id run hrun
  rw [h.rows] at hrun
  obtain ⟨c, -, rfl⟩ := Option.map_eq_some_iff.mp hrun
  rfl

theorem Inv.orphans (h : Inv column s) :
    ∀ id, s.db.runs.get id = none → s.db.stepsOf id = [] := by
  intro id hrun
  rw [h.rows, Option.map_eq_none_iff] at hrun
  rw [h.steps, hrun]
  rfl

/-- What a call does to the tables, in cases. -/
theorem Inv.next_cases (h : Inv column s) (c : SaveCall V P J E) :
    ((∃ e, (c.save column s.db).2 = .error e) ∧ s.next column c = s) ∨
    ((c.save column s.db).2 = .ok c.id ∧ s.next column c =
      { db := (s.db.saveRun column c.args c.uuid).1, returned := s.returned ++ [c] }) := by
  rw [next]
  rcases c.save_cases h.ids with ⟨e, he⟩ | hok
  · rw [he]; exact .inl ⟨⟨e, rfl⟩, rfl⟩
  · rw [hok]; exact .inr ⟨rfl, rfl⟩

omit [PyValue V] in
theorem last_concat (db : DatabaseWorkflowStorage J) (returned : List (SaveCall V P J E))
    (c : SaveCall V P J E) (id : String) :
    last { db := db, returned := returned ++ [c] } id =
      if id = c.id then some c else History.lastOf SaveCall.id returned id :=
  History.lastOf_concat ..

theorem Inv.next (h : Inv column s) (c : SaveCall V P J E) : Inv column (s.next column c) := by
  rcases h.next_cases c with ⟨-, he⟩ | ⟨-, hok⟩
  · rw [he]; exact h
  · rw [hok]
    refine ⟨fun id => ?_, fun id => ?_⟩
    · rw [last_concat, DatabaseWorkflowStorage.saveRun_get, h.rows, SaveCall.id]
      split_ifs <;> rfl
    · rw [last_concat, DatabaseWorkflowStorage.saveRun_stepsOf _ _ _ _ h.orphans, h.steps,
        SaveCall.id]
      split_ifs <;> rfl

theorem inv_after (column : JsonColumn J P) (calls : List (SaveCall V P J E)) :
    Inv column (after column calls) := by
  induction calls using List.reverseRecOn with
  | nil => exact ⟨fun _ => rfl, fun _ => rfl⟩
  | append_singleton calls c ih =>
    rw [after, List.foldl_append]
    exact ih.next c

/-- The dead letters come back as the column gives them back. -/
theorem Inv.shows (h : Inv column s) :
    s.Shows column fun letters => column.load (column.dump letters) := by
  intro id
  have hrow := h.rows id
  have hsteps := h.steps id
  rcases hlast : s.last id with _ | c
  · rw [hlast] at hrow hsteps
    refine ⟨?_, hsteps⟩
    rw [DatabaseWorkflowStorage.getRun, hrow]; rfl
  · rw [hlast] at hrow hsteps
    refine ⟨hsteps, _, congrArg (Option.map _) hrow, rfl, fun k => ?_, rfl⟩
    have hrows : s.db.stepsOf (c.args.runRow column id).id = c.args.stepRows id := hsteps
    change (stepMap (fun s => some s.status) _).get k = _
    rw [hrows, stepMap_get]
    exact Option.bind_fun_some _

/-- Two readings that are shown agree on the letters of the last calls. -/
theorem Shows.congr {read read' : List (DeadLetter P) → List (DeadLetter P)}
    (h : s.Shows column read) : s.Shows column read' ↔ ∀ id c, s.last id = some c →
      read (c.args.deadLetters.getD []) = read' (c.args.deadLetters.getD []) := by
  constructor
  · intro h' id c hc
    have hid := h id
    have hid' := h' id
    rw [hc] at hid hid'
    obtain ⟨-, r, hr, -, -, hread⟩ := hid
    obtain ⟨-, r', hr', -, -, hread'⟩ := hid'
    obtain rfl := Option.some.inj (hr.symm.trans hr')
    exact hread.symm.trans hread'
  · intro hread id
    have hid := h id
    rcases hc : s.last id with _ | c
    · rw [hc] at hid
      exact hid
    · rw [hc] at hid
      obtain ⟨hsteps, r, hr, hstatus, hstatuses, hletters⟩ := hid
      exact ⟨hsteps, r, hr, hstatus, hstatuses, hletters.trans (hread id c hc)⟩

omit [PyValue V] in
theorem mem_of_last {id : String} {c : SaveCall V P J E} (h : s.last id = some c) :
    c ∈ s.returned :=
  List.mem_reverse.mp (List.mem_of_find?_eq_some h)

/-- The calls that have returned are those none of whose statements raised. -/
theorem Inv.returned_next (h : Inv column s) (c : SaveCall V P J E) :
    (¬ c.Quiet s.db ∧ s.next column c = s) ∨ (c.Quiet s.db ∧ s.next column c =
      { db := (s.db.saveRun column c.args c.uuid).1, returned := s.returned ++ [c] }) := by
  rcases h.next_cases c with ⟨⟨e, he⟩, hs⟩ | ⟨hok, hs⟩
  · refine .inl ⟨fun hq => ?_, hs⟩
    obtain ⟨saved, hsaved⟩ := SaveCall.save_returns_iff.mpr hq
    exact absurd (hsaved.symm.trans he) (by simp)
  · exact .inr ⟨.of_returned hok, hs⟩

/-- A call that raises changes nothing. -/
theorem Inv.save_error (h : Inv column s) {c : SaveCall V P J E} {e : E}
    (he : (c.save column s.db).2 = .error e) : (c.save column s.db).1 = s.db := by
  rcases c.save_cases h.ids with ⟨e', he'⟩ | hok
  · rw [he']
  · exact absurd (he.symm.trans (congrArg Prod.snd hok)) (by simp)

/-- A call that returns saves under its id and changes no other run. -/
theorem Inv.save_others (h : Inv column s) {c : SaveCall V P J E} {saved : String}
    (hsaved : (c.save column s.db).2 = .ok saved) : saved = c.id ∧ ∀ id, id ≠ saved →
      (c.save column s.db).1.getRun column id = s.db.getRun column id ∧
      (c.save column s.db).1.stepsOf id = s.db.stepsOf id := by
  have hok := SaveCall.save_returned h.ids hsaved
  obtain rfl : saved = c.id := Except.ok.inj (hsaved.symm.trans (congrArg Prod.snd hok))
  refine ⟨rfl, fun id hid => ?_⟩
  have hrows : (c.save column s.db).1.stepsOf id = s.db.stepsOf id := by
    rw [hok, DatabaseWorkflowStorage.saveRun_stepsOf _ _ _ _ h.orphans]
    exact if_neg hid
  refine ⟨?_, hrows⟩
  have hrun : (c.save column s.db).1.runs.get id = s.db.runs.get id := by
    rw [hok, DatabaseWorkflowStorage.saveRun_get]
    exact if_neg hid
  rw [DatabaseWorkflowStorage.getRun, DatabaseWorkflowStorage.getRun, hrun]
  cases hget : s.db.runs.get id with
  | none => rfl
  | some run => rw [Option.map_some, Option.map_some, h.ids id run hget, hrows]

end Saves

end Sequences

end WorkflowEngine
