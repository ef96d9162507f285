import WorkflowEngine.Storage.Interchange
import WorkflowEngine.Storage.Json
import WorkflowEngine.Storage.Transactions

/-! Dead letters in the JSON column.

    A dead letter is a JSON object: its texts and its count are kept (a step that fails has made at
    most 1025 attempts), and its params go through the encoder. What cannot be encoded raises when
    the session is committed, and the whole run is rolled back; what can be encoded may come back as
    something else. In memory the letters are kept as they are. -/

namespace WorkflowEngine
open Schemes

variable {V E : Type}

/-- The letter with other params. -/
def DeadLetter.withParams {P P' : Type} (dl : DeadLetter P) (params : P') : DeadLetter P' :=
  ⟨dl.stepId, dl.task, dl.error, dl.attempts, params⟩

/-- Dead letters on their way into the JSON column, each with what the encoder makes of its params
    or raises. Where it raises the letters are not committed. -/
abbrev LetterColumn := List (DeadLetter (Except String Json))

section Column
variable (floatText : UInt64 → String) (limit : ℕ)

def DeadLetter.encode (dl : DeadLetter Value) : DeadLetter (Except String Json) :=
  dl.withParams (dl.params.encode floatText limit)

def DeadLetter.decode (dl : DeadLetter (Except String Json)) : DeadLetter Value :=
  match dl.params with
  | .ok params => dl.withParams params.decode
  | .error _ => dl.withParams (.scalar .null)

/-- `Column(JSON)`: `json.dumps` of the list, and `json.loads`. -/
def jsonColumn : JsonColumn LetterColumn Value where
  dump letters := letters.map fun dl => dl.encode floatText limit
  load letters := letters.map DeadLetter.decode

/-- What `json.dumps` raises on these letters. -/
def dumpError? (letters : List (DeadLetter Value)) : Option String :=
  letters.findSome? fun dl =>
    match dl.params.encode floatText limit with
    | .ok _ => none
    | .error e => some e

/-- A letter comes back as it was exactly if its params are plain. -/
theorem DeadLetter.decode_encode (dl : DeadLetter Value) :
    (dl.encode floatText limit).decode = dl ↔ dl.params.Plain limit := by
  rw [← roundTrips_iff_plain floatText]
  cases henc : dl.params.encode floatText limit with
  | ok j =>
    have hdecode : (dl.encode floatText limit).decode = dl.withParams j.decode := by
      rw [decode, encode, withParams, henc]; rfl
    rw [hdecode]
    constructor
    · intro h
      exact ⟨j, henc, congrArg DeadLetter.params h⟩
    · rintro ⟨j', hj', hdec⟩
      obtain rfl : j = j' := Except.ok.inj (henc.symm.trans hj')
      rw [hdec]; rfl
  | error e =>
    refine iff_of_false (fun h => ?_) fun ⟨j, hj, _⟩ => absurd (henc.symm.trans hj) (by simp)
    have hdecode : (dl.encode floatText limit).decode = dl.withParams (.scalar .null) := by
      rw [decode, encode, withParams, henc]; rfl
    have hnull : dl.params = .scalar .null := congrArg DeadLetter.params (h.symm.trans hdecode)
    rw [hnull] at henc
    exact absurd henc (by simp [Value.encode, Scalar.encode])

/-- The letters come back as they were exactly if their params are plain. -/
theorem dump_load (letters : List (DeadLetter Value)) :
    (jsonColumn floatText limit).load ((jsonColumn floatText limit).dump letters) = letters ↔
      ∀ dl ∈ letters, dl.params.Plain limit := by
  induction letters with
  | nil => exact iff_of_true rfl (by simp)
  | cons dl letters ih =>
    rw [List.forall_mem_cons, ← ih, ← dl.decode_encode floatText limit]
    exact List.cons_eq_cons

/-- Params that do not survive the encoder take nothing else of a letter with them. -/
theorem jsonColumn_keepsFailures : (jsonColumn floatText limit).KeepsFailures := by
  intro letters
  change ((letters.map _).map _).map _ = _
  rw [List.map_map, List.map_map]
  refine List.map_congr_left fun dl _ => ?_
  rw [Function.comp_apply, Function.comp_apply, DeadLetter.decode]
  split <;> rfl

/-- Plain letters are encoded. -/
theorem dumpError?_plain {letters : List (DeadLetter Value)}
    (h : ∀ dl ∈ letters, dl.params.Plain limit) : dumpError? floatText limit letters = none := by
  refine List.findSome?_eq_none_iff.mpr fun dl hdl => ?_
  obtain ⟨j, hj, -⟩ := (roundTrips_iff_plain floatText limit dl.params).mpr (h dl hdl)
  rw [hj]

end Column

/-! ### Calls of `save_run` -/

section Calls
variable {floatText : UInt64 → String} {limit : ℕ}

/-- A call of `save_run`: letters that cannot be encoded make the commit raise. -/
structure LetterSave (floatText : UInt64 → String) (limit : ℕ) (V E : Type) extends
    SaveCall V Value LetterColumn E where
  refused : dumpError? floatText limit (args.deadLetters.getD []) ≠ none → faults .commit ≠ none

variable [PyValue V]

/-- A new database after these calls. -/
def savedBy (calls : List (LetterSave floatText limit V E)) : Saves V Value LetterColumn E :=
  Saves.after (jsonColumn floatText limit) (calls.map LetterSave.toSaveCall)

theorem savedBy_concat (calls : List (LetterSave floatText limit V E))
    (c : LetterSave floatText limit V E) :
    savedBy (calls ++ [c]) = (savedBy calls).next (jsonColumn floatText limit) c.toSaveCall := by
  rw [savedBy, Saves.after, List.map_append, List.foldl_append]; rfl

theorem inv_savedBy (calls : List (LetterSave floatText limit V E)) :
    (savedBy calls).Inv (jsonColumn floatText limit) :=
  Saves.inv_after (jsonColumn floatText limit) _

/-- The dead letters that a call saves are plain. -/
def PlainLetters (limit : ℕ) (c : SaveCall V Value LetterColumn E) : Prop :=
  ∀ dl ∈ c.args.deadLetters.getD [], dl.params.Plain limit

/-- Where all calls that have returned saved plain letters, every run is shown as it was saved. -/
theorem shown_of_plain {calls : List (LetterSave floatText limit V E)}
    (h : ∀ c ∈ (savedBy calls).returned, PlainLetters limit c) :
    (savedBy calls).Shows (jsonColumn floatText limit) id :=
  (inv_savedBy calls).shows.congr.mpr fun _ c hc =>
    (dump_load floatText limit _).mpr (h c (Saves.mem_of_last hc))

/-- A call that saves other letters spoils what is shown. -/
theorem spoilt_of_returned {calls : List (LetterSave floatText limit V E)}
    {c : LetterSave floatText limit V E} (hquiet : c.Quiet (savedBy calls).db)
    (hplain : ¬ PlainLetters limit c.toSaveCall) :
    ¬ (savedBy (calls ++ [c])).Shows (jsonColumn floatText limit) id := by
  intro hshown
  refine hplain ((dump_load floatText limit _).mp ?_)
  refine (inv_savedBy (calls ++ [c])).shows.congr.mp hshown c.id c.toSaveCall ?_
  rcases (inv_savedBy calls).returned_next c.toSaveCall with ⟨hq, -⟩ | ⟨-, hnext⟩
  · exact absurd hquiet hq
  · rw [savedBy_concat, hnext, Saves.last_concat]
    exact if_pos rfl

/-- SPEC: saving a run is atomic and replaces the whole run. -/
structure AtomicSaves (calls : List (LetterSave floatText limit V E)) : Prop where
  shown : ∀ before, before <+: calls →
    (savedBy before).Shows (jsonColumn floatText limit) id
  raising : ∀ before c, before ++ [c] <+: calls → ∀ e,
    (c.save (jsonColumn floatText limit) (savedBy before).db).2 = .error e →
    (savedBy (before ++ [c])).db = (savedBy before).db
  others : ∀ before c, before ++ [c] <+: calls → ∀ saved,
    (c.save (jsonColumn floatText limit) (savedBy before).db).2 = .ok saved → ∀ id, id ≠ saved →
    (savedBy (before ++ [c])).db.getRun (jsonColumn floatText limit) id =
      (savedBy before).db.getRun (jsonColumn floatText limit) id ∧
    (savedBy (before ++ [c])).db.stepsOf id = (savedBy before).db.stepsOf id

theorem db_savedBy_concat (calls : List (LetterSave floatText limit V E))
    (c : LetterSave floatText limit V E) : (savedBy (calls ++ [c])).db =
      (c.save (jsonColumn floatText limit) (savedBy calls).db).1 := by
  rw [savedBy_concat, Saves.next]

/-- EXACT (atomic, and the whole run): in any calls of `save_run`, each of which may raise at any
    statement, saves are atomic and replace whole runs if and only if every call none of whose
    statements raises saves plain letters. In any case every run is shown as the last save of it
    that returned left it but for its dead letters, which are shown as the column gives them back; a
    call that raises changes nothing, a call that returns changes no other run, and a call none of
    whose statements raises returns. -/
theorem atomicSaves_iff (calls : List (LetterSave floatText limit V E)) :
    (AtomicSaves calls ↔ History.Each
      (fun before c => c.Quiet (savedBy before).db → PlainLetters limit c.toSaveCall) calls) ∧
    (savedBy calls).Shows (jsonColumn floatText limit) (fun letters =>
      (jsonColumn floatText limit).load ((jsonColumn floatText limit).dump letters)) ∧
    ∀ c : LetterSave floatText limit V E,
      (∀ e, (c.save (jsonColumn floatText limit) (savedBy calls).db).2 = .error e →
        (savedBy (calls ++ [c])).db = (savedBy calls).db) ∧
      (∀ saved, (c.save (jsonColumn floatText limit) (savedBy calls).db).2 = .ok saved →
        saved = c.id ∧ ∀ id, id ≠ saved →
          (savedBy (calls ++ [c])).db.getRun (jsonColumn floatText limit) id =
            (savedBy calls).db.getRun (jsonColumn floatText limit) id ∧
          (savedBy (calls ++ [c])).db.stepsOf id = (savedBy calls).db.stepsOf id) ∧
      ((∃ saved, (c.save (jsonColumn floatText limit) (savedBy calls).db).2 = .ok saved) ↔
        c.Quiet (savedBy calls).db) := by
  have hshown : (∀ before, before <+: calls →
      (savedBy before).Shows (jsonColumn floatText limit) id) ↔ History.Each
      (fun before c => c.Quiet (savedBy before).db → PlainLetters limit c.toSaveCall) calls := by
    refine History.each_iff_good (fun _ => True)
      (fun before => ∀ c ∈ (savedBy before).returned, PlainLetters limit c)
      (fun _ _ _ => trivial) (fun c hc => absurd hc List.not_mem_nil) (fun _ => shown_of_plain)
      (fun before c _ hplain hc => ?_) (fun before c _ _ hc => ?_) calls trivial
    · rcases (inv_savedBy before).returned_next c.toSaveCall with ⟨-, hnext⟩ | ⟨hquiet, hnext⟩
      · rwa [savedBy_concat, hnext]
      · rw [savedBy_concat, hnext]
        exact List.forall_mem_append.mpr ⟨hplain, List.forall_mem_singleton.mpr (hc hquiet)⟩
    · obtain ⟨hquiet, hletters⟩ := Classical.not_imp.mp hc
      exact spoilt_of_returned hquiet hletters
  refine ⟨⟨fun h => hshown.mp h.shown, fun h => ⟨hshown.mpr h, ?_, ?_⟩⟩, ?_, fun c => ⟨?_, ?_, ?_⟩⟩
  · intro before c _ e he
    rw [db_savedBy_concat, (inv_savedBy before).save_error he]
  · intro before c _ saved hsaved
    rw [db_savedBy_concat]
    exact ((inv_savedBy before).save_others hsaved).2
  · exact (inv_savedBy calls).shows
  · intro e he
    rw [db_savedBy_concat, (inv_savedBy calls).save_error he]
  · rw [db_savedBy_concat]
    exact fun saved hsaved => (inv_savedBy calls).save_others hsaved
  · exact SaveCall.save_returns_iff

/-! ### An example -/

/-- A dead letter whose params have an integer key below the top. -/
def codesLetter : DeadLetter Value where
  stepId := "call"
  task := "call"
  error := "down"
  attempts := 1
  params := .map [(.str "codes", .map [(.int 404, .scalar (.str "retry"))])]

theorem codesLetter_encoded (floatText : UInt64 → String) (limit : ℕ) :
    dumpError? floatText (limit + 2) [codesLetter] = none := by
  have hkey : strInt 404 = .ok (toString (404 : ℤ)) :=
    strInt_ok (lt_digitLimit (by decide : 3 ≤ 4300) (by decide))
  simp [dumpError?, codesLetter, Value.encode, encodeEntries, nested, Scalar.keyText,
    Scalar.encode, hkey, Except.map]

theorem codesLetter_not_plain (limit : ℕ) : ¬ codesLetter.params.Plain limit := by
  intro h
  cases h with
  | map _ _ values =>
    cases values _ List.mem_cons_self with
    | map keys =>
      obtain ⟨text, htext⟩ := keys _ List.mem_cons_self
      exact absurd htext (by simp)

/-- A call none of whose statements raises, with a thousand levels left to encode its letter. -/
def codesSave : LetterSave (fun _ => "") 1000 String String where
  args := { workflowName := "codes", yamlDefinition := "name: codes", runId := some "r1",
            statuses := Dict.ofList [("call", .failed)], deadLetters := some [codesLetter] }
  uuid := ""
  refused h := absurd (codesLetter_encoded _ 998) h

/-- The letter comes back with the key "404". -/
theorem codesSave_not_atomic : ¬ AtomicSaves [codesSave] := by
  intro h
  have hplain : ¬ PlainLetters 1000 codesSave.toSaveCall :=
    fun hall => codesLetter_not_plain 1000 (hall codesLetter List.mem_cons_self)
  have hshown := h.shown ([] ++ [codesSave]) (List.prefix_refl _)
  exact spoilt_of_returned (fun _ _ => rfl) hplain hshown

end Calls

/-! ### Saving a run -/

section Save
variable [PyValue V] (floatText : UInt64 → String) (limit : ℕ)

/-- The call of `save_run` for a returned execution. The commit raises if the dead letters cannot be
    encoded; `left` is what the transaction had written by then. -/
def savingLetters (left : DatabaseWorkflowStorage LetterColumn) (run : FinishedRun V Value) :
    LetterSave floatText limit V String where
  args := run.args
  uuid := run.uuid
  faults
    | .commit => (dumpError? floatText limit run.records.deadLetters).map fun e => ⟨e, left⟩
    | _ => none
  refused h := by simpa [FinishedRun.args] using h

/-- SPEC: the save returns, and the run's dead letters are found as the executor left them. -/
structure LettersSurvive (left db : DatabaseWorkflowStorage LetterColumn)
    (run : FinishedRun V Value) : Prop where
  saved : ((savingLetters floatText limit left run).save (jsonColumn floatText limit) db).2 =
    .ok run.id
  shown : ∃ r, ((savingLetters floatText limit left run).save (jsonColumn floatText limit)
    db).1.getRun (jsonColumn floatText limit) run.id = some r ∧
    r.deadLetters = run.records.deadLetters
  found : ((savingLetters floatText limit left run).save (jsonColumn floatText limit)
    db).1.getDeadLetters (jsonColumn floatText limit) (some run.id) =
    run.records.deadLetters.map fun dl => ⟨dl, none⟩

variable {floatText limit} {left db : DatabaseWorkflowStorage LetterColumn}
  {run : FinishedRun V Value}

/-- What the database finds after a save: what the column gives back. -/
theorem found_saved (db : DatabaseWorkflowStorage LetterColumn) (run : FinishedRun V Value)
    (column : JsonColumn LetterColumn Value) :
    (∃ r, (db.saveRun column run.args run.uuid).1.getRun column run.id = some r ∧
      r.deadLetters = column.load (column.dump run.records.deadLetters)) ∧
    (db.saveRun column run.args run.uuid).1.getDeadLetters column (some run.id) =
      (column.load (column.dump run.records.deadLetters)).map fun dl => ⟨dl, none⟩ := by
  have hrow : (db.saveRun column run.args run.uuid).1.runs.get run.id =
      some (run.args.runRow column run.id) :=
    (DatabaseWorkflowStorage.saveRun_get ..).trans (if_pos rfl)
  refine ⟨⟨_, congrArg (Option.map _) hrow, rfl⟩, ?_⟩
  rw [DatabaseWorkflowStorage.getDeadLetters, hrow]
  rfl

/-- On tables whose rows carry their keys, the letters survive exactly if their params are plain. -/
theorem survive_iff_plain (hids : ∀ id row, db.runs.get id = some row → row.id = id) :
    LettersSurvive floatText limit left db run ↔
      ∀ dl ∈ run.records.deadLetters, dl.params.Plain limit := by
  have hsaved : ∀ saved, ((savingLetters floatText limit left run).save
      (jsonColumn floatText limit) db).2 = .ok saved →
      (savingLetters floatText limit left run).save (jsonColumn floatText limit) db =
        ((db.saveRun (jsonColumn floatText limit) run.args run.uuid).1, .ok run.id) :=
    fun _ => SaveCall.save_returned hids
  obtain ⟨⟨r, hr, hletters⟩, hfound⟩ := found_saved db run (jsonColumn floatText limit)
  rw [← dump_load floatText]
  constructor
  · intro h
    obtain ⟨r', hr', hletters'⟩ := h.shown
    rw [hsaved _ h.saved] at hr'
    obtain rfl := Option.some.inj (hr.symm.trans hr')
    exact hletters.symm.trans hletters'
  · intro h
    have hquiet : (savingLetters floatText limit left run).Quiet db := by
      have hnone := dumpError?_plain floatText limit ((dump_load floatText limit _).mp h)
      intro st _
      cases st <;> simp [savingLetters, hnone]
    obtain ⟨saved, hreturned⟩ := SaveCall.save_returns_iff.mpr hquiet
    rw [h] at hletters hfound
    refine ⟨?_, ?_, ?_⟩
    · rw [hsaved _ hreturned]
    · rw [hsaved _ hreturned]; exact ⟨r, hr, hletters⟩
    · rw [hsaved _ hreturned]; exact hfound

/-- EXACT (dead letters): after any calls of `save_run`, a run is saved in the database with the dead
    letters that the executor left if and only if their params are plain; in memory it always is. -/
theorem lettersSurvive_iff (floatText : UInt64 → String) (limit : ℕ)
    (calls : List (SaveCall V Value LetterColumn String))
    (left : DatabaseWorkflowStorage LetterColumn) (run : FinishedRun V Value) :
    (LettersSurvive floatText limit left
        (Saves.after (jsonColumn floatText limit) calls).db run ↔
      ∀ dl ∈ run.records.deadLetters, dl.params.Plain limit) ∧
    ∀ memory : InMemoryWorkflowStorage Value,
      (∃ r, (memory.saveRun run.args run.uuid).1.getRun run.id = some r ∧
        r.deadLetters = run.records.deadLetters) ∧
      (memory.saveRun run.args run.uuid).1.getDeadLetters (some run.id) =
        run.records.deadLetters.map fun dl => ⟨dl, none⟩ := by
  refine ⟨survive_iff_plain (Saves.inv_after (jsonColumn floatText limit) calls).ids,
    fun memory => ?_⟩
  have hrecord : (memory.saveRun run.args run.uuid).1.records.get run.id =
      some (run.args.record run.id) :=
    (InMemoryWorkflowStorage.saveRun_get ..).trans (if_pos rfl)
  refine ⟨⟨_, hrecord, rfl⟩, ?_⟩
  rw [InMemoryWorkflowStorage.getDeadLetters, hrecord]
  rfl

end Save

/-! ### A lost run -/

/-- A step whose params hold a date, and whose task fails. -/
def dated : WorkflowExecutor String Value where
  config :=
    { name := "dated"
      steps := [{ id := "load", task := "load", retries := 0
                  params := .map [(.str "day", .scalar (.date 739617))] }]
      uniqueStepIds := by decide }
  taskRegistry := Dict.ofList [("load", { call := fun _ _ _ p => (.error "no data", p) })]

/-- The day of the first dead letter. -/
def letterDay? : List (DeadLetter Value) → Option ℤ
  | dl :: _ =>
    match dl.params with
    | .map ((_, .scalar (.date day)) :: _) => some day
    | _ => none
  | [] => none

theorem not_plain_of_day {letters : List (DeadLetter Value)} {day : ℤ}
    (h : letterDay? letters = some day) (limit : ℕ) :
    ¬ ∀ dl ∈ letters, dl.params.Plain limit := by
  intro hall
  unfold letterDay? at h
  split at h
  · next dl rest =>
    have hplain := hall dl List.mem_cons_self
    split at h
    · next hparams =>
      rw [hparams] at hplain
      cases hplain with
      | map _ _ values =>
        cases values _ List.mem_cons_self with
        | scalar hdate => exact hdate
    · exact absurd h (by simp)
  · exact absurd h (by simp)

/-- The run is lost: its save raises. -/
theorem dated_lost : ∃ run : FinishedRun String Value, run.executor = dated ∧
    ∀ limit, ¬ LettersSurvive (fun _ => "") limit {} {} run := by
  obtain ⟨σ, hσ, hp⟩ := WorkflowExecutor.finishes_of_runMoves (E := dated) [.main, .main]
    (p := fun σ => decide (letterDay? σ.deadLetters = some 739617)) rfl
  let run : FinishedRun String Value := ⟨dated, rfl, σ, hσ, "", some "r1", none, ""⟩
  refine ⟨run, rfl, fun limit h => not_plain_of_day (of_decide_eq_true hp) limit ?_⟩
  exact (survive_iff_plain fun _ _ hrow => absurd hrow (by simp)).mp h

end WorkflowEngine
