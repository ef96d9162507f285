import WorkflowEngine.Engine.Replay

/-! The retry loop of one step in closed form.

    `attemptEnd` says how the loop ends: the last outcome, the number of invocations and the params
    mapping left behind. The actions of the loop are all the step's own, and their effect on the
    step's records is a function of that ending alone. -/

namespace WorkflowEngine
open Schemes

/-- How a retry loop ends. -/
structure Ending (V P : Type) where
  value : Except String V
  attempts : ℕ
  params : P

variable {V P : Type}

def Ending.succeeded (o : Ending V P) : Bool := o.value.isOk

/-- The records of a step whose loop has ended with `o`. -/
def StepView.after (w : StepView V P) (s : StepConfig P) (o : Ending V P) : StepView V P :=
  match o.value with
  | .ok res =>
    { w with status := some .completed, result := some res, attemptCount := some o.attempts
             retryCount := some (o.attempts - 1) }
  | .error exc =>
    { w with status := some .failed, error := some exc, attemptCount := some o.attempts
             retryCount := some o.attempts
             deadLetters := w.deadLetters ++ [⟨s.id, s.task, exc, o.attempts, o.params⟩] }

/-- An invocation's number and context. -/
def Action.invoked? : Action V P → Option (ℕ × Context V)
  | .invoke _ n context => some (n, context)
  | _ => none

/-- A status that is set. -/
def Action.status? : Action V P → Option Status
  | .setStatus _ status => some status
  | _ => none

/-- A result that is written. -/
def Action.written? : Action V P → Option V
  | .setResult _ res => some res
  | _ => none

/-- The actions that end a loop. -/
def endActs (s : StepConfig P) (o : Ending V P) : List (Action V P) :=
  match o.value with
  | .ok res => [.setResult s.id res, .setStatus s.id .completed]
  | .error exc => [.setStatus s.id .failed, .setError s.id exc, .deadLetter s.id s.task exc o.params]

variable [PyValue V]

namespace WorkflowExecutor

variable (E : WorkflowExecutor V P)

def attemptEnd (s : StepConfig P) (context : Context V) : ℕ → ℕ → P → Ending V P
  | left, attempt, p =>
    match E.invoke s (attempt + 1) context p with
    | (.ok res, p') => ⟨.ok res, attempt + 1, p'⟩
    | (.error exc, p') =>
      match left with
      | 0 => ⟨.error exc, attempt + 1, p'⟩
      | left + 1 => attemptEnd s context left (attempt + 1) p'

/-- How `_run_with_retry` ends for step `s` on a context. -/
def ending (s : StepConfig P) (context : Context V) : Ending V P :=
  E.attemptEnd s context s.retries 0 s.params

/-! ### One more attempt -/

section Unfold
variable {E} {s : StepConfig P} {context : Context V} {attempt : ℕ} {p p' : P}

theorem attemptLoop_ok {res : V} (h : E.invoke s (attempt + 1) context p = (.ok res, p'))
    (live : Bool) (left : ℕ) :
    E.attemptLoop s context live left attempt p =
      ([.setAttempt s.id (attempt + 1), .invoke s.id (attempt + 1) context,
        .setResult s.id res, .setStatus s.id .completed], true) := by
  cases left <;> simp [attemptLoop, h]

theorem attemptLoop_last {exc : String}
    (h : E.invoke s (attempt + 1) context p = (.error exc, p')) (live : Bool) :
    E.attemptLoop s context live 0 attempt p =
      ([.setAttempt s.id (attempt + 1), .invoke s.id (attempt + 1) context,
        .setRetryCount s.id (attempt + 1), .setStatus s.id .failed, .setError s.id exc,
        .deadLetter s.id s.task exc p'], false) := by
  simp [attemptLoop, h]

theorem attemptLoop_retry {exc : String}
    (h : E.invoke s (attempt + 1) context p = (.error exc, p')) (live : Bool) (left : ℕ) :
    E.attemptLoop s context live (left + 1) attempt p =
      ([.setAttempt s.id (attempt + 1), .invoke s.id (attempt + 1) context,
        .setRetryCount s.id (attempt + 1)] ++
        (if live then [.trace .stepRetry (some s.id) (some (attempt + 1)) []] else []) ++
        .sleep s.id (E.backoff attempt) ::
        (E.attemptLoop s context live left (attempt + 1) p').1,
        (E.attemptLoop s context live left (attempt + 1) p').2) := by
  rw [attemptLoop, h]; simp

theorem attemptEnd_ok {res : V} (h : E.invoke s (attempt + 1) context p = (.ok res, p'))
    (left : ℕ) : E.attemptEnd s context left attempt p = ⟨.ok res, attempt + 1, p'⟩ := by
  cases left <;> simp [attemptEnd, h]

theorem attemptEnd_last {exc : String}
    (h : E.invoke s (attempt + 1) context p = (.error exc, p')) :
    E.attemptEnd s context 0 attempt p = ⟨.error exc, attempt + 1, p'⟩ := by
  simp [attemptEnd, h]

theorem attemptEnd_retry {exc : String}
    (h : E.invoke s (attempt + 1) context p = (.error exc, p')) (left : ℕ) :
    E.attemptEnd s context (left + 1) attempt p =
      E.attemptEnd s context left (attempt + 1) p' := by
  rw [attemptEnd, h]

end Unfold

/-- RETRY LOOP: the rule by which facts about a whole loop follow from its three ways to go on. -/
theorem attempt_induction (s : StepConfig P) (context : Context V)
    {motive : ℕ → ℕ → P → Prop}
    (ok : ∀ left attempt p res p', E.invoke s (attempt + 1) context p = (.ok res, p') →
      motive left attempt p)
    (last : ∀ attempt p exc p', E.invoke s (attempt + 1) context p = (.error exc, p') →
      motive 0 attempt p)
    (retry : ∀ left attempt p exc p', E.invoke s (attempt + 1) context p = (.error exc, p') →
      motive left (attempt + 1) p' → motive (left + 1) attempt p) :
    ∀ left attempt p, motive left attempt p := by
  intro left
  induction left with
  | zero =>
    intro attempt p
    rcases h : E.invoke s (attempt + 1) context p with ⟨exc | res, p'⟩
    · exact last attempt p exc p' h
    · exact ok 0 attempt p res p' h
  | succ left ih =>
    intro attempt p
    rcases h : E.invoke s (attempt + 1) context p with ⟨exc | res, p'⟩
    · exact retry left attempt p exc p' h (ih (attempt + 1) p')
    · exact ok (left + 1) attempt p res p' h

variable (s : StepConfig P) (context : Context V) (live : Bool)

/-! ### The ending -/

theorem attemptEnd_attempts (left attempt : ℕ) (p : P) :
    attempt < (E.attemptEnd s context left attempt p).attempts ∧
      (E.attemptEnd s context left attempt p).attempts ≤ attempt + left + 1 := by
  induction left, attempt, p using E.attempt_induction s context with
  | ok left attempt p res p' h => rw [attemptEnd_ok h]; constructor <;> dsimp only <;> omega
  | last attempt p exc p' h => rw [attemptEnd_last h]; constructor <;> dsimp only <;> omega
  | retry left attempt p exc p' h ih => rw [attemptEnd_retry h]; omega

theorem attemptEnd_error (left attempt : ℕ) (p : P) {exc : String}
    (he : (E.attemptEnd s context left attempt p).value = .error exc) :
    (E.attemptEnd s context left attempt p).attempts = attempt + left + 1 := by
  induction left, attempt, p using E.attempt_induction s context with
  | ok left attempt p res p' h => rw [attemptEnd_ok h] at he; exact absurd he (by simp)
  | last attempt p exc p' h => rw [attemptEnd_last h]
  | retry left attempt p exc p' h ih =>
    rw [attemptEnd_retry h] at he ⊢
    rw [ih he]; omega

theorem ending_attempts : 0 < (E.ending s context).attempts ∧
    (E.ending s context).attempts ≤ s.retries + 1 := by
  have h := E.attemptEnd_attempts s context s.retries 0 s.params
  rw [ending]; omega

theorem ending_error {exc : String} (he : (E.ending s context).value = .error exc) :
    (E.ending s context).attempts = s.retries + 1 := by
  rw [ending, E.attemptEnd_error s context s.retries 0 s.params he]; omega

/-- The loop ends alike on contexts on which the task does the same. -/
theorem attemptEnd_congr {context' : Context V}
    (hc : ∀ n q, E.invoke s n context q = E.invoke s n context' q) (left attempt : ℕ) (p : P) :
    E.attemptEnd s context left attempt p = E.attemptEnd s context' left attempt p := by
  induction left, attempt, p using E.attempt_induction s context with
  | ok left attempt p res p' h => rw [attemptEnd_ok h, attemptEnd_ok ((hc _ _).symm.trans h)]
  | last attempt p exc p' h => rw [attemptEnd_last h, attemptEnd_last ((hc _ _).symm.trans h)]
  | retry left attempt p exc p' h ih =>
    rw [attemptEnd_retry h, attemptEnd_retry ((hc _ _).symm.trans h), ih]

theorem ending_congr {s : StepConfig P} {context context' : Context V}
    (hc : ∀ n q, E.invoke s n context q = E.invoke s n context' q) :
    E.ending s context = E.ending s context' :=
  E.attemptEnd_congr s context hc s.retries 0 s.params

/-! ### The actions of the loop -/

theorem attemptLoop_succeeded (left attempt : ℕ) (p : P) :
    (E.attemptLoop s context live left attempt p).2 =
      (E.attemptEnd s context left attempt p).succeeded := by
  induction left, attempt, p using E.attempt_induction s context with
  | ok left attempt p res p' h => rw [attemptLoop_ok h, attemptEnd_ok h]; rfl
  | last attempt p exc p' h => rw [attemptLoop_last h, attemptEnd_last h]; rfl
  | retry left attempt p exc p' h ih => rw [attemptLoop_retry h, attemptEnd_retry h]; exact ih

theorem runWithRetry_succeeded :
    (E.runWithRetry s context live).2 = (E.ending s context).succeeded :=
  E.attemptLoop_succeeded s context live s.retries 0 s.params

/-- An action of the loop is the step's own, is not the hook, and invokes only on the context. -/
structure LoopAction (s : StepConfig P) (context : Context V) (a : Action V P) : Prop where
  owner : a.owner = some s.id
  noEmit : ∀ id, a ≠ .emit id
  invoke : ∀ id n c, a = .invoke id n c → c = context

theorem attemptLoop_action (left attempt : ℕ) (p : P) :
    ∀ a ∈ (E.attemptLoop s context live left attempt p).1, LoopAction s context a := by
  induction left, attempt, p using E.attempt_induction s context with
  | ok left attempt p res p' h =>
    rw [attemptLoop_ok h]
    intro a ha
    simp only [List.mem_cons, List.not_mem_nil, or_false] at ha
    rcases ha with rfl | rfl | rfl | rfl <;> exact ⟨rfl, by simp, by simp⟩
  | last attempt p exc p' h =>
    rw [attemptLoop_last h]
    intro a ha
    simp only [List.mem_cons, List.not_mem_nil, or_false] at ha
    rcases ha with rfl | rfl | rfl | rfl | rfl | rfl <;> exact ⟨rfl, by simp, by simp⟩
  | retry left attempt p exc p' h ih =>
    rw [attemptLoop_retry h]
    intro a ha
    simp only [List.mem_append, List.mem_cons, List.not_mem_nil, or_false] at ha
    rcases ha with ((rfl | rfl | rfl) | ha) | rfl | ha
    · exact ⟨rfl, by simp, by simp⟩
    · exact ⟨rfl, by simp, by simp⟩
    · exact ⟨rfl, by simp, by simp⟩
    · cases live with
      | false => simp at ha
      | true =>
        simp only [if_true, List.mem_singleton] at ha
        subst ha; exact ⟨rfl, by simp, by simp⟩
    · exact ⟨rfl, by simp, by simp⟩
    · exact ih a ha

theorem runWithRetry_action : ∀ a ∈ (E.runWithRetry s context live).1, LoopAction s context a :=
  E.attemptLoop_action s context live s.retries 0 s.params

/-- A projection that is blind to the attempts sees only how the loop ends. -/
theorem attemptLoop_filterMap {β : Type} {f : Action V P → Option β}
    (hattempt : ∀ n, f (.setAttempt s.id n) = none) (hinvoke : ∀ n, f (.invoke s.id n context) = none)
    (hcount : ∀ n, f (.setRetryCount s.id n) = none) (hsleep : ∀ q, f (.sleep s.id q) = none)
    (htrace : ∀ n, f (.trace .stepRetry (some s.id) n []) = none) (left attempt : ℕ) (p : P) :
    (E.attemptLoop s context live left attempt p).1.filterMap f =
      (endActs s (E.attemptEnd s context left attempt p)).filterMap f := by
  induction left, attempt, p using E.attempt_induction s context with
  | ok left attempt p res p' h =>
    rw [attemptLoop_ok h, attemptEnd_ok h, endActs]
    simp [List.filterMap_cons, hattempt, hinvoke]
  | last attempt p exc p' h =>
    rw [attemptLoop_last h, attemptEnd_last h, endActs]
    simp [List.filterMap_cons, hattempt, hinvoke, hcount]
  | retry left attempt p exc p' h ih =>
    rw [attemptLoop_retry h, attemptEnd_retry h, ← ih]
    cases live <;> simp [hattempt, hinvoke, hcount, hsleep, htrace]

theorem runWithRetry_status : (E.runWithRetry s context live).1.filterMap Action.status? =
    [if (E.ending s context).succeeded then .completed else .failed] := by
  rw [runWithRetry, E.attemptLoop_filterMap s context live (by simp [Action.status?])
    (by simp [Action.status?]) (by simp [Action.status?]) (by simp [Action.status?])
    (by simp [Action.status?]), ← ending, endActs, Ending.succeeded]
  cases (E.ending s context).value <;> rfl

theorem runWithRetry_written : (E.runWithRetry s context live).1.filterMap Action.written? =
    (E.ending s context).value.toOption.toList := by
  rw [runWithRetry, E.attemptLoop_filterMap s context live (by simp [Action.written?])
    (by simp [Action.written?]) (by simp [Action.written?]) (by simp [Action.written?])
    (by simp [Action.written?]), ← ending, endActs]
  cases (E.ending s context).value <;> rfl

/-- The invocations of a loop: numbered on from `attempt`, all on its context. -/
theorem attemptLoop_invoked (left attempt : ℕ) (p : P) :
    (E.attemptLoop s context live left attempt p).1.filterMap Action.invoked? =
      (List.range' (attempt + 1) ((E.attemptEnd s context left attempt p).attempts - attempt)).map
        fun n => (n, context) := by
  induction left, attempt, p using E.attempt_induction s context with
  | ok left attempt p res p' h =>
    rw [attemptLoop_ok h, attemptEnd_ok h]; simp [Action.invoked?, List.filterMap_cons]
  | last attempt p exc p' h =>
    rw [attemptLoop_last h, attemptEnd_last h]; simp [Action.invoked?, List.filterMap_cons]
  | retry left attempt p exc p' h ih =>
    rw [attemptLoop_retry h, attemptEnd_retry h]
    have hb := E.attemptEnd_attempts s context left (attempt + 1) p'
    obtain ⟨k, hk⟩ := Nat.exists_eq_add_of_le (Nat.le_of_lt hb.1)
    rw [hk] at ih ⊢
    have hsub : attempt + 1 + k - attempt = (attempt + 1 + k - (attempt + 1)) + 1 := by omega
    rw [hsub, List.range'_succ, List.map_cons, ← ih]
    cases live <;> simp [Action.invoked?, List.filterMap_cons]

theorem runWithRetry_invoked :
    (E.runWithRetry s context live).1.filterMap Action.invoked? =
      (List.range' 1 (E.ending s context).attempts).map fun n => (n, context) := by
  simpa [runWithRetry, ending] using E.attemptLoop_invoked s context live s.retries 0 s.params

/-- The retry events up to invocation `n`. -/
def retryEvents (s : StepConfig P) (attempt n : ℕ) : List Logged :=
  (List.range' (attempt + 1) n).map fun k => ⟨.stepRetry, some s.id, some k, []⟩

/-- The events of a loop: live, one retry for each failed attempt but the last; otherwise none. -/
theorem attemptLoop_events (left attempt : ℕ) (p : P) :
    (E.attemptLoop s context live left attempt p).1.filterMap Action.event? =
      if live then
        retryEvents s attempt ((E.attemptEnd s context left attempt p).attempts - 1 - attempt)
      else [] := by
  induction left, attempt, p using E.attempt_induction s context with
  | ok left attempt p res p' h =>
    rw [attemptLoop_ok h, attemptEnd_ok h]
    cases live <;> simp [Action.event?, List.filterMap_cons, retryEvents]
  | last attempt p exc p' h =>
    rw [attemptLoop_last h, attemptEnd_last h]
    cases live <;> simp [Action.event?, List.filterMap_cons, retryEvents]
  | retry left attempt p exc p' h ih =>
    rw [attemptLoop_retry h, attemptEnd_retry h]
    cases live with
    | false => simpa [Action.event?, List.filterMap_cons] using ih
    | true =>
      have hb := E.attemptEnd_attempts s context left (attempt + 1) p'
      obtain ⟨k, hk⟩ := Nat.exists_eq_add_of_le (Nat.succ_le_of_lt hb.1)
      rw [hk] at ih ⊢
      have hsub : (attempt + 1).succ + k - 1 - attempt =
          ((attempt + 1).succ + k - 1 - (attempt + 1)) + 1 := by omega
      rw [hsub, retryEvents, List.range'_succ, List.map_cons]
      simpa [Action.event?, List.filterMap_cons, retryEvents] using ih

theorem runWithRetry_events :
    (E.runWithRetry s context live).1.filterMap Action.event? =
      if live then retryEvents s 0 ((E.ending s context).attempts - 1) else [] := by
  simpa [runWithRetry, ending] using E.attemptLoop_events s context live s.retries 0 s.params

/-- RECORDS: what the loop writes is determined by its ending. -/
theorem attemptLoop_view (left attempt : ℕ) (p : P) (w : StepView V P)
    (hw : w.retryCount = some attempt) :
    (E.attemptLoop s context live left attempt p).1.foldl (StepView.act E) w =
      w.after s (E.attemptEnd s context left attempt p) := by
  induction left, attempt, p using E.attempt_induction s context generalizing w with
  | ok left attempt p res p' h =>
    rw [attemptLoop_ok h, attemptEnd_ok h]
    simp [StepView.act, StepView.after, hw]
  | last attempt p exc p' h =>
    rw [attemptLoop_last h, attemptEnd_last h]
    simp [StepView.act, StepView.after]
  | retry left attempt p exc p' h ih =>
    rw [attemptLoop_retry h, attemptEnd_retry h]
    have hrest := ih { w with attemptCount := some (attempt + 1), retryCount := some (attempt + 1) } rfl
    have hover : StepView.after
        { w with attemptCount := some (attempt + 1), retryCount := some (attempt + 1) } s
        (E.attemptEnd s context left (attempt + 1) p') =
        w.after s (E.attemptEnd s context left (attempt + 1) p') := by
      unfold StepView.after; split <;> rfl
    rw [hover] at hrest
    cases live <;> simpa [StepView.act] using hrest

theorem runWithRetry_view (w : StepView V P) (hw : w.retryCount = some 0) :
    (E.runWithRetry s context live).1.foldl (StepView.act E) w = w.after s (E.ending s context) :=
  E.attemptLoop_view s context live s.retries 0 s.params w hw

end WorkflowExecutor

end WorkflowEngine
