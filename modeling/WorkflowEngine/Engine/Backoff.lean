import WorkflowEngine.Engine.RetryLoop

/-! The retry loop with what its `except` block may raise.

    `0.5 * (2**attempt)` converts the integer `2**attempt` to a float before `min` caps the product,
    and the conversion raises once the integer is `2^1024` or more. The log messages are made with
    `max_retries + 1`, which has no text from `10^4300` on. What raises inside the `except` block
    leaves `_run_with_retry`: no status, no error and no dead letter is written any more. The sleep
    is the function the executor was given, and may raise as well. -/

namespace WorkflowEngine
open Schemes

variable {V P : Type}

/-- What a loop does in time: its invocations by number, and its sleeps. -/
def Action.pace? : Action V P → Option (ℕ ⊕ ℚ)
  | .invoke _ n _ => some (.inl n)
  | .sleep _ seconds => some (.inr seconds)
  | _ => none

namespace WorkflowExecutor

variable (E : WorkflowExecutor V P)

/-- The first integer that has no float: converting it raises `OverflowError`. -/
@[irreducible] def floatLimit : ℕ := 2 ^ 1024

theorem floatLimit_le_pow {k : ℕ} : floatLimit ≤ 2 ^ k ↔ 1024 ≤ k := by
  unfold floatLimit
  generalize 1024 = n
  exact Nat.pow_le_pow_iff_right Nat.one_lt_two

/-- `min(0.5 * (2**attempt), max_backoff)`. Up to `2^1023` the conversion and the product are exact. -/
def backoffFloat (attempt : ℕ) : Except String ℚ :=
  if floatLimit ≤ 2 ^ attempt then .error "int too large to convert to float"
  else .ok (min (2 ^ attempt / 2) E.maxBackoff)

variable (sleepFn : ℚ → Except String Unit) (s : StepConfig P)

/-- `max_retries + 1`, as both log messages have it. -/
def attemptsText : Except String String := strInt (s.retries + 1 : ℕ)

theorem attemptsText_ok {s : StepConfig P} (h : s.retries + 1 < digitLimit) :
    ∃ text, attemptsText s = .ok text :=
  ⟨_, strInt_ok (by rwa [Int.natAbs_natCast])⟩

theorem attemptsText_error {s : StepConfig P} (h : digitLimit ≤ s.retries + 1) :
    ∃ e, attemptsText s = .error e :=
  strInt_error (by rwa [Int.natAbs_natCast])

/-- The delay after attempt number `attempt`, once it has been logged and slept. -/
def pause (attempt : ℕ) : Except String ℚ := do
  let backoff ← E.backoffFloat attempt
  let _ ← attemptsText s
  sleepFn backoff
  .ok backoff

variable {s}

theorem backoffFloat_short {k : ℕ} (hk : k < 1024) : E.backoffFloat k = .ok (E.backoff k) :=
  if_neg fun h => absurd (floatLimit_le_pow.1 h) (Nat.not_le.2 hk)

/-- Where the conversion and the message cannot raise, the sleep alone decides. -/
theorem pause_eq {k : ℕ} (hk : k < 1024) (hprint : s.retries + 1 < digitLimit) :
    E.pause sleepFn s k = (sleepFn (E.backoff k)).bind fun _ => .ok (E.backoff k) := by
  obtain ⟨text, htext⟩ := attemptsText_ok hprint
  rw [pause, E.backoffFloat_short hk, htext]
  rfl

theorem pause_short {k : ℕ} (hk : k < 1024) (hprint : s.retries + 1 < digitLimit)
    (hsleep : sleepFn (min (2 ^ k / 2) E.maxBackoff) = .ok ()) :
    E.pause sleepFn s k = .ok (E.backoff k) := by
  rw [E.pause_eq sleepFn hk hprint, backoff, hsleep]
  rfl

theorem pause_long {k : ℕ} (hk : 1024 ≤ k) : ∃ e, E.pause sleepFn s k = .error e := by
  have hb : E.backoffFloat k = .error "int too large to convert to float" :=
    if_pos (floatLimit_le_pow.2 hk)
  exact ⟨_, by rw [pause, hb]; rfl⟩

/-- From there on the message cannot be made, if the loop comes to it. -/
theorem pause_unprintable (hprint : digitLimit ≤ s.retries + 1) (k : ℕ) :
    ∃ e, E.pause sleepFn s k = .error e := by
  obtain ⟨e, he⟩ := attemptsText_error hprint
  rcases Nat.lt_or_ge k 1024 with hk | hk
  · exact ⟨e, by rw [pause, E.backoffFloat_short hk, he]; rfl⟩
  · exact E.pause_long sleepFn hk

theorem pause_refused {k : ℕ} (h : sleepFn (min (2 ^ k / 2) E.maxBackoff) ≠ .ok ()) :
    ∃ e, E.pause sleepFn s k = .error e := by
  rcases Nat.lt_or_ge k 1024 with hk | hk
  · rcases Nat.lt_or_ge (s.retries + 1) digitLimit with hprint | hprint
    · cases hs : sleepFn (E.backoff k) with
      | ok u => exact absurd hs h
      | error e =>
        refine ⟨e, ?_⟩
        rw [E.pause_eq sleepFn hk hprint, hs]
        rfl
    · exact E.pause_unprintable sleepFn hprint k
  · exact E.pause_long sleepFn hk

variable [PyValue V] (s) (context : Context V)

/-- `attemptLoop` with what the `except` block raises. -/
def attemptLoopFloat (emitTrace : Bool) : ℕ → ℕ → P → List (Action V P) × Except String Bool
  | left, attempt, p =>
    let tried : List (Action V P) :=
      [.setAttempt s.id (attempt + 1), .invoke s.id (attempt + 1) context]
    match E.invoke s (attempt + 1) context p with
    | (.ok res, _) => (tried ++ [.setResult s.id res, .setStatus s.id .completed], .ok true)
    | (.error exc, p') =>
      match left with
      | 0 =>
        match attemptsText s with
        | .error e => (tried ++ [.setRetryCount s.id (attempt + 1)], .error e)
        | .ok _ =>
          (tried ++ [.setRetryCount s.id (attempt + 1), .setStatus s.id .failed,
            .setError s.id exc, .deadLetter s.id s.task exc p'], .ok false)
      | left + 1 =>
        let retry : List (Action V P) :=
          if emitTrace then [.trace .stepRetry (some s.id) (some (attempt + 1)) []] else []
        let handled := tried ++ .setRetryCount s.id (attempt + 1) :: retry
        match E.pause sleepFn s attempt with
        | .error e => (handled, .error e) -- leaves the `except` block
        | .ok backoff =>
          let rest := attemptLoopFloat emitTrace left (attempt + 1) p'
          (handled ++ .sleep s.id backoff :: rest.1, rest.2)

/-- `_run_with_retry`: the actions performed, and what it returns or raises. -/
def runWithRetryFloat (emitTrace : Bool) : List (Action V P) × Except String Bool :=
  E.attemptLoopFloat sleepFn s context emitTrace s.retries 0 s.params

/-! ### The pattern of successes and failures -/

/-- The params mapping that the first `k` invocations leave behind. -/
def paramsAt : ℕ → P
  | 0 => s.params
  | k + 1 => (E.invoke s (k + 1) context (paramsAt k)).2

/-- Attempt number `k`, counted from zero, raises. -/
def Fails (k : ℕ) : Prop :=
  ∃ exc, (E.invoke s (k + 1) context (E.paramsAt s context k)).1 = .error exc

/-- The invocations and sleeps of a step that is retried `n` times. -/
def pacing (n : ℕ) : List (ℕ ⊕ ℚ) :=
  .inl 1 :: (List.range n).flatMap fun k => [.inr (min (2 ^ k / 2) E.maxBackoff), .inl (k + 2)]

/-- SPEC: a failing task never breaks the run. -/
structure RetriesSafely (emitTrace : Bool) : Prop where
  returned : ∃ b, (E.runWithRetryFloat sleepFn s context emitTrace).2 = .ok b ∧
    (b = true ↔ ∃ k ≤ s.retries, ¬ E.Fails s context k)
  paced : ∃ n ≤ s.retries,
    (E.runWithRetryFloat sleepFn s context emitTrace).1.filterMap Action.pace? = E.pacing n
  exhausted : (∀ k ≤ s.retries, E.Fails s context k) → ∀ σ : RunState V P,
    (E.acts σ (E.runWithRetryFloat sleepFn s context emitTrace).1).statuses.get s.id =
        some .failed ∧
      ∃ exc p, (E.acts σ (E.runWithRetryFloat sleepFn s context emitTrace).1).deadLetters =
        σ.deadLetters ++ [⟨s.id, s.task, exc, s.retries + 1, p⟩]

/-- The pauses the loop comes to are short of `2^1024`, their messages have texts, and the sleep
    takes their delays. -/
structure Patient : Prop where
  short : s.retries ≤ 1024 ∨ ∃ k ≤ 1024, ¬ E.Fails s context k
  printable : s.retries + 1 < digitLimit ∨ ¬ E.Fails s context 0
  slept : ∀ k < s.retries, (∀ j ≤ k, E.Fails s context j) →
    sleepFn (min (2 ^ k / 2) E.maxBackoff) = .ok ()

/-! ### One more attempt -/

section Unfold
variable {E} {s} {context} {sleepFn} {attempt : ℕ} {p p' : P}

theorem attemptLoopFloat_ok {res : V} (h : E.invoke s (attempt + 1) context p = (.ok res, p'))
    (live : Bool) (left : ℕ) :
    E.attemptLoopFloat sleepFn s context live left attempt p =
      ((E.attemptLoop s context live left attempt p).1, .ok true) := by
  cases left <;> simp [attemptLoopFloat, attemptLoop, h]

theorem attemptLoopFloat_last {exc : String}
    (h : E.invoke s (attempt + 1) context p = (.error exc, p'))
    (hprint : s.retries + 1 < digitLimit) (live : Bool) :
    E.attemptLoopFloat sleepFn s context live 0 attempt p =
      ((E.attemptLoop s context live 0 attempt p).1, .ok false) := by
  obtain ⟨text, htext⟩ := attemptsText_ok hprint
  simp [attemptLoopFloat, attemptLoop, h, htext]

theorem attemptLoopFloat_raised {exc e : String}
    (h : E.invoke s (attempt + 1) context p = (.error exc, p'))
    (he : E.pause sleepFn s attempt = .error e) (live : Bool) (left : ℕ) :
    (E.attemptLoopFloat sleepFn s context live (left + 1) attempt p).2 = .error e := by
  rw [attemptLoopFloat, h]; simp [he]

/-- Where the messages cannot be made, the first failure ends the loop. -/
theorem attemptLoopFloat_unprintable {exc : String}
    (h : E.invoke s (attempt + 1) context p = (.error exc, p'))
    (hprint : digitLimit ≤ s.retries + 1) (live : Bool) (left : ℕ) :
    ∃ e, (E.attemptLoopFloat sleepFn s context live left attempt p).2 = .error e := by
  cases left with
  | zero =>
    obtain ⟨e, he⟩ := attemptsText_error hprint
    exact ⟨e, by simp [attemptLoopFloat, h, he]⟩
  | succ left =>
    obtain ⟨e, he⟩ := E.pause_unprintable sleepFn hprint attempt
    exact ⟨e, attemptLoopFloat_raised h he live left⟩

theorem attemptLoopFloat_retry {exc : String} {backoff : ℚ}
    (h : E.invoke s (attempt + 1) context p = (.error exc, p'))
    (hp : E.pause sleepFn s attempt = .ok backoff) (live : Bool) (left : ℕ) :
    E.attemptLoopFloat sleepFn s context live (left + 1) attempt p =
      ([.setAttempt s.id (attempt + 1), .invoke s.id (attempt + 1) context,
        .setRetryCount s.id (attempt + 1)] ++
        (if live then [.trace .stepRetry (some s.id) (some (attempt + 1)) []] else []) ++
        .sleep s.id backoff ::
        (E.attemptLoopFloat sleepFn s context live left (attempt + 1) p').1,
        (E.attemptLoopFloat sleepFn s context live left (attempt + 1) p').2) := by
  rw [attemptLoopFloat, h]; simp [hp]

theorem fails_at {exc : String} (hp : p = E.paramsAt s context attempt)
    (h : E.invoke s (attempt + 1) context p = (.error exc, p')) :
    E.Fails s context attempt ∧ p' = E.paramsAt s context (attempt + 1) := by
  subst hp
  exact ⟨⟨exc, by rw [h]⟩, by rw [paramsAt, h]⟩

theorem not_fails_at {res : V} (hp : p = E.paramsAt s context attempt)
    (h : E.invoke s (attempt + 1) context p = (.ok res, p')) : ¬ E.Fails s context attempt := by
  subst hp
  rintro ⟨exc, he⟩
  rw [h] at he
  exact absurd he (by simp)

end Unfold

/-! ### The whole loop -/

variable (live : Bool)

/-- EXACT: while no message and no pause raises, the loop is the one with the exact delay. -/
theorem attemptLoopFloat_eq (hprint : s.retries + 1 < digitLimit) (left attempt : ℕ) (p : P)
    (hp : p = E.paramsAt s context attempt) (hpatient : ∀ k, attempt ≤ k → k < attempt + left →
      (∀ j, attempt ≤ j → j ≤ k → E.Fails s context j) → E.pause sleepFn s k = .ok (E.backoff k)) :
    E.attemptLoopFloat sleepFn s context live left attempt p =
      ((E.attemptLoop s context live left attempt p).1,
        .ok (E.attemptLoop s context live left attempt p).2) := by
  induction left, attempt, p using E.attempt_induction s context with
  | ok left attempt p res p' h => rw [attemptLoopFloat_ok h, attemptLoop_ok h]
  | last attempt p exc p' h => rw [attemptLoopFloat_last h hprint, attemptLoop_last h]
  | retry left attempt p exc p' h ih =>
    obtain ⟨hf, hp'⟩ := fails_at hp h
    have hnow : E.pause sleepFn s attempt = .ok (E.backoff attempt) := by
      refine hpatient attempt le_rfl (by omega) fun j hj hj' => ?_
      obtain rfl : j = attempt := by omega
      exact hf
    have hrest := ih hp' fun k hk hk' hall => hpatient k (by omega) (by omega) fun j hj hj' => by
      rcases Nat.eq_or_lt_of_le hj with rfl | hlt
      · exact hf
      · exact hall j hlt hj'
    rw [attemptLoopFloat_retry h hnow, attemptLoop_retry h, hrest]

/-- A pause that raises ends the loop, if the loop comes to it. -/
theorem attemptLoopFloat_raises {k : ℕ} {e : String} (he : E.pause sleepFn s k = .error e)
    (left attempt : ℕ) (p : P) (hp : p = E.paramsAt s context attempt) (hk : attempt ≤ k)
    (hk' : k < attempt + left) (hall : ∀ j, attempt ≤ j → j ≤ k → E.Fails s context j) :
    ∃ e', (E.attemptLoopFloat sleepFn s context live left attempt p).2 = .error e' := by
  induction left, attempt, p using E.attempt_induction s context with
  | ok left attempt p res p' h => exact absurd (hall attempt le_rfl hk) (not_fails_at hp h)
  | last attempt p exc p' h => omega
  | retry left attempt p exc p' h ih =>
    cases hn : E.pause sleepFn s attempt with
    | error e' => exact ⟨e', attemptLoopFloat_raised h hn live left⟩
    | ok backoff =>
      have hne : attempt ≠ k := by
        rintro rfl
        exact absurd (hn.symm.trans he) (by simp)
      rw [attemptLoopFloat_retry h hn]
      exact ih (fails_at hp h).2 (by omega) (by omega) fun j hj hj' => hall j (by omega) hj'

/-- The loop ends in an error exactly when each of its attempts fails. -/
theorem attemptEnd_error_iff (left attempt : ℕ) (p : P) (hp : p = E.paramsAt s context attempt) :
    (E.attemptEnd s context left attempt p).succeeded = false ↔
      ∀ k, attempt ≤ k → k ≤ attempt + left → E.Fails s context k := by
  induction left, attempt, p using E.attempt_induction s context with
  | ok left attempt p res p' h =>
    rw [attemptEnd_ok h]
    exact iff_of_false (by simp [Ending.succeeded, Except.isOk, Except.toBool])
      fun hall => not_fails_at hp h (hall attempt le_rfl (by omega))
  | last attempt p exc p' h =>
    rw [attemptEnd_last h]
    refine iff_of_true rfl fun k hk hk' => ?_
    obtain rfl : k = attempt := by omega
    exact (fails_at hp h).1
  | retry left attempt p exc p' h ih =>
    obtain ⟨hf, hp'⟩ := fails_at hp h
    rw [attemptEnd_retry h, ih hp']
    refine ⟨fun hall k hk hk' => ?_, fun hall k hk hk' => hall k (by omega) (by omega)⟩
    rcases Nat.eq_or_lt_of_le hk with rfl | hlt
    · exact hf
    · exact hall k hlt (by omega)

/-- A loop from `attempt` on, retried `n` times. -/
theorem attemptLoop_paced (left attempt : ℕ) (p : P) : ∃ n ≤ left,
    (E.attemptLoop s context live left attempt p).1.filterMap Action.pace? =
      .inl (attempt + 1) ::
        (List.range' attempt n).flatMap fun k => [.inr (E.backoff k), .inl (k + 2)] := by
  induction left, attempt, p using E.attempt_induction s context with
  | ok left attempt p res p' h =>
    exact ⟨0, Nat.zero_le _, by rw [attemptLoop_ok h]; simp [Action.pace?, List.filterMap_cons]⟩
  | last attempt p exc p' h =>
    exact ⟨0, le_rfl, by rw [attemptLoop_last h]; simp [Action.pace?, List.filterMap_cons]⟩
  | retry left attempt p exc p' h ih =>
    obtain ⟨n, hn, hrest⟩ := ih
    refine ⟨n + 1, by omega, ?_⟩
    rw [attemptLoop_retry h, List.range'_succ]
    cases live <;> simp [Action.pace?, List.filterMap_cons, hrest]

/-- What the loop writes once its last attempt has failed. -/
theorem attemptLoop_exhausted {exc : String} (left attempt : ℕ) (p : P)
    (he : (E.attemptEnd s context left attempt p).value = .error exc) (σ : RunState V P) :
    (E.acts σ (E.attemptLoop s context live left attempt p).1).statuses.get s.id = some .failed ∧
      ∃ q, (E.acts σ (E.attemptLoop s context live left attempt p).1).deadLetters =
        σ.deadLetters ++ [⟨s.id, s.task, exc, attempt + left + 1, q⟩] := by
  induction left, attempt, p using E.attempt_induction s context generalizing σ with
  | ok left attempt p res p' h => rw [attemptEnd_ok h] at he; exact absurd he (by simp)
  | last attempt p exc' p' h =>
    rw [attemptEnd_last h] at he
    obtain rfl : exc' = exc := Except.error.inj he
    rw [attemptLoop_last h]
    exact ⟨by simp [act, perform], p', by simp [act, perform, RunState.retryCount]⟩
  | retry left attempt p exc' p' h ih =>
    rw [attemptEnd_retry h] at he
    rw [attemptLoop_retry h, acts_append, acts_append, acts_cons]
    obtain ⟨hst, q, hq⟩ := ih he _
    refine ⟨hst, q, hq.trans ?_⟩
    cases live <;> simp [act, perform] <;> omega

/-- No pause of a patient loop raises. -/
theorem Patient.pause {s : StepConfig P} {context : Context V} (h : E.Patient sleepFn s context)
    (hprint : s.retries + 1 < digitLimit) :
    ∀ k, 0 ≤ k → k < 0 + s.retries → (∀ j, 0 ≤ j → j ≤ k → E.Fails s context j) →
      E.pause sleepFn s k = .ok (E.backoff k) := by
  intro k _ hk hall
  refine E.pause_short sleepFn ?_ hprint (h.slept k (by omega) fun j hj => hall j (by omega) hj)
  rcases h.short with hr | ⟨j, hj, hnf⟩
  · omega
  · by_contra hge
    exact hnf (hall j (by omega) (by omega))

/-- The ways to raise inside the `except` block. -/
theorem runWithRetryFloat_raises
    (h : (1024 < s.retries ∧ ∀ k ≤ 1024, E.Fails s context k) ∨
      (digitLimit ≤ s.retries + 1 ∧ E.Fails s context 0) ∨
      ∃ k < s.retries, (∀ j ≤ k, E.Fails s context j) ∧
        sleepFn (min (2 ^ k / 2) E.maxBackoff) ≠ .ok ()) :
    ∃ e, (E.runWithRetryFloat sleepFn s context live).2 = .error e := by
  rcases h with ⟨hr, hall⟩ | ⟨hprint, exc, hexc⟩ | ⟨k, hk, hall, hs⟩
  · obtain ⟨e, he⟩ := E.pause_long sleepFn (le_refl 1024)
    exact E.attemptLoopFloat_raises sleepFn s context live he s.retries 0 s.params rfl
      (by omega) (by omega) fun j _ hj => hall j hj
  · exact attemptLoopFloat_unprintable (Prod.ext hexc rfl) hprint live s.retries
  · obtain ⟨e, he⟩ := E.pause_refused sleepFn hs
    exact E.attemptLoopFloat_raises sleepFn s context live he s.retries 0 s.params rfl
      (by omega) (by omega) fun j _ hj => hall j hj

/-- A patient loop does what the loop without pauses does. -/
theorem Patient.run (h : E.Patient sleepFn s context) : E.runWithRetryFloat sleepFn s context live =
    ((E.runWithRetry s context live).1, .ok (E.ending s context).succeeded) := by
  rw [← E.runWithRetry_succeeded s context live]
  rcases h.printable with hprint | hfirst
  · exact E.attemptLoopFloat_eq sleepFn s context live hprint s.retries 0 s.params rfl
      (Patient.pause E sleepFn h hprint)
  · cases hinvoke : E.invoke s 1 context s.params with
    | mk value p' =>
      cases value with
      | ok res =>
        rw [runWithRetryFloat, runWithRetry, attemptLoopFloat_ok hinvoke, attemptLoop_ok hinvoke]
      | error exc => exact absurd ⟨exc, congrArg Prod.fst hinvoke⟩ hfirst

/-- When all attempts fail, the step fails with one dead letter. -/
theorem runWithRetry_exhausted (hall : ∀ k ≤ s.retries, E.Fails s context k) (σ : RunState V P) :
    (E.acts σ (E.runWithRetry s context live).1).statuses.get s.id = some .failed ∧
      ∃ exc p, (E.acts σ (E.runWithRetry s context live).1).deadLetters =
        σ.deadLetters ++ [⟨s.id, s.task, exc, s.retries + 1, p⟩] := by
  have hfailed := (E.attemptEnd_error_iff s context s.retries 0 s.params rfl).2
    fun k _ hk => hall k (by omega)
  cases he : (E.attemptEnd s context s.retries 0 s.params).value with
  | ok res =>
    rw [Ending.succeeded, he] at hfailed
    exact absurd hfailed (by simp [Except.isOk, Except.toBool])
  | error exc =>
    obtain ⟨hst, q, hq⟩ := E.attemptLoop_exhausted s context live s.retries 0 s.params he σ
    rw [Nat.zero_add] at hq
    exact ⟨hst, exc, q, hq⟩

/-- A loop that returns has come to no pause that raises. -/
theorem RetriesSafely.patient (h : E.RetriesSafely sleepFn s context live) :
    E.Patient sleepFn s context := by
  obtain ⟨b, hb, -⟩ := h.returned
  have hno : ∀ e, (E.runWithRetryFloat sleepFn s context live).2 ≠ .error e := by
    intro e he
    exact absurd (hb.symm.trans he) (by simp)
  refine ⟨?_, ?_, fun k hk hall => ?_⟩
  · by_contra hlong
    rw [not_or, not_exists] at hlong
    obtain ⟨e, he⟩ := E.runWithRetryFloat_raises sleepFn s context live
      (.inl ⟨by omega, fun k hk => by_contra fun hnf => hlong.2 k ⟨hk, hnf⟩⟩)
    exact hno e he
  · by_contra hlarge
    rw [not_or, not_lt, not_not] at hlarge
    obtain ⟨e, he⟩ := E.runWithRetryFloat_raises sleepFn s context live (.inr (.inl hlarge))
    exact hno e he
  · by_contra hs
    obtain ⟨e, he⟩ :=
      E.runWithRetryFloat_raises sleepFn s context live (.inr (.inr ⟨k, hk, hall, hs⟩))
    exact hno e he

/-- CORRECT: a failing task never breaks the run exactly when the loop comes to nothing that raises:
    no retry after attempt 1025, no retry count without a text, and no delay that the sleep
    refuses. -/
theorem retriesSafely_iff_patient :
    E.RetriesSafely sleepFn s context live ↔ E.Patient sleepFn s context := by
  constructor
  · exact RetriesSafely.patient E sleepFn s context live
  · intro h
    have hrun := Patient.run E sleepFn s context live h
    refine ⟨⟨_, congrArg Prod.snd hrun, ?_⟩, ?_, ?_⟩
    · rw [← Bool.not_eq_false, ending, E.attemptEnd_error_iff s context s.retries 0 s.params rfl]
      simp only [not_forall, Nat.zero_add, Nat.zero_le, true_and, exists_prop]
    · obtain ⟨n, hn, hp⟩ := E.attemptLoop_paced s context live s.retries 0 s.params
      refine ⟨n, hn, ?_⟩
      rw [hrun, pacing, List.range_eq_range']
      exact hp
    · rw [hrun]
      exact E.runWithRetry_exhausted s context live

end WorkflowExecutor

/-- A task that always raises, under a step with 1025 retries. -/
def flakyStep : StepConfig Unit := { id := "call", task := "flaky", params := (), retries := 1025 }

def flakyExecutor : WorkflowExecutor String Unit where
  config := { name := "flaky", steps := [flakyStep], uniqueStepIds := by decide }
  taskRegistry := Dict.ofList [("flaky", { call := fun _ _ _ p => (.error "down", p) })]

/-- The 1025th failure raises in the handler. -/
theorem flakyStep_breaks :
    ¬ flakyExecutor.RetriesSafely (fun _ => .ok ()) flakyStep (fun _ => none) true := by
  intro h
  obtain ⟨b, hb, -⟩ := h.returned
  obtain ⟨e, he⟩ := flakyExecutor.runWithRetryFloat_raises (fun _ => .ok ()) flakyStep
    (fun _ => none) true (.inl ⟨by decide, fun k _ => ⟨"down", rfl⟩⟩)
  exact absurd (hb.symm.trans he) (by simp)

end WorkflowEngine
