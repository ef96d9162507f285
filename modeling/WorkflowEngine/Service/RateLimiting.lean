import WorkflowEngine.Service.Endpoints
import WorkflowEngine.Schemes.FixedWindow

/-! The local rate limiter.

    A caller is counted under its API key if the limiter knows the key, and under its client id
    otherwise. Each bucket is a fixed-window counter of its own: a call reads and writes no other. The
    two kinds of bucket have different names, so keys that nobody issued never reach an issued key's
    bucket, whatever they are. -/

namespace WorkflowEngine
open Schemes

/-! ### The limiter -/

/-- `LocalRateLimiter`; `T` is the type of the times that `monotonic()` returns. -/
structure LocalRateLimiter (T : Type) where
  limit : ℕ
  windowSeconds : T
  recognizedApiKeys : Finset String := ∅
  buckets : Dict String (T × ℕ) := Dict.empty

/-- The arguments of a call of `allow`, and what `monotonic()` returns during it. -/
structure RateCall (T : Type) where
  apiKey : Option String := none
  clientId : Option String := none
  now : T

namespace LocalRateLimiter

variable {T : Type}

/-- `f"key:{api_key}"`. -/
def keyBucket (apiKey : String) : String := "key:" ++ apiKey

/-- `f"client:{client_id or 'anonymous'}"`. -/
def clientBucket (clientId : Option String) : String :=
  "client:" ++ (truthy clientId).getD "anonymous"

/-- `api_key and api_key in self.recognized_api_keys`: the key to count under, if any. -/
def recognized (l : LocalRateLimiter T) (apiKey : Option String) : Option String :=
  (truthy apiKey).filter fun key => key ∈ l.recognizedApiKeys

def bucket (l : LocalRateLimiter T) (c : RateCall T) : String :=
  match l.recognized c.apiKey with
  | some key => keyBucket key
  | none => clientBucket c.clientId

section Allow
variable [CommRing T] [LinearOrder T]

/-- `allow`: the answer, and the limiter after the call. -/
def allow (l : LocalRateLimiter T) (c : RateCall T) : Bool × LocalRateLimiter T :=
  let bucket := l.bucket c
  let window := (l.buckets.get bucket).getD (c.now, 0)
  let window := if l.windowSeconds ≤ c.now - window.1 then (c.now, 0) else window
  if l.limit ≤ window.2 then (false, l)
  else (true, { l with buckets := l.buckets.set bucket (window.1, window.2 + 1) })

/-- The limiter after a sequence of calls. -/
def after (l : LocalRateLimiter T) (calls : List (RateCall T)) : LocalRateLimiter T :=
  calls.foldl (fun l c => (l.allow c).2) l

/-- The answers to a sequence of calls. -/
def answers : LocalRateLimiter T → List (RateCall T) → List Bool
  | _, [] => []
  | l, c :: calls => (l.allow c).1 :: (l.allow c).2.answers calls

/-- The calls of a sequence that were allowed. -/
def allowed : LocalRateLimiter T → List (RateCall T) → List (RateCall T)
  | _, [] => []
  | l, c :: calls => (if (l.allow c).1 then [c] else []) ++ (l.allow c).2.allowed calls

/-- The times of the calls of one bucket. -/
def times (l : LocalRateLimiter T) (b : String) (calls : List (RateCall T)) : List T :=
  (calls.filter fun c => l.bucket c = b).map RateCall.now

end Allow

/-! ### Buckets -/

section Buckets
variable {l m : LocalRateLimiter T}

theorem recognized_congr (h : m.recognizedApiKeys = l.recognizedApiKeys)
    (apiKey : Option String) : m.recognized apiKey = l.recognized apiKey := by
  unfold recognized
  rw [h]

theorem bucket_congr (h : m.recognizedApiKeys = l.recognizedApiKeys) (c : RateCall T) :
    m.bucket c = l.bucket c := by
  rw [bucket, recognized_congr h]
  rfl

/-- The two kinds of bucket have different names. -/
theorem keyBucket_ne_clientBucket (key : String) (clientId : Option String) :
    keyBucket key ≠ clientBucket clientId := by
  intro h
  have hchars := congrArg String.toList h
  rw [keyBucket, clientBucket, String.toList_append, String.toList_append] at hchars
  exact absurd (List.cons.inj hchars).1 (by decide)

theorem bucket_unrecognized {c : RateCall T} (h : l.recognized c.apiKey = none) :
    l.bucket c = clientBucket c.clientId := by
  rw [bucket, h]

end Buckets

/-! ### One call -/

section Step
variable [CommRing T] [LinearOrder T]

/-- The counter of the call's bucket decides. -/
theorem allow_eq (l : LocalRateLimiter T) (c : RateCall T) :
    (l.allow c).1 =
      (FixedWindow.grant l.limit l.windowSeconds (l.buckets.get (l.bucket c)) c.now).1 := by
  simp only [allow, FixedWindow.grant, FixedWindow.current]
  split_ifs <;> rfl

/-- A call changes the buckets only. -/
theorem allow_config (l : LocalRateLimiter T) (c : RateCall T) :
    (l.allow c).2 = { l with buckets := (l.allow c).2.buckets } := by
  simp only [allow]
  split_ifs <;> rfl

/-- STEP: the call's own bucket counts it, the others stay. -/
theorem get_allow (l : LocalRateLimiter T) (c : RateCall T) (b : String) :
    (l.allow c).2.buckets.get b =
      if l.bucket c = b then
        (FixedWindow.grant l.limit l.windowSeconds (l.buckets.get b) c.now).2
      else l.buckets.get b := by
  by_cases hb : l.bucket c = b
  · subst hb
    rw [if_pos rfl]
    simp only [allow, FixedWindow.grant, FixedWindow.current]
    split_ifs <;> simp
  · rw [if_neg hb]
    simp only [allow]
    split_ifs
    · rfl
    · rw [Dict.get_set, if_neg (Ne.symm hb)]
    · rfl
    · rw [Dict.get_set, if_neg (Ne.symm hb)]

/-- A call is its bucket and its time. -/
theorem allow_congr {l : LocalRateLimiter T} {c d : RateCall T} (hb : l.bucket d = l.bucket c)
    (hn : d.now = c.now) : l.allow d = l.allow c := by
  rw [allow, hb, hn]
  rfl

theorem allow_recognized (l : LocalRateLimiter T) (c : RateCall T) :
    (l.allow c).2.recognizedApiKeys = l.recognizedApiKeys := by
  rw [allow_config]

end Step

/-! ### Sequences of calls -/

section Run
variable [CommRing T] [LinearOrder T]

theorem after_concat (l : LocalRateLimiter T) (calls : List (RateCall T)) (c : RateCall T) :
    l.after (calls ++ [c]) = ((l.after calls).allow c).2 := by
  rw [after, List.foldl_append]
  rfl

theorem after_append (l : LocalRateLimiter T) (calls more : List (RateCall T)) :
    l.after (calls ++ more) = (l.after calls).after more :=
  List.foldl_append ..

theorem after_config (l : LocalRateLimiter T) (calls : List (RateCall T)) :
    l.after calls = { l with buckets := (l.after calls).buckets } := by
  induction calls using List.reverseRecOn with
  | nil => rfl
  | append_singleton calls c ih =>
    rw [after_concat, allow_config, ih]

theorem after_bucket (l : LocalRateLimiter T) (calls : List (RateCall T)) (c : RateCall T) :
    (l.after calls).bucket c = l.bucket c :=
  bucket_congr (by rw [after_config]) c

theorem allowed_concat (c : RateCall T) : ∀ (calls : List (RateCall T)) (l : LocalRateLimiter T),
    l.allowed (calls ++ [c]) =
      l.allowed calls ++ if ((l.after calls).allow c).1 then [c] else []
  | [], _ => List.append_nil _
  | d :: calls, l => by
      rw [List.cons_append, allowed, allowed, allowed_concat c calls, List.append_assoc]
      rfl

omit [CommRing T] [LinearOrder T] in
theorem times_append (l : LocalRateLimiter T) (b : String) (calls more : List (RateCall T)) :
    l.times b (calls ++ more) = l.times b calls ++ l.times b more := by
  rw [times, List.filter_append, List.map_append]
  rfl

/-- RUN: every bucket is a window counter of its own, run on the times of its calls. -/
theorem run_bucket {l : LocalRateLimiter T} (hnew : l.buckets = Dict.empty) (b : String)
    (calls : List (RateCall T)) :
    FixedWindow.run l.limit l.windowSeconds (l.times b calls) =
      ((l.after calls).buckets.get b, l.times b (l.allowed calls)) := by
  induction calls using List.reverseRecOn with
  | nil =>
    rw [after, List.foldl_nil, hnew]
    rfl
  | append_singleton calls c ih =>
    rw [times_append, after_concat, allowed_concat, times_append, get_allow, allow_eq, after_bucket,
      after_config]
    by_cases hb : l.bucket c = b
    · have hc : l.times b [c] = [c.now] := by simp [times, hb]
      rw [hc, FixedWindow.run_concat, ih, if_pos hb, FixedWindow.step, hb]
      split_ifs with hok
      · rw [hc]
      · rfl
    · have hc : l.times b [c] = [] := by simp [times, hb]
      rw [hc, List.append_nil, ih, if_neg hb]
      split_ifs with hok
      · rw [hc, List.append_nil]
      · simp [times]

/-- The answer to a call depends on the earlier calls of its bucket only. -/
theorem allow_own {l : LocalRateLimiter T} (hnew : l.buckets = Dict.empty)
    (pre : List (RateCall T)) (c : RateCall T) :
    ((l.after (pre.filter fun d => l.bucket d = l.bucket c)).allow c).1 =
      ((l.after pre).allow c).1 := by
  have hget : ∀ calls, (l.after calls).buckets.get (l.bucket c) =
      (FixedWindow.run l.limit l.windowSeconds (l.times (l.bucket c) calls)).1 := by
    intro calls
    rw [run_bucket hnew]
  have htimes : l.times (l.bucket c) (pre.filter fun d => l.bucket d = l.bucket c) =
      l.times (l.bucket c) pre := by
    simp [times, List.filter_filter]
  rw [allow_eq, allow_eq, after_bucket, after_bucket, hget, hget, htimes, after_config,
    after_config l pre]

/-! ### Unrecognised keys -/

/-- `d` is the call `c`, with another key if neither key is recognised. -/
def Rekeyed (l : LocalRateLimiter T) (c d : RateCall T) : Prop :=
  d = c ∨ (l.recognized c.apiKey = none ∧ l.recognized d.apiKey = none ∧
    d.clientId = c.clientId ∧ d.now = c.now)

omit [CommRing T] [LinearOrder T] in
theorem Rekeyed.bucket {l : LocalRateLimiter T} {c d : RateCall T} (h : l.Rekeyed c d) :
    l.bucket d = l.bucket c ∧ d.now = c.now := by
  rcases h with rfl | ⟨hc, hd, hclient, hnow⟩
  · exact ⟨rfl, rfl⟩
  · rw [bucket_unrecognized hc, bucket_unrecognized hd, hclient]
    exact ⟨rfl, hnow⟩

theorem answers_rekeyed {calls calls' : List (RateCall T)} {l m : LocalRateLimiter T}
    (h : List.Forall₂ l.Rekeyed calls calls') (hm : m.recognizedApiKeys = l.recognizedApiKeys) :
    m.answers calls' = m.answers calls := by
  induction h generalizing m with
  | nil => rfl
  | cons hcd _ ih =>
    have hallow := allow_congr (l := m) ((bucket_congr hm _).trans
      (hcd.bucket.1.trans (bucket_congr hm _).symm)) hcd.bucket.2
    rw [answers, answers, hallow, ih ((allow_recognized m _).trans hm)]

/-- Calls without a recognised key leave every key's bucket. -/
theorem get_after_unrecognized (key : String) (l : LocalRateLimiter T) (calls : List (RateCall T))
    (h : ∀ c ∈ calls, l.recognized c.apiKey = none) :
    (l.after calls).buckets.get (keyBucket key) = l.buckets.get (keyBucket key) := by
  induction calls using List.reverseRecOn with
  | nil => rfl
  | append_singleton calls c ih =>
    have hbucket : (l.after calls).bucket c ≠ keyBucket key := by
      rw [after_bucket, bucket_unrecognized (h c (by simp))]
      exact (keyBucket_ne_clientBucket key c.clientId).symm
    rw [after_concat, get_allow, if_neg hbucket]
    exact ih fun d hd => h d (List.mem_append_left _ hd)

end Run

/-! ### The bound -/

section Bound
variable [CommRing T] [LinearOrder T] [IsStrictOrderedRing T]

omit [CommRing T] [IsStrictOrderedRing T] in
theorem times_sorted (l : LocalRateLimiter T) (b : String) {calls : List (RateCall T)}
    (hs : (calls.map RateCall.now).Pairwise (· ≤ ·)) : (l.times b calls).Pairwise (· ≤ ·) :=
  hs.sublist (List.filter_sublist.map _)

/-- EXACT (limit): a call is refused only if its bucket admitted `limit` calls in the width before
    it, no interval of one width holds more than twice as many, and a call sees the earlier calls of
    its own bucket only: which unrecognised key it carries changes no answer, and with such a key it
    never reaches the bucket of a recognised one. -/
theorem limits_exactly (l : LocalRateLimiter T) (hnew : l.buckets = Dict.empty)
    (hw : 0 < l.windowSeconds) (calls : List (RateCall T))
    (hs : (calls.map RateCall.now).Pairwise (· ≤ ·)) :
    (∀ pre c post, calls = pre ++ c :: post → ((l.after pre).allow c).1 = false →
      l.limit ≤ (l.times (l.bucket c) (l.allowed pre)).countP fun a =>
        c.now - l.windowSeconds < a ∧ a ≤ c.now) ∧
    (∀ b t, ((l.times b (l.allowed calls)).countP fun a => t ≤ a ∧ a < t + l.windowSeconds) ≤
      2 * l.limit) ∧
    (∀ pre c post, calls = pre ++ c :: post →
      ((l.after (pre.filter fun d => l.bucket d = l.bucket c)).allow c).1 =
        ((l.after pre).allow c).1) ∧
    (∀ calls', List.Forall₂ l.Rekeyed calls calls' → l.answers calls' = l.answers calls) ∧
    (∀ pre others post key, calls = pre ++ others ++ post →
      (∀ c ∈ others, l.recognized c.apiKey = none) →
      (l.after (pre ++ others)).buckets.get (keyBucket key) =
        (l.after pre).buckets.get (keyBucket key)) := by
  refine ⟨fun pre c post he hno => ?_, fun b t => ?_, fun pre c post _ => allow_own hnew pre c,
    fun calls' h => answers_rekeyed h rfl, fun pre others post key _ hothers => ?_⟩
  · have hrun := run_bucket hnew (l.bucket c) pre
    have hsorted : (l.times (l.bucket c) pre ++ [c.now]).Pairwise (· ≤ ·) := by
      have hc : l.times (l.bucket c) [c] = [c.now] := by simp [times]
      rw [← hc, ← times_append]
      refine l.times_sorted _ (hs.sublist (List.Sublist.map _ ?_))
      rw [he]
      exact (List.Sublist.refl pre).append (List.singleton_sublist.mpr List.mem_cons_self)
    have hfull : (FixedWindow.grant l.limit l.windowSeconds (FixedWindow.run l.limit
        l.windowSeconds (l.times (l.bucket c) pre)).1 c.now).1 = false → _ :=
      FixedWindow.refused_full hw _ c.now hsorted
    rw [hrun] at hfull
    refine hfull ?_
    rw [allow_eq, after_bucket, after_config] at hno
    exact hno
  · have hallowed : (FixedWindow.run l.limit l.windowSeconds (l.times b calls)).2 =
        l.times b (l.allowed calls) := congrArg Prod.snd (run_bucket hnew b calls)
    rw [← hallowed]
    exact FixedWindow.run_within hw _ (l.times_sorted b hs) t
  · rw [after_append]
    refine get_after_unrecognized key _ others fun c hc => ?_
    rw [recognized_congr (l := l) (by rw [after_config])]
    exact hothers c hc

/-- A limiter of one call a minute: the second call from the same client is refused, although it
    carries another key. -/
theorem minute_limits_exactly :
    let l : LocalRateLimiter ℚ := { limit := 1, windowSeconds := 60, recognizedApiKeys := {"k"} }
    let first : RateCall ℚ := { apiKey := some "invented-one", clientId := some "a", now := 0 }
    let second : RateCall ℚ := { apiKey := some "invented-two", clientId := some "a", now := 59 }
    l.limit ≤ (l.times (l.bucket second) (l.allowed [first])).countP fun a =>
      second.now - l.windowSeconds < a ∧ a ≤ second.now := by
  intro l first second
  have hs : ([first, second].map RateCall.now).Pairwise (· ≤ ·) := by
    simp [first, second]
  exact (limits_exactly l rfl (by norm_num [l]) [first, second] hs).1 [first] second [] rfl
    (by decide +kernel)

end Bound

end LocalRateLimiter

/-! ### The access check -/

/-- `Role`. -/
inductive Role where | viewer | operator | admin
  deriving DecidableEq

def Role.value : Role → ℕ
  | .viewer => 1
  | .operator => 2
  | .admin => 3

structure AuthPolicy where
  apiKeys : Dict String Role := Dict.empty
  required : Bool := false

def AuthPolicy.authorize (p : AuthPolicy) (apiKey : Option String) (minimumRole : Role) : Bool :=
  if p.required then
    match truthy apiKey with
    | some key => minimumRole.value ≤ ((p.apiKeys.get key).map Role.value).getD 0
    | none => false
  else true

section Access
variable {T : Type} [CommRing T] [LinearOrder T]

/-- `rate_limiter.allow` of a request, if there is a limiter. -/
def admitted (limiter : Option (LocalRateLimiter T)) (c : RateCall T) : Bool :=
  (limiter.map fun l => (l.allow c).1).getD true

/-- `_check_access`: why the request is refused, if it is. -/
def accessDenial (limiter : Option (LocalRateLimiter T)) (policy : AuthPolicy) (minimumRole : Role)
    (c : RateCall T) : Option Denial :=
  if admitted limiter c then
    if policy.authorize c.apiKey minimumRole then none
    else if truthy c.apiKey = none then some .unauthorized
    else some .forbidden
  else some .rateLimited

/-- The limiter decides before the policy is asked, and alone on 429. -/
theorem accessDenial_cases (limiter : Option (LocalRateLimiter T)) (policy : AuthPolicy)
    (minimumRole : Role) (c : RateCall T) :
    (accessDenial limiter policy minimumRole c = some .rateLimited ↔
      ∃ l, limiter = some l ∧ (l.allow c).1 = false) ∧
    (accessDenial limiter policy minimumRole c = none ↔
      admitted limiter c = true ∧ policy.authorize c.apiKey minimumRole = true) := by
  have hadmitted : admitted limiter c = false ↔ ∃ l, limiter = some l ∧ (l.allow c).1 = false := by
    cases limiter <;> simp [admitted]
  rw [← hadmitted]
  unfold accessDenial
  constructor <;> split_ifs <;> simp_all

/-- A policy that is not required lets every request pass, and a required one none without a key. -/
theorem authorize_iff (p : AuthPolicy) (apiKey : Option String) (minimumRole : Role) :
    p.authorize apiKey minimumRole = true ↔ p.required = true →
      ∃ key role, truthy apiKey = some key ∧ p.apiKeys.get key = some role ∧
        minimumRole.value ≤ role.value := by
  have hpos : minimumRole.value ≠ 0 := by cases minimumRole <;> decide
  unfold AuthPolicy.authorize
  split_ifs with hrequired
  · cases truthy apiKey with
    | none => simp [hrequired]
    | some key => cases hrole : p.apiKeys.get key <;> simp [hrequired, hrole, hpos]
  · simp [hrequired]

end Access

end WorkflowEngine
