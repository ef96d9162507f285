import WorkflowEngine.Service.Reading
import WorkflowEngine.Service.RateLimiting
import WorkflowEngine.Tasks.ParseText

/-! Who may do what.

    Every endpoint first asks the rate limiter and then the policy, both made from the settings. What a
    viewer may do changes nothing, and an issued key has a bucket of its own. So when keys are
    required, a caller without an operator's key leaves no trace: without its calls the stores end the
    same, and everybody else is answered the same. -/

namespace WorkflowEngine
open Schemes

variable {D P V J T : Type} {lib : YamlLibrary D P} [PyValue V]

/-! ### Settings -/

/-- The settings of the access check. -/
structure AccessSettings (T : Type) where
  authRequired : Bool := false
  apiKeys : String := ""
  rateLimit : ℤ := 0
  rateLimitWindowSeconds : T

/-- `roles.get(role.lower())`. No character outside ASCII has one of these letters, and nothing else,
    as its lower case. -/
def Role.named (role : List Char) : Option Role :=
  let lower := String.ofList (role.map Char.toLower)
  if lower = "viewer" then some .viewer
  else if lower = "operator" then some .operator
  else if lower = "admin" then some .admin
  else none

/-- One mapping of `WORKFLOW_API_KEYS`, if it names a key and a role. -/
def keyMapping (mapping : List Char) : Option (String × Role) :=
  match (strip mapping).span (· ≠ ':') with
  | (key, _ :: role) =>
    if key = [] then none else (Role.named role).map fun role => (String.ofList key, role)
  | (_, []) => none

namespace AccessSettings
variable (a : AccessSettings T)

/-- `_auth_policy`. -/
def authPolicy : AuthPolicy where
  apiKeys := Dict.ofList ((a.apiKeys.toList.splitOn ',').filterMap keyMapping)
  required := a.authRequired

/-- `rate_limiter`. -/
def rateLimiter : Option (LocalRateLimiter T) :=
  if 0 < a.rateLimit then
    some { limit := a.rateLimit.toNat, windowSeconds := a.rateLimitWindowSeconds,
           recognizedApiKeys := a.authPolicy.apiKeys.keys.toFinset }
  else none

end AccessSettings

/-! ### Reads -/

/-- The reads of one run, of its graph, and of the dead letters, the webhooks and the schedules. -/
inductive ReadRequest where
  | run (runId : String)
  | dag (runId : String)
  | deadLetters (runId : Option String)
  | webhooks
  | schedules

inductive ReadAnswer (P : Type) where
  | run (record : RunRecord P) (events : List ExecutionEvent)
  | dag (dag : Dag)
  | deadLetters (letters : List (FoundLetter P))
  | webhooks (triggers : List (String × String))
  | schedules (schedules : List ListedSchedule)

def serveRead (s : Service V P J) (r : ReadCircumstances) :
    ReadRequest → Program lib V J (ReadAnswer P)
  | .run runId => do
    let (record, events) ← getWorkflowRun s r runId
    pure (.run record events)
  | .dag runId => do
    let dag ← getWorkflowDag s r runId
    pure (.dag dag)
  | .deadLetters runId => do
    let letters ← listDeadLetters s r runId
    pure (.deadLetters letters)
  | .webhooks => do
    let triggers ← listWebhooks r
    pure (.webhooks triggers)
  | .schedules => do
    let schedules ← listSchedules r
    pure (.schedules schedules)

section Reads
variable {s : Service V P J} {r : ReadCircumstances} {I : World lib V J → Prop}

theorem readAccess_keeps : Prog.Keeps I (readAccess r : Program lib V J Unit) := by
  unfold readAccess
  cases r.denied with
  | none => exact .pure ()
  | some denial => exact .lift _

theorem look_keeps {α : Type} (op : Lookup) (answer : World lib V J → α) :
    Prog.Keeps I (look r op answer) := by
  unfold look
  cases r.fails op with
  | none => exact .view _
  | some e => exact .lift _

theorem findRun_keeps (runId : String) :
    Prog.Keeps I (findRun s r runId : Program lib V J (RunRecord P)) := by
  refine (look_keeps _ _).bind fun record => ?_
  cases record with
  | none => exact .lift _
  | some record => exact .pure _

/-- A read changes nothing. -/
theorem serveRead_keeps (request : ReadRequest) :
    Prog.Keeps I (serveRead s r request : Program lib V J (ReadAnswer P)) := by
  cases request with
  | run runId =>
    refine Prog.Keeps.bind (orPersistence_leads (readAccess_keeps.bind fun _ =>
      (findRun_keeps runId).bind fun record => (look_keeps _ _).bind fun _ => .pure _)) fun _ =>
        .pure _
  | dag runId =>
    refine Prog.Keeps.bind (orPersistence_leads (readAccess_keeps.bind fun _ =>
      (findRun_keeps runId).bind fun record => ?_)) fun _ => .pure _
    split_ifs
    · exact .lift _
    · exact Prog.Keeps.bind (.lift _) fun _ => .pure _
  | deadLetters | webhooks | schedules =>
    exact Prog.Keeps.bind (orPersistence_leads (readAccess_keeps.bind fun _ => look_keeps _ _))
      fun _ => .pure _

end Reads

/-! ### Calls -/

/-- The role that the endpoint of a request asks for. The beat and the broker pass by no endpoint. -/
def ServiceRequest.minimumRole : ServiceRequest → Option Role
  | .validate _ => some .viewer
  | .run .. | .rerun .. | .registerWebhook .. | .triggerWebhook .. | .createSchedule ..
  | .runDue _ => some .operator
  | .deleteSchedule _ => some .admin
  | .beat _ | .deliver _ => none

/-- A call of the service: one that may write, or a read. What the service asks of itself has no
    caller, and nobody looks at the one given. -/
inductive Call (V P T : Type) [PyValue V] where
  | serve (caller : RateCall T) (arrival : Arrival V P)
  | read (caller : RateCall T) (request : ReadRequest) (circumstances : ReadCircumstances)

def Call.minimumRole : Call V P T → Option Role
  | .serve _ arrival => arrival.request.minimumRole
  | .read .. => some .viewer

/-- What a call is answered, if it does not raise. -/
abbrev CallAnswer (P : Type) := Answer P ⊕ ReadAnswer P

/-- The service with its rate limiter. -/
structure Site {D P : Type} (lib : YamlLibrary D P) (V J T : Type) [PyValue V] where
  world : World lib V J
  limiter : Option (LocalRateLimiter T)

section Serving
variable [CommRing T] [LinearOrder T] (s : Service V P J) (policy : AuthPolicy)

/-- The limiter after a request has asked it. -/
def asked (limiter : Option (LocalRateLimiter T)) (caller : RateCall T) :
    Option (LocalRateLimiter T) :=
  limiter.map fun l => (l.allow caller).2

def Site.call (site : Site lib V J T) :
    Call V P T → Except Exn (CallAnswer P) × Site lib V J T
  | .serve caller arrival =>
    match arrival.request.minimumRole with
    | some role =>
      let denied := accessDenial site.limiter policy role caller
      let cs := fun k => { arrival.circumstances k with denied := denied }
      let served := serve s cs arrival.request site.world
      (served.1.map .inl, ⟨served.2, asked site.limiter caller⟩)
    | none =>
      let served := serve s arrival.circumstances arrival.request site.world
      (served.1.map .inl, { site with world := served.2 })
  | .read caller request circumstances =>
    let denied := accessDenial site.limiter policy .viewer caller
    let served := serveRead s { circumstances with denied := denied } request site.world
    (served.1.map .inr, ⟨served.2, asked site.limiter caller⟩)

/-- The calls with their answers, and the site after them. -/
def Site.calls : Site lib V J T → List (Call V P T) →
    List (Call V P T × Except Exn (CallAnswer P)) × Site lib V J T
  | site, [] => ([], site)
  | site, call :: calls =>
    let rest := (site.call s policy call).2.calls calls
    ((call, (site.call s policy call).1) :: rest.1, rest.2)

end Serving

/-! ### What the guard does -/

/-- The keys of the operators and admins. -/
def AuthPolicy.Operates (policy : AuthPolicy) (key : String) : Prop :=
  ∃ role, policy.apiKeys.get key = some role ∧ Role.operator.value ≤ role.value

namespace LocalRateLimiter

theorem keyBucket_injective : Function.Injective keyBucket := by
  intro key key' h
  have hchars := congrArg String.toList h
  rw [keyBucket, keyBucket, String.toList_append, String.toList_append] at hchars
  exact String.toList_inj.mp (List.append_cancel_left hchars)

variable {l m : LocalRateLimiter T}

theorem bucket_of_recognized {c : RateCall T} {key : String} (hkey : truthy c.apiKey = some key)
    (hknown : key ∈ l.recognizedApiKeys) : l.bucket c = keyBucket key := by
  have hrecognized : l.recognized c.apiKey = some key := by
    rw [recognized, hkey]
    exact Option.filter_eq_some_iff.mpr ⟨rfl, decide_eq_true hknown⟩
  rw [bucket, hrecognized]

/-- A caller shares no bucket with a key that is not its own. -/
theorem bucket_ne {c : RateCall T} {key : String} (hkey : truthy c.apiKey ≠ some key) :
    l.bucket c ≠ keyBucket key := by
  intro hbucket
  rcases hrecognized : l.recognized c.apiKey with _ | own
  · exact keyBucket_ne_clientBucket key c.clientId
      (hbucket.symm.trans (bucket_unrecognized hrecognized))
  · rw [bucket, hrecognized] at hbucket
    obtain rfl := keyBucket_injective hbucket
    exact hkey (Option.filter_eq_some_iff.mp hrecognized).1

/-- Two limiters that know these keys and have counted their calls alike. -/
structure AlikeFor (keys : String → Prop) (l m : LocalRateLimiter T) : Prop where
  config : m = { l with buckets := m.buckets }
  known : ∀ key, keys key → key ∈ l.recognizedApiKeys
  counted : ∀ key, keys key → m.buckets.get (keyBucket key) = l.buckets.get (keyBucket key)

variable [CommRing T] [LinearOrder T] {keys : String → Prop} {c : RateCall T}

/-- STEP: a call with none of the keys is no difference. -/
theorem AlikeFor.without (h : AlikeFor keys l m)
    (hother : ∀ key, keys key → truthy c.apiKey ≠ some key) : AlikeFor keys (l.allow c).2 m where
  config := by
    rw [allow_config]
    exact h.config
  known key hkey := by
    rw [allow_recognized]
    exact h.known key hkey
  counted key hkey := by
    rw [get_allow, if_neg (bucket_ne (hother key hkey))]
    exact h.counted key hkey

/-- STEP: a call with one of the keys is answered alike and counted alike. -/
theorem AlikeFor.allow (h : AlikeFor keys l m) {key : String} (hkey : keys key)
    (hown : truthy c.apiKey = some key) :
    (m.allow c).1 = (l.allow c).1 ∧ AlikeFor keys (l.allow c).2 (m.allow c).2 := by
  have hlimit : m.limit = l.limit := by rw [h.config]
  have hwindow : m.windowSeconds = l.windowSeconds := by rw [h.config]
  have hknown : m.recognizedApiKeys = l.recognizedApiKeys := by rw [h.config]
  have hl := bucket_of_recognized hown (h.known key hkey)
  have hm := bucket_of_recognized hown (hknown ▸ h.known key hkey)
  refine ⟨?_, ?_, fun key' hkey' => ?_, fun key' hkey' => ?_⟩
  · rw [allow_eq, allow_eq, hl, hm, h.counted key hkey, hlimit, hwindow]
  · rw [allow_config m c, allow_config l c, h.config]
  · rw [allow_recognized]
    exact h.known key' hkey'
  · rw [get_allow, get_allow, hl, hm, h.counted key' hkey', hlimit, hwindow]

end LocalRateLimiter

section Guard
variable [CommRing T] [LinearOrder T] {s : Service V P J} {policy : AuthPolicy}
  {limiter limiter' : Option (LocalRateLimiter T)} {caller : RateCall T} {role : Role}

omit [CommRing T] [LinearOrder T] in
theorem authorize_operator (required : policy.required = true) :
    policy.authorize caller.apiKey .operator = true ↔
      ∃ key, truthy caller.apiKey = some key ∧ policy.Operates key := by
  rw [authorize_iff]
  constructor
  · intro h
    obtain ⟨key, role, hkey, hrole, hle⟩ := h required
    exact ⟨key, hkey, role, hrole, hle⟩
  · rintro ⟨key, hkey, role, hrole, hle⟩ -
    exact ⟨key, role, hkey, hrole, hle⟩

/-- Who is no operator is refused where an operator is asked for. -/
theorem accessDenial_refuses (hno : policy.authorize caller.apiKey .operator = false)
    (hrole : Role.operator.value ≤ role.value) :
    ∃ denial, accessDenial limiter policy role caller = some denial := by
  rw [← Option.isSome_iff_exists, Option.isSome_iff_ne_none]
  intro hnone
  have hyes := ((accessDenial_cases limiter policy role caller).2.mp hnone).2
  refine absurd ?_ (Bool.eq_false_iff.mp hno)
  rw [authorize_iff] at hyes ⊢
  intro required
  obtain ⟨key, own, hkey, hown, hle⟩ := hyes required
  exact ⟨key, own, hkey, hown, hrole.trans hle⟩

theorem accessDenial_congr (policy : AuthPolicy) (role : Role)
    (h : admitted limiter' caller = admitted limiter caller) :
    accessDenial limiter' policy role caller = accessDenial limiter policy role caller := by
  rw [accessDenial, accessDenial, h]

/-- A refusal is no failure of the persistence. -/
theorem orPersistence_denied {α : Type} {m : Program lib V J α} {w w' : World lib V J}
    {denial : Denial} (h : m w = (.error denial.exn, w')) :
    orPersistence m w = (.error denial.exn, w') := by
  rw [orPersistence_run, h]
  cases denial <;> rfl

/-- A refused request answers the refusal and changes nothing. -/
theorem serve_denied {cs : ℕ → Circumstances V P} {request : ServiceRequest} {w : World lib V J}
    {denial : Denial} (hdenied : (cs 0).denied = some denial)
    (hrole : request.minimumRole = some role) :
    serve s cs request w = (.error denial.exn, w) := by
  have hcheck : (checkAccess (cs 0) : Program lib V J Unit) w = (.error denial.exn, w) :=
    checkAccess_denied hdenied
  cases request with
  | beat | deliver => exact absurd hrole (by simp [ServiceRequest.minimumRole])
  | validate | run | registerWebhook | createSchedule =>
    exact Prog.bind_of_error (Prog.bind_of_error hcheck)
  | rerun | deleteSchedule | runDue =>
    exact Prog.bind_of_error (orPersistence_denied (Prog.bind_of_error hcheck))
  | triggerWebhook name =>
    have hfind : (findWebhook (cs 0) name : Program lib V J WebhookTrigger) w =
        (.error denial.exn, w) := Prog.bind_of_error hcheck
    exact Prog.bind_of_error (orPersistence_denied (Prog.bind_of_error hfind))

end Guard

/-! ### Callers without an operator's key -/

/-- The service's own, or a call with the key of an operator or an admin. -/
def Call.privileged (policy : AuthPolicy) : Call V P T → Bool
  | .serve caller arrival =>
    arrival.request.minimumRole.isNone || policy.authorize caller.apiKey .operator
  | .read caller _ _ => policy.authorize caller.apiKey .operator

section Traces
variable [CommRing T] [LinearOrder T] {s : Service V P J} {policy : AuthPolicy}
  {site site' : Site lib V J T} {x : Call V P T}

/-- The stores are the same, and the limiters have counted the operators' calls alike. -/
structure Site.Alike (policy : AuthPolicy) (site site' : Site lib V J T) : Prop where
  world : site'.world = site.world
  limiter : Option.Rel (LocalRateLimiter.AlikeFor policy.Operates) site.limiter site'.limiter

omit [PyValue V] in
theorem asked_without {limiter limiter' : Option (LocalRateLimiter T)} {caller : RateCall T}
    (h : Option.Rel (LocalRateLimiter.AlikeFor policy.Operates) limiter limiter')
    (required : policy.required = true)
    (hno : policy.authorize caller.apiKey .operator = false) :
    Option.Rel (LocalRateLimiter.AlikeFor policy.Operates) (asked limiter caller) limiter' := by
  have hother : ∀ key, policy.Operates key → truthy caller.apiKey ≠ some key := by
    intro key hkey hown
    exact absurd ((authorize_operator required).mpr ⟨key, hown, hkey⟩) (by simp [hno])
  cases h with
  | none => exact .none
  | some hl => exact .some (hl.without hother)

theorem asked_alike {limiter limiter' : Option (LocalRateLimiter T)} {caller : RateCall T}
    (h : Option.Rel (LocalRateLimiter.AlikeFor policy.Operates) limiter limiter')
    (required : policy.required = true)
    (hyes : policy.authorize caller.apiKey .operator = true) :
    admitted limiter' caller = admitted limiter caller ∧
    Option.Rel (LocalRateLimiter.AlikeFor policy.Operates) (asked limiter caller)
      (asked limiter' caller) := by
  obtain ⟨key, hown, hkey⟩ := (authorize_operator required).mp hyes
  cases h with
  | none => exact ⟨rfl, .none⟩
  | some hl =>
    obtain ⟨hanswer, hafter⟩ := hl.allow hkey hown
    exact ⟨hanswer, .some hafter⟩

theorem Site.call_serve {caller : RateCall T} {arrival : Arrival V P} {role : Role}
    (hrole : arrival.request.minimumRole = some role) :
    site.call s policy (.serve caller arrival) =
      let denied := accessDenial site.limiter policy role caller
      let served := serve s (fun k => { arrival.circumstances k with denied := denied })
        arrival.request site.world
      (served.1.map .inl, ⟨served.2, asked site.limiter caller⟩) := by
  rw [Site.call, hrole]

theorem Site.call_own {caller : RateCall T} {arrival : Arrival V P}
    (hrole : arrival.request.minimumRole = none) :
    site.call s policy (.serve caller arrival) =
      let served := serve s arrival.circumstances arrival.request site.world
      (served.1.map .inl, { site with world := served.2 }) := by
  rw [Site.call, hrole]

theorem Site.call_denied {caller : RateCall T} {arrival : Arrival V P} {role : Role}
    {denial : Denial} (hrole : arrival.request.minimumRole = some role)
    (hdenied : accessDenial site.limiter policy role caller = some denial) :
    site.call s policy (.serve caller arrival) =
      (.error denial.exn, ⟨site.world, asked site.limiter caller⟩) := by
  have hserved : serve s (fun k => { arrival.circumstances k with
      denied := accessDenial site.limiter policy role caller }) arrival.request site.world =
        (.error denial.exn, site.world) := serve_denied hdenied hrole
  rw [Site.call_serve hrole]
  dsimp only
  rw [hserved]
  rfl

/-- What asks for no more than a viewer only looks. -/
theorem serve_viewer {cs : ℕ → Circumstances V P} {request : ServiceRequest} {w : World lib V J}
    {role : Role} (hrole : request.minimumRole = some role)
    (hviewer : ¬ Role.operator.value ≤ role.value) : (serve s cs request w).2 = w := by
  cases request with
  | validate text =>
    exact Prog.Keeps.bind (I := (· = w)) (Survives.validateWorkflow_keeps _ text)
      (fun _ => .pure _) w rfl
  | run | rerun | registerWebhook | triggerWebhook | createSchedule | runDue | deleteSchedule =>
    obtain rfl := Option.some.inj hrole
    exact absurd (by decide) hviewer
  | beat | deliver => exact absurd hrole (by simp [ServiceRequest.minimumRole])

/-- STEP: without an operator's key a call changes nothing that counts. -/
theorem Site.Alike.without (h : site.Alike policy site') (required : policy.required = true)
    (hno : x.privileged policy = false) : (site.call s policy x).2.Alike policy site' := by
  cases x with
  | read caller request circumstances =>
    refine ⟨?_, asked_without h.limiter required hno⟩
    exact serveRead_keeps (I := fun w => site'.world = w) request site.world h.world
  | serve caller arrival =>
    obtain ⟨hsome, hno⟩ := Bool.or_eq_false_iff.mp hno
    obtain ⟨role, hrole⟩ := Option.isSome_iff_exists.mp (Option.isNone_eq_false_iff.mp hsome)
    by_cases hle : Role.operator.value ≤ role.value
    · obtain ⟨denial, hdenied⟩ := accessDenial_refuses hno hle
      rw [Site.call_denied hrole hdenied]
      exact ⟨h.world, asked_without h.limiter required hno⟩
    · rw [Site.call_serve hrole]
      exact ⟨h.world.trans (serve_viewer hrole hle).symm, asked_without h.limiter required hno⟩

/-- STEP: with one it is answered alike and leaves alike. -/
theorem Site.Alike.call (h : site.Alike policy site') (required : policy.required = true)
    (hyes : x.privileged policy = true) :
    (site'.call s policy x).1 = (site.call s policy x).1 ∧
      (site.call s policy x).2.Alike policy (site'.call s policy x).2 := by
  cases x with
  | read caller request circumstances =>
    obtain ⟨hadmitted, hasked⟩ := asked_alike h.limiter required hyes
    have hdenied := accessDenial_congr policy .viewer hadmitted
    rw [Site.call, Site.call, hdenied, h.world]
    exact ⟨rfl, rfl, hasked⟩
  | serve caller arrival =>
    rcases hrole : arrival.request.minimumRole with _ | role
    · rw [Site.call_own hrole, Site.call_own hrole, h.world]
      exact ⟨rfl, rfl, h.limiter⟩
    · have hyes : policy.authorize caller.apiKey .operator = true := by
        simpa [Call.privileged, hrole] using hyes
      obtain ⟨hadmitted, hasked⟩ := asked_alike h.limiter required hyes
      have hdenied := accessDenial_congr policy role hadmitted
      rw [Site.call_serve hrole, Site.call_serve hrole, hdenied, h.world]
      exact ⟨rfl, rfl, hasked⟩

/-- RUN: dropping the calls without an operator's key is no difference to the others. -/
theorem Site.Alike.calls (required : policy.required = true) (calls : List (Call V P T))
    {site site' : Site lib V J T} (h : site.Alike policy site') :
    (site'.calls s policy (calls.filter (Call.privileged policy))).1 =
        (site.calls s policy calls).1.filter (fun e => e.1.privileged policy) ∧
      (site.calls s policy calls).2.Alike policy
        (site'.calls s policy (calls.filter (Call.privileged policy))).2 := by
  induction calls generalizing site site' with
  | nil => exact ⟨rfl, h⟩
  | cons call calls ih =>
    rcases hcall : call.privileged policy with _ | _
    · obtain ⟨hanswers, hafter⟩ := ih (h.without (s := s) required hcall)
      rw [List.filter_cons_of_neg (by simp [hcall]), Site.calls,
        List.filter_cons_of_neg (by simp [hcall])]
      exact ⟨hanswers, hafter⟩
    · obtain ⟨hanswer, hnext⟩ := h.call (s := s) required hcall
      obtain ⟨hanswers, hafter⟩ := ih hnext
      rw [List.filter_cons_of_pos hcall, Site.calls, Site.calls,
        List.filter_cons_of_pos (by exact hcall), hanswer]
      exact ⟨congrArg _ hanswers, hafter⟩

/-- RUN: where an operator is asked for, nobody else gets anywhere. -/
theorem Site.calls_refused (calls : List (Call V P T)) {site : Site lib V J T} :
    ∀ e ∈ (site.calls s policy calls).1, e.1.privileged policy = false →
      (∃ role, e.1.minimumRole = some role ∧ Role.operator.value ≤ role.value) →
      ∃ denial : Denial, e.2 = .error denial.exn := by
  induction calls generalizing site with
  | nil => exact fun e he => absurd he List.not_mem_nil
  | cons call calls ih =>
    intro e he hno
    rcases List.mem_cons.mp he with rfl | he
    · rintro ⟨role, hrole, hle⟩
      cases call with
      | read =>
        obtain rfl := Option.some.inj hrole
        exact absurd hle (by decide)
      | serve caller arrival =>
        obtain ⟨denial, hdenied⟩ := accessDenial_refuses (Bool.or_eq_false_iff.mp hno).2 hle
        exact ⟨denial, congrArg Prod.fst (Site.call_denied hrole hdenied)⟩
    · exact ih e he hno

omit [CommRing T] [LinearOrder T] in
theorem AccessSettings.rateLimiter_alike (a : AccessSettings T) :
    Option.Rel (LocalRateLimiter.AlikeFor a.authPolicy.Operates) a.rateLimiter a.rateLimiter := by
  unfold rateLimiter
  split_ifs with hlimit
  · refine .some ⟨rfl, fun key hkey => ?_, fun _ _ => rfl⟩
    obtain ⟨role, hrole, -⟩ := hkey
    exact List.mem_toFinset.mpr ((Dict.mem_keys_iff _ _).mpr ⟨role, hrole⟩)
  · exact .none

/-- NO TRACE (access): when keys are required, take all calls without the key of an operator or an
    admin out of any sequence of calls: the stores end the same, and the other calls are answered the
    same, by the rate limiter too. What was taken out was refused, unless it only looked. -/
theorem outsiders_leave_no_trace (s : Service V P J) (a : AccessSettings T)
    (required : a.authRequired = true) (w : World lib V J) (calls : List (Call V P T)) :
    let policy := a.authPolicy
    let site : Site lib V J T := ⟨w, a.rateLimiter⟩
    let others := calls.filter (Call.privileged policy)
    (site.calls s policy others).2.world = (site.calls s policy calls).2.world ∧
    (site.calls s policy others).1 =
      (site.calls s policy calls).1.filter (fun e => e.1.privileged policy) ∧
    ∀ e ∈ (site.calls s policy calls).1, e.1.privileged policy = false →
      (∃ role, e.1.minimumRole = some role ∧ Role.operator.value ≤ role.value) →
      ∃ denial : Denial, e.2 = .error denial.exn := by
  intro policy site others
  have hstart : site.Alike policy site := ⟨rfl, a.rateLimiter_alike⟩
  obtain ⟨hanswers, hafter⟩ := hstart.calls (s := s) required calls
  exact ⟨hafter.world, hanswers, Site.calls_refused calls⟩

end Traces

/-! ### An example -/

/-- One call a minute, and two keys. -/
def twoKeys : AccessSettings ℚ where
  authRequired := true
  apiKeys := "ada:Operator, bob:viewer"
  rateLimit := 1
  rateLimitWindowSeconds := 60

noncomputable def callsEtl (key : String) : Call String Unit ℚ :=
  .serve { apiKey := some key, now := 0 } (ranEtl key)

/-- A viewer's attempt to run the definition neither runs it nor uses up the operator's call. -/
theorem bob_leaves_no_trace :
    let site : Site etlLibrary String (List (DeadLetter Unit)) ℚ :=
      ⟨World.booted etlLibrary String _ .database, twoKeys.rateLimiter⟩
    (site.calls etlService twoKeys.authPolicy [callsEtl "ada"]).2.world =
      (site.calls etlService twoKeys.authPolicy [callsEtl "bob", callsEtl "ada"]).2.world := by
  intro site
  have hbob : (callsEtl "bob").privileged twoKeys.authPolicy = false := by decide +kernel
  have hada : (callsEtl "ada").privileged twoKeys.authPolicy = true := by decide +kernel
  have h := (outsiders_leave_no_trace etlService twoKeys rfl
    (World.booted etlLibrary String _ .database) [callsEtl "bob", callsEtl "ada"]).1
  rwa [List.filter_cons_of_neg (by simp [hbob]), List.filter_cons_of_pos hada, List.filter_nil] at h

end WorkflowEngine
