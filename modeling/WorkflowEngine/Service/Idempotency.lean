import WorkflowEngine.Service.Requests

/-! Idempotency keys.

    A request claims its key before its definition is even parsed, and no claim is ever taken back. So
    a key guards attempts: at most one request with a key gets past the claim, whatever becomes of
    it, and the later ones are refused. -/

namespace WorkflowEngine
open Schemes

variable {D P V J : Type} {lib : YamlLibrary D P} [PyValue V]

def Exn.Conflict (e : Exn) : Prop := ∃ detail, e = .http 409 detail "idempotency_conflict"

theorem Exn.not_conflict {e : Exn} (h : e.isHttp = false) : ¬ e.Conflict := by
  rintro ⟨detail, rfl⟩
  exact absurd h (by simp [Exn.isHttp])

/-- `orInvalid` makes no conflict of another exception. -/
theorem Exn.conflict_invalid {e : Exn}
    (h : (if e.invalid then .http 422 e.text "validation_failed" else e : Exn).Conflict) :
    e.Conflict := by
  split_ifs at h
  · obtain ⟨detail, hdetail⟩ := h
    exact absurd hdetail (by simp)
  · exact h

/-- A handler that makes no conflict of another exception keeps a result from being one. -/
theorem not_conflict_mapError {α : Type} {r : Except Exn α} {f : Exn → Exn}
    (hf : ∀ e, (f e).Conflict → e.Conflict) (other : ∀ e, r = .error e → ¬ e.Conflict) :
    ∀ e, r.mapError f = .error e → ¬ e.Conflict := by
  intro e he
  cases r with
  | ok a => exact absurd he (by simp [Except.mapError])
  | error e' =>
    obtain rfl := Except.error.inj he
    exact fun hc => other e' rfl (hf e' hc)

/-- An empty idempotency store in a world. -/
def World.unclaimed (w : World lib V J) : World lib V J :=
  { w with schedules := { w.schedules with idempotency := ⟨∅⟩ } }

/-- The requests that look at the header `Idempotency-Key`. -/
def ServiceRequest.Keyed : ServiceRequest → Prop
  | .run .. | .triggerWebhook .. => True
  | _ => False

namespace Exchange

/-- The request is refused for its key. -/
def Conflicts (x : Exchange lib V J) : Prop :=
  ∃ detail, x.answer = .error (.http 409 detail "idempotency_conflict")

/-- The request leads to a stored or enqueued run. -/
def Reached (x : Exchange lib V J) : Prop :=
  x.after.saved ≠ x.before.saved ∨ x.after.queue ≠ x.before.queue

/-- The request is granted a claim. -/
def Granted (x : Exchange lib V J) (claim : String × String) : Prop :=
  claim ∉ x.before.schedules.idempotency.claims ∧ claim ∈ x.after.schedules.idempotency.claims

end Exchange

section Parts
variable {s : Service V P J} {c : Circumstances V P} {w : World lib V J}

/-! ### What a dispatch has to do with keys: nothing -/

theorem runWorkflow_schedules (call : RunCall V P) (w : World lib V J) :
    (runWorkflow s c call w).2.schedules = w.schedules := by
  have hleaves := runWorkflow_cases s c call w
  generalize (runWorkflow s c call w).1 = r at hleaves
  generalize (runWorkflow s c call w).2 = w' at hleaves
  cases hleaves <;> rfl

theorem runWorkflowTask_schedules (m : Message) (w : World lib V J) :
    (runWorkflowTask s c m w).2.schedules = w.schedules := by
  let I : World lib V J → Prop := fun w' => w'.schedules = w.schedules
  have hrun : Prog.Keeps I (runWorkflow s c (m.runCall s)) := fun w' hw' =>
    (runWorkflow_schedules _ w').trans hw'
  exact (ensureVersion_keeps (I := I) fun _ hw' => hw').bind (fun _ => hrun) w rfl

theorem dispatch_schedules (call : DispatchCall) (w : World lib V J) :
    (dispatch s c call w).2.schedules = w.schedules := by
  have hleaves := dispatch_cases s c call w
  generalize (dispatch s c call w).1 = r at hleaves
  generalize (dispatch s c call w).2 = w' at hleaves
  cases hleaves with
  | unpinned | undelivered | enqueued | unhashable | unlocked | locked => rfl
  | ran | unreleased => exact runWorkflow_schedules _ w

theorem dispatch_not_conflict {call : DispatchCall} {e : Exn}
    (h : (dispatch s c call w).1 = .error e) : ¬ e.Conflict := by
  rcases dispatch_raised h with rfl | rfl | hrun
  · exact fun ⟨detail, hdetail⟩ => absurd hdetail (by simp)
  · exact fun ⟨detail, hdetail⟩ => absurd hdetail (by simp)
  · exact Exn.not_conflict hrun.plain

/-! ### How a request with a key ends -/

/-- A request ends before its claim, is refused for its key, or goes on to a dispatch. -/
inductive Guards (ns : String) (key : Option String) (w : World lib V J) :
    Except Exn (DispatchResult P) → World lib V J → Prop
  | stopped {e : Exn} (other : ¬ e.Conflict) : Guards ns key w (.error e) w
  | refused {k : String} {e : Exn} (given : truthy key = some k)
      (taken : (ns, k) ∈ w.schedules.idempotency.claims) : Guards ns key w (.error e) w
  | keyless {r : Except Exn (DispatchResult P)} {w' : World lib V J} (none : truthy key = none)
      (claims : w'.schedules = w.schedules) (other : ∀ e, r = .error e → ¬ e.Conflict) :
      Guards ns key w r w'
  | granted {k : String} {r : Except Exn (DispatchResult P)} {w' : World lib V J}
      (given : truthy key = some k) (fresh : (ns, k) ∉ w.schedules.idempotency.claims)
      (claims : w'.schedules = (w.claimed ns k).schedules)
      (other : ∀ e, r = .error e → ¬ e.Conflict) : Guards ns key w r w'

/-- A handler that makes no conflict of another exception changes nothing about this. -/
theorem Guards.mapError {ns : String} {key : Option String} {r : Except Exn (DispatchResult P)}
    {w' : World lib V J} (h : Guards ns key w r w') {f : Exn → Exn}
    (hf : ∀ e, (f e).Conflict → e.Conflict) : Guards ns key w (r.mapError f) w' := by
  cases h with
  | stopped other => exact .stopped fun hc => other (hf _ hc)
  | refused given taken => exact .refused given taken
  | keyless none claims other => exact .keyless none claims (not_conflict_mapError hf other)
  | granted given fresh claims other =>
    exact .granted given fresh claims (not_conflict_mapError hf other)

theorem Guards.orInvalid {ns : String} {key : Option String} {m : Program lib V J (DispatchResult P)}
    (h : Guards ns key w (m w).1 (m w).2) :
    Guards ns key w (orInvalid m w).1 (orInvalid m w).2 := by
  rw [orInvalid_run]
  exact h.mapError fun _ hc => Exn.conflict_invalid hc

theorem Guards.orPersistence {ns : String} {key : Option String}
    {m : Program lib V J (DispatchResult P)} (h : Guards ns key w (m w).1 (m w).2) :
    Guards ns key w (orPersistence m w).1 (orPersistence m w).2 := by
  rw [orPersistence_run]
  refine h.mapError fun e hc => ?_
  cases e with
  | persistence message =>
    obtain ⟨detail, hdetail⟩ := hc
    exact absurd hdetail (by simp)
  | _ => exact hc

/-- A program that ends before its claim raises what is not a conflict. -/
theorem Guards.bind {α : Type} {ns : String} {key : Option String} {m : Program lib V J α}
    {f : α → Program lib V J (DispatchResult P)} (stays : (m w).2 = w)
    (other : ∀ e, (m w).1 = .error e → ¬ e.Conflict)
    (h : ∀ a, Guards ns key w (f a w).1 (f a w).2) :
    Guards ns key w ((m >>= f) w).1 ((m >>= f) w).2 := by
  rcases hrun : m w with ⟨e | a, w'⟩
  · rw [Prog.bind_of_error hrun]
    rw [hrun] at stays other
    obtain rfl : w' = w := stays
    exact .stopped (other e rfl)
  · rw [Prog.bind_of_ok hrun]
    rw [hrun] at stays
    obtain rfl : w' = w := stays
    exact h a

/-- The claim, then a dispatch. -/
theorem guards_claim (c : Circumstances V P) (ns : String) (key : Option String)
    (w : World lib V J) {m : Program lib V J (DispatchResult P)}
    (schedules : ∀ w : World lib V J, (m w).2.schedules = w.schedules)
    (other : ∀ (w : World lib V J) e, (m w).1 = .error e → ¬ e.Conflict) :
    Guards ns key w ((claimIdempotency c ns key >>= fun _ => m) w).1
      ((claimIdempotency c ns key >>= fun _ => m) w).2 := by
  have hclaims := claimIdempotency_cases c w ns key
  rcases hrun : claimIdempotency c ns key w with ⟨r, w'⟩
  rw [hrun] at hclaims
  cases hclaims with
  | keyless none =>
    rw [Prog.bind_of_ok hrun]
    exact .keyless none (schedules _) (other _)
  | failed fails =>
    rw [Prog.bind_of_error hrun]
    exact .stopped (Exn.not_conflict (c.plain _ _ fails))
  | refused given taken =>
    rw [Prog.bind_of_error hrun]
    exact .refused given taken
  | granted given fresh =>
    rw [Prog.bind_of_ok hrun]
    exact .granted given fresh (schedules _) (other _)

/-! ### Before the claim -/

/-- Every exception is another one. -/
abbrev Otherwise {α : Type} (m : Program lib V J α) : Prop := Prog.Raises (fun e => ¬ e.Conflict) m

theorem checkAccess_otherwise : Otherwise (checkAccess c : Program lib V J Unit) := by
  refine checkAccess_raises fun denial => ?_
  rintro ⟨detail, hdetail⟩
  cases denial <;> exact absurd hdetail (by simp [Denial.exn])

theorem attempt_otherwise (op : Operation) : Otherwise (attempt c op : Program lib V J Unit) :=
  attempt_raises fun e he => Exn.not_conflict (c.plain op e he)

theorem findWebhook_otherwise (name : String) :
    Otherwise (findWebhook c name : Program lib V J WebhookTrigger) := by
  refine checkAccess_otherwise.bind fun _ => (attempt_otherwise _).bind fun _ =>
    Prog.Raises.bind (.view _) fun trigger => ?_
  cases trigger with
  | none => exact .raise fun ⟨detail, hdetail⟩ => absurd hdetail (by simp)
  | some trigger => exact .pure _

omit [PyValue V] in
theorem acceptsSignature_plain {trigger : WebhookTrigger} {body : List UInt8}
    {signature : Option String} {e : Exn}
    (h : acceptsSignature s trigger body signature = .error e) : e.isHttp = false := by
  unfold acceptsSignature at h
  split at h
  · exact absurd h (by simp)
  · split at h
    · exact absurd h (by simp)
    · split_ifs at h
      unfold compareDigest at h
      split_ifs at h
      rw [← Except.error.inj h]
      rfl

theorem checkSignature_otherwise (name : String) (body : List UInt8) (signature : Option String) :
    Otherwise (checkSignature s c name body signature : Program lib V J Unit) := by
  refine Prog.Raises.bind ?_ fun accepted => ?_
  · refine (attempt_otherwise _).bind fun _ =>
      Prog.Raises.bind (.view _) fun trigger => ?_
    cases trigger with
    | none => exact .pure _
    | some trigger => exact .lift fun e he => Exn.not_conflict (acceptsSignature_plain he)
  · cases accepted with
    | false => exact .raise fun ⟨detail, hdetail⟩ => absurd hdetail (by simp)
    | true => exact .pure ()

/-! ### The two endpoints -/

theorem stays_of_keeps {α : Type} {m : Program lib V J α} (h : ∀ I, Prog.Keeps I m)
    (w : World lib V J) : (m w).2 = w := h (fun w' => w' = w) w rfl

theorem raises_of_otherwise {α : Type} {m : Program lib V J α} (h : Otherwise m)
    (w : World lib V J) (e : Exn) (he : (m w).1 = .error e) : ¬ e.Conflict :=
  h w e (m w).2 (by rw [← he])

theorem guards_dispatch (ns : String) (key : Option String) (call : DispatchCall)
    (w : World lib V J) :
    Guards ns key w ((claimIdempotency c ns key >>= fun _ => dispatch s c call) w).1
      ((claimIdempotency c ns key >>= fun _ => dispatch s c call) w).2 :=
  guards_claim c ns key w (dispatch_schedules call) fun _ _ he => dispatch_not_conflict he

theorem guards_run (text : String) (asyncDispatch : Bool) (key : Option String)
    (w : World lib V J) :
    Guards "workflow:run" key w (runWorkflowEndpoint s c text asyncDispatch key w).1
      (runWorkflowEndpoint s c text asyncDispatch key w).2 := by
  refine Guards.bind (stays_of_keeps (fun _ => checkAccess_keeps) w)
    (raises_of_otherwise checkAccess_otherwise w) fun _ => ?_
  exact (guards_dispatch _ key _ w).orInvalid.orPersistence

theorem guards_trigger (name : String) (body : List UInt8) (signature key : Option String)
    (w : World lib V J) :
    Guards ("webhook:" ++ name) key w (triggerWebhook s c name body signature key w).1
      (triggerWebhook s c name body signature key w).2 := by
  refine Guards.orPersistence ?_
  refine Guards.bind (stays_of_keeps (fun _ => findWebhook_keeps name) w)
    (raises_of_otherwise (findWebhook_otherwise name) w) fun trigger => ?_
  refine Guards.bind (stays_of_keeps (fun _ => checkSignature_keeps name body signature) w)
    (raises_of_otherwise (checkSignature_otherwise name body signature) w) fun _ => ?_
  refine guards_claim c _ key w (fun w => ?_) fun w e he => ?_
  · rw [orInvalid_run]
    exact dispatch_schedules _ w
  · rw [orInvalid_run] at he
    exact not_conflict_mapError (fun _ hc => Exn.conflict_invalid hc)
      (fun _ => dispatch_not_conflict) e he

theorem Guards.conflict {ns : String} {key : Option String} {e : Exn} {w' : World lib V J}
    (h : Guards (P := P) ns key w (.error e) w') (hc : e.Conflict) :
    ∃ k, truthy key = some k ∧ (ns, k) ∈ w.schedules.idempotency.claims := by
  cases h with
  | stopped other => exact absurd hc other
  | refused given taken => exact ⟨_, given, taken⟩
  | keyless _ _ other | granted _ _ _ other => exact absurd hc (other e rfl)

theorem Guards.moved {ns k : String} {key : Option String} {r : Except Exn (DispatchResult P)}
    {w' : World lib V J} (h : Guards ns key w r w') (hk : truthy key = some k)
    (hmoved : w'.saved ≠ w.saved ∨ w'.queue ≠ w.queue) :
    (ns, k) ∉ w.schedules.idempotency.claims ∧ (ns, k) ∈ w'.schedules.idempotency.claims := by
  cases h with
  | stopped | refused => exact absurd hmoved (by simp)
  | keyless none => exact absurd (none.symm.trans hk) (by simp)
  | granted given fresh claims =>
    obtain rfl := Option.some.inj (given.symm.trans hk)
    exact ⟨fresh, by rw [claims]; exact Finset.mem_insert_self _ _⟩

end Parts

/-! ### One request -/

section Request
variable {s : Service V P J} {w : World lib V J} {x : Arrival V P} {k : String × String}

theorem serve_run (cs : ℕ → Circumstances V P) (text : String) (asyncDispatch : Bool)
    (key : Option String) : serve s cs (.run text asyncDispatch key) w =
      ((runWorkflowEndpoint s (cs 0) text asyncDispatch key w).1.map .dispatched,
        (runWorkflowEndpoint s (cs 0) text asyncDispatch key w).2) :=
  Prog.bind_pure_run _

theorem serve_trigger (cs : ℕ → Circumstances V P) (name : String) (body : List UInt8)
    (signature key : Option String) : serve s cs (.triggerWebhook name body signature key) w =
      ((triggerWebhook s (cs 0) name body signature key w).1.map .dispatched,
        (triggerWebhook s (cs 0) name body signature key w).2) :=
  Prog.bind_pure_run _

/-- What a keyed request does, under its namespace and key. -/
theorem exists_guards (hkeyed : x.request.Keyed) : ∃ ns key r,
    x.request.key = (truthy key).map (fun k => (ns, k)) ∧
    (x.exchange s w).answer = r.map .dispatched ∧
    Guards ns key w r (x.exchange s w).after := by
  rcases x with ⟨request, cs⟩
  cases request with
  | run text asyncDispatch key =>
    have hguards := guards_run (s := s) (c := cs 0) text asyncDispatch key w
    rw [Arrival.exchange, serve_run]
    exact ⟨_, _, _, rfl, rfl, hguards⟩
  | triggerWebhook name body signature key =>
    have hguards := guards_trigger (s := s) (c := cs 0) name body signature key w
    rw [Arrival.exchange, serve_trigger]
    exact ⟨_, _, _, rfl, rfl, hguards⟩
  | _ => exact hkeyed.elim

/-- A request is refused for its key only if that is claimed. -/
theorem taken_of_conflicts (hkeyed : x.request.Keyed) (h : (x.exchange s w).Conflicts) :
    ∃ k, x.request.key = some k ∧ k ∈ w.schedules.idempotency.claims := by
  obtain ⟨ns, key, r, hkey, hanswer, hguards⟩ := exists_guards (s := s) (w := w) hkeyed
  obtain ⟨detail, hdetail⟩ := h
  rw [hanswer] at hdetail
  cases r with
  | ok run => exact absurd hdetail (by simp [Except.map])
  | error e =>
    obtain ⟨k, hk, htaken⟩ := hguards.conflict ⟨detail, Except.error.inj hdetail⟩
    exact ⟨_, by rw [hkey, hk]; rfl, htaken⟩

/-- A request with a key leads to a run only if it is granted the key. -/
theorem granted_of_reached (hkey : x.request.key = some k) (h : (x.exchange s w).Reached) :
    (x.exchange s w).Granted k := by
  have hkeyed : x.request.Keyed := by
    cases hrequest : x.request <;> rw [hrequest] at hkey
    case run | triggerWebhook => trivial
    all_goals exact absurd hkey (by simp [ServiceRequest.key])
  obtain ⟨ns, key, r, hkey', -, hguards⟩ := exists_guards (s := s) (w := w) hkeyed
  rw [hkey'] at hkey
  obtain ⟨k, hk, rfl⟩ := Option.map_eq_some_iff.mp hkey
  exact hguards.moved hk h

/-- A request only adds claims, and only those that it can make. -/
theorem claims_survive (s : Service V P J) (x : Arrival V P) (w : World lib V J) :
    w.schedules.idempotency.claims ⊆ (x.exchange s w).after.schedules.idempotency.claims ∧
    ∀ k ∈ (x.exchange s w).after.schedules.idempotency.claims,
      k ∈ w.schedules.idempotency.claims ∨ x.request.Claims k := by
  have hsurvives : Survives s x.circumstances x.request fun _ (w' : World lib V J) =>
      w.schedules.idempotency.claims ⊆ w'.schedules.idempotency.claims ∧
      ∀ k ∈ w'.schedules.idempotency.claims,
        k ∈ w.schedules.idempotency.claims ∨ x.request.Claims k :=
    { next := id
      claimed := by
        rintro k w' ns key hclaims ⟨hold, hnew⟩
        refine ⟨hold.trans (Finset.subset_insert _ _), fun k' hk' => ?_⟩
        rcases Finset.mem_insert.mp hk' with rfl | hk'
        · exact .inr hclaims
        · exact hnew k' hk'
      store := fun _ h => h
      webhooks := fun _ h => h
      fresh := fun _ _ h => by rwa [dispatch_schedules]
      rerun := fun _ _ h => by rwa [dispatch_schedules]
      due := fun _ h => by rwa [runWorkflow_schedules]
      delivered := fun _ h => by rwa [runWorkflowTask_schedules] }
  obtain ⟨-, h⟩ := hsurvives.serve w ⟨subset_rfl, fun k hk => .inl hk⟩
  exact h

/-- A key is not a fire time. -/
theorem key_ne_schedule {request : ServiceRequest} (hkey : request.key = some k) (name : String) :
    k.1 ≠ "schedule:" ++ name := by
  have hchars : ∀ ns : String, ns.toList.head? ≠ some 's' → ns ≠ "schedule:" ++ name := by
    rintro _ hns rfl
    exact hns (by rw [String.toList_append]; rfl)
  cases request with
  | run text asyncDispatch key =>
    obtain ⟨k, -, rfl⟩ := Option.map_eq_some_iff.mp hkey
    exact hchars "workflow:run" (by decide)
  | triggerWebhook webhook body signature key =>
    obtain ⟨k, -, rfl⟩ := Option.map_eq_some_iff.mp hkey
    refine hchars _ ?_
    rw [String.toList_append]
    exact (by decide : some 'w' ≠ some 's')
  | _ => exact absurd hkey (by simp [ServiceRequest.key])

end Request

/-! ### Every sequence of requests -/

section Sequences
variable (s : Service V P J) (w : World lib V J)

/-- What the claims have to do with the past: what was granted is claimed, and what is claimed was
    granted to a request with that key, or is a fire time. -/
structure Traced (past : List (Exchange lib V J)) (w : World lib V J) : Prop where
  granted : ∀ x ∈ past, ∀ k, x.Granted k → k ∈ w.schedules.idempotency.claims
  claimed : ∀ k ∈ w.schedules.idempotency.claims, (∃ name, k.1 = "schedule:" ++ name) ∨
    ∃ x ∈ past, x.request.key = some k ∧ x.Granted k

variable {s w} in
theorem Traced.exchange {past : List (Exchange lib V J)} (h : Traced past w) (x : Arrival V P) :
    Traced (past ++ [x.exchange s w]) (x.exchange s w).after := by
  obtain ⟨hgrow, hnew⟩ := claims_survive s x w
  constructor
  · intro y hy k hk
    rcases List.mem_append.mp hy with hy | hy
    · exact hgrow (h.granted y hy k hk)
    · obtain rfl := List.mem_singleton.mp hy
      exact hk.2
  · intro k hk
    by_cases hold : k ∈ w.schedules.idempotency.claims
    · rcases h.claimed k hold with hfire | ⟨y, hy, hgranted⟩
      · exact .inl hfire
      · exact .inr ⟨y, List.mem_append_left _ hy, hgranted⟩
    · rcases (hnew k hk).resolve_left hold with hkey | hfire
      · exact .inr ⟨_, List.mem_append_right _ (List.mem_singleton_self _), hkey, hold, hk⟩
      · exact .inl hfire

theorem traced (arrivals : List (Arrival V P)) :
    Traced (transcript s w.unclaimed arrivals) (w.unclaimed.after s arrivals) := by
  induction arrivals using List.reverseRecOn with
  | nil =>
    constructor
    · exact fun x hx => absurd hx (by simp [transcript])
    · exact fun k hk => absurd hk (Finset.notMem_empty k)
  | append_singleton arrivals x ih =>
    rw [transcript_concat, World.after_concat]
    exact ih.exchange x

variable {s w} in
theorem reached_granted {arrivals : List (Arrival V P)} {x : Exchange lib V J} {k : String × String}
    (hx : x ∈ transcript s w arrivals) (hkey : x.request.key = some k) (h : x.Reached) :
    x.Granted k := by
  obtain ⟨pre, a, post, -, rfl⟩ := exists_of_mem_transcript hx
  exact granted_of_reached hkey h

/-- CORRECT (keys): once a request is granted its key, no later request with that key leads to a stored
    or enqueued run, so at most one does; and a request is refused for its key only if an earlier
    request with the same namespace and key was granted it. -/
theorem keys_guard (s : Service V P J) (w : World lib V J) (arrivals : List (Arrival V P)) :
    (transcript s w.unclaimed arrivals).Pairwise (fun x y => ∀ k, x.request.key = some k →
      y.request.key = some k → (x.Granted k → ¬ y.Reached) ∧ ¬ (x.Reached ∧ y.Reached)) ∧
    History.Each (fun past y => y.request.Keyed → y.Conflicts → ∃ k, y.request.key = some k ∧
      ∃ x ∈ past, x.request.key = some k ∧ x.Granted k) (transcript s w.unclaimed arrivals) := by
  induction arrivals using List.reverseRecOn with
  | nil => exact ⟨List.Pairwise.nil, History.each_nil _⟩
  | append_singleton arrivals x ih =>
    obtain ⟨hpairs, heach⟩ := ih
    have htraced := traced s w arrivals
    rw [transcript_concat]
    refine ⟨List.pairwise_append.mpr ⟨hpairs, List.pairwise_singleton _ _, ?_⟩, heach.concat ?_⟩
    · intro y hy z hz k hky hkz
      obtain rfl := List.mem_singleton.mp hz
      -- a claim that was granted is still there, and a run needs one that is not
      have hno : y.Granted k → ¬ (x.exchange s (w.unclaimed.after s arrivals)).Reached :=
        fun hgranted hreached => (granted_of_reached hkz hreached).1 (htraced.granted y hy k hgranted)
      exact ⟨hno, fun ⟨hy', hz'⟩ => hno (reached_granted hy hky hy') hz'⟩
    · intro hkeyed hconflicts
      obtain ⟨k, hkey, htaken⟩ := taken_of_conflicts hkeyed hconflicts
      rcases htraced.claimed k htaken with ⟨name, hname⟩ | hearlier
      · exact absurd hname (key_ne_schedule hkey name)
      · exact ⟨k, hkey, hearlier⟩

end Sequences

/-! ### An example -/

/-- A workflow with an unknown task, and then a good one with the same key. -/
noncomputable def retried : List (Arrival String Unit) :=
  [⟨.run Document.typo.text false (some "k"), fun _ => calm "1"⟩,
   ⟨.run Document.idle.text false (some "k"), fun _ => calm "2"⟩]

/-- The first request is answered with 422 and leaves no run, and the second is refused for its
    key. -/
theorem retried_refused : ∃ x y, transcript quiet blank.unclaimed retried = [x, y] ∧
    x.request.key = some ("workflow:run", "k") ∧ y.request.key = some ("workflow:run", "k") ∧
    x.answer = .error (.http 422 "Tasks not found in registry: missing" "validation_failed") ∧
    ¬ x.Reached ∧ y.Conflicts := by
  refine ⟨_, _, rfl, rfl, rfl, rfl, ?_, _, rfl⟩
  rintro (h | h)
  · exact h rfl
  · exact h rfl

end WorkflowEngine
