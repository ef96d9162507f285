import WorkflowEngine.Locks.Providers
import WorkflowEngine.Service.Endpoints
import WorkflowEngine.Schemes.History

/-! Dispatches under the lock of their definition.

    `_dispatch` enters a lock context under the definition's canonical hash, and executes the workflow
    in its body if it was granted the key. Acquiring, executing and releasing are separate steps, and
    in Redis a key may expire between any two of them. As long as no key expires during the execution
    that holds it, executions of a definition exclude one another. -/

namespace WorkflowEngine
open Schemes

/-- `workflow:{canonical_yaml_hash(yaml_definition)}`. -/
def lockKey (hash : String) : String := "workflow:" ++ hash

/-- The answer to a request whose workflow is already running. -/
def lockConflict : Exn := .http 409 "Workflow is already running" "lock_conflict"

variable {D P V J ι : Type} {lib : YamlLibrary D P}

/-! ### `_dispatch` with its lock granted or refused -/

section Dispatch
variable [PyValue V] {s : Service V P J} {c : Circumstances V P} {call : DispatchCall} {hash : String}
  {w : World lib V J} (hlock : s.lockingEnabled = true) (hsync : call.async s = false)
  (hhash : lib.canonicalYamlHash call.yamlDefinition = .ok hash) (hc : c.fails .acquire = none)
include hlock hsync hhash hc

theorem dispatch_refused (hheld : c.held = false) : dispatch s c call w = (.error lockConflict, w) := by
  rw [dispatch, hsync, if_neg (by simp), if_pos hlock, runLocked, hhash, Prog.lift_ok_bind_run,
    Prog.bind_of_ok (attempt_of_none hc), hheld]
  rfl

theorem dispatch_granted (hheld : c.held = true) : dispatch s c call w =
    Prog.ensure (runInline s c call (idOr call.runId (c.uuid .run))) (attempt c .release) w := by
  rw [dispatch, hsync, if_neg (by simp), if_pos hlock, runLocked, hhash, Prog.lift_ok_bind_run,
    Prog.bind_of_ok (attempt_of_none hc), hheld]
  rfl

end Dispatch

/-! ### Requests step by step -/

/-- Requests that are dispatched synchronously with locking on, and the tokens of their contexts. -/
structure LockedCalls (lib : YamlLibrary D P) (ι : Type) where
  yamlDefinition : ι → String
  token : ι → String
  distinct : Function.Injective token

namespace LockedCalls

def hash (calls : LockedCalls lib ι) (i : ι) : Except Exn String :=
  lib.canonicalYamlHash (calls.yamlDefinition i)

/-- The lock contexts of the requests; one whose definition has no hash opens none. -/
def contexts (calls : LockedCalls lib ι) : LockContexts ι where
  key i := match calls.hash i with
    | .ok hash => lockKey hash
    | .error _ => ""
  token := calls.token
  distinct := calls.distinct

theorem contexts_key {calls : LockedCalls lib ι} {i : ι} {hash : String}
    (h : calls.hash i = .ok hash) : calls.contexts.key i = lockKey hash := by
  simp only [contexts, h]

end LockedCalls

/-- The steps of a request: it asks for the lock, or raises; its execution ends, with some result; it
    releases the lock, or raises. Besides, a key expires. -/
inductive DispatchStep (ι P : Type) where
  | acquire (i : ι) (fault : Option Exn)
  | finish (i : ι) (result : Except Exn (DispatchResult P))
  | release (i : ι) (fault : Option Exn)
  | expire (key : String)

/-- The locks, how the executions have ended, and the answers given. -/
structure Dispatches (ι P : Type) where
  locks : Locks ι
  result : ι → Option (Except Exn (DispatchResult P)) := fun _ => none
  answer : ι → Option (Except Exn (DispatchResult P)) := fun _ => none

/-- How the body of a context ends whose execution ends so. -/
def BodyEnd.of (result : Except Exn (DispatchResult P)) : BodyEnd :=
  match result with
  | .ok _ => .returned
  | .error _ => .raised

namespace Dispatches
variable [DecidableEq ι] (calls : LockedCalls lib ι)

def give (u : Dispatches ι P) (i : ι) (answer : Except Exn (DispatchResult P)) : Dispatches ι P :=
  { u with answer := Function.update u.answer i (some answer) }

/-- Not yet begun. -/
def New (u : Dispatches ι P) (i : ι) : Prop :=
  u.locks.visit i = .before ∧ u.result i = none ∧ u.answer i = none

/-- The workflow of the request is running. -/
def InProgress (u : Dispatches ι P) (i : ι) : Prop :=
  u.locks.visit i = .inside true ∧ u.result i = none

instance (u : Dispatches ι P) (i : ι) : Decidable (u.New i) :=
  decidable_of_iff
    (u.locks.visit i = .before ∧ (u.result i).isNone = true ∧ (u.answer i).isNone = true) (by
    rw [New, Option.isNone_iff_eq_none, Option.isNone_iff_eq_none])

instance (u : Dispatches ι P) (i : ι) : Decidable (u.InProgress i) :=
  decidable_of_iff (u.locks.visit i = .inside true ∧ (u.result i).isNone = true) (by
    rw [InProgress, Option.isNone_iff_eq_none])

/-- One step; a step that its request is not at changes nothing. -/
def take (u : Dispatches ι P) : DispatchStep ι P → Dispatches ι P
  | .acquire i fault =>
    if u.New i then
      match calls.hash i, fault with
      | .error e, _ => u.give i (.error e)
      | .ok _, some e => u.give i (.error e)
      | .ok _, none =>
        let locks := u.locks.take calls.contexts (.enter i)
        if locks.visit i = .inside true then { u with locks := locks }
        else -- the body raises at once
          { u with locks := locks.take calls.contexts (.exit i .raised) }.give i (.error lockConflict)
    else u
  | .finish i result =>
    if u.InProgress i then { u with result := Function.update u.result i (some result) } else u
  | .release i fault =>
    match u.result i, u.answer i, fault with
    | some result, none, none =>
      { u with locks := u.locks.take calls.contexts (.exit i (.of result)) }.give i result
    | some _, none, some e => u.give i (.error e) -- the key is left over
    | _, _, _ => u
  | .expire key => { u with locks := u.locks.take calls.contexts (.expire key) }

/-- New locks of this kind after these steps. -/
def after (kind : LockKind) (steps : List (DispatchStep ι P)) : Dispatches ι P :=
  steps.foldl (take calls) { locks := { provider := .new kind } }

/-- The condition: no key expires in Redis while a workflow is running under it. -/
def Lasting (u : Dispatches ι P) : DispatchStep ι P → Prop
  | .expire key => ∀ store, u.locks.provider = .redis store → ∀ i, u.InProgress i →
      calls.contexts.key i ≠ key
  | _ => True

/-- Executions of a definition exclude one another, and while one is in progress everybody who asks
    for its lock, with whatever token, is refused. -/
structure Exclusive (u : Dispatches ι P) : Prop where
  single : ∀ i j, u.InProgress i → u.InProgress j → calls.hash i = calls.hash j → i = j
  refused : ∀ i hash, u.InProgress i → calls.hash i = .ok hash → ∀ token,
    (u.locks.provider.acquire (lockKey hash) token).1 = false

/-! ### What a step keeps -/

/-- The invariant: the locks are leases, only requests with a hash ask for one, and every execution in
    progress holds its key. -/
structure Inv (calls : LockedCalls lib ι) (u : Dispatches ι P) (l : Leases String ι) : Prop where
  tracks : Locks.Tracks calls.contexts u.locks l
  hashed : ∀ i, u.locks.visit i ≠ .before → ∃ hash, calls.hash i = .ok hash
  holds : ∀ i, u.InProgress i → l.holder (calls.contexts.key i) = some i

variable {calls} {u : Dispatches ι P} {l : Leases String ι}

omit [DecidableEq ι] in
theorem Inv.exclusive (h : Inv calls u l) : Exclusive calls u where
  single i j hi hj he := by
    have hkey : calls.contexts.key i = calls.contexts.key j := by
      simp only [LockedCalls.contexts, he]
    exact Option.some.inj ((h.holds i hi).symm.trans (hkey ▸ h.holds j hj))
  refused i hash hi hhash token := by
    rw [← Bool.not_eq_true, LockProvider.acquire_iff, not_not, h.tracks.stores.held_iff,
      ← LockedCalls.contexts_key hhash]
    exact ⟨i, h.holds i hi⟩

theorem Inv.give (h : Inv calls u l) (i : ι) (answer : Except Exn (DispatchResult P)) :
    Inv calls (u.give i answer) l :=
  ⟨h.tracks, h.hashed, h.holds⟩

/-- A context exits: the executions that are still in progress hold their keys. -/
theorem Inv.exit (h : Inv calls u l) (i : ι) (body : BodyEnd) :
    Inv calls { u with locks := u.locks.take calls.contexts (.exit i body) }
      (l.leave calls.contexts.key i) := by
  have htracks := h.tracks.exit i body
  have hvisit : ∀ j, (u.locks.take calls.contexts (.exit i body)).visit j =
      (l.leave calls.contexts.key i).visit j := fun j => by rw [htracks.visit]
  refine ⟨htracks, fun j hj => ?_, fun j hj => ?_⟩
  · dsimp only at hj
    rw [hvisit, Ne, (Leases.visit_leave l i j).1, ← h.tracks.visit] at hj
    exact h.hashed j hj
  · obtain ⟨hinside, hresult⟩ := hj
    dsimp only at hinside
    rw [hvisit] at hinside
    obtain ⟨hne, hinside⟩ := (Leases.visit_leave l i j).2 true hinside
    exact Leases.holder_leave_of_ne (h.holds j ⟨h.tracks.visit ▸ hinside, hresult⟩) hne

/-- A new request enters its context; its workflow is running if it was granted the key. -/
theorem Inv.enter (h : Inv calls u l) {i : ι} {hash : String} (hnew : u.New i)
    (hhash : calls.hash i = .ok hash) :
    Inv calls { u with locks := u.locks.take calls.contexts (.enter i) }
      (l.enter calls.contexts.key i) := by
  have htracks := h.tracks.enter i
  have hbefore : l.visit i = .before := h.tracks.visit ▸ hnew.1
  have hother : ∀ j, j ≠ i → (u.locks.take calls.contexts (.enter i)).visit j =
      u.locks.visit j := by
    intro j hj
    rw [htracks.visit, Leases.visit_enter_of_ne hj, h.tracks.visit]
  refine ⟨htracks, fun j hj => ?_, fun j hj => ?_⟩
  · rcases eq_or_ne j i with rfl | hne
    · exact ⟨hash, hhash⟩
    · exact h.hashed j (hother j hne ▸ hj)
  · obtain ⟨hinside, hresult⟩ := hj
    rcases eq_or_ne j i with rfl | hne
    · refine Leases.holder_of_enter hbefore ?_
      rw [← htracks.visit]
      exact hinside
    · exact Leases.holder_enter (h.holds j ⟨hother j hne ▸ hinside, hresult⟩)

/-- A key expires under which no workflow is running. -/
theorem Inv.expire (h : Inv calls u l) {key : String} (hc : Lasting calls u (.expire (P := P) key)) :
    ∃ l', Inv calls { u with locks := u.locks.take calls.contexts (.expire key) } l' := by
  have htracks := h.tracks.take (.expire key)
  refine ⟨_, htracks, h.hashed, fun i hi => ?_⟩
  rw [Locks.leased]
  split
  · exact h.holds i hi
  · next store hstore =>
    exact (Function.update_of_ne (hc store hstore i hi) ..).trans (h.holds i hi)

theorem Inv.take (h : Inv calls u l) {a : DispatchStep ι P} (hc : Lasting calls u a) :
    ∃ l', Inv calls (Dispatches.take calls u a) l' := by
  cases a with
  | acquire i fault =>
    simp only [Dispatches.take]
    by_cases hnew : u.New i
    · rw [if_pos hnew]
      split
      · exact ⟨l, h.give i _⟩
      · exact ⟨l, h.give i _⟩
      · next hash hhash =>
        have henter := h.enter hnew hhash
        split_ifs with hgranted
        · exact ⟨_, henter⟩
        · exact ⟨_, (henter.exit i .raised).give i _⟩
    · rw [if_neg hnew]
      exact ⟨l, h⟩
  | finish i result =>
    simp only [Dispatches.take]
    split_ifs with hi
    · refine ⟨l, h.tracks, h.hashed, fun j hj => ?_⟩
      obtain ⟨hinside, hresult⟩ := hj
      dsimp only at hresult
      rw [Function.update_apply] at hresult
      split_ifs at hresult
      exact h.holds j ⟨hinside, hresult⟩
    · exact ⟨l, h⟩
  | release i fault =>
    simp only [Dispatches.take]
    split
    · exact ⟨_, (h.exit i _).give i _⟩
    · exact ⟨l, h.give i _⟩
    · exact ⟨l, h⟩
  | expire key => exact h.expire hc

/-- A key that expires while a workflow is running under it is free at once. -/
theorem not_exclusive_expire (h : Inv calls u l) {a : DispatchStep ι P} (hc : ¬ Lasting calls u a) :
    ¬ Exclusive calls (Dispatches.take calls u a) := by
  cases a with
  | acquire | finish | release => exact absurd trivial hc
  | expire key =>
    simp only [Lasting, not_forall, not_not] at hc
    obtain ⟨store, hstore, i, hi, hkey⟩ := hc
    intro hexclusive
    obtain ⟨hash, hhash⟩ := h.hashed i (by rw [hi.1]; simp)
    have hrefused := hexclusive.refused i hash hi hhash ""
    rw [← Bool.not_eq_true, LockProvider.acquire_iff, not_not, ← LockedCalls.contexts_key hhash,
      hkey] at hrefused
    change (u.locks.provider.expire key).Held key at hrefused
    rw [hstore, LockProvider.expire, LockProvider.Held, Dict.get_erase, if_pos rfl] at hrefused
    exact absurd hrefused (by simp)

/-! ### Every run -/

theorem after_concat (kind : LockKind) (pre : List (DispatchStep ι P)) (a : DispatchStep ι P) :
    after calls kind (pre ++ [a]) = take calls (after calls kind pre) a := by
  rw [after, List.foldl_append]
  rfl

/-- What becomes of a new request when it asks for its lock. -/
structure Answered (calls : LockedCalls lib ι) (u : Dispatches ι P) (i : ι) (hash : String) : Prop where
  refused : (u.locks.provider.acquire (lockKey hash) (calls.token i)).1 = false →
    (take calls u (.acquire i none)).answer i = some (.error lockConflict)
  granted : (u.locks.provider.acquire (lockKey hash) (calls.token i)).1 = true →
    (take calls u (.acquire i none)).InProgress i ∧ (take calls u (.acquire i none)).answer i = none

theorem answered {u : Dispatches ι P} {i : ι} {hash : String} (hnew : u.New i)
    (hhash : calls.hash i = .ok hash) : Answered calls u i hash := by
  have hkey := LockedCalls.contexts_key hhash
  have hentered : (u.locks.take calls.contexts (.enter i)).visit i =
      .inside (u.locks.provider.acquire (lockKey hash) (calls.token i)).1 := by
    rw [Locks.take_enter hnew.1, hkey]
    exact Function.update_self ..
  constructor
  · intro hrefused
    simp only [take, if_pos hnew, hhash, hentered, hrefused, give]
    simp
  · intro hgranted
    simp only [take, if_pos hnew, hhash, hentered, hgranted]
    exact ⟨⟨by rw [← hgranted, ← hentered]; rfl, hnew.2.1⟩, hnew.2.2⟩

/-- EXACT (exclusion): at every moment of a run executions of one definition exclude one another, and
    whoever asks for the lock while one is in progress is refused, if and only if no key expires in
    Redis while a workflow is running under it. And in every run a new request whose entry is refused
    is answered with `lock_conflict`, its workflow runs if the entry is granted, and the entry is
    granted if no key is left over. -/
theorem exclusive_iff_lasting (calls : LockedCalls lib ι) (kind : LockKind)
    (steps : List (DispatchStep ι P)) :
    ((∀ pre, pre <+: steps → Exclusive calls (after calls kind pre)) ↔
      History.Each (fun pre a => Lasting calls (after calls kind pre) a) steps) ∧
    ∀ i hash, (after calls kind steps).New i → calls.hash i = .ok hash →
      Answered calls (after calls kind steps) i hash ∧
      (¬ (after calls kind steps).locks.provider.Held (lockKey hash) →
        ((after calls kind steps).locks.provider.acquire (lockKey hash) (calls.token i)).1 =
          true) := by
  refine ⟨?_, fun i hash hnew hhash => ⟨answered hnew hhash, (LockProvider.acquire_iff ..).mpr⟩⟩
  refine History.each_iff_good (fun _ => True) (fun pre => ∃ l, Inv calls (after calls kind pre) l)
    (fun _ _ _ => trivial) ?_ (fun pre ⟨l, h⟩ => h.exclusive) ?_ ?_ steps trivial
  · exact ⟨{}, Locks.tracks_new kind, fun i hi => absurd rfl hi,
      fun i hi => absurd hi.1 (by simp [after])⟩
  · rintro pre a - ⟨l, h⟩ hc
    rw [after_concat]
    exact h.take hc
  · rintro pre a - ⟨l, h⟩ hc
    rw [after_concat]
    exact not_exclusive_expire h hc

end Dispatches

/-! ### An example -/

/-- Two requests for one definition. -/
def twins : LockedCalls documents Bool :=
  ⟨fun _ => Document.idle.text, twoTokens, twoTokens_injective⟩

/-- The key of the first expires while its workflow is running, and the second comes. -/
def slowRun : List (DispatchStep Bool Unit) :=
  [.acquire true none, .expire (lockKey Document.idle.sha256), .acquire false none]

/-- In Redis both run at once. In memory the second is refused. -/
theorem slowRun_overlaps :
    (Dispatches.after twins .redis slowRun).InProgress true ∧
    (Dispatches.after twins .redis slowRun).InProgress false ∧
    twins.hash true = twins.hash false ∧
    ¬ (Dispatches.after twins .memory slowRun).InProgress false := by
  decide

end WorkflowEngine
