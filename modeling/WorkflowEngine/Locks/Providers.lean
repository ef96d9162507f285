import WorkflowEngine.Schemes.Dict
import WorkflowEngine.Schemes.Leases
import Mathlib.Data.Finset.Insert
import Mathlib.Data.Finset.Erase

/-! The lock providers.

    `acquire` is a context manager: its entry tries to take the key, and its exit gives the key back,
    if the entry took it, whether or not the body raised. The in-memory provider keeps the set of
    taken keys; Redis keeps the token of the owner under each key, deletes a key only for its owner,
    and lets keys expire. Both are leases: a stored key is held by the context that took it last. -/

namespace WorkflowEngine
open Schemes

inductive LockProvider where
  | memory (keys : Finset String)
  | redis (store : Dict String String)

/-- Which provider it is. -/
inductive LockKind where | memory | redis
  deriving DecidableEq

namespace LockProvider

/-- A provider without keys. -/
def new : LockKind → LockProvider
  | .memory => .memory ∅
  | .redis => .redis Dict.empty

/-- Whether a key is taken. -/
def Held : LockProvider → String → Prop
  | .memory keys, key => key ∈ keys
  | .redis store, key => (store.get key).isSome = true

instance (p : LockProvider) (key : String) : Decidable (p.Held key) := by
  cases p
  · exact inferInstanceAs (Decidable (key ∈ _))
  · exact inferInstanceAs (Decidable (_ = true))

/-- The entry of `acquire`: `key not in self._keys`, or `SET key token NX EX ttl`. -/
def acquire (key token : String) : LockProvider → Bool × LockProvider
  | .memory keys => if key ∈ keys then (false, .memory keys) else (true, .memory (insert key keys))
  | .redis store =>
    match store.get key with
    | some _ => (false, .redis store)
    | none => (true, .redis (store.set key token))

/-- `_RELEASE_IF_OWNER`. -/
def releaseIfOwner (store : Dict String String) (key token : String) : Dict String String :=
  if store.get key = some token then store.erase key else store

/-- The `finally` of `acquire`. -/
def release (key token : String) (acquired : Bool) (p : LockProvider) : LockProvider :=
  if acquired then
    match p with
    | .memory keys => .memory (keys.erase key)
    | .redis store => .redis (releaseIfOwner store key token)
  else p

/-- The time to live of a key runs out; the in-memory provider ignores it. -/
def expire (key : String) : LockProvider → LockProvider
  | .memory keys => .memory keys
  | .redis store => .redis (store.erase key)

/-- Whoever asks for a key gets it exactly if it is not taken. -/
theorem acquire_iff (p : LockProvider) (key token : String) :
    (p.acquire key token).1 = true ↔ ¬ p.Held key := by
  cases p with
  | memory keys =>
    rw [acquire, Held]
    split_ifs with h <;> simp [h]
  | redis store =>
    rw [acquire, Held]
    cases h : store.get key <;> simp

end LockProvider

/-! ### Contexts -/

/-- The contexts that callers open: their keys, and the tokens `str(uuid4())` they draw. -/
structure LockContexts (ι : Type) where
  key : ι → String
  token : ι → String
  distinct : Function.Injective token

/-- How the body of a context ends. -/
inductive BodyEnd where | returned | raised
  deriving DecidableEq

inductive LockStep (ι : Type) where
  | enter (i : ι)
  | exit (i : ι) (body : BodyEnd)
  | expire (key : String)

/-- A provider and the contexts on it. -/
structure Locks (ι : Type) where
  provider : LockProvider
  visit : ι → Visit := fun _ => .before

namespace Locks
variable {ι : Type} [DecidableEq ι] (cs : LockContexts ι)

/-- One step; a step that its context is not at changes nothing. -/
def take (u : Locks ι) : LockStep ι → Locks ι
  | .enter i =>
    match u.visit i with
    | .before =>
      let (acquired, provider) := u.provider.acquire (cs.key i) (cs.token i)
      { provider := provider, visit := Function.update u.visit i (.inside acquired) }
    | _ => u
  | .exit i _ => -- a `finally`, so the end of the body makes no difference
    match u.visit i with
    | .inside acquired =>
      { provider := u.provider.release (cs.key i) (cs.token i) acquired
        visit := Function.update u.visit i .left }
    | _ => u
  | .expire key => { u with provider := u.provider.expire key }

/-- A new provider after these steps. -/
def after (kind : LockKind) (steps : List (LockStep ι)) : Locks ι :=
  steps.foldl (take cs) { provider := .new kind }

/-! ### Both providers are leases -/

/-- The keys are those that somebody holds. In memory a granted lease is held until its context exits;
    Redis stores the holder's token. -/
def Stores (cs : LockContexts ι) : LockProvider → Leases String ι → Prop
  | .memory keys, l => (∀ k, k ∈ keys ↔ ∃ i, l.holder k = some i) ∧ l.Firm cs.key
  | .redis store, l => ∀ k, store.get k = (l.holder k).map cs.token

/-- The provider and its contexts are these leases. -/
structure Tracks (cs : LockContexts ι) (u : Locks ι) (l : Leases String ι) : Prop where
  visit : u.visit = l.visit
  valid : l.Valid cs.key
  stores : Stores cs u.provider l

/-- What a step does to the leases: no key expires in memory. -/
def leased (u : Locks ι) (l : Leases String ι) : LockStep ι → Leases String ι
  | .enter i => l.enter cs.key i
  | .exit i _ => l.leave cs.key i
  | .expire key =>
    match u.provider with
    | .memory _ => l
    | .redis _ => l.lapse key

variable {cs} {u : Locks ι} {l : Leases String ι}

omit [DecidableEq ι] in
theorem Stores.held_iff {p : LockProvider} (h : Stores cs p l) (key : String) :
    p.Held key ↔ ∃ i, l.holder key = some i := by
  cases p with
  | memory keys => exact h.1 key
  | redis store =>
    rw [LockProvider.Held, h key, Option.isSome_map, Option.isSome_iff_exists]

theorem take_enter {i : ι} (hi : u.visit i = .before) : take cs u (.enter i) =
    { provider := (u.provider.acquire (cs.key i) (cs.token i)).2
      visit := Function.update u.visit i
        (.inside (u.provider.acquire (cs.key i) (cs.token i)).1) } := by
  rw [take, hi]

theorem take_exit {i : ι} {acquired : Bool} (hi : u.visit i = .inside acquired) (body : BodyEnd) :
    take cs u (.exit i body) =
      { provider := u.provider.release (cs.key i) (cs.token i) acquired
        visit := Function.update u.visit i .left } := by
  rw [take, hi]

/-- Where the context that would move is not where the step needs it, nothing happens. -/
theorem take_enter_of_ne {i : ι} (hi : u.visit i ≠ .before) : take cs u (.enter i) = u := by
  rw [take]
  split
  · exact absurd ‹_› hi
  · rfl

theorem take_exit_of_ne {i : ι} (hi : ∀ acquired, u.visit i ≠ .inside acquired) (body : BodyEnd) :
    take cs u (.exit i body) = u := by
  rw [take]
  split
  · exact absurd ‹_› (hi _)
  · rfl

/-! ### The provider's side -/

section Stored
variable {p : LockProvider} (h : Stores cs p l) {i j : ι}
include h

/-- A key that somebody holds is refused, and nothing changes. -/
theorem Stores.acquire_taken (hi : l.visit i = .before) (hk : l.holder (cs.key i) = some j) :
    p.acquire (cs.key i) (cs.token i) = (false, p) ∧ Stores cs p (l.enter cs.key i) := by
  cases p with
  | memory keys =>
    have hmem : cs.key i ∈ keys := (h.1 _).mpr ⟨j, hk⟩
    have hfirm := h.2.enter i
    rw [Leases.enter_refused hi hk] at hfirm ⊢
    exact ⟨if_pos hmem, h.1, hfirm⟩
  | redis store =>
    have hget : store.get (cs.key i) = some (cs.token j) := (h _).trans (by rw [hk]; rfl)
    rw [Leases.enter_refused hi hk, LockProvider.acquire, hget]
    exact ⟨rfl, h⟩

/-- A key that nobody holds is granted, and held by the context from then on. -/
theorem Stores.acquire_free (hi : l.visit i = .before) (hk : l.holder (cs.key i) = none) :
    ∃ p', p.acquire (cs.key i) (cs.token i) = (true, p') ∧ Stores cs p' (l.enter cs.key i) := by
  cases p with
  | memory keys =>
    have hmem : cs.key i ∉ keys := fun hm => by
      obtain ⟨j, hj⟩ := (h.1 _).mp hm
      exact absurd (hk.symm.trans hj) (by simp)
    have hfirm := h.2.enter i
    rw [Leases.enter_granted hi hk] at hfirm ⊢
    refine ⟨_, if_neg hmem, fun k => ?_, hfirm⟩
    dsimp only
    rw [Finset.mem_insert, Function.update_apply]
    split_ifs with hkey
    · exact ⟨fun _ => ⟨i, rfl⟩, fun _ => .inl hkey⟩
    · rw [← h.1 k]
      exact or_iff_right hkey
  | redis store =>
    have hget : store.get (cs.key i) = none := (h _).trans (by rw [hk]; rfl)
    rw [Leases.enter_granted hi hk, LockProvider.acquire, hget]
    refine ⟨_, rfl, fun k => ?_⟩
    dsimp only
    rw [Dict.get_set, Function.update_apply]
    split_ifs with hkey
    · rfl
    · exact h k

/-- The holder of a key frees it. -/
theorem Stores.release_own (hi : l.visit i = .inside true) (hk : l.holder (cs.key i) = some i) :
    Stores cs (p.release (cs.key i) (cs.token i) true) (l.leave cs.key i) := by
  cases p with
  | memory keys =>
    have hfirm := h.2.leave i
    rw [Leases.leave_of_holder hi hk] at hfirm ⊢
    refine ⟨fun k => ?_, hfirm⟩
    dsimp only
    rw [Finset.mem_erase, h.1 k, Function.update_apply]
    split_ifs with hkey
    · simp [hkey]
    · exact and_iff_right hkey
  | redis store =>
    have hget : store.get (cs.key i) = some (cs.token i) := (h _).trans (by rw [hk]; rfl)
    rw [Leases.leave_of_holder hi hk]
    intro k
    dsimp only
    rw [LockProvider.releaseIfOwner, if_pos hget, Dict.get_erase, Function.update_apply]
    split_ifs with hkey
    · rfl
    · exact h k

/-- A context that does not hold its key, since it was refused or its key has expired, changes
    nothing. -/
theorem Stores.release_other {acquired : Bool} (hi : l.visit i = .inside acquired)
    (hk : l.holder (cs.key i) ≠ some i) :
    p.release (cs.key i) (cs.token i) acquired = p ∧ Stores cs p (l.leave cs.key i) := by
  have hleave := Leases.leave_of_ne hi hk
  cases p with
  | memory keys =>
    have hfirm := h.2.leave i
    rw [hleave] at hfirm ⊢
    cases acquired with
    | false => exact ⟨rfl, h.1, hfirm⟩
    | true => exact absurd (h.2 i hi) hk
  | redis store =>
    rw [hleave]
    refine ⟨?_, h⟩
    cases acquired with
    | false => rfl
    | true =>
      have hget : store.get (cs.key i) ≠ some (cs.token i) := by
        rw [h]
        intro he
        obtain ⟨j, hj, htoken⟩ := Option.map_eq_some_iff.mp he
        exact hk (cs.distinct htoken ▸ hj)
      exact congrArg LockProvider.redis (if_neg hget)

end Stored

/-! ### Every step -/

theorem Tracks.enter (h : Tracks cs u l) (i : ι) :
    Tracks cs (take cs u (.enter i)) (l.enter cs.key i) := by
  by_cases hi : u.visit i = .before
  · have hbefore : l.visit i = .before := h.visit ▸ hi
    rw [take_enter hi]
    cases hk : l.holder (cs.key i) with
    | some j =>
      obtain ⟨hacquire, hstores⟩ := h.stores.acquire_taken hbefore hk
      rw [hacquire]
      refine ⟨?_, h.valid.enter i, hstores⟩
      rw [Leases.enter_refused hbefore hk, h.visit]
    | none =>
      obtain ⟨p', hacquire, hstores⟩ := h.stores.acquire_free hbefore hk
      rw [hacquire]
      refine ⟨?_, h.valid.enter i, hstores⟩
      rw [Leases.enter_granted hbefore hk, h.visit]
  · rw [take_enter_of_ne hi, Leases.enter_of_ne (h.visit ▸ hi)]
    exact h

theorem Tracks.exit (h : Tracks cs u l) (i : ι) (body : BodyEnd) :
    Tracks cs (take cs u (.exit i body)) (l.leave cs.key i) := by
  cases hi : u.visit i with
  | before | left =>
    have hleave : l.leave cs.key i = l := by rw [Leases.leave, ← h.visit, hi]
    rw [take_exit_of_ne (by simp [hi]), hleave]
    exact h
  | inside acquired =>
    have hinside : l.visit i = .inside acquired := h.visit ▸ hi
    rw [take_exit hi]
    by_cases hk : l.holder (cs.key i) = some i
    · obtain rfl : acquired = true := Visit.inside.inj (hinside.symm.trans (h.valid _ _ hk).2)
      refine ⟨?_, h.valid.leave i, h.stores.release_own hinside hk⟩
      rw [Leases.leave_of_holder hinside hk, h.visit]
    · obtain ⟨hkept, hstores⟩ := h.stores.release_other hinside hk
      rw [hkept]
      refine ⟨?_, h.valid.leave i, hstores⟩
      rw [Leases.leave_of_ne hinside hk, h.visit]

/-- STEP: the provider and its contexts go on being leases. -/
theorem Tracks.take (h : Tracks cs u l) (a : LockStep ι) :
    Tracks cs (Locks.take cs u a) (leased cs u l a) := by
  cases a with
  | enter i => exact h.enter i
  | exit i body => exact h.exit i body
  | expire key =>
    obtain ⟨p, visit⟩ := u
    cases p with
    | memory keys => exact h
    | redis store =>
      refine ⟨h.visit, h.valid.lapse key, fun k => ?_⟩
      change (store.erase key).get k = (Function.update l.holder key none k).map cs.token
      rw [Dict.get_erase, Function.update_apply]
      split_ifs
      · rfl
      · exact h.stores k

/-! ### Every run -/

omit [DecidableEq ι] in
theorem tracks_new (kind : LockKind) : Tracks cs { provider := .new kind } {} where
  visit := rfl
  valid _ _ h := absurd h (by simp)
  stores := by
    cases kind with
    | memory => exact ⟨fun _ => by simp, fun _ h => absurd h (by simp)⟩
    | redis => exact fun _ => rfl

theorem after_concat (kind : LockKind) (steps : List (LockStep ι)) (a : LockStep ι) :
    after cs kind (steps ++ [a]) = take cs (after cs kind steps) a := by
  rw [after, List.foldl_append]
  rfl

/-- In every run the provider and its contexts are leases. -/
theorem tracks_after (kind : LockKind) (steps : List (LockStep ι)) :
    ∃ l, Tracks cs (after cs kind steps) l := by
  induction steps using List.reverseRecOn with
  | nil => exact ⟨{}, tracks_new kind⟩
  | append_singleton steps a ih =>
    obtain ⟨l, h⟩ := ih
    rw [after_concat]
    exact ⟨_, h.take a⟩

/-- A context whose body is running, and which was told that it has the key. -/
def Active (cs : LockContexts ι) (u : Locks ι) (key : String) (i : ι) : Prop :=
  cs.key i = key ∧ u.visit i = .inside true

/-- The acquisition that is stored under its key is the context's own: by its token in Redis; in
    memory, where there is none, as the only active context of the key. -/
def Owns (cs : LockContexts ι) (u : Locks ι) (i : ι) : Prop :=
  Active cs u (cs.key i) i ∧
  match u.provider with
  | .memory _ => ∀ j, Active cs u (cs.key i) j → j = i
  | .redis store => store.get (cs.key i) = some (cs.token i)

/-- What an exit may do, and which keys are held. -/
structure OwnerSafe (cs : LockContexts ι) (u : Locks ι) : Prop where
  own : ∀ i body key, u.provider.Held key →
    ¬ (take cs u (.exit i body)).provider.Held key → cs.key i = key ∧ Owns cs u i
  refused : ∀ i body, u.visit i = .inside false →
    (take cs u (.exit i body)).provider = u.provider
  lost : ∀ i body store, u.provider = .redis store → store.get (cs.key i) ≠ some (cs.token i) →
    (take cs u (.exit i body)).provider = u.provider
  active : ∀ keys, u.provider = .memory keys → ∀ key, key ∈ keys ↔ ∃! i, Active cs u key i
  single : ∀ keys, u.provider = .memory keys → ∀ key i j, Active cs u key i → Active cs u key j →
    i = j
  freed : (∀ i acquired, u.visit i ≠ .inside acquired) → ∀ key, ¬ u.provider.Held key

omit [DecidableEq ι] in
theorem Tracks.owns (h : Tracks cs u l) {i : ι} (hk : l.holder (cs.key i) = some i) :
    Owns cs u i := by
  obtain ⟨p, visit⟩ := u
  obtain rfl : visit = l.visit := h.visit
  refine ⟨⟨rfl, (h.valid _ _ hk).2⟩, ?_⟩
  cases p with
  | memory keys => exact fun j hj => h.stores.2.unique hj.2 (h.valid _ _ hk).2 hj.1
  | redis store => exact (h.stores _).trans (by rw [hk]; rfl)

/-- An exit of a context that does not hold its key leaves the provider as it is. -/
theorem Tracks.exit_other (h : Tracks cs u l) {i : ι} (hk : l.holder (cs.key i) ≠ some i)
    (body : BodyEnd) : (Locks.take cs u (.exit i body)).provider = u.provider := by
  cases hi : u.visit i with
  | before | left => rw [take_exit_of_ne (by simp [hi])]
  | inside acquired =>
    rw [take_exit hi]
    exact (h.stores.release_other (h.visit ▸ hi) hk).1

theorem Tracks.ownerSafe (h : Tracks cs u l) : OwnerSafe cs u where
  own i body key hheld hfree := by
    by_cases hk : l.holder (cs.key i) = some i
    · refine ⟨?_, h.owns hk⟩
      by_contra hkey
      -- only the exiting context's own key changes
      refine hfree (((h.exit i body).stores.held_iff key).mpr ?_)
      rw [Leases.leave_of_holder (h.valid _ _ hk).2 hk]
      obtain ⟨j, hj⟩ := (h.stores.held_iff key).mp hheld
      exact ⟨j, (Function.update_of_ne (Ne.symm hkey) ..).trans hj⟩
    · rw [h.exit_other hk body] at hfree
      exact absurd hheld hfree
  refused i body hi := by
    refine h.exit_other (fun hk => ?_) body
    rw [h.visit, (h.valid _ _ hk).2] at hi
    exact absurd hi (by simp)
  lost i body store hp hget := by
    refine h.exit_other (fun hk => hget ?_) body
    have hstores := h.stores
    rw [hp] at hstores
    exact (hstores _).trans (by rw [hk]; rfl)
  active keys hp key := by
    have hstores := h.stores
    rw [hp] at hstores
    rw [hstores.1 key]
    constructor
    · rintro ⟨i, hi⟩
      obtain ⟨hkey, hvisit⟩ := h.valid _ _ hi
      refine ⟨i, ⟨hkey, h.visit ▸ hvisit⟩, fun j hj => ?_⟩
      exact hstores.2.unique (h.visit ▸ hj.2) hvisit (hj.1.trans hkey.symm)
    · rintro ⟨i, ⟨rfl, hvisit⟩, -⟩
      exact ⟨i, hstores.2 i (h.visit ▸ hvisit)⟩
  single keys hp key i j hi hj := by
    have hstores := h.stores
    rw [hp] at hstores
    exact hstores.2.unique (h.visit ▸ hi.2) (h.visit ▸ hj.2) (hi.1.trans hj.1.symm)
  freed hout key hheld := by
    obtain ⟨i, hi⟩ := (h.stores.held_iff key).mp hheld
    exact hout i true (h.visit ▸ (h.valid _ _ hi).2)

/-- CORRECT (locks): after any steps of any contexts on either provider, an exit frees a key only if the
    key is held by its own acquisition, and otherwise changes nothing; the keys in memory are those
    with one active context; and once every context has exited, no key is held. -/
theorem owner_safe (cs : LockContexts ι) (kind : LockKind) (steps : List (LockStep ι)) :
    OwnerSafe cs (after cs kind steps) := by
  obtain ⟨l, h⟩ : ∃ l, Tracks cs (after cs kind steps) l := tracks_after kind steps
  exact h.ownerSafe

end Locks

/-! ### An example -/

/-- The tokens of two contexts. -/
def twoTokens (i : Bool) : String := if i then "t1" else "t2"

theorem twoTokens_injective : Function.Injective twoTokens := by
  intro i j h
  cases i <;> cases j <;> first | rfl | exact absurd h (by decide)

/-- Two contexts on one key. -/
def rivals : LockContexts Bool := ⟨fun _ => "workflow:etl", twoTokens, twoTokens_injective⟩

/-- The key of the first expires and is taken by the second: the exit of the first leaves it alone. -/
example : (Locks.after rivals .redis [.enter true, .expire "workflow:etl", .enter false,
    .exit true .returned]).provider.Held "workflow:etl" := by decide

end WorkflowEngine
