import Mathlib.Logic.Basic

/-! Programs that change a state and may raise.

    What a program has changed when it raises stays changed, so every failure point has its own final
    state. Programs are put together with `do`; what they do is read off their parts by `bind_ok` and
    `bind_error`, and a property of the state that no part breaks is kept whether or not the program
    raises (`Keeps`). -/

namespace Schemes

/-- From a state, a value or an exception, and the state left behind. -/
def Prog (σ ε α : Type) : Type := σ → Except ε α × σ

namespace Prog

variable {σ ε α β : Type}

instance : Monad (Prog σ ε) where
  pure a s := (.ok a, s)
  bind m f s :=
    match m s with
    | (.ok a, t) => f a t
    | (.error e, t) => (.error e, t)

/-- The value or the exception of a computation that does not touch the state. -/
def lift (x : Except ε α) : Prog σ ε α := fun s => (x, s)

def raise (e : ε) : Prog σ ε α := lift (.error e)

/-- Look at the state. -/
def view (f : σ → α) : Prog σ ε α := fun s => (.ok (f s), s)

def change (f : σ → σ) : Prog σ ε Unit := fun s => (.ok (), f s)

/-- `try: m except e: handler(e)`. -/
def handle (m : Prog σ ε α) (handler : ε → Prog σ ε α) : Prog σ ε α := fun s =>
  match m s with
  | (.ok a, t) => (.ok a, t)
  | (.error e, t) => handler e t

/-- `try: m finally: cleanup`. -/
def ensure (m : Prog σ ε α) (cleanup : Prog σ ε Unit) : Prog σ ε α := fun s =>
  match cleanup (m s).2 with
  | (.ok (), t) => ((m s).1, t)
  | (.error e, t) => (.error e, t)

/-- `for a in l: f(a)`. -/
def forEach (f : β → Prog σ ε Unit) : List β → Prog σ ε Unit
  | [] => pure ()
  | b :: l => do
    f b
    forEach f l

/-! ### What a program does -/

variable {m : Prog σ ε α} {f : α → Prog σ ε β} {s u : σ}

theorem bind_of_ok {a : α} {t : σ} (h : m s = (.ok a, t)) : (m >>= f) s = f a t := by
  change (match m s with | (.ok a, t) => f a t | (.error e, t) => (.error e, t)) = _
  rw [h]

theorem bind_of_error {e : ε} {t : σ} (h : m s = (.error e, t)) : (m >>= f) s = (.error e, t) := by
  change (match m s with | (.ok a, t) => f a t | (.error e, t) => (.error e, t)) = _
  rw [h]

theorem bind_ok {b : β} : (m >>= f) s = (.ok b, u) ↔
    ∃ a t, m s = (.ok a, t) ∧ f a t = (.ok b, u) := by
  rcases hm : m s with ⟨e | a, t⟩
  · rw [bind_of_error hm]; simp
  · rw [bind_of_ok hm]
    refine ⟨fun h => ⟨a, t, rfl, h⟩, ?_⟩
    rintro ⟨_, _, h, hf⟩
    obtain ⟨⟨⟩, rfl⟩ := Prod.mk.inj h
    exact hf

theorem bind_error {e : ε} : (m >>= f) s = (.error e, u) ↔
    m s = (.error e, u) ∨ ∃ a t, m s = (.ok a, t) ∧ f a t = (.error e, u) := by
  rcases hm : m s with ⟨e' | a, t⟩
  · rw [bind_of_error hm]; simp
  · rw [bind_of_ok hm]
    refine ⟨fun h => .inr ⟨a, t, rfl, h⟩, ?_⟩
    rintro (h | ⟨_, _, h, hf⟩)
    · exact absurd (Prod.mk.inj h).1 (by simp)
    · obtain ⟨⟨⟩, rfl⟩ := Prod.mk.inj h
      exact hf

/-- What a program raises, without the state it leaves. -/
theorem bind_raises {e : ε} (h : ((m >>= f) s).1 = .error e) :
    (m s).1 = .error e ∨ ∃ a t, m s = (.ok a, t) ∧ (f a t).1 = .error e := by
  rcases hm : m s with ⟨e' | a, t⟩
  · rw [bind_of_error hm] at h
    exact .inl (congrArg Except.error (Except.error.inj h))
  · rw [bind_of_ok hm] at h
    exact .inr ⟨a, t, rfl, h⟩

@[simp] theorem pure_run (a : α) (s : σ) : (pure a : Prog σ ε α) s = (.ok a, s) := rfl

@[simp] theorem lift_run (x : Except ε α) (s : σ) : (lift x : Prog σ ε α) s = (x, s) := rfl

@[simp] theorem raise_run (e : ε) (s : σ) : (raise e : Prog σ ε α) s = (.error e, s) := rfl

@[simp] theorem view_run (g : σ → α) (s : σ) : (view g : Prog σ ε α) s = (.ok (g s), s) := rfl

@[simp] theorem change_run (g : σ → σ) (s : σ) : (change g : Prog σ ε Unit) s = (.ok (), g s) := rfl

@[simp] theorem pure_bind_run (a : α) : ((pure a : Prog σ ε α) >>= f) s = f a s := rfl

@[simp] theorem lift_ok_bind_run (a : α) : ((lift (.ok a) : Prog σ ε α) >>= f) s = f a s := rfl

@[simp] theorem lift_error_bind_run (e : ε) :
    ((lift (.error e) : Prog σ ε α) >>= f) s = (.error e, s) := rfl

@[simp] theorem view_bind_run (g : σ → α) :
    ((view g : Prog σ ε α) >>= f) s = f (g s) s := rfl

@[simp] theorem change_bind_run (g : σ → σ) (f : Unit → Prog σ ε β) :
    ((change g : Prog σ ε Unit) >>= f) s = f () (g s) := rfl

theorem handle_of_ok {handler : ε → Prog σ ε α} {a : α} (h : m s = (.ok a, u)) :
    handle m handler s = (.ok a, u) := by
  rw [handle, h]

theorem handle_of_error {handler : ε → Prog σ ε α} {e : ε} (h : m s = (.error e, u)) :
    handle m handler s = handler e u := by
  rw [handle, h]

/-- A handler that raises another exception. -/
theorem handle_raise_run (g : ε → ε) :
    handle m (fun e => raise (g e)) s = ((m s).1.mapError g, (m s).2) := by
  rcases h : m s with ⟨e | a, t⟩
  · rw [handle_of_error h]
    rfl
  · rw [handle_of_ok h]
    rfl

/-- A program whose value is then changed. -/
theorem bind_pure_run (g : α → β) :
    (do let a ← m; pure (g a) : Prog σ ε β) s = ((m s).1.map g, (m s).2) := by
  rcases h : m s with ⟨e | a, t⟩
  · rw [bind_of_error h]
    rfl
  · rw [bind_of_ok h]
    rfl

/-! ### What a program keeps -/

/-- Whether the program returns or raises, it keeps `I`. -/
def Keeps (I : σ → Prop) (m : Prog σ ε α) : Prop := ∀ s, I s → I (m s).2

variable {I : σ → Prop}

theorem Keeps.pure (a : α) : Keeps I (pure a : Prog σ ε α) := fun _ h => h

theorem Keeps.lift (x : Except ε α) : Keeps I (lift x : Prog σ ε α) := fun _ h => h

theorem Keeps.view (g : σ → α) : Keeps I (view g : Prog σ ε α) := fun _ h => h

theorem Keeps.change {g : σ → σ} (h : ∀ s, I s → I (g s)) : Keeps I (change g : Prog σ ε Unit) := h

/-- From `I` the program leads to `I'`, whether it returns or raises. -/
def Leads (I I' : σ → Prop) (m : Prog σ ε α) : Prop := ∀ s, I s → I' (m s).2

variable {I' : σ → Prop}

theorem Keeps.leads (hm : Keeps I m) (h : ∀ s, I s → I' s) : Leads I I' m :=
  fun s hs => h _ (hm s hs)

/-- What the first part leads to must be enough for the second part, and for the end if the first
    part raises. -/
theorem Leads.seq {J : σ → Prop} (hm : Leads I J m) (h : ∀ s, J s → I' s)
    (hf : ∀ a, Leads J I' (f a)) : Leads I I' (m >>= f) := by
  intro s hs
  have ht := hm s hs
  rcases hrun : m s with ⟨e | a, t⟩
  · rw [bind_of_error hrun]
    rw [hrun] at ht
    exact h t ht
  · rw [bind_of_ok hrun]
    rw [hrun] at ht
    exact hf a t ht

theorem Keeps.bind (hm : Keeps I m) (hf : ∀ a, Keeps I (f a)) : Keeps I (m >>= f) :=
  Leads.seq hm (fun _ h => h) hf

theorem Leads.bind (hm : Keeps I m) (h : ∀ s, I s → I' s) (hf : ∀ a, Leads I I' (f a)) :
    Leads I I' (m >>= f) :=
  Leads.seq hm h hf

theorem Leads.bind_keeps (hm : Leads I I' m) (hf : ∀ a, Keeps I' (f a)) :
    Leads I I' (m >>= f) :=
  Leads.seq hm (fun _ h => h) hf

theorem Keeps.forEach {g : β → Prog σ ε Unit} (hg : ∀ b, Keeps I (g b)) :
    ∀ l : List β, Keeps I (forEach g l)
  | [] => Keeps.pure ()
  | b :: l => (hg b).bind fun _ => Keeps.forEach hg l

/-- A loop each of whose rounds that returns does `step`. -/
theorem forEach_ok {g : β → Prog σ ε Unit} {step : σ → β → σ}
    (hg : ∀ b s t, g b s = (.ok (), t) → t = step s b) : ∀ {l : List β} {s t : σ},
    forEach g l s = (.ok (), t) → t = l.foldl step s
  | [], s, t, h => (Prod.mk.inj h).2.symm
  | b :: l, s, t, h => by
      obtain ⟨_, r, hb, hrest⟩ := bind_ok.mp h
      rw [List.foldl_cons, ← hg b s r hb]
      exact forEach_ok hg hrest

/-- A loop that returns has run every round to its end. -/
theorem forEach_rounds {g : β → Prog σ ε Unit} : ∀ {l : List β} {s t : σ},
    forEach g l s = (.ok (), t) → ∀ b ∈ l, ∃ r u, g b r = (.ok (), u)
  | [], _, _, _, _, hb => absurd hb List.not_mem_nil
  | _ :: l, s, t, h, b, hb => by
      obtain ⟨⟨⟩, r, hfirst, hrest⟩ := bind_ok.mp h
      rcases List.mem_cons.mp hb with rfl | hb
      · exact ⟨s, r, hfirst⟩
      · exact forEach_rounds hrest b hb

/-! ### What a program raises -/

/-- Every exception the program raises meets `p`. -/
def Raises (p : ε → Prop) (m : Prog σ ε α) : Prop := ∀ s e t, m s = (.error e, t) → p e

variable {p q : ε → Prop}

theorem Raises.pure (a : α) : Raises p (pure a : Prog σ ε α) :=
  fun _ _ _ h => absurd (Prod.mk.inj h).1 (by simp)

theorem Raises.lift {x : Except ε α} (h : ∀ e, x = .error e → p e) :
    Raises p (lift x : Prog σ ε α) :=
  fun _ e _ he => h e (Prod.mk.inj he).1

theorem Raises.raise {e : ε} (h : p e) : Raises p (raise e : Prog σ ε α) :=
  Raises.lift fun _ he => Except.error.inj he ▸ h

theorem Raises.view (g : σ → α) : Raises p (view g : Prog σ ε α) :=
  fun _ _ _ h => absurd (Prod.mk.inj h).1 (by simp)

theorem Raises.bind (hm : Raises p m) (hf : ∀ a, Raises p (f a)) : Raises p (m >>= f) := by
  intro s e t h
  rcases bind_error.mp h with h | ⟨a, r, -, h⟩
  · exact hm s e t h
  · exact hf a r e t h

theorem Raises.handle {handler : ε → Prog σ ε α} (hm : Raises q m)
    (hh : ∀ e, q e → Raises p (handler e)) : Raises p (handle m handler) := by
  intro s e t h
  rcases hrun : m s with ⟨e' | a, r⟩
  · rw [handle_of_error hrun] at h
    exact hh e' (hm s e' r hrun) r e t h
  · rw [handle_of_ok hrun] at h
    exact absurd (Prod.mk.inj h).1 (by simp)

theorem Raises.ensure {cleanup : Prog σ ε Unit} (hm : Raises p m) (hc : Raises p cleanup) :
    Raises p (ensure m cleanup) := by
  intro s e t h
  unfold Prog.ensure at h
  rcases hrun : cleanup (m s).2 with ⟨e' | a, r⟩
  · rw [hrun] at h
    obtain ⟨he, -⟩ := Prod.mk.inj h
    exact Except.error.inj he ▸ hc _ e' r hrun
  · rw [hrun] at h
    obtain ⟨he, -⟩ := Prod.mk.inj h
    exact hm s e (m s).2 (by rw [← he])

/-! ### Programs that do not raise -/

/-- From every state the program returns. -/
def Returns (m : Prog σ ε α) : Prop := ∀ s, ∃ a t, m s = (.ok a, t)

theorem Returns.pure (a : α) : Returns (pure a : Prog σ ε α) := fun s => ⟨a, s, rfl⟩

theorem Returns.view (g : σ → α) : Returns (view g : Prog σ ε α) := fun s => ⟨g s, s, rfl⟩

theorem Returns.bind (hm : Returns m) (hf : ∀ a, Returns (f a)) : Returns (m >>= f) := by
  intro s
  obtain ⟨a, t, h⟩ := hm s
  rw [bind_of_ok h]
  exact hf a t

theorem Returns.handle {handler : ε → Prog σ ε α} (hm : Returns m) :
    Returns (handle m handler) := by
  intro s
  obtain ⟨a, t, h⟩ := hm s
  exact ⟨a, t, handle_of_ok h⟩

theorem Returns.ensure {cleanup : Prog σ ε Unit} (hm : Returns m) (hc : Returns cleanup) :
    Returns (ensure m cleanup) := by
  intro s
  obtain ⟨a, t, h⟩ := hm s
  obtain ⟨u, r, hr⟩ := hc t
  exact ⟨a, r, by rw [Prog.ensure, h, hr]⟩

theorem Returns.forEach {g : β → Prog σ ε Unit} :
    ∀ {l : List β}, (∀ b ∈ l, Returns (g b)) → Returns (forEach g l)
  | [], _ => Returns.pure ()
  | b :: _, hg => (hg b List.mem_cons_self).bind fun _ =>
      Returns.forEach fun b hb => hg b (List.mem_cons_of_mem _ hb)

/-! ### What a program returns -/

/-- From `I`, if the program returns, its value and the state it leaves meet `Q`. -/
def Yields (I : σ → Prop) (Q : α → σ → Prop) (m : Prog σ ε α) : Prop :=
  ∀ s a t, I s → m s = (.ok a, t) → Q a t

variable {Q : α → σ → Prop} {S : β → σ → Prop}

theorem Yields.raise (e : ε) : Yields I Q (raise e : Prog σ ε α) :=
  fun _ _ _ _ hrun => absurd (Prod.mk.inj hrun).1 (by simp)

theorem Yields.trivial : Yields I (fun _ _ => True) m := fun _ _ _ _ _ => True.intro

theorem Yields.bind (hm : Keeps I m) (hf : ∀ a, Yields I S (f a)) : Yields I S (m >>= f) := by
  intro s b u hs hrun
  obtain ⟨a, t, hfirst, hrest⟩ := bind_ok.mp hrun
  have ht := hm s hs
  rw [hfirst] at ht
  exact hf a t b u ht hrest

/-- A program whose value is then changed. -/
theorem Yields.map {g : α → β} (hm : Yields I Q m) (h : ∀ a t, Q a t → S (g a) t) :
    Yields I S (do let a ← m; return g a : Prog σ ε β) := by
  intro s b u hs hrun
  obtain ⟨a, t, hfirst, hrest⟩ := bind_ok.mp hrun
  obtain ⟨hb, rfl⟩ := Prod.mk.inj hrest
  exact Except.ok.inj hb ▸ h a t (hm s a t hs hfirst)

/-- A handler that raises another exception. -/
theorem Yields.handle_raise {g : ε → ε} (hm : Yields I Q m) :
    Yields I Q (handle m fun e => Prog.raise (g e)) := by
  intro s a t hs hrun
  rcases h : m s with ⟨e | b, u⟩
  · rw [handle_of_error h] at hrun
    exact absurd (Prod.mk.inj hrun).1 (by simp)
  · rw [handle_of_ok h] at hrun
    exact hm s a t hs (h.trans hrun)

/-- A cleanup after which the state is as it was before. -/
theorem Yields.ensure {cleanup : Prog σ ε Unit} (hm : Yields I Q m)
    (hc : ∀ s, (cleanup s).2 = s) : Yields I Q (ensure m cleanup) := by
  intro s a t hs hrun
  unfold Prog.ensure at hrun
  have hstate := hc (m s).2
  rcases hclean : cleanup (m s).2 with ⟨e | ⟨⟩, u⟩
  · rw [hclean] at hrun
    exact absurd (Prod.mk.inj hrun).1 (by simp)
  · rw [hclean] at hrun hstate
    obtain ⟨ha, rfl⟩ := Prod.mk.inj hrun
    exact hm s a _ hs (Prod.ext ha hstate.symm)

/-! ### What a program leaves, either way -/

/-- From `I`, the program leaves `Q` if it returns and `E` if it raises. -/
def Settles (I Q E : σ → Prop) (m : Prog σ ε α) : Prop :=
  ∀ s, I s → (∀ a t, m s = (.ok a, t) → Q t) ∧ (∀ e t, m s = (.error e, t) → E t)

variable {E R : σ → Prop}

theorem Keeps.settles (hm : Keeps I m) : Settles I I I m := by
  intro s hs
  have ht := hm s hs
  constructor
  · intro a t hrun
    rwa [hrun] at ht
  · intro e t hrun
    rwa [hrun] at ht

theorem Settles.pure {a : α} (h : ∀ s, I s → R s) : Settles I R E (pure a : Prog σ ε α) := by
  refine fun s hs => ⟨fun b t hrun => ?_, fun e t hrun => absurd (Prod.mk.inj hrun).1 (by simp)⟩
  exact (Prod.mk.inj hrun).2 ▸ h s hs

theorem Settles.raise {e : ε} (h : ∀ s, I s → E s) : Settles I R E (raise e : Prog σ ε α) := by
  refine fun s hs => ⟨fun a t hrun => absurd (Prod.mk.inj hrun).1 (by simp), fun e t hrun => ?_⟩
  exact (Prod.mk.inj hrun).2 ▸ h s hs

theorem Settles.change {g : σ → σ} (h : ∀ s, I s → R (g s)) :
    Settles I R E (change g : Prog σ ε Unit) := by
  refine fun s hs => ⟨fun a t hrun => ?_, fun e t hrun => absurd (Prod.mk.inj hrun).1 (by simp)⟩
  exact (Prod.mk.inj hrun).2 ▸ h s hs

/-- What the first part keeps must be enough for the end if it raises. -/
theorem Settles.seq (hm : Keeps I m) (hE : ∀ s, I s → E s) (hf : ∀ a, Settles I R E (f a)) :
    Settles I R E (m >>= f) := by
  intro s hs
  have ht := hm s hs
  rcases hrun : m s with ⟨e | a, t⟩
  · rw [hrun] at ht
    rw [bind_of_error hrun]
    exact ⟨fun b u h => absurd (Prod.mk.inj h).1 (by simp),
      fun e u h => (Prod.mk.inj h).2 ▸ hE t ht⟩
  · rw [hrun] at ht
    rw [bind_of_ok hrun]
    exact hf a t ht

theorem Settles.bind (hm : Keeps I m) (hf : ∀ a, Settles I R I (f a)) : Settles I R I (m >>= f) :=
  .seq hm (fun _ h => h) hf

theorem Settles.map {g : α → β} (hm : Settles I R E m) :
    Settles I R E (do let a ← m; return g a : Prog σ ε β) := by
  intro s hs
  obtain ⟨hok, herror⟩ := hm s hs
  rw [bind_pure_run]
  rcases hrun : m s with ⟨e | a, t⟩
  · refine ⟨fun b u h => ?_, fun e' u h => (Prod.mk.inj h).2 ▸ herror e t hrun⟩
    exact absurd (show Except.error e = Except.ok b from (Prod.mk.inj h).1) (by simp)
  · refine ⟨fun b u h => (Prod.mk.inj h).2 ▸ hok a t hrun, fun e' u h => ?_⟩
    exact absurd (show Except.ok (g a) = Except.error e' from (Prod.mk.inj h).1) (by simp)

/-- A handler that raises another exception. -/
theorem Settles.handle_raise {g : ε → ε} (hm : Settles I R E m) :
    Settles I R E (handle m fun e => Prog.raise (g e)) := by
  intro s hs
  obtain ⟨hok, herror⟩ := hm s hs
  rw [handle_raise_run]
  rcases hrun : m s with ⟨e | a, t⟩
  · refine ⟨fun b u h => ?_, fun e' u h => (Prod.mk.inj h).2 ▸ herror e t hrun⟩
    exact absurd (show Except.error (g e) = Except.ok b from (Prod.mk.inj h).1) (by simp)
  · refine ⟨fun b u h => (Prod.mk.inj h).2 ▸ hok a t hrun, fun e' u h => ?_⟩
    exact absurd (show Except.ok a = Except.error e' from (Prod.mk.inj h).1) (by simp)

end Prog

end Schemes
