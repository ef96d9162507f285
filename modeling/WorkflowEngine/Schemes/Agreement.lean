import WorkflowEngine.Schemes.Prog

/-! Programs that agree.

    Two programs run from two states. They agree when both return related values or both raise the
    same exception, and leave related states. Programs put together from parts that agree agree, so
    only the statements that look at the states or change them have to be compared. -/

namespace Schemes.Prog

variable {σ σ' ε α α' β β' : Type}

/-- Both returned, with values that `Q` relates, or both raised the same; `R` relates the states. -/
inductive Agree (R : σ → σ' → Prop) (Q : α → α' → Prop) :
    Except ε α × σ → Except ε α' × σ' → Prop
  | ok {a : α} {a' : α'} {t : σ} {t' : σ'} (values : Q a a') (states : R t t') :
      Agree R Q (.ok a, t) (.ok a', t')
  | error {e : ε} {t : σ} {t' : σ'} (states : R t t') : Agree R Q (.error e, t) (.error e, t')

namespace Agree

variable {R : σ → σ' → Prop} {Q : α → α' → Prop} {S : β → β' → Prop}
  {m : Prog σ ε α} {m' : Prog σ' ε α'} {f : α → Prog σ ε β} {f' : α' → Prog σ' ε β'}
  {s : σ} {s' : σ'}

theorem states {p : Except ε α × σ} {p' : Except ε α' × σ'} (h : Agree R Q p p') : R p.2 p'.2 := by
  cases h with
  | ok _ states => exact states
  | error states => exact states

/-- What each program makes of its own state besides. -/
theorem keeping {I : σ → Prop} {K : σ' → Prop} {p : Except ε α × σ} {p' : Except ε α' × σ'}
    (h : Agree R Q p p') (hI : I p.2) (hK : K p'.2) :
    Agree (fun t t' => R t t' ∧ I t ∧ K t') Q p p' := by
  cases h with
  | ok values states => exact .ok values ⟨states, hI, hK⟩
  | error states => exact .error ⟨states, hI, hK⟩

/-- Programs that agree on equal values are answered alike. -/
theorem answers {p : Except ε α × σ} {p' : Except ε α × σ'} (h : Agree R Eq p p') : p.1 = p'.1 := by
  cases h with
  | ok values _ => exact congrArg Except.ok values
  | error _ => rfl

/-- A computation that does not touch the states. -/
theorem lift (x : Except ε α) (h : R s s') : Agree R Eq (Prog.lift x s) (Prog.lift x s') := by
  cases x with
  | ok a => exact .ok rfl h
  | error e => exact .error h

/-- Each part may rely on the relation that the parts before it have led to. -/
theorem seq (hm : Agree R' Q (m s) (m' s')) (hR : ∀ t t', R' t t' → R t t')
    (hf : ∀ a a' t t', Q a a' → R' t t' → Agree R S (f a t) (f' a' t')) :
    Agree R S ((m >>= f) s) ((m' >>= f') s') := by
  generalize hp : m s = p at hm
  generalize hp' : m' s' = p' at hm
  cases hm with
  | ok values states =>
    rw [bind_of_ok hp, bind_of_ok hp']
    exact hf _ _ _ _ values states
  | error states =>
    rw [bind_of_error hp, bind_of_error hp']
    exact .error (hR _ _ states)

theorem bind (hm : Agree R Q (m s) (m' s'))
    (hf : ∀ a a' t t', Q a a' → R t t' → Agree R S (f a t) (f' a' t')) :
    Agree R S ((m >>= f) s) ((m' >>= f') s') :=
  hm.seq (fun _ _ h => h) hf

/-- The first part gives equal values. -/
theorem bind_eq {m' : Prog σ' ε α} {f' : α → Prog σ' ε β'} (hm : Agree R Eq (m s) (m' s'))
    (hf : ∀ a t t', R t t' → Agree R S (f a t) (f' a t')) :
    Agree R S ((m >>= f) s) ((m' >>= f') s') :=
  hm.bind fun a _ t t' he h => he ▸ hf a t t' h

/-- Values that are only looked at. -/
theorem map {g : α → β} {g' : α' → β'} (hm : Agree R Q (m s) (m' s'))
    (hg : ∀ a a', Q a a' → S (g a) (g' a')) :
    Agree R S ((do let a ← m; pure (g a) : Prog σ ε β) s)
      ((do let a ← m'; pure (g' a) : Prog σ' ε β') s') :=
  hm.bind fun _ _ _ _ hq h => .ok (hg _ _ hq) h

theorem handle {handler : ε → Prog σ ε α} {handler' : ε → Prog σ' ε α'}
    (hm : Agree R Q (m s) (m' s'))
    (hh : ∀ e t t', R t t' → Agree R Q (handler e t) (handler' e t')) :
    Agree R Q (Prog.handle m handler s) (Prog.handle m' handler' s') := by
  generalize hp : m s = p at hm
  generalize hp' : m' s' = p' at hm
  cases hm with
  | ok values states =>
    rw [handle_of_ok hp, handle_of_ok hp']
    exact .ok values states
  | error states =>
    rw [handle_of_error hp, handle_of_error hp']
    exact hh _ _ _ states

theorem ensure {cleanup : Prog σ ε Unit} {cleanup' : Prog σ' ε Unit}
    (hm : Agree R Q (m s) (m' s'))
    (hc : ∀ t t', R t t' → Agree R Eq (cleanup t) (cleanup' t')) :
    Agree R Q (Prog.ensure m cleanup s) (Prog.ensure m' cleanup' s') := by
  have hend := hc _ _ hm.states
  unfold Prog.ensure
  generalize hq : cleanup (m s).2 = q at hend
  generalize hq' : cleanup' (m' s').2 = q' at hend
  cases hend with
  | error ended => exact .error ended
  | ok _ ended =>
    generalize m s = p at hm
    generalize m' s' = p' at hm
    cases hm with
    | ok values _ => exact .ok values ended
    | error _ => exact .error ended

end Agree

/-! ### One program after the other -/

/-- What each of the programs returned or raised, and the state that they left. -/
def series {γ : Type} (f : γ → Prog σ ε α) : List γ → σ → List (γ × Except ε α) × σ
  | [], s => ([], s)
  | c :: l, s => ((c, (f c s).1) :: (series f l (f c s).2).1, (series f l (f c s).2).2)

theorem series_concat {γ : Type} (f : γ → Prog σ ε α) (l : List γ) (c : γ) (s : σ) :
    (series f (l ++ [c]) s).2 = (f c (series f l s).2).2 := by
  induction l generalizing s with
  | nil => rfl
  | cons b l ih => exact ih _

/-- Every answer is that of a program in the state that the programs before it left. -/
theorem exists_of_mem_series {γ : Type} {f : γ → Prog σ ε α} {l : List γ} {s : σ} {c : γ}
    {answer : Except ε α} (h : (c, answer) ∈ (series f l s).1) : ∃ pre post, l = pre ++ c :: post ∧
      answer = (f c (series f pre s).2).1 := by
  induction l generalizing s with
  | nil => exact absurd h List.not_mem_nil
  | cons b l ih =>
    rcases List.mem_cons.mp h with h | h
    · obtain ⟨rfl, rfl⟩ := Prod.mk.inj h
      exact ⟨[], l, rfl, rfl⟩
    · obtain ⟨pre, post, rfl, rfl⟩ := ih h
      exact ⟨b :: pre, post, rfl, rfl⟩

/-- Some of the programs are each answered as its image is, and the others leave the other state's
    image alone. -/
theorem series_agree {γ δ : Type} {R : σ → σ' → Prop} {f : γ → Prog σ ε α} {g : δ → Prog σ' ε α}
    {image : γ → Option δ} : ∀ {l : List γ},
    (∀ c ∈ l, ∀ d s s', image c = some d → R s s' →
      (f c s).1 = (g d s').1 ∧ R (f c s).2 (g d s').2) →
    (∀ c ∈ l, ∀ s s', image c = none → R s s' → R (f c s).2 s') → ∀ {s : σ} {s' : σ'}, R s s' →
    ((series f l s).1.filterMap fun p => (image p.1).map fun d => (d, p.2)) =
      (series g (l.filterMap image) s').1 ∧
    R (series f l s).2 (series g (l.filterMap image) s').2
  | [], _, _, s, s', h => ⟨rfl, h⟩
  | c :: l, own, other, s, s', h => by
    have hrest := fun {t t'} (ht : R t t') => series_agree (l := l)
      (fun b hb => own b (List.mem_cons_of_mem c hb))
      (fun b hb => other b (List.mem_cons_of_mem c hb)) ht
    have hc := List.mem_cons_self (a := c) (l := l)
    rcases himage : image c with _ | d
    · obtain ⟨hanswers, hstates⟩ := hrest (other c hc s s' himage h)
      rw [List.filterMap_cons_none himage, series, List.filterMap_cons_none (by simp [himage])]
      exact ⟨hanswers, hstates⟩
    · obtain ⟨hanswer, hstate⟩ := own c hc d s s' himage h
      obtain ⟨hanswers, hstates⟩ := hrest hstate
      rw [List.filterMap_cons_some himage, series, series,
        List.filterMap_cons_some (b := (d, (f c s).1)) (by simp [himage]), hanswers, hanswer]
      exact ⟨rfl, hstates⟩

end Schemes.Prog
