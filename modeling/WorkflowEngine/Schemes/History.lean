import Mathlib.Data.List.Infix
import Mathlib.Data.List.Nodup

/-! Histories of owned actions.

    A history is the list of atomic actions of a run, oldest first. `Each p` is the safety property
    "every action meets `p` of the actions before it"; it grows one action at a time. `proj` keeps
    the actions of one owner, and a view of the state that only its owner's actions change is the
    fold of that projection. -/

namespace Schemes.History

variable {A ι : Type*}

/-- Every action of the history satisfies `p` relative to the actions before it. -/
def Each (p : List A → A → Prop) (h : List A) : Prop :=
  ∀ pre a post, h = pre ++ a :: post → p pre a

theorem each_nil (p : List A → A → Prop) : Each p [] := by
  intro pre a post h; simp at h

theorem Each.of_prefix {p : List A → A → Prop} {h h' : List A} (hp : h' <+: h) (hh : Each p h) :
    Each p h' := by
  obtain ⟨t, rfl⟩ := hp
  intro pre a post he
  exact hh pre a (post ++ t) (by rw [he]; simp)

theorem Each.concat {p : List A → A → Prop} {h : List A} {a : A} (hh : Each p h) (ha : p h a) :
    Each p (h ++ [a]) := by
  intro pre b post he
  rcases List.eq_nil_or_concat post with rfl | ⟨post, c, rfl⟩
  · obtain ⟨rfl, hb⟩ := List.append_inj' he rfl
    rw [← (List.cons.inj hb).1]; exact ha
  · rw [List.concat_eq_append, ← List.cons_append, ← List.append_assoc] at he
    exact hh pre b post (List.append_inj' he rfl).1

theorem Each.append {p : List A → A → Prop} : ∀ {as h : List A}, Each p h →
    Each (fun pre a => p (h ++ pre) a) as → Each p (h ++ as)
  | [], h, hh, _ => by simpa using hh
  | a :: as, h, hh, has => by
      have hcat : Each p (h ++ [a]) := hh.concat (by simpa using has [] a as rfl)
      have hrest : Each (fun pre b => p (h ++ [a] ++ pre) b) as := by
        intro pre b post he
        simpa using has (a :: pre) b post (by rw [he]; rfl)
      simpa using Each.append hcat hrest

/-- EXACTNESS: if an action that meets `p` keeps an invariant that implies `good`, and one that does
    not meet `p` leads from the invariant to a state that is not good, then every moment of the
    history is good exactly when every action meets `p`. -/
theorem each_iff_good (ok inv : List A → Prop) {p : List A → A → Prop} {good : List A → Prop}
    (ok_of : ∀ h a, ok (h ++ [a]) → ok h) (init : inv []) (sound : ∀ h, inv h → good h)
    (keep : ∀ h a, ok (h ++ [a]) → inv h → p h a → inv (h ++ [a]))
    (spoil : ∀ h a, ok (h ++ [a]) → inv h → ¬ p h a → ¬ good (h ++ [a])) (h : List A)
    (hok : ok h) : (∀ pre, pre <+: h → good pre) ↔ Each p h := by
  have hinv : ∀ h, ok h → Each p h → inv h := by
    intro h hok hh
    induction h using List.reverseRecOn with
    | nil => exact init
    | append_singleton h a ih =>
      exact keep h a hok (ih (ok_of h a hok) (hh.of_prefix (List.prefix_append _ _)))
        (hh h a [] rfl)
  constructor
  · intro hgood
    induction h using List.reverseRecOn with
    | nil => exact each_nil p
    | append_singleton h a ih =>
      have hh := ih (ok_of h a hok) fun pre hpre =>
        hgood pre (hpre.trans (List.prefix_append _ _))
      refine hh.concat ?_
      by_contra hno
      exact spoil h a hok (hinv h (ok_of h a hok) hh) hno (hgood _ List.prefix_rfl)
  · intro hh pre hpre
    have hpre_ok : ok pre := by
      obtain ⟨post, rfl⟩ := hpre
      clear hh
      induction post using List.reverseRecOn with
      | nil => simpa using hok
      | append_singleton post a ih => exact ih (ok_of _ a (by rwa [List.append_assoc]))
    exact sound pre (hinv pre hpre_ok (hh.of_prefix hpre))

/-- Cutting what a history shows cuts the history. -/
theorem exists_of_filterMap_eq {B : Type*} {f : A → Option B} {h : List A} {u v : List B} {y : B}
    (he : h.filterMap f = u ++ y :: v) : ∃ pre a post, h = pre ++ a :: post ∧ f a = some y ∧
      pre.filterMap f = u ∧ post.filterMap f = v := by
  obtain ⟨pre, rest, rfl, hpre, hrest⟩ := List.filterMap_eq_append_iff.mp he
  obtain ⟨quiet, a, post, rfl, hquiet, ha, hpost⟩ := List.filterMap_eq_cons_iff.mp hrest
  refine ⟨pre ++ quiet, a, post, by simp, ha, ?_, hpost⟩
  rw [List.filterMap_append, hpre, List.filterMap_eq_nil_iff.mpr hquiet, List.append_nil]

/-! ### Projection to one owner -/

section Projection
variable [DecidableEq ι] (owner : A → Option ι)

/-- The actions of owner `i`, in order. -/
def proj (i : ι) (h : List A) : List A := h.filter fun a => owner a = some i

@[simp] theorem proj_nil (i : ι) : proj owner i [] = [] := rfl

@[simp] theorem proj_append (i : ι) (h h' : List A) :
    proj owner i (h ++ h') = proj owner i h ++ proj owner i h' := List.filter_append ..

theorem proj_eq_self {i : ι} {h : List A} (ho : ∀ a ∈ h, owner a = some i) :
    proj owner i h = h :=
  List.filter_eq_self.mpr fun a ha => by simpa using ho a ha

theorem proj_eq_nil {i : ι} {h : List A} (ho : ∀ a ∈ h, owner a ≠ some i) :
    proj owner i h = [] :=
  List.filter_eq_nil_iff.mpr fun a ha => by simpa using ho a ha

theorem mem_proj {i : ι} {h : List A} {a : A} : a ∈ proj owner i h ↔ a ∈ h ∧ owner a = some i := by
  simp [proj]

theorem proj_prefix {i : ι} {h h' : List A} (hp : h' <+: h) :
    proj owner i h' <+: proj owner i h := hp.filter _

/-- What one owner shows, when what is shown tells the owner. -/
theorem filterMap_proj {B : Type*} {f : A → Option B} {p : B → Bool} {i : ι}
    (hp : ∀ a y, f a = some y → (p y = true ↔ owner a = some i)) (h : List A) :
    (h.filterMap f).filter p = (proj owner i h).filterMap f := by
  induction h with
  | nil => rfl
  | cons a h ih =>
    cases ha : f a with
    | none =>
      rw [List.filterMap_cons_none ha, ih, proj, proj, List.filter_cons]
      split_ifs
      · rw [List.filterMap_cons_none ha]
      · rfl
    | some y =>
      have hy := hp a y ha
      rw [List.filterMap_cons_some ha, List.filter_cons, ih, proj, proj, List.filter_cons]
      split_ifs with h₁ h₂ h₂
      · rw [List.filterMap_cons_some ha]
      · exact absurd (by simpa using hy.mp h₁) h₂
      · exact absurd (hy.mpr (by simpa using h₂)) h₁
      · rfl

/-- An owner with an action has a first one. -/
theorem exists_first {i : ι} : ∀ {h : List A}, proj owner i h ≠ [] →
    ∃ pre a post, h = pre ++ a :: post ∧ owner a = some i ∧ proj owner i pre = []
  | [], hne => by simp at hne
  | b :: h, hne => by
      by_cases hb : owner b = some i
      · exact ⟨[], b, h, rfl, hb, rfl⟩
      · have hn : proj owner i h ≠ [] := by simpa [proj, hb] using hne
        obtain ⟨pre, a, post, rfl, ha, hpre⟩ := exists_first hn
        exact ⟨b :: pre, a, post, rfl, ha, by simpa [proj, hb] using hpre⟩

/-- Lists that agree key by key are permutations of each other. -/
theorem perm_of_filter (key : A → ι) {l l' : List A}
    (h : ∀ i, l.filter (fun a => key a = i) = l'.filter fun a => key a = i) : l.Perm l' := by
  classical
  rw [List.perm_iff_count]
  intro a
  have hcount : ∀ l : List A, l.count a = (l.filter fun b => key b = key a).count a :=
    fun l => (List.count_filter (by simp)).symm
  rw [hcount l, hcount l', h]

/-- A view that only its owner's actions change is the fold of the owner's projection. -/
theorem view_foldl {S L : Type*} (act : S → A → S) (local_ : L → A → L) (view : S → L) (i : ι)
    (own : ∀ s a, owner a = some i → view (act s a) = local_ (view s) a)
    (frame : ∀ s a, owner a ≠ some i → view (act s a) = view s) :
    ∀ (h : List A) (s : S), view (h.foldl act s) = (proj owner i h).foldl local_ (view s)
  | [], s => rfl
  | a :: h, s => by
      rw [List.foldl_cons, view_foldl act local_ view i own frame h]
      by_cases ha : owner a = some i
      · simp [proj, ha, own s a ha]
      · simp [proj, ha, frame s a ha]

end Projection

/-! ### The last action under a key -/

/-- The last action under the key `i`. -/
def lastOf [DecidableEq ι] (key : A → ι) (h : List A) (i : ι) : Option A :=
  h.reverse.find? fun a => key a = i

theorem lastOf_concat [DecidableEq ι] (key : A → ι) (h : List A) (a : A) (i : ι) :
    lastOf key (h ++ [a]) i = if i = key a then some a else lastOf key h i := by
  rw [lastOf, List.reverse_append, List.reverse_singleton, List.singleton_append, List.find?_cons]
  split_ifs with hi
  · simp [hi]
  · simp [Ne.symm hi, lastOf]

/-! ### Lists sorted by their keys -/

section Sorted

/-- One more key at its place. -/
theorem sublist_concat {ids keys : List ι} {id : ι} (hnd : ids.Nodup)
    (hsub : keys.Sublist ids) (hid : id ∈ ids) (hbefore : ∀ k ∈ keys, [k, id].Sublist ids) :
    (keys ++ [id]).Sublist ids := by
  obtain ⟨u, v, rfl⟩ := List.append_of_mem hid
  obtain ⟨hu, hv, hdisj⟩ := List.nodup_append.mp hnd
  obtain ⟨hidv, hv⟩ := List.nodup_cons.mp hv
  have hmem : ∀ k ∈ keys, k ∈ u := by
    intro k hk
    obtain ⟨l₁, l₂, he, h₁, h₂⟩ := List.sublist_append_iff.mp (hbefore k hk)
    rcases l₁ with _ | ⟨x, l₁⟩
    · -- both keys would stand in the part that begins with `id`
      rw [List.nil_append] at he
      subst he
      rcases List.sublist_cons_iff.mp h₂ with h | ⟨r, hr, h⟩
      · exact absurd (h.subset (by simp)) hidv
      · obtain ⟨-, rfl⟩ := List.cons.inj hr
        exact absurd (h.subset (by simp)) hidv
    · obtain ⟨rfl, -⟩ := List.cons.inj he
      exact h₁.subset (by simp)
  obtain ⟨l₁, l₂, rfl, h₁, h₂⟩ := List.sublist_append_iff.mp hsub
  have hnil : l₂ = [] := by
    rcases l₂ with _ | ⟨x, l₂⟩
    · rfl
    · exact absurd rfl (hdisj x (hmem x (by simp)) x (h₂.subset (by simp)))
  subst hnil
  rw [List.append_nil]
  exact h₁.append (List.cons_sublist_cons.mpr (List.nil_sublist v))

variable [DecidableEq ι]

/-- A list whose keys run through `ids` in order is put together key by key. -/
theorem eq_flatMap_of_sublist (key : A → ι) : ∀ {ids : List ι} {l : List A},
    ids.Nodup → (l.map key).Sublist ids →
    l = ids.flatMap fun i => l.filter fun a => key a = i
  | [], l, _, hsub => by
      rw [List.sublist_nil, List.map_eq_nil_iff] at hsub
      rw [hsub]; rfl
  | i :: ids, l, hnd, hsub => by
      obtain ⟨hi, hnd⟩ := List.nodup_cons.mp hnd
      rcases List.sublist_cons_iff.mp hsub with hsub | ⟨keys, hkeys, hsub⟩
      · have hnone : (l.filter fun a => key a = i) = [] := by
          refine List.filter_eq_nil_iff.mpr fun a ha hk => hi (hsub.subset ?_)
          exact List.mem_map.mpr ⟨a, ha, by simpa using hk⟩
        rw [List.flatMap_cons, hnone, List.nil_append]
        exact eq_flatMap_of_sublist key hnd hsub
      · obtain ⟨a, l, rfl, hka, rfl⟩ := List.map_eq_cons_iff.mp hkeys
        have hnone : (l.filter fun b => key b = i) = [] := by
          refine List.filter_eq_nil_iff.mpr fun b hb hk => hi (hsub.subset ?_)
          exact List.mem_map.mpr ⟨b, hb, by simpa using hk⟩
        have hrest : (ids.flatMap fun j => (a :: l).filter fun b => key b = j) =
            ids.flatMap fun j => l.filter fun b => key b = j := by
          refine List.flatMap_congr fun j hj => ?_
          rw [List.filter_cons_of_neg]
          simpa [hka] using fun he : i = j => hi (he ▸ hj)
        rw [List.flatMap_cons, List.filter_cons_of_pos (by simpa using hka), hnone, hrest,
          ← eq_flatMap_of_sublist key hnd hsub]
        rfl

end Sorted

end Schemes.History
