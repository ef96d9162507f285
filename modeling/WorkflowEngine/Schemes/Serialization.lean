import WorkflowEngine.Schemes.ObjectGraph

/-! What a serialization determines.

    The walks of two graphs write the same exactly if the graphs are the same tree, share their
    objects in the same places and have the same order of the keys that cannot be sorted. In one
    direction, objects at the same place are written alike; in the other, what two walks write at the
    same time matches, and what matches has matching children. -/

namespace Schemes.Objects.ObjectGraph

variable {T S : Type*} [LinearOrder S] {f : Format S} {g g' : ObjectGraph T S}
variable {r : g.Object} {r' : g'.Object}

/-! ### The written entries -/

theorem ordered_perm (entries : g.Entries) : (g.ordered f entries).Perm entries := by
  unfold ordered
  split_ifs
  · exact List.mergeSort_perm ..
  · exact .refl _

theorem ordered_unsortable {entries : g.Entries} (h : ¬ f.Sortable (g.keys entries)) :
    g.ordered f entries = entries := if_neg h

theorem keys_ordered_perm (entries : g.Entries) :
    (g.keys (g.ordered f entries)).Perm (g.keys entries) := (ordered_perm entries).map _

theorem keys_ordered_sorted {entries : g.Entries} (h : f.Sortable (g.keys entries)) :
    (g.keys (g.ordered f entries)).Pairwise (· ≤ ·) := by
  unfold ordered
  rw [if_pos h, keys, List.pairwise_map]
  refine (List.pairwise_mergeSort (fun a b c hab hbc => ?_) (fun a b => ?_) entries).imp ?_
  · simp only [decide_eq_true_eq] at hab hbc ⊢
    exact hab.trans hbc
  · simpa using le_total (g.scalar a.1) (g.scalar b.1)
  · simp

/-- The same keys, in the same order if they cannot be sorted, are written alike. -/
theorem keys_ordered_congr {entries : g.Entries} {entries' : g'.Entries}
    (h : (g.keys entries).Perm (g'.keys entries'))
    (ho : ¬ f.Sortable (g.keys entries) → g.keys entries = g'.keys entries') :
    g.keys (g.ordered f entries) = g'.keys (g'.ordered f entries') := by
  by_cases hs : f.Sortable (g.keys entries)
  · have hperm : (g.keys (g.ordered f entries)).Perm (g'.keys (g'.ordered f entries')) :=
      (keys_ordered_perm entries).trans (h.trans (keys_ordered_perm entries').symm)
    exact hperm.eq_of_pairwise (fun _ _ _ _ => le_antisymm) (keys_ordered_sorted hs)
      (keys_ordered_sorted ((Format.sortable_congr h).mp hs))
  · rw [ordered_unsortable hs, ordered_unsortable fun hs' => hs ((Format.sortable_congr h).mpr hs')]
    exact ho hs

omit [LinearOrder S] in
/-- Keys and values alternate in what is written. -/
theorem forall₂_alternate {R : g.Object → g'.Object → Prop} {entries : g.Entries}
    {entries' : g'.Entries} :
    List.Forall₂ R (entries.flatMap fun e => [.scalar e.1, e.2])
      (entries'.flatMap fun e => [.scalar e.1, e.2]) ↔
    List.Forall₂ (fun e e' => R (.scalar e.1) (.scalar e'.1) ∧ R e.2 e'.2) entries entries' := by
  induction entries generalizing entries' with
  | nil => cases entries' <;> simp
  | cons e entries ih =>
    cases entries' with
    | nil => simp
    | cons e' entries' => simp [ih, and_assoc]

/-! ### The data, the sharing and the order determine what is written -/

variable (g g') in
/-- Objects at the same place. -/
def Related (r : g.Object) (r' : g'.Object) : Prop := ∃ p, g.At p r ∧ g'.At p r'

theorem Related.alike (hd : SameData g g') (h : Related g g' r r') : Alike r r' := by
  obtain ⟨p, hp, hp'⟩ := h
  obtain ⟨x, hx, hlabel⟩ := (hd p (g.label r)).mp ⟨r, hp, rfl⟩
  rw [hx.unique hp'] at hlabel
  exact label_eq_iff.mp hlabel.symm

omit [LinearOrder S] in
theorem Related.child (h : Related g g' r r') {s : Step S} {x : g.Object}
    {x' : g'.Object} (hx : g.Child r s x) (hx' : g'.Child r' s x') : Related g g' x x' := by
  obtain ⟨p, hp, hp'⟩ := h
  exact ⟨s :: p, .step hp hx, .step hp' hx'⟩

omit [LinearOrder S] in
theorem Related.eq_iff (hs : SameSharing f g g') {x : g.Object} {x' : g'.Object}
    (hr : Related g g' r r') (hx : Related g g' x x') (ha : g.anchors f r = true)
    (ha' : g'.anchors f r' = true) : r = x ↔ r' = x' := by
  obtain ⟨p, hp, hp'⟩ := hr
  obtain ⟨q, hq, hq'⟩ := hx
  constructor
  · rintro rfl
    obtain ⟨y, hpy, hqy, -⟩ := (hs p q).mp ⟨r, hp, hq, ha⟩
    exact (hp'.unique hpy).trans (hqy.unique hq')
  · rintro rfl
    obtain ⟨y, hpy, hqy, -⟩ := (hs p q).mpr ⟨r', hp', hq', ha'⟩
    exact (hp.unique hpy).trans (hqy.unique hq)

theorem Related.contents (hd : SameData g g') (ho : SameOrder f g g') (h : Related g g' r r') :
    List.Forall₂ (Related g g') (g.contents f r) (g'.contents f r') := by
  cases h.alike hd with
  | scalar => exact .nil
  | @seq c c' items items' hkind hkind' hlength =>
    simp only [ObjectGraph.contents, hkind, hkind']
    refine List.forall₂_iff_get.mpr ⟨hlength, fun i hi hi' => ?_⟩
    exact h.child (.item hkind (List.getElem?_eq_getElem hi))
      (.item hkind' (List.getElem?_eq_getElem hi'))
  | @map c c' tag entries entries' hkind hkind' hkeys =>
    have hlists : ¬ f.Sortable (g.keys entries) → g.keys entries = g'.keys entries' := by
      intro hs
      obtain ⟨p, hp, hp'⟩ := h
      obtain ⟨x, tag', xs, hx, hxs, heq, -⟩ :=
        (ho p (g.keys entries)).mp ⟨c, tag, entries, hp, hkind, rfl, hs⟩
      obtain rfl : x = c' := Ref.collection.inj (hx.unique hp')
      rw [← heq, (Collection.map.inj (hxs.symm.trans hkind')).2]
    have hmatch : List.Forall₂ (fun e e' => g.scalar e.1 = g'.scalar e'.1)
        (g.ordered f entries) (g'.ordered f entries') := by
      have heq := keys_ordered_congr hkeys hlists
      rwa [keys, keys, ← List.forall₂_eq_eq_eq, List.forall₂_map_left_iff,
        List.forall₂_map_right_iff] at heq
    simp only [ObjectGraph.contents, hkind, hkind', forall₂_alternate]
    rw [List.forall₂_iff_zip] at hmatch ⊢
    refine ⟨hmatch.1, fun {e e'} hzip => ?_⟩
    have hvalue := hmatch.2 hzip
    have hmem := (ordered_perm entries).mem_iff.mp (List.of_mem_zip hzip).1
    have hmem' := (ordered_perm entries').mem_iff.mp (List.of_mem_zip hzip).2
    exact ⟨h.child (.key hkind hmem) (hvalue ▸ .key hkind' hmem'),
      h.child (.value hkind hmem) (hvalue ▸ .value hkind' hmem')⟩

/-- An object stands in `seen` where its related one does. -/
theorem idxOf?_related (hd : SameData g g') (hs : SameSharing f g g') {seen : List g.Object}
    {seen' : List g'.Object} (hseen : List.Forall₂ (Related g g') seen seen')
    (h : Related g g' r r') (ha : g.anchors f r = true) : seen.idxOf? r = seen'.idxOf? r' := by
  have ha' : g'.anchors f r' = true := (h.alike hd).anchors_eq.symm.trans ha
  induction hseen with
  | nil => rfl
  | @cons x x' seen seen' hx _ ih =>
    have heq : (x == r) = (x' == r') := by
      rw [Bool.eq_iff_iff, beq_iff_eq, beq_iff_eq, eq_comm, h.eq_iff hs hx ha ha', eq_comm]
    rw [List.idxOf?_cons, List.idxOf?_cons, heq, ih]

/-- STEP and RUN: related objects are written alike. -/
theorem write_congr (hd : SameData g g') (hs : SameSharing f g g') (ho : SameOrder f g g') :
    ∀ (todo seen : List g.Object) {todo' seen' : List g'.Object},
      List.Forall₂ (Related g g') todo todo' → List.Forall₂ (Related g g') seen seen' →
      g.write f todo seen = g'.write f todo' seen' := by
  intro todo seen
  induction todo, seen using write.induct f with
  | case1 seen =>
    rintro _ _ ⟨⟩ _
    rw [write_nil, write_nil]
  | case2 seen r todo ha i hi ih =>
    rintro _ seen' (_ | ⟨hr, htodo⟩) hseen
    have hi' := (idxOf?_related hd hs hseen hr ha).symm.trans hi
    rw [write_alias ha hi, write_alias ((hr.alike hd).anchors_eq.symm.trans ha) hi',
      ih htodo hseen]
  | case3 seen r todo ha hnew ih =>
    rintro _ seen' (_ | ⟨hr, htodo⟩) hseen
    have hnew' := (idxOf?_related hd hs hseen hr ha).symm.trans hnew
    rw [write_new ha (List.idxOf?_eq_none_iff.mp hnew),
      write_new ((hr.alike hd).anchors_eq.symm.trans ha) (List.idxOf?_eq_none_iff.mp hnew'),
      (hr.alike hd).opening_eq,
      ih (List.rel_append (hr.contents hd ho) htodo) (List.rel_append hseen (.cons hr .nil))]
  | case4 seen r todo ha ih =>
    rintro _ seen' (_ | ⟨hr, htodo⟩) hseen
    rw [Bool.not_eq_true] at ha
    rw [write_plain ha, write_plain ((hr.alike hd).anchors_eq.symm.trans ha),
      (hr.alike hd).opening_eq, ih htodo hseen]

theorem serialize_congr (hd : SameData g g') (hs : SameSharing f g g') (ho : SameOrder f g g') :
    g.serialize f = g'.serialize f :=
  write_congr hd hs ho _ _ (.cons ⟨[], .root, .root⟩ .nil) .nil

/-! ### What is written determines them -/

omit [LinearOrder S] in
theorem opening_ne_alias (r : g.Object) (i : ℕ) : g.opening r ≠ .alias i := by
  cases r with
  | scalar s => simp [opening]
  | collection c => cases hc : g.collection c <;> simp [opening, hc]

/-- Objects of two graphs with the same first token. -/
inductive Cognate : g.Object → g'.Object → Prop
  | scalar {s : Fin g.scalars} {s' : Fin g'.scalars} (value : g.scalar s = g'.scalar s') :
      Cognate (.scalar s) (.scalar s')
  | seq {c : Fin g.collections} {c' : Fin g'.collections} {items : List g.Object}
      {items' : List g'.Object} (kind : g.collection c = .seq items)
      (kind' : g'.collection c' = .seq items') (length : items.length = items'.length) :
      Cognate (.collection c) (.collection c')
  | map {c : Fin g.collections} {c' : Fin g'.collections} {tag : T} {entries : g.Entries}
      {entries' : g'.Entries} (kind : g.collection c = .map tag entries)
      (kind' : g'.collection c' = .map tag entries')
      (length : entries.length = entries'.length) : Cognate (.collection c) (.collection c')

omit [LinearOrder S] in
theorem cognate_of_opening (h : g.opening r = g'.opening r') : Cognate r r' := by
  cases r with
  | scalar s =>
    cases r' with
    | scalar s' => exact .scalar (Token.scalar.inj h)
    | collection c' => cases hc : g'.collection c' <;> simp [opening, hc] at h
  | collection c =>
    cases r' with
    | scalar s' => cases hc : g.collection c <;> simp [opening, hc] at h
    | collection c' =>
      cases hc : g.collection c with
      | seq items =>
        cases hc' : g'.collection c' with
        | seq items' => exact .seq hc hc' (by simpa [opening, hc, hc'] using h)
        | map tag' entries' => simp [opening, hc, hc'] at h
      | map tag entries =>
        cases hc' : g'.collection c' with
        | seq items' => simp [opening, hc, hc'] at h
        | map tag' entries' =>
          simp only [opening, hc, hc', Token.mapStart.injEq] at h
          obtain ⟨rfl, hlength⟩ := h
          exact .map hc hc' hlength

omit [LinearOrder S] in
theorem anchors_of_opening (h : g.opening r = g'.opening r') :
    g.anchors f r = g'.anchors f r' := by
  cases cognate_of_opening h with
  | scalar hvalue => simp only [anchors, hvalue]
  | seq | map => rfl

theorem contents_length (h : g.opening r = g'.opening r') :
    (g.contents f r).length = (g'.contents f r').length := by
  cases cognate_of_opening h with
  | scalar => rfl
  | seq hkind hkind' hlength => simpa only [contents, hkind, hkind'] using hlength
  | map hkind hkind' hlength =>
    simp [contents, hkind, hkind', (ordered_perm _).length_eq, hlength]

/-- STEP: two walks that write the same go on in the same way. -/
theorem write_step_inj {todo seen : List g.Object} {todo' seen' : List g'.Object}
    (h : g.write f (r :: todo) seen = g'.write f todo' seen') :
    ∃ r' rest', todo' = r' :: rest' ∧
    ((g.anchors f r = false ∧ g.opening r = g'.opening r' ∧
      g.write f todo seen = g'.write f rest' seen') ∨
    (g.anchors f r = true ∧ (∃ i : ℕ, seen[i]? = some r ∧ seen'[i]? = some r') ∧
      g.write f todo seen = g'.write f rest' seen') ∨
    (g.anchors f r = true ∧ r ∉ seen ∧ r' ∉ seen' ∧ g.opening r = g'.opening r' ∧
      g.write f (g.contents f r ++ todo) (seen ++ [r]) =
        g'.write f (g'.contents f r' ++ rest') (seen' ++ [r']))) := by
  cases todo' with
  | nil => rcases write_cases (f := f) r todo seen with ⟨-, -, hw⟩ | ⟨-, i, -, hw⟩ | ⟨-, -, hw⟩ <;>
      simp [hw] at h
  | cons r' rest' =>
    refine ⟨r', rest', rfl, ?_⟩
    rcases write_cases (f := f) r todo seen with
      ⟨ha, -, hw⟩ | ⟨ha, i, hi, hw⟩ | ⟨ha, hr, hw⟩ <;>
    rcases write_cases (f := f) r' rest' seen' with
      ⟨ha', -, hw'⟩ | ⟨ha', i', hi', hw'⟩ | ⟨ha', hr', hw'⟩ <;>
    rw [hw, hw'] at h <;> obtain ⟨hhead, htail⟩ := List.cons.inj h
    · exact .inl ⟨ha, hhead, htail⟩
    · exact absurd hhead (opening_ne_alias r i')
    · exact absurd (ha.symm.trans ((anchors_of_opening hhead).trans ha')) (by simp)
    · exact absurd hhead.symm (opening_ne_alias r' i)
    · rw [← Token.alias.inj hhead] at hi'
      exact .inr (.inl ⟨ha, ⟨i, hi, hi'⟩, htail⟩)
    · exact absurd hhead.symm (opening_ne_alias r' i)
    · exact absurd (ha.symm.trans ((anchors_of_opening hhead).trans ha')) (by simp)
    · exact absurd hhead (opening_ne_alias r i')
    · exact .inr (.inr ⟨ha, hr, hr', hhead, htail⟩)

/-- Objects that are written alike, where `pairs` have been written in full at the same time. -/
def Matched (f : Format S) (pairs : List (g.Object × g'.Object)) (r : g.Object) (r' : g'.Object) :
    Prop :=
  (r, r') ∈ pairs ∨ g.anchors f r = false ∧ g.opening r = g'.opening r'

/-- Objects that are written in full at the same time. -/
def Opened (f : Format S) (pairs : List (g.Object × g'.Object)) (r : g.Object) (r' : g'.Object) :
    Prop :=
  g.opening r = g'.opening r' ∧
  List.Forall₂ (Matched f pairs) (g.contents f r) (g'.contents f r')

/-- Pairs of objects that are written in full at the same time, none of them twice. -/
structure Paired (pairs : List (g.Object × g'.Object)) : Prop where
  left : (pairs.map Prod.fst).Nodup
  right : (pairs.map Prod.snd).Nodup

omit [LinearOrder S] in
theorem Paired.concat {pairs : List (g.Object × g'.Object)} (h : Paired pairs)
    (hr : r ∉ pairs.map Prod.fst) (hr' : r' ∉ pairs.map Prod.snd) :
    Paired (pairs ++ [(r, r')]) where
  left := by
    rw [List.map_append]
    exact List.nodup_append.mpr ⟨h.left, by simp, by rintro a ha b hb rfl; simp_all⟩
  right := by
    rw [List.map_append]
    exact List.nodup_append.mpr ⟨h.right, by simp, by rintro a ha b hb rfl; simp_all⟩

omit [LinearOrder S] in
/-- What was written first at the same time is a pair. -/
theorem mem_of_getElem? {pairs : List (g.Object × g'.Object)} {i : ℕ}
    (hi : (pairs.map Prod.fst)[i]? = some r) (hi' : (pairs.map Prod.snd)[i]? = some r') :
    (r, r') ∈ pairs := by
  rw [List.getElem?_map, Option.map_eq_some_iff] at hi hi'
  obtain ⟨x, hx, rfl⟩ := hi
  obtain ⟨y, hy, rfl⟩ := hi'
  rw [← Option.some.inj (hx.symm.trans hy)]
  exact List.mem_of_getElem? hx

omit [LinearOrder S] in
theorem forall₂_of_append {R : g.Object → g'.Object → Prop} {l m : List g.Object}
    {l' m' : List g'.Object} (hlength : l.length = l'.length)
    (h : List.Forall₂ R (l ++ m) (l' ++ m')) : List.Forall₂ R l l' ∧ List.Forall₂ R m m' := by
  have hl := List.forall₂_take_append _ _ _ h
  have hm := List.forall₂_drop_append _ _ _ h
  rw [← hlength, List.take_left] at hl
  rw [← hlength, List.drop_left] at hm
  exact ⟨hl, hm⟩

/-- RUN: walks that write the same match what they write. -/
theorem write_inj : ∀ (todo seen : List g.Object) {todo' : List g'.Object}
    {pairs : List (g.Object × g'.Object)}, pairs.map Prod.fst = seen → Paired pairs →
    g.write f todo seen = g'.write f todo' (pairs.map Prod.snd) →
    ∃ all, pairs ⊆ all ∧ Paired all ∧ List.Forall₂ (Matched f all) todo todo' ∧
      ∀ x ∈ all, x ∈ pairs ∨ Opened f all x.1 x.2 := by
  intro todo seen
  induction todo, seen using write.induct f with
  | case1 seen =>
    rintro todo' pairs rfl hpairs h
    cases todo' with
    | nil => exact ⟨pairs, fun _ hx => hx, hpairs, .nil, fun x hx => .inl hx⟩
    | cons r' todo' =>
      obtain ⟨_, _, hnil, -⟩ := write_step_inj h.symm
      exact absurd hnil (by simp)
  | case2 seen r todo ha i hi ih =>
    rintro todo' pairs rfl hpairs h
    have hmem : r ∈ pairs.map Prod.fst := by
      obtain ⟨hlt, hget, -⟩ := List.idxOf?_eq_some_iff.mp hi
      exact hget ▸ List.getElem_mem hlt
    obtain ⟨r', rest', rfl, ⟨hno, -⟩ | ⟨-, ⟨j, hj, hj'⟩, htail⟩ | ⟨-, hno, -⟩⟩ := write_step_inj h
    · exact absurd (ha.symm.trans hno) (by simp)
    · obtain ⟨all, hsub, hall, hmatch, hopened⟩ := ih rfl hpairs htail
      exact ⟨all, hsub, hall, .cons (.inl (hsub (mem_of_getElem? hj hj'))) hmatch, hopened⟩
    · exact absurd hmem hno
  | case3 seen r todo ha hnew ih =>
    rintro todo' pairs rfl hpairs h
    obtain ⟨r', rest', rfl, ⟨hno, -⟩ | ⟨-, ⟨j, hj, -⟩, -⟩ | ⟨-, hr, hr', hopening, htail⟩⟩ :=
      write_step_inj h
    · exact absurd (ha.symm.trans hno) (by simp)
    · exact absurd (List.mem_of_getElem? hj) (List.idxOf?_eq_none_iff.mp hnew)
    · have hseen : (pairs ++ [(r, r')]).map Prod.fst = pairs.map Prod.fst ++ [r] := by simp
      obtain ⟨all, hsub, hall, hmatch, hopened⟩ :=
        ih hseen (hpairs.concat hr hr') (by simpa using htail)
      obtain ⟨hcontents, hrest⟩ := forall₂_of_append (contents_length hopening) hmatch
      refine ⟨all, fun x hx => hsub (List.mem_append_left _ hx), hall,
        .cons (.inl (hsub (by simp))) hrest, fun x hx => ?_⟩
      rcases hopened x hx with hold | hopen
      · rcases List.mem_append.mp hold with hold | hlast
        · exact .inl hold
        · rw [List.mem_singleton.mp hlast]
          exact .inr ⟨hopening, hcontents⟩
      · exact .inr hopen
  | case4 seen r todo ha ih =>
    rintro todo' pairs rfl hpairs h
    obtain ⟨r', rest', rfl, ⟨hplain, hopening, htail⟩ | ⟨hno, -⟩ | ⟨hno, -⟩⟩ := write_step_inj h
    · obtain ⟨all, hsub, hall, hmatch, hopened⟩ := ih rfl hpairs htail
      exact ⟨all, hsub, hall, .cons (.inr ⟨hplain, hopening⟩) hmatch, hopened⟩
    · exact absurd hno ha
    · exact absurd hno ha

/-- What two walks that write the same have in common: the pairs `all` that they write in full. -/
structure Lockstep (f : Format S) (all : List (g.Object × g'.Object)) : Prop extends
    Paired all where
  root : Matched f all g.root g'.root
  opened : ∀ x ∈ all, Opened f all x.1 x.2

theorem exists_lockstep (h : g.serialize f = g'.serialize f) :
    ∃ all : List (g.Object × g'.Object), Lockstep f all := by
  have hnone : Paired ([] : List (g.Object × g'.Object)) := ⟨by simp, by simp⟩
  obtain ⟨all, -, hall, hmatch, hopened⟩ := write_inj [g.root] [] List.map_nil hnone h
  exact ⟨all, hall, (List.forall₂_cons.mp hmatch).1,
    fun x hx => (hopened x hx).resolve_left (by simp)⟩

namespace Lockstep
variable {all : List (g.Object × g'.Object)}

theorem matched_opened (hl : Lockstep f all) (h : Matched f all r r') : Opened f all r r' := by
  rcases h with hmem | ⟨ha, hopening⟩
  · exact hl.opened _ hmem
  · refine ⟨hopening, ?_⟩
    cases cognate_of_opening hopening with
    | scalar => exact .nil
    | seq | map => exact absurd ha (by simp [anchors])

/-- An object that can be anchored matches at most one. -/
theorem unique (hl : Lockstep f all) {x' : g'.Object} (h : Matched f all r r')
    (hx : Matched f all r x') (ha : g.anchors f r = true) : r' = x' := by
  have hmem := h.resolve_right fun hplain => absurd (ha.symm.trans hplain.1) (by simp)
  have hmem' := hx.resolve_right fun hplain => absurd (ha.symm.trans hplain.1) (by simp)
  exact congrArg Prod.snd (List.inj_on_of_nodup_map hl.left hmem hmem' rfl)

/-- Entries that are written at the same time have the same key, and matching values. -/
theorem entries (hl : Lockstep f all) {c : Fin g.collections} {c' : Fin g'.collections} {tag : T}
    {entries : g.Entries} {entries' : g'.Entries}
    (h : Matched f all (.collection c) (.collection c')) (kind : g.collection c = .map tag entries)
    (kind' : g'.collection c' = .map tag entries') :
    List.Forall₂ (fun e e' => g.scalar e.1 = g'.scalar e'.1 ∧
      Matched f all (.scalar e.1) (.scalar e'.1) ∧ Matched f all e.2 e'.2)
      (g.ordered f entries) (g'.ordered f entries') := by
  have hcontents := (hl.matched_opened h).2
  simp only [contents, kind, kind', forall₂_alternate] at hcontents
  refine hcontents.imp fun e e' ⟨hkey, hvalue⟩ => ⟨?_, hkey, hvalue⟩
  exact Token.scalar.inj (hl.matched_opened hkey).1

/-- The entry that is written at the same time as `e`. -/
theorem entry (hl : Lockstep f all) {c : Fin g.collections} {c' : Fin g'.collections} {tag : T}
    {entries : g.Entries} {entries' : g'.Entries}
    (h : Matched f all (.collection c) (.collection c')) (kind : g.collection c = .map tag entries)
    (kind' : g'.collection c' = .map tag entries') {e : Fin g.scalars × g.Object}
    (he : e ∈ entries) : ∃ e' ∈ entries', g.scalar e.1 = g'.scalar e'.1 ∧
      Matched f all (.scalar e.1) (.scalar e'.1) ∧ Matched f all e.2 e'.2 := by
  have hentries := hl.entries h kind kind'
  obtain ⟨i, hi, rfl⟩ := List.mem_iff_getElem.mp ((ordered_perm (f := f) entries).mem_iff.mpr he)
  have hi' := hentries.length_eq ▸ hi
  exact ⟨_, (ordered_perm entries').mem_iff.mp (List.getElem_mem hi'), hentries.get hi hi'⟩

theorem keys_eq (hl : Lockstep f all) {c : Fin g.collections} {c' : Fin g'.collections} {tag : T}
    {entries : g.Entries} {entries' : g'.Entries}
    (h : Matched f all (.collection c) (.collection c')) (kind : g.collection c = .map tag entries)
    (kind' : g'.collection c' = .map tag entries') :
    g.keys (g.ordered f entries) = g'.keys (g'.ordered f entries') := by
  rw [keys, keys, ← List.forall₂_eq_eq_eq, List.forall₂_map_left_iff, List.forall₂_map_right_iff]
  exact (hl.entries h kind kind').imp fun _ _ he => he.1

theorem alike (hl : Lockstep f all) (h : Matched f all r r') : Alike r r' := by
  cases cognate_of_opening (hl.matched_opened h).1 with
  | scalar hvalue => exact .scalar hvalue
  | seq hkind hkind' hlength => exact .seq hkind hkind' hlength
  | @map c c' tag entries entries' hkind hkind' =>
    have hkeys : (g.keys (g.ordered f entries)).Perm (g'.keys (g'.ordered f entries')) :=
      .of_eq (hl.keys_eq h hkind hkind')
    exact .map hkind hkind'
      ((keys_ordered_perm entries).symm.trans (hkeys.trans (keys_ordered_perm entries')))

/-- STEP: matching objects have matching children. -/
theorem child (hl : Lockstep f all) (h : Matched f all r r') {s : Step S} {x : g.Object}
    (hx : g.Child r s x) : ∃ x', g'.Child r' s x' ∧ Matched f all x x' := by
  have hcognate := cognate_of_opening (hl.matched_opened h).1
  cases hx with
  | item hkind hget =>
    obtain ⟨hi, rfl⟩ := List.getElem?_eq_some_iff.mp hget
    cases hcognate with
    | seq hseq hkind' hlength =>
      obtain rfl := Collection.seq.inj (hseq.symm.trans hkind)
      have hcontents := (hl.matched_opened h).2
      simp only [contents, hkind, hkind'] at hcontents
      exact ⟨_, .item hkind' (List.getElem?_eq_getElem (hlength ▸ hi)), hcontents.get hi _⟩
    | map hmap => exact absurd (hmap.symm.trans hkind) (by simp)
  | key hkind hmem =>
    cases hcognate with
    | seq hseq => exact absurd (hseq.symm.trans hkind) (by simp)
    | map hmap hkind' =>
      obtain ⟨rfl, rfl⟩ := Collection.map.inj (hmap.symm.trans hkind)
      obtain ⟨e', hmem', hkey, hmatch, -⟩ := hl.entry h hkind hkind' hmem
      exact ⟨_, hkey ▸ .key hkind' hmem', hmatch⟩
  | value hkind hmem =>
    cases hcognate with
    | seq hseq => exact absurd (hseq.symm.trans hkind) (by simp)
    | map hmap hkind' =>
      obtain ⟨rfl, rfl⟩ := Collection.map.inj (hmap.symm.trans hkind)
      obtain ⟨e', hmem', hkey, -, hmatch⟩ := hl.entry h hkind hkind' hmem
      exact ⟨_, hkey ▸ .value hkind' hmem', hmatch⟩

/-- RUN: what stands at a path matches what stands there in the other graph. -/
theorem at_path (hl : Lockstep f all) {p : List (Step S)} (h : g.At p r) :
    ∃ r', g'.At p r' ∧ Matched f all r r' := by
  induction h with
  | root => exact ⟨g'.root, .root, hl.root⟩
  | step _ hchild ih =>
    obtain ⟨r', hr', hmatch⟩ := ih
    obtain ⟨x', hx', hmatch'⟩ := hl.child hmatch hchild
    exact ⟨x', .step hr' hx', hmatch'⟩

theorem shows (hl : Lockstep f all) {p : List (Step S)} {l : Label T S} (h : g.Shows p l) :
    g'.Shows p l := by
  obtain ⟨r, hr, rfl⟩ := h
  obtain ⟨r', hr', hmatch⟩ := hl.at_path hr
  exact ⟨r', hr', (label_eq_iff.mpr (hl.alike hmatch)).symm⟩

theorem shares (hl : Lockstep f all) {p q : List (Step S)} (h : g.Shares f p q) :
    g'.Shares f p q := by
  obtain ⟨r, hp, hq, ha⟩ := h
  obtain ⟨x, hx, hmatch⟩ := hl.at_path hp
  obtain ⟨y, hy, hmatch'⟩ := hl.at_path hq
  obtain rfl := hl.unique hmatch hmatch' ha
  exact ⟨x, hx, hy, (hl.alike hmatch).anchors_eq.symm.trans ha⟩

theorem lists (hl : Lockstep f all) {p : List (Step S)} {keys : List S} (h : g.Lists f p keys) :
    g'.Lists f p keys := by
  obtain ⟨c, tag, entries, hp, hkind, rfl, hs⟩ := h
  obtain ⟨x, hx, hmatch⟩ := hl.at_path hp
  cases hl.alike hmatch with
  | seq hseq => exact absurd (hseq.symm.trans hkind) (by simp)
  | @map _ c' _ _ entries' hmap hkind' hperm =>
    obtain ⟨rfl, rfl⟩ := Collection.map.inj (hmap.symm.trans hkind)
    have hs' : ¬ f.Sortable (g'.keys entries') := fun h => hs ((Format.sortable_congr hperm).mpr h)
    have hkeys := hl.keys_eq hmatch hkind hkind'
    rw [ordered_unsortable hs, ordered_unsortable hs'] at hkeys
    exact ⟨c', _, entries', hx, hkind', hkeys.symm, hs⟩

end Lockstep

/-- EXACT (serialization): two graphs are written alike exactly if they are the same tree, share
    their objects in the same places and have the same order of the keys that cannot be sorted. -/
theorem serialize_eq_iff : g.serialize f = g'.serialize f ↔
    SameData g g' ∧ SameSharing f g g' ∧ SameOrder f g g' := by
  constructor
  · intro h
    obtain ⟨all, hl⟩ := exists_lockstep h
    obtain ⟨all', hl'⟩ := exists_lockstep h.symm
    exact ⟨fun _ _ => ⟨hl.shows, hl'.shows⟩, fun _ _ => ⟨hl.shares, hl'.shares⟩,
      fun _ _ => ⟨hl.lists, hl'.lists⟩⟩
  · rintro ⟨hd, hs, ho⟩
    exact serialize_congr hd hs ho

end Schemes.Objects.ObjectGraph
