import Mathlib.Data.Finset.Card
import Mathlib.Data.Fintype.Card
import Mathlib.Data.Fintype.Sum
import Mathlib.Data.List.Forall2
import Mathlib.Data.List.Sort
import Mathlib.Tactic.DeriveFintype

/-! Object graphs and their serialization.

    A value of a dynamic language is a graph: scalars and collections are objects, and one object may
    stand in several places, even inside itself. What stands at a path makes the value a tree. A
    serializer walks the graph, writes an object in full where it meets it first and an alias
    where it meets it again, and sorts the keys of a mapping if they can be compared. What it writes
    determines the tree, which places share an object and the order of the keys that it cannot
    sort, and is determined by them. -/

namespace Schemes.Objects

variable {T S : Type*}

/-- One of `m` scalars or of `n` collections. -/
inductive Ref (m n : ℕ) where
  | scalar (s : Fin m)
  | collection (c : Fin n)
  deriving DecidableEq, Fintype

/-- A collection that refers to scalars by `K` and to any objects by `R`. -/
inductive Collection (T K R : Type*) where
  | seq (items : List R)
  | map (tag : T) (entries : List (K × R))

/-- The same reference, with other names for the objects. -/
def Ref.rename {m n m' n' : ℕ} (φ : Fin m → Fin m') (ψ : Fin n → Fin n') : Ref m n → Ref m' n'
  | .scalar s => .scalar (φ s)
  | .collection c => .collection (ψ c)

/-- The same collection, with other names for the objects. -/
def Collection.rename {K K' R R' : Type*} (φ : K → K') (ψ : R → R') :
    Collection T K R → Collection T K' R'
  | .seq items => .seq (items.map ψ)
  | .map tag entries => .map tag (entries.map (Prod.map φ ψ))

/-- Finitely many objects and a root; the keys of a mapping are scalars, and distinct. -/
structure ObjectGraph (T S : Type*) where
  scalars : ℕ
  collections : ℕ
  scalar : Fin scalars → S
  collection : Fin collections → Collection T (Fin scalars) (Ref scalars collections)
  root : Ref scalars collections
  distinct : ∀ c tag entries, collection c = .map tag entries →
    (entries.map fun e => scalar e.1).Nodup

/-- How objects are written: which keys can be compared, and which scalars are anchored. -/
structure Format (S : Type*) where
  comparable : S → S → Bool
  anchored : S → Bool

/-- What is written. An alias stands for the `n`-th object that can be anchored. -/
inductive Token (T S : Type*) where
  | scalar (value : S)
  | seqStart (length : ℕ)
  | mapStart (tag : T) (length : ℕ)
  | alias (n : ℕ)
  deriving DecidableEq

namespace ObjectGraph

abbrev Object (g : ObjectGraph T S) : Type := Ref g.scalars g.collections

/-- Entries of a mapping in `g`. -/
abbrev Entries (g : ObjectGraph T S) : Type := List (Fin g.scalars × g.Object)

def keys (g : ObjectGraph T S) (entries : g.Entries) : List S := entries.map fun e => g.scalar e.1

end ObjectGraph

section Serializer
variable [LinearOrder S] (f : Format S)

/-- All pairs of different keys can be compared. -/
def Format.Sortable (keys : List S) : Prop :=
  ∀ a ∈ keys, ∀ b ∈ keys, a ≠ b → f.comparable a b = true

instance (keys : List S) : Decidable (f.Sortable keys) :=
  inferInstanceAs (Decidable (∀ a ∈ keys, ∀ b ∈ keys, a ≠ b → f.comparable a b = true))

omit [LinearOrder S] in
variable {f} in
theorem Format.sortable_congr {keys keys' : List S} (h : keys.Perm keys') :
    f.Sortable keys ↔ f.Sortable keys' := by
  simp only [Format.Sortable, h.mem_iff]

namespace ObjectGraph
variable (g : ObjectGraph T S)

/-- The entries as they are written. -/
def ordered (entries : g.Entries) : g.Entries :=
  if f.Sortable (g.keys entries) then
    entries.mergeSort fun e e' => decide (g.scalar e.1 ≤ g.scalar e'.1)
  else entries

/-- Objects that get an anchor if they are met again. -/
def anchors : g.Object → Bool
  | .scalar s => f.anchored (g.scalar s)
  | .collection _ => true

/-- The first token of an object. -/
def opening : g.Object → Token T S
  | .scalar s => .scalar (g.scalar s)
  | .collection c =>
    match g.collection c with
    | .seq items => .seqStart items.length
    | .map tag entries => .mapStart tag entries.length

/-- The objects written after the first token. -/
def contents : g.Object → List g.Object
  | .scalar _ => []
  | .collection c =>
    match g.collection c with
    | .seq items => items
    | .map _ entries => (g.ordered f entries).flatMap fun e => [.scalar e.1, e.2]

/-- The objects that are yet to be written for the first time. -/
def unseen (seen : List g.Object) : Finset g.Object := Finset.univ.filter fun r => r ∉ seen

omit [LinearOrder S] in
theorem unseen_concat {seen : List g.Object} {r : g.Object} (h : r ∉ seen) :
    (g.unseen (seen ++ [r])).card < (g.unseen seen).card := by
  refine Finset.card_lt_card (Finset.ssubset_iff_of_subset ?_ |>.mpr ⟨r, ?_, ?_⟩)
  · intro x hx
    simp only [unseen, Finset.mem_filter, List.mem_append, not_or] at hx ⊢
    exact ⟨hx.1, hx.2.1⟩
  · simpa [unseen] using h
  · simp [unseen]

/-- The tokens of the objects `todo`, where the objects `seen` have been written. -/
def write (todo seen : List g.Object) : List (Token T S) :=
  match todo with
  | [] => []
  | r :: todo =>
    if g.anchors f r then
      match _h : seen.idxOf? r with
      | some i => .alias i :: write todo seen
      | none => g.opening r :: write (g.contents f r ++ todo) (seen ++ [r])
    else g.opening r :: write todo seen
termination_by ((g.unseen seen).card, todo.length)
decreasing_by
  · exact Prod.Lex.right _ (by simp)
  · exact Prod.Lex.left _ _ (g.unseen_concat (List.idxOf?_eq_none_iff.mp ‹_›))
  · exact Prod.Lex.right _ (by simp)

def serialize : List (Token T S) := g.write f [g.root] []

/-! ### One step of the walk -/

variable {f g} {r : g.Object} {todo seen : List g.Object}

@[simp] theorem write_nil : g.write f [] seen = [] := by rw [write]

theorem write_plain (h : g.anchors f r = false) :
    g.write f (r :: todo) seen = g.opening r :: g.write f todo seen := by
  rw [write, if_neg (by simp [h])]

theorem write_alias {i : ℕ} (h : g.anchors f r = true) (hi : seen.idxOf? r = some i) :
    g.write f (r :: todo) seen = .alias i :: g.write f todo seen := by
  rw [write, if_pos h]
  split
  · next j hj => rw [Option.some.inj (hj.symm.trans hi)]
  · next hnone => exact absurd (hnone.symm.trans hi) (by simp)

theorem write_new (h : g.anchors f r = true) (hr : r ∉ seen) :
    g.write f (r :: todo) seen =
      g.opening r :: g.write f (g.contents f r ++ todo) (seen ++ [r]) := by
  have hnone : seen.idxOf? r = none := List.idxOf?_eq_none_iff.mpr hr
  rw [write, if_pos h]
  split
  · next j hj => exact absurd (hnone.symm.trans hj) (by simp)
  · rfl

/-- How the walk goes on from its next object. -/
theorem write_cases (r : g.Object) (todo seen : List g.Object) :
    (g.anchors f r = false ∧ g.contents f r = [] ∧
      g.write f (r :: todo) seen = g.opening r :: g.write f todo seen) ∨
    (g.anchors f r = true ∧ ∃ i, seen[i]? = some r ∧
      g.write f (r :: todo) seen = .alias i :: g.write f todo seen) ∨
    (g.anchors f r = true ∧ r ∉ seen ∧ g.write f (r :: todo) seen =
      g.opening r :: g.write f (g.contents f r ++ todo) (seen ++ [r])) := by
  cases ha : g.anchors f r with
  | false =>
    refine .inl ⟨rfl, ?_, write_plain ha⟩
    cases r with
    | scalar s => rfl
    | collection c => exact absurd ha (by simp [anchors])
  | true =>
    cases hi : seen.idxOf? r with
    | some i =>
      obtain ⟨hlt, hr, -⟩ := List.idxOf?_eq_some_iff.mp hi
      exact .inr (.inl ⟨rfl, i, List.getElem?_eq_some_iff.mpr ⟨hlt, hr⟩, write_alias ha hi⟩)
    | none =>
      have hr := List.idxOf?_eq_none_iff.mp hi
      exact .inr (.inr ⟨rfl, hr, write_new ha hr⟩)

end ObjectGraph
end Serializer

/-! ### The tree of a graph -/

/-- A step of a path: to an item, to the object of a key, to the value of a key. -/
inductive Step (S : Type*) where
  | item (i : ℕ)
  | key (k : S)
  | value (k : S)

/-- What a place of a tree shows: a scalar, a sequence of some length, a mapping with some keys. -/
inductive Label (T S : Type*) where
  | scalar (value : S)
  | seq (length : ℕ)
  | map (tag : T) (keys : Finset S)

namespace ObjectGraph
variable (g : ObjectGraph T S)

inductive Child : g.Object → Step S → g.Object → Prop
  | item {c : Fin g.collections} {items : List g.Object} {i : ℕ} {x : g.Object}
      (kind : g.collection c = .seq items) (get : items[i]? = some x) :
      Child (.collection c) (.item i) x
  | key {c : Fin g.collections} {tag : T} {entries : g.Entries} {e : Fin g.scalars × g.Object}
      (kind : g.collection c = .map tag entries) (mem : e ∈ entries) :
      Child (.collection c) (.key (g.scalar e.1)) (.scalar e.1)
  | value {c : Fin g.collections} {tag : T} {entries : g.Entries} {e : Fin g.scalars × g.Object}
      (kind : g.collection c = .map tag entries) (mem : e ∈ entries) :
      Child (.collection c) (.value (g.scalar e.1)) e.2

/-- The object at a path, whose last step stands first. -/
inductive At : List (Step S) → g.Object → Prop
  | root : At [] g.root
  | step {p : List (Step S)} {r x : g.Object} {s : Step S} (above : At p r)
      (child : g.Child r s x) : At (s :: p) x

variable {g}

theorem entry_inj {c : Fin g.collections} {tag : T} {entries : g.Entries}
    (h : g.collection c = .map tag entries) {e e' : Fin g.scalars × g.Object} (he : e ∈ entries)
    (he' : e' ∈ entries) (hk : g.scalar e.1 = g.scalar e'.1) : e = e' :=
  List.inj_on_of_nodup_map (g.distinct c tag entries h) he he' hk

theorem Child.unique {r x y : g.Object} {s : Step S} (hx : g.Child r s x) (hy : g.Child r s y) :
    x = y := by
  cases hx with
  | item hkind hget =>
    cases hy with
    | item hkind' hget' =>
      rw [Collection.seq.inj (hkind.symm.trans hkind')] at hget
      exact Option.some.inj (hget.symm.trans hget')
  | @key c tag entries e hkind hmem =>
    generalize hs : Step.key (g.scalar e.1) = s at hy
    cases hy with
    | item => exact absurd hs (by simp)
    | key hkind' hmem' =>
      obtain ⟨-, rfl⟩ := Collection.map.inj (hkind.symm.trans hkind')
      rw [entry_inj hkind hmem hmem' (Step.key.inj hs)]
    | value => exact absurd hs (by simp)
  | @value c tag entries e hkind hmem =>
    generalize hs : Step.value (g.scalar e.1) = s at hy
    cases hy with
    | item => exact absurd hs (by simp)
    | key => exact absurd hs (by simp)
    | value hkind' hmem' =>
      obtain ⟨-, rfl⟩ := Collection.map.inj (hkind.symm.trans hkind')
      rw [entry_inj hkind hmem hmem' (Step.value.inj hs)]

theorem At.unique {p : List (Step S)} {r r' : g.Object} (h : g.At p r) (h' : g.At p r') :
    r = r' := by
  induction h generalizing r' with
  | root => cases h'; rfl
  | step _ hchild ih =>
    cases h' with
    | step habove' hchild' =>
      obtain rfl := ih habove'
      exact hchild.unique hchild'

/-! ### Merging objects -/

variable {g' : ObjectGraph T S} {r : g.Object} {r' : g'.Object}

variable (g g') in
/-- Objects of `g` become objects of `g'`, several of them perhaps the same one. -/
structure Merging where
  scalar : Fin g.scalars → Fin g'.scalars
  collection : Fin g.collections → Fin g'.collections
  root : g'.root = g.root.rename scalar collection
  scalar_eq : ∀ s, g'.scalar (scalar s) = g.scalar s
  collection_eq : ∀ c, g'.collection (collection c) =
    (g.collection c).rename scalar (Ref.rename scalar collection)

namespace Merging

def object (m : Merging g g') : g.Object → g'.Object := Ref.rename m.scalar m.collection

theorem seq (m : Merging g g') {c : Fin g.collections} {items : List g.Object}
    (h : g.collection c = .seq items) :
    g'.collection (m.collection c) = .seq (items.map m.object) := by
  rw [m.collection_eq, h]; rfl

theorem map (m : Merging g g') {c : Fin g.collections} {tag : T} {entries : g.Entries}
    (h : g.collection c = .map tag entries) :
    g'.collection (m.collection c) = .map tag (entries.map (Prod.map m.scalar m.object)) := by
  rw [m.collection_eq, h]; rfl

theorem child (m : Merging g g') {s : Step S} {x : g.Object} (h : g.Child r s x) :
    g'.Child (m.object r) s (m.object x) := by
  cases h with
  | item hkind hget => exact .item (m.seq hkind) (by rw [List.getElem?_map, hget]; rfl)
  | key hkind hmem =>
    rw [← m.scalar_eq]
    exact .key (m.map hkind) (List.mem_map_of_mem hmem)
  | value hkind hmem =>
    rw [← m.scalar_eq]
    exact .value (m.map hkind) (List.mem_map_of_mem hmem)

/-- Merging adds no children. -/
theorem child_lift (m : Merging g g') {s : Step S} {y : g'.Object}
    (h : g'.Child (m.object r) s y) : ∃ x, g.Child r s x ∧ m.object x = y := by
  generalize hr : m.object r = r' at h
  cases r with
  | scalar k => subst hr; cases h
  | collection c =>
    cases hc : g.collection c with
    | seq items =>
      have hseq := m.seq hc
      cases h with
      | item hkind hget =>
        obtain rfl := Ref.collection.inj hr
        rw [Collection.seq.inj (hkind.symm.trans hseq), List.getElem?_map,
          Option.map_eq_some_iff] at hget
        obtain ⟨x, hx, rfl⟩ := hget
        exact ⟨x, .item hc hx, rfl⟩
      | key hkind | value hkind =>
        obtain rfl := Ref.collection.inj hr
        exact absurd (hkind.symm.trans hseq) (by simp)
    | map tag entries =>
      have hmap := m.map hc
      cases h with
      | item hkind =>
        obtain rfl := Ref.collection.inj hr
        exact absurd (hkind.symm.trans hmap) (by simp)
      | key hkind hmem =>
        obtain rfl := Ref.collection.inj hr
        obtain ⟨e, he, rfl⟩ := List.mem_map.mp ((Collection.map.inj (hkind.symm.trans hmap)).2 ▸ hmem)
        exact ⟨.scalar e.1, (m.scalar_eq e.1).symm ▸ .key hc he, rfl⟩
      | value hkind hmem =>
        obtain rfl := Ref.collection.inj hr
        obtain ⟨e, he, rfl⟩ := List.mem_map.mp ((Collection.map.inj (hkind.symm.trans hmap)).2 ▸ hmem)
        exact ⟨e.2, (m.scalar_eq e.1).symm ▸ .value hc he, rfl⟩

theorem at_path (m : Merging g g') {p : List (Step S)} (h : g.At p r) : g'.At p (m.object r) := by
  induction h with
  | root =>
    have hroot : g'.root = m.object g.root := m.root
    exact hroot ▸ .root
  | step _ hchild ih => exact .step ih (m.child hchild)

theorem at_path_lift (m : Merging g g') {p : List (Step S)} (h : g'.At p r') :
    ∃ x, g.At p x ∧ m.object x = r' := by
  induction h with
  | root => exact ⟨g.root, .root, m.root.symm⟩
  | step _ hchild ih =>
    obtain ⟨x, hx, rfl⟩ := ih
    obtain ⟨y, hy, rfl⟩ := m.child_lift hchild
    exact ⟨y, .step hx hy, rfl⟩

end Merging

end ObjectGraph

section Trees
variable [LinearOrder S] (f : Format S)

namespace ObjectGraph
variable (g g' : ObjectGraph T S)

def label : g.Object → Label T S
  | .scalar s => .scalar (g.scalar s)
  | .collection c =>
    match g.collection c with
    | .seq items => .seq items.length
    | .map tag entries => .map tag (g.keys entries).toFinset

/-- A place of the tree shows `l`. -/
def Shows (p : List (Step S)) (l : Label T S) : Prop := ∃ r, g.At p r ∧ g.label r = l

/-- Two places are one object that can be anchored. -/
def Shares (p q : List (Step S)) : Prop := ∃ r, g.At p r ∧ g.At q r ∧ g.anchors f r = true

/-- A place is a mapping whose keys cannot be sorted, and `keys` are its keys in their order. -/
def Lists (p : List (Step S)) (keys : List S) : Prop :=
  ∃ c tag entries, g.At p (.collection c) ∧ g.collection c = .map tag entries ∧
    g.keys entries = keys ∧ ¬ f.Sortable keys

/-- The same tree: the order of keys and the identity of objects do not matter. -/
def SameData : Prop := ∀ p l, g.Shows p l ↔ g'.Shows p l

/-- The same places share an object. -/
def SameSharing : Prop := ∀ p q, g.Shares f p q ↔ g'.Shares f p q

/-- The keys that cannot be sorted stand in the same order. -/
def SameOrder : Prop := ∀ p keys, g.Lists f p keys ↔ g'.Lists f p keys

variable {f g g'}

/-- Objects of two graphs that show the same. -/
inductive Alike : g.Object → g'.Object → Prop
  | scalar {s : Fin g.scalars} {s' : Fin g'.scalars} (value : g.scalar s = g'.scalar s') :
      Alike (.scalar s) (.scalar s')
  | seq {c : Fin g.collections} {c' : Fin g'.collections} {items : List g.Object}
      {items' : List g'.Object} (kind : g.collection c = .seq items)
      (kind' : g'.collection c' = .seq items') (length : items.length = items'.length) :
      Alike (.collection c) (.collection c')
  | map {c : Fin g.collections} {c' : Fin g'.collections} {tag : T} {entries : g.Entries}
      {entries' : g'.Entries} (kind : g.collection c = .map tag entries)
      (kind' : g'.collection c' = .map tag entries')
      (keys : (g.keys entries).Perm (g'.keys entries')) : Alike (.collection c) (.collection c')

variable {r : g.Object} {r' : g'.Object}

theorem label_eq_iff : g.label r = g'.label r' ↔ Alike r r' := by
  constructor
  · intro h
    cases r with
    | scalar s =>
      cases r' with
      | scalar s' => exact .scalar (Label.scalar.inj h)
      | collection c' => cases hc : g'.collection c' <;> simp [label, hc] at h
    | collection c =>
      cases r' with
      | scalar s' => cases hc : g.collection c <;> simp [label, hc] at h
      | collection c' =>
        cases hc : g.collection c with
        | seq items =>
          cases hc' : g'.collection c' with
          | seq items' => exact .seq hc hc' (by simpa [label, hc, hc'] using h)
          | map tag' entries' => simp [label, hc, hc'] at h
        | map tag entries =>
          cases hc' : g'.collection c' with
          | seq items' => simp [label, hc, hc'] at h
          | map tag' entries' =>
            simp only [label, hc, hc', Label.map.injEq] at h
            obtain ⟨rfl, hkeys⟩ := h
            exact .map hc hc' (List.perm_of_nodup_nodup_toFinset_eq (g.distinct c tag entries hc)
              (g'.distinct c' tag entries' hc') hkeys)
  · intro h
    cases h with
    | scalar hvalue => simp [label, hvalue]
    | seq hkind hkind' hlength => simp [label, hkind, hkind', hlength]
    | map hkind hkind' hkeys => simp [label, hkind, hkind', List.toFinset_eq_of_perm _ _ hkeys]

omit [LinearOrder S] in
theorem Alike.anchors_eq (h : Alike r r') : g.anchors f r = g'.anchors f r' := by
  cases h with
  | scalar hvalue => simp only [anchors, hvalue]
  | seq | map => rfl

omit [LinearOrder S] in
theorem Alike.opening_eq (h : Alike r r') : g.opening r = g'.opening r' := by
  cases h with
  | scalar hvalue => simp only [opening, hvalue]
  | seq hkind hkind' hlength => simp only [opening, hkind, hkind', hlength]
  | map hkind hkind' hkeys =>
    simp only [opening, hkind, hkind', Token.mapStart.injEq, true_and]
    simpa [keys] using hkeys.length_eq

namespace Merging

theorem label_object (m : Merging g g') (r : g.Object) : g'.label (m.object r) = g.label r := by
  cases r with
  | scalar s => exact congrArg Label.scalar (m.scalar_eq s)
  | collection c =>
    simp only [object, Ref.rename, label, m.collection_eq]
    cases g.collection c with
    | seq items => simp [Collection.rename]
    | map tag entries => simp [Collection.rename, keys, Function.comp_def, m.scalar_eq]

/-- Merging objects does not change the tree. -/
theorem sameData (m : Merging g g') : SameData g g' := by
  intro p l
  constructor
  · rintro ⟨r, hr, rfl⟩
    exact ⟨m.object r, m.at_path hr, m.label_object r⟩
  · rintro ⟨r', hr', rfl⟩
    obtain ⟨x, hx, rfl⟩ := m.at_path_lift hr'
    exact ⟨x, hx, (m.label_object x).symm⟩

end Merging

end ObjectGraph
end Trees

end Schemes.Objects
