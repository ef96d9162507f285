import Mathlib.Data.List.Nodup
import Mathlib.Data.List.Perm.Basic

/-! Insertion-ordered dictionaries.

    A dictionary is a list of entries with distinct keys. Overwriting a key keeps its position and
    a new key goes to the end, so iteration runs in order of first insertion. Two dictionaries are
    the same mapping when every lookup agrees (`Same`); their entry lists are then permutations of
    each other. -/

namespace Schemes

variable {K V W : Type*}

/-- A list of key-value pairs with distinct keys, in insertion order. -/
structure Dict (K V : Type*) where
  entries : List (K × V)
  nodup : (entries.map Prod.fst).Nodup

namespace Dict

/-- The dictionary without entries. -/
def empty : Dict K V := ⟨[], List.nodup_nil⟩

def keys (d : Dict K V) : List K := d.entries.map Prod.fst

def values (d : Dict K V) : List V := d.entries.map Prod.snd

section Lookup
variable [DecidableEq K]

/-- `d.get k`: the value stored under `k`, if any. -/
def get (d : Dict K V) (k : K) : Option V := d.entries.lookup k

/-- Overwrite the entry of `k` in place, or append a new one. -/
def setEntries (k : K) (v : V) : List (K × V) → List (K × V)
  | [] => [(k, v)]
  | (a, b) :: l => if a = k then (a, v) :: l else (a, b) :: setEntries k v l

theorem mem_keys_setEntries (k : K) (v : V) (a : K) : ∀ l : List (K × V),
    a ∈ (setEntries k v l).map Prod.fst ↔ a = k ∨ a ∈ l.map Prod.fst
  | [] => by simp [setEntries]
  | (x, b) :: l => by
      by_cases h : x = k
      · subst h; simp only [setEntries, if_true, List.map_cons, List.mem_cons]; tauto
      · simp only [setEntries, if_neg h, List.map_cons, List.mem_cons, mem_keys_setEntries k v a l]
        tauto

theorem nodup_setEntries (k : K) (v : V) : ∀ l : List (K × V), (l.map Prod.fst).Nodup →
    ((setEntries k v l).map Prod.fst).Nodup
  | [], _ => by simp [setEntries]
  | (x, b) :: l, hl => by
      obtain ⟨hx, hl⟩ := List.nodup_cons.mp hl
      by_cases h : x = k
      · simpa [setEntries, h] using List.nodup_cons.mpr ⟨h ▸ hx, hl⟩
      · simp only [setEntries, if_neg h, List.map_cons, List.nodup_cons]
        refine ⟨fun hm => ?_, nodup_setEntries k v l hl⟩
        rcases (mem_keys_setEntries k v x l).mp hm with hm | hm
        · exact h hm
        · exact hx hm

/-- `d[k] = v`. -/
def set (d : Dict K V) (k : K) (v : V) : Dict K V :=
  ⟨setEntries k v d.entries, nodup_setEntries k v d.entries d.nodup⟩

/-- `d.pop(k, None)`. -/
def erase (d : Dict K V) (k : K) : Dict K V :=
  ⟨d.entries.filter fun p => p.1 ≠ k, d.nodup.sublist (List.filter_sublist.map _)⟩

/-- `dict(pairs)`: later pairs overwrite earlier ones. -/
def ofList (l : List (K × V)) : Dict K V := l.foldl (fun d p => d.set p.1 p.2) empty

/-- The mapping view: dictionaries are compared by their lookups, not by their order. -/
def Same (d e : Dict K V) : Prop := ∀ k, d.get k = e.get k

/-! ### Lookups -/

@[simp] theorem get_empty (k : K) : (empty : Dict K V).get k = none := rfl

theorem lookup_cons (x : K) (b : V) (l : List (K × V)) (a : K) :
    ((x, b) :: l).lookup a = if a = x then some b else l.lookup a := by
  by_cases h : a = x
  · simp [h]
  · have hb : (a == x) = false := beq_eq_false_iff_ne.mpr h
    simp [List.lookup_cons, h, hb]

theorem lookup_setEntries (k : K) (v : V) (a : K) : ∀ l : List (K × V),
    (setEntries k v l).lookup a = if a = k then some v else l.lookup a
  | [] => by rw [setEntries, lookup_cons]
  | (x, b) :: l => by
      by_cases hx : x = k
      · subst hx; rw [setEntries, if_pos rfl, lookup_cons, lookup_cons]
        by_cases ha : a = x <;> simp [ha]
      · rw [setEntries, if_neg hx, lookup_cons, lookup_cons, lookup_setEntries k v a l]
        by_cases ha : a = x
        · subst ha; simp [hx]
        · simp [ha]

@[simp] theorem get_set (d : Dict K V) (k : K) (v : V) (a : K) :
    (d.set k v).get a = if a = k then some v else d.get a :=
  lookup_setEntries k v a d.entries

theorem lookup_eq_some_iff (a : K) (v : V) : ∀ l : List (K × V), (l.map Prod.fst).Nodup →
    (l.lookup a = some v ↔ (a, v) ∈ l)
  | [], _ => by simp
  | (x, b) :: l, hl => by
      obtain ⟨hx, hl⟩ := List.nodup_cons.mp hl
      have ih := lookup_eq_some_iff a v l hl
      rw [lookup_cons]
      by_cases h : a = x
      · have hno : ∀ w, (x, w) ∉ l := fun w hw => hx (List.mem_map.mpr ⟨(x, w), hw, rfl⟩)
        simp [h, hno, eq_comm]
      · simp [h, ih]

theorem mem_entries_iff (d : Dict K V) (a : K) (v : V) : (a, v) ∈ d.entries ↔ d.get a = some v :=
  (lookup_eq_some_iff a v d.entries d.nodup).symm

theorem mem_keys_iff (d : Dict K V) (a : K) : a ∈ d.keys ↔ ∃ v, d.get a = some v := by
  simp [← mem_entries_iff, keys]

theorem entries_set_of_notMem (d : Dict K V) (k : K) (v : V) (h : k ∉ d.keys) :
    (d.set k v).entries = d.entries ++ [(k, v)] := by
  have key : ∀ l : List (K × V), k ∉ l.map Prod.fst → setEntries k v l = l ++ [(k, v)] := by
    intro l hl
    induction l with
    | nil => rfl
    | cons p l ih =>
      obtain ⟨hp, hl⟩ := not_or.mp (List.mem_cons.not.mp hl)
      rw [setEntries, if_neg (Ne.symm hp), ih hl]; rfl
  exact key d.entries h

theorem keys_set_of_notMem (d : Dict K V) (k : K) (v : V) (h : k ∉ d.keys) :
    (d.set k v).keys = d.keys ++ [k] := by
  rw [keys, entries_set_of_notMem d k v h, List.map_append]; rfl

theorem entries_foldl_set : ∀ (l : List (K × V)) (d : Dict K V),
    (d.keys ++ l.map Prod.fst).Nodup →
    (l.foldl (fun d p => d.set p.1 p.2) d).entries = d.entries ++ l
  | [], d, _ => by simp
  | p :: l, d, h => by
      have hp : p.1 ∉ d.keys := fun hmem =>
        (List.nodup_append.mp h).2.2 p.1 hmem p.1 List.mem_cons_self rfl
      rw [List.foldl_cons, entries_foldl_set l, entries_set_of_notMem d p.1 p.2 hp,
        List.append_assoc]
      · rfl
      · rw [keys_set_of_notMem d p.1 p.2 hp, List.append_assoc]
        exact h

/-- `dict` of pairs with distinct keys keeps them. -/
theorem entries_ofList (l : List (K × V)) (h : (l.map Prod.fst).Nodup) :
    (ofList l).entries = l := entries_foldl_set l empty h

theorem mem_values_iff (d : Dict K V) (v : V) : v ∈ d.values ↔ ∃ k, d.get k = some v := by
  simp [← mem_entries_iff, values]

@[simp] theorem get_erase (d : Dict K V) (k a : K) :
    (d.erase k).get a = if a = k then none else d.get a := by
  apply Option.ext
  intro v
  rw [← mem_entries_iff]
  by_cases h : a = k <;> simp [erase, h, mem_entries_iff]

theorem get_foldl_set (f : K → V) (a : K) : ∀ (l : List K) (d : Dict K V),
    ((l.map fun k => (k, f k)).foldl (fun d p => d.set p.1 p.2) d).get a
      = if a ∈ l then some (f a) else d.get a
  | [], d => by simp
  | k :: l, d => by
      rw [List.map_cons, List.foldl_cons, get_foldl_set f a l]
      by_cases hl : a ∈ l
      · simp [hl]
      · by_cases hk : a = k <;> simp [hl, hk]

theorem get_foldl_filterMap (f : K → V → Option W) (a : K) : ∀ (l : List (K × V)) (d : Dict K W),
    (l.map Prod.fst).Nodup →
    ((l.filterMap fun p => (f p.1 p.2).map fun w => (p.1, w)).foldl
      (fun d p => d.set p.1 p.2) d).get a = ((l.lookup a).bind (f a)).or (d.get a)
  | [], d, _ => rfl
  | (k, v) :: l, d, hl => by
      obtain ⟨hk, hl⟩ := List.nodup_cons.mp hl
      have hno : l.lookup k = none := by
        rw [Option.eq_none_iff_forall_ne_some]
        intro v' hv'
        exact hk (List.mem_map.mpr ⟨(k, v'), (lookup_eq_some_iff k v' l hl).mp hv', rfl⟩)
      rw [List.filterMap_cons, lookup_cons]
      cases hf : f k v with
      | none =>
        rw [Option.map_none, get_foldl_filterMap f a l d hl]
        rcases eq_or_ne a k with rfl | ha
        · simp [hno, hf]
        · simp [ha]
      | some w =>
        rw [Option.map_some, List.foldl_cons, get_foldl_filterMap f a l _ hl, get_set]
        rcases eq_or_ne a k with rfl | ha
        · simp [hno, hf]
        · simp [ha]

/-- `{k: w for k, v in d.items() if …}`, where `f k v` is the `w` to keep, if any. -/
theorem get_ofList_filterMap (f : K → V → Option W) (d : Dict K V) (a : K) :
    (ofList (d.entries.filterMap fun p => (f p.1 p.2).map fun w => (p.1, w))).get a =
      (d.get a).bind (f a) := by
  rw [ofList, get_foldl_filterMap f a d.entries empty d.nodup]
  exact Option.or_none

theorem get_ofList_iff (l : List (K × V)) (hl : (l.map Prod.fst).Nodup) (a : K) (v : V) :
    (ofList l).get a = some v ↔ (a, v) ∈ l := by
  have hget : (ofList l).get a = l.lookup a := by
    simpa [get] using get_ofList_filterMap (fun _ v => some v) ⟨l, hl⟩ a
  rw [hget]
  exact lookup_eq_some_iff a v l hl

/-- The same mapping has the same entries, in some order. -/
theorem Same.perm {d e : Dict K V} (h : d.Same e) : d.entries.Perm e.entries := by
  refine (List.perm_ext_iff_of_nodup (.of_map _ d.nodup) (.of_map _ e.nodup)).mpr ?_
  rintro ⟨k, v⟩
  rw [mem_entries_iff, mem_entries_iff, h k]

/-- `{k: f(k) for k in l}`. -/
@[simp] theorem get_ofList_map (f : K → V) (l : List K) (a : K) :
    (ofList (l.map fun k => (k, f k))).get a = if a ∈ l then some (f a) else none :=
  get_foldl_set f a l empty

end Lookup

/-- `{k: f(v) for k, v in d.items()}`. -/
def mapValues (f : V → W) (d : Dict K V) : Dict K W :=
  ⟨d.entries.map fun p => (p.1, f p.2), by simpa [List.map_map, Function.comp_def] using d.nodup⟩

@[simp] theorem get_mapValues [DecidableEq K] (f : V → W) (d : Dict K V) (a : K) :
    (d.mapValues f).get a = (d.get a).map f := by
  have key : ∀ l : List (K × V),
      (l.map fun p => (p.1, f p.2)).lookup a = (l.lookup a).map f := by
    intro l
    induction l with
    | nil => rfl
    | cons p l ih =>
      rw [List.map_cons, lookup_cons, lookup_cons, ih]
      by_cases h : a = p.1 <;> simp [h]
  exact key d.entries

theorem mapValues_set [DecidableEq K] (f : V → W) (d : Dict K V) (k : K) (v : V) :
    (d.set k v).mapValues f = (d.mapValues f).set k (f v) := by
  have key : ∀ l : List (K × V), (setEntries k v l).map (fun p => (p.1, f p.2)) =
      setEntries k (f v) (l.map fun p => (p.1, f p.2)) := by
    intro l
    induction l with
    | nil => rfl
    | cons p l ih =>
      by_cases h : p.1 = k
      · simp [setEntries, h]
      · simp [setEntries, h, ih]
  simp only [mapValues, set, key]

theorem mapValues_erase [DecidableEq K] (f : V → W) (d : Dict K V) (k : K) :
    (d.erase k).mapValues f = (d.mapValues f).erase k := by
  simp only [mapValues, erase, List.filter_map]
  rfl

/-- Dictionaries that look alike through `f` and `g` hold the same lists together. -/
theorem values_flatMap_perm {X : Type*} [DecidableEq K] {d : Dict K V} {e : Dict K W}
    {f : V → List X} {g : W → List X} (h : ∀ k, (d.get k).map f = (e.get k).map g) :
    (d.values.flatMap f).Perm (e.values.flatMap g) := by
  have hsame : (d.mapValues f).Same (e.mapValues g) := fun k => by
    rw [get_mapValues, get_mapValues, h k]
  have hvalues := (hsame.perm.map Prod.snd).flatten
  simpa [mapValues, values, List.flatMap_def, Function.comp_def] using hvalues

/-- Of the items that the entries give, those with the tag of one key are those of its entry. -/
theorem filter_flatMap {X T : Type*} [DecidableEq K] [DecidableEq T] {f : K → V → List X}
    {tag : X → T} {tagged : K → T} (hinj : Function.Injective tagged)
    (htag : ∀ k v, ∀ x ∈ f k v, tag x = tagged k) (d : Dict K V) (k : K) :
    ((d.entries.flatMap fun e => f e.1 e.2).filter fun x => tag x = tagged k) =
      (d.get k).elim [] (f k) := by
  have key : ∀ l : List (K × V), (l.map Prod.fst).Nodup →
      ((l.flatMap fun e => f e.1 e.2).filter fun x => tag x = tagged k) =
        (l.lookup k).elim [] (f k) := by
    intro l hl
    induction l with
    | nil => rfl
    | cons p l ih =>
      obtain ⟨a, v⟩ := p
      obtain ⟨ha, hrest⟩ := List.nodup_cons.mp hl
      rw [List.flatMap_cons, List.filter_append, ih hrest, lookup_cons]
      rcases eq_or_ne k a with rfl | hk
      · have hnone : l.lookup k = none := by
          rw [Option.eq_none_iff_forall_ne_some]
          intro v' hv'
          exact ha (List.mem_map.mpr ⟨(k, v'), (lookup_eq_some_iff k v' l hrest).mp hv', rfl⟩)
        rw [if_pos rfl, hnone]
        refine (List.append_nil _).trans (List.filter_eq_self.mpr fun x hx => ?_)
        exact decide_eq_true (htag k v x hx)
      · rw [if_neg hk]
        refine (congrArg (· ++ _) (List.filter_eq_nil_iff.mpr fun x hx => ?_)).trans
          (List.nil_append _)
        rw [decide_eq_true_eq, htag a v x hx]
        exact fun he => hk (hinj he).symm
  exact key d.entries d.nodup

end Dict

end Schemes
