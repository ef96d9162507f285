import WorkflowEngine.Engine.Schema
import Mathlib.Data.List.Forall2
import Mathlib.Data.Set.List

/-! The standard JSON encoder and decoder on Python values.

    The encoder turns the keys of a mapping into strings and tuples into arrays, and raises for what
    JSON does not have, for an integer that has no decimal text, and for collections that are nested
    too deep: it goes down `limit` levels, which is what is left of the recursion limit. The decoder
    keeps the last of the members with one name; it is taken to go down as far as the encoder did.
    So a value comes back as it was exactly if it is plain. -/

namespace WorkflowEngine
open Schemes

inductive Json where
  | null
  | bool (b : Bool)
  | int (n : ℤ)
  | float (bits : UInt64)
  | str (text : String)
  | arr (items : List Json)
  | obj (members : List (String × Json))

/-! ### Encoding -/

section Encoder
variable (floatText : UInt64 → String)

def Scalar.encode : Scalar → Except String Json
  | .null => .ok .null
  | .bool b => .ok (.bool b)
  | .int n => (strInt n).map fun _ => .int n
  | .float bits => .ok (.float bits)
  | .str text => .ok (.str text)
  | .bytes _ => .error "Object of type bytes is not JSON serializable"
  | .date _ => .error "Object of type date is not JSON serializable"
  | .datetime _ _ => .error "Object of type datetime is not JSON serializable"

/-- The name of a member; `floatText` is `float.__repr__`. -/
def Scalar.keyText : Scalar → Except String String
  | .str text => .ok text
  | .null => .ok "null"
  | .bool b => .ok (if b then "true" else "false")
  | .int n => strInt n
  | .float bits => .ok (floatText bits)
  | .bytes _ => .error "keys must be str, int, float, bool or None, not bytes"
  | .date _ => .error "keys must be str, int, float, bool or None, not datetime.date"
  | .datetime _ _ => .error "keys must be str, int, float, bool or None, not datetime.datetime"

/-- One level down, if the recursion limit has one left. -/
def nested {α : Type} (limit : ℕ) (enc : ℕ → Except String α) : Except String α :=
  match limit with
  | 0 => .error "maximum recursion depth exceeded while encoding a JSON object"
  | limit + 1 => enc limit

mutual

/-- `json.dumps`. -/
def Value.encode : Value → ℕ → Except String Json
  | .scalar s, _ => s.encode
  | .list items, limit => nested limit fun limit => (encodeItems items limit).map .arr
  | .tuple items, limit => nested limit fun limit => (encodeItems items limit).map .arr
  | .map entries, limit => nested limit fun limit => (encodeEntries entries limit).map .obj
  | .set _, _ => .error "Object of type set is not JSON serializable"
  | .enclosing _, limit => nested limit fun _ => .error "Circular reference detected"

def encodeItems : List Value → ℕ → Except String (List Json)
  | [], _ => .ok []
  | v :: items, limit =>
    match v.encode limit with
    | .error e => .error e
    | .ok j => (encodeItems items limit).map fun rest => j :: rest

def encodeEntries : List (Scalar × Value) → ℕ → Except String (List (String × Json))
  | [], _ => .ok []
  | (key, v) :: entries, limit =>
    match key.keyText floatText, v.encode limit with
    | .error e, _ => .error e
    | .ok _, .error e => .error e
    | .ok name, .ok j => (encodeEntries entries limit).map fun rest => (name, j) :: rest

end

end Encoder

/-! ### Decoding -/

/-- A mapping with string keys. -/
def Value.object (members : List (String × Value)) : Value :=
  .map ((Dict.ofList members).entries.map fun e => (.str e.1, e.2))

mutual

/-- `json.loads`. -/
def Json.decode : Json → Value
  | .null => .scalar .null
  | .bool b => .scalar (.bool b)
  | .int n => .scalar (.int n)
  | .float bits => .scalar (.float bits)
  | .str text => .scalar (.str text)
  | .arr items => .list (decodeItems items)
  | .obj members => .object (decodeMembers members)

def decodeItems : List Json → List Value
  | [] => []
  | j :: items => j.decode :: decodeItems items

def decodeMembers : List (String × Json) → List (String × Value)
  | [] => []
  | (name, j) :: members => (name, j.decode) :: decodeMembers members

end

/-! ### Plain values -/

/-- A scalar that JSON has, and an integer of up to 4300 digits. -/
def Scalar.Plain : Scalar → Prop
  | .null | .bool _ | .float _ | .str _ => True
  | .int n => n.natAbs < digitLimit
  | .bytes _ | .date _ | .datetime _ _ => False

/-- Made of JSON's scalars, of lists, and of mappings with distinct string keys, nested at most
    `limit` deep. -/
inductive Value.Plain : ℕ → Value → Prop
  | scalar {limit : ℕ} {s : Scalar} (plain : s.Plain) : Plain limit (.scalar s)
  | list {limit : ℕ} {items : List Value} (items_plain : ∀ v ∈ items, Plain limit v) :
      Plain (limit + 1) (.list items)
  | map {limit : ℕ} {entries : List (Scalar × Value)}
      (keys : ∀ e ∈ entries, ∃ text, e.1 = .str text)
      (distinct : (entries.map Prod.fst).Nodup) (values : ∀ e ∈ entries, Plain limit e.2) :
      Plain (limit + 1) (.map entries)

/-- STRUCTURE: induction over values, with the hypothesis for every member. -/
theorem Value.members_induction {motive : Value → Prop} (scalar : ∀ s, motive (.scalar s))
    (list : ∀ items, (∀ v ∈ items, motive v) → motive (.list items))
    (tuple : ∀ items, (∀ v ∈ items, motive v) → motive (.tuple items))
    (map : ∀ entries, (∀ e ∈ entries, motive e.2) → motive (.map entries))
    (set : ∀ members, motive (.set members)) (enclosing : ∀ n, motive (.enclosing n)) (v : Value) :
    motive v := by
  refine @Value.rec motive (fun items => ∀ v ∈ items, motive v)
    (fun entries => ∀ e ∈ entries, motive e.2) (fun e => motive e.2) scalar list tuple map set
    enclosing ?_ ?_ ?_ ?_ (fun _ _ h => h) v
  · exact fun _ h => absurd h (List.not_mem_nil)
  · exact fun _ _ hv hitems => List.forall_mem_cons.mpr ⟨hv, hitems⟩
  · exact fun _ h => absurd h (List.not_mem_nil)
  · exact fun _ _ he hentries => List.forall_mem_cons.mpr ⟨he, hentries⟩

/-! ### What is encoded and decoded -/

variable {floatText : UInt64 → String} {limit : ℕ}

theorem encodeItems_ok : ∀ {items : List Value} {js : List Json},
    encodeItems floatText items limit = .ok js ↔
      List.Forall₂ (fun v j => v.encode floatText limit = .ok j) items js
  | [], js => by simp [encodeItems, eq_comm]
  | v :: items, js => by
    rw [encodeItems]
    cases hv : v.encode floatText limit with
    | error e => exact iff_of_false (by simp) fun h => by cases h with | cons hj => simp [hv] at hj
    | ok j =>
      cases hrest : encodeItems floatText items limit with
      | error e =>
        refine iff_of_false (by simp [Except.map]) fun h => ?_
        cases h with
        | cons _ htail => exact absurd (hrest.symm.trans (encodeItems_ok.mpr htail)) (by simp)
      | ok rest =>
        simp only [Except.map, Except.ok.injEq]
        constructor
        · rintro rfl
          exact .cons hv (encodeItems_ok.mp hrest)
        · intro h
          cases h with
          | cons hj htail =>
            obtain rfl := Except.ok.inj (hv.symm.trans hj)
            obtain rfl := Except.ok.inj (hrest.symm.trans (encodeItems_ok.mpr htail))
            rfl

theorem encodeEntries_ok : ∀ {entries : List (Scalar × Value)} {members : List (String × Json)},
    encodeEntries floatText entries limit = .ok members ↔
      List.Forall₂ (fun e m =>
        e.1.keyText floatText = .ok m.1 ∧ e.2.encode floatText limit = .ok m.2) entries members
  | [], members => by simp [encodeEntries, eq_comm]
  | (key, v) :: entries, members => by
    rw [encodeEntries]
    cases hkey : key.keyText floatText with
    | error e =>
      exact iff_of_false (by simp) fun h => by cases h with | cons hm => simp [hkey] at hm
    | ok name =>
      cases hv : v.encode floatText limit with
      | error e =>
        exact iff_of_false (by simp) fun h => by cases h with | cons hm => simp [hv] at hm
      | ok j =>
        cases hrest : encodeEntries floatText entries limit with
        | error e =>
          refine iff_of_false (by simp [Except.map]) fun h => ?_
          cases h with
          | cons _ htail => exact absurd (hrest.symm.trans (encodeEntries_ok.mpr htail)) (by simp)
        | ok rest =>
          simp only [Except.map, Except.ok.injEq]
          constructor
          · rintro rfl
            exact .cons ⟨hkey, hv⟩ (encodeEntries_ok.mp hrest)
          · intro h
            cases h with
            | @cons _ m _ _ hm htail =>
              obtain ⟨name', j'⟩ := m
              obtain rfl : name = name' := Except.ok.inj (hkey.symm.trans hm.1)
              obtain rfl : j = j' := Except.ok.inj (hv.symm.trans hm.2)
              obtain rfl := Except.ok.inj (hrest.symm.trans (encodeEntries_ok.mpr htail))
              rfl

theorem decodeItems_eq : ∀ items : List Json, decodeItems items = items.map Json.decode
  | [] => rfl
  | j :: items => by rw [decodeItems, decodeItems_eq items, List.map_cons]

theorem decodeMembers_eq : ∀ members : List (String × Json),
    decodeMembers members = members.map fun m => (m.1, m.2.decode)
  | [] => rfl
  | (name, j) :: members => by rw [decodeMembers, decodeMembers_eq members, List.map_cons]

/-- A value comes back as it was. -/
def Value.RoundTrips (floatText : UInt64 → String) (limit : ℕ) (v : Value) : Prop :=
  ∃ j, v.encode floatText limit = .ok j ∧ j.decode = v

/-! ### Round trips -/

/-- The entry of a string key. -/
def entry (m : String × Value) : Scalar × Value := (.str m.1, m.2)

theorem keys_entry (members : List (String × Value)) :
    (members.map entry).map Prod.fst = (members.map Prod.fst).map Scalar.str := by
  rw [List.map_map, List.map_map]; rfl

theorem nodup_keys_entry {members : List (String × Value)} :
    ((members.map entry).map Prod.fst).Nodup ↔ (members.map Prod.fst).Nodup := by
  rw [keys_entry, List.nodup_map_iff fun a b h => Scalar.str.inj h]

/-- A list comes back as it was if and only if each of its items does. -/
theorem forall₂_map_eq {α β : Type} {R : α → β → Prop} {g : β → α} {l : List α} :
    (∃ js, List.Forall₂ R l js ∧ js.map g = l) ↔ ∀ a ∈ l, ∃ j, R a j ∧ g j = a := by
  induction l with
  | nil => simp
  | cons a l ih =>
    rw [List.forall_mem_cons, ← ih]
    constructor
    · rintro ⟨js, hall, hmap⟩
      cases hall with
      | @cons _ j _ rest hj htail =>
        obtain ⟨ha, hl⟩ := List.cons.inj hmap
        exact ⟨⟨j, hj, ha⟩, rest, htail, hl⟩
    · rintro ⟨⟨j, hj, ha⟩, rest, htail, hl⟩
      exact ⟨j :: rest, .cons hj htail, by rw [List.map_cons, ha, hl]⟩

theorem roundTrips_items {items : List Value} :
    (∃ js, encodeItems floatText items limit = .ok js ∧ decodeItems js = items) ↔
      ∀ v ∈ items, v.RoundTrips floatText limit := by
  simp only [encodeItems_ok, decodeItems_eq]
  exact forall₂_map_eq

theorem roundTrips_members {members : List (String × Value)} :
    (∃ js, encodeEntries floatText (members.map entry) limit = .ok js ∧
      decodeMembers js = members) ↔ ∀ m ∈ members, m.2.RoundTrips floatText limit := by
  simp only [encodeEntries_ok, decodeMembers_eq, List.forall₂_map_left_iff]
  rw [forall₂_map_eq]
  refine forall₂_congr fun m _ => ⟨?_, ?_⟩
  · rintro ⟨j, ⟨-, henc⟩, hdec⟩
    exact ⟨j.2, henc, congrArg Prod.snd hdec⟩
  · rintro ⟨j, henc, hdec⟩
    exact ⟨(m.1, j), ⟨rfl, henc⟩, by rw [hdec]⟩

/-- The members of an encoded mapping have its keys for names. -/
theorem names_encodeEntries {members : List (String × Value)} {js : List (String × Json)}
    (h : encodeEntries floatText (members.map entry) limit = .ok js) :
    (decodeMembers js).map Prod.fst = members.map Prod.fst := by
  rw [encodeEntries_ok] at h
  rw [decodeMembers_eq, List.map_map]
  induction members generalizing js with
  | nil => cases h; rfl
  | cons m members ih =>
    cases h with
    | @cons _ j _ rest hj htail =>
      have hname : m.1 = j.1 := Except.ok.inj hj.1
      rw [List.map_cons, List.map_cons, ih htail, Function.comp_apply, hname]

theorem map_ok {ε α β : Type} {x : Except ε α} {f : α → β} {b : β} :
    x.map f = .ok b ↔ ∃ a, x = .ok a ∧ f a = b := by
  cases x <;> simp [Except.map]

/-- With no level left, nothing nested is encoded. -/
theorem nested_zero {α : Type} {enc : ℕ → Except String α} {a : α} : nested 0 enc ≠ .ok a := nofun

theorem nested_succ {α : Type} (limit : ℕ) (enc : ℕ → Except String α) :
    nested (limit + 1) enc = enc limit := rfl

theorem roundTrips_list {items : List Value} :
    (Value.list items).RoundTrips floatText (limit + 1) ↔
      ∀ v ∈ items, v.RoundTrips floatText limit := by
  rw [← roundTrips_items]
  constructor
  · rintro ⟨j, henc, hdec⟩
    rw [Value.encode, nested_succ] at henc
    obtain ⟨js, hjs, rfl⟩ := map_ok.mp henc
    rw [Json.decode] at hdec
    exact ⟨js, hjs, Value.list.inj hdec⟩
  · rintro ⟨js, hjs, hdec⟩
    exact ⟨.arr js, by rw [Value.encode, nested_succ, hjs]; rfl, by rw [Json.decode, hdec]⟩

/-- A decoded object has string keys, each once. -/
theorem roundTrips_map {entries : List (Scalar × Value)} :
    (Value.map entries).RoundTrips floatText (limit + 1) ↔ ∃ members : List (String × Value),
      entries = members.map entry ∧ (members.map Prod.fst).Nodup ∧
      ∀ m ∈ members, m.2.RoundTrips floatText limit := by
  constructor
  · rintro ⟨j, henc, hdec⟩
    rw [Value.encode, nested_succ] at henc
    obtain ⟨js, hjs, rfl⟩ := map_ok.mp henc
    rw [Json.decode, Value.object] at hdec
    have hentries : entries = (Dict.ofList (decodeMembers js)).entries.map entry :=
      (Value.map.inj hdec).symm
    have hnodup : ((Dict.ofList (decodeMembers js)).entries.map Prod.fst).Nodup := Dict.nodup _
    refine ⟨_, hentries, hnodup, ?_⟩
    rw [hentries] at hjs
    have hdistinct : ((decodeMembers js).map Prod.fst).Nodup :=
      (names_encodeEntries hjs).symm ▸ hnodup
    rw [Dict.entries_ofList _ hdistinct] at hjs ⊢
    exact roundTrips_members.mp ⟨js, hjs, rfl⟩
  · rintro ⟨members, rfl, hnodup, hall⟩
    obtain ⟨js, hjs, hdec⟩ := roundTrips_members.mpr hall
    refine ⟨.obj js, by rw [Value.encode, nested_succ, hjs]; rfl, ?_⟩
    rw [Json.decode, hdec, Value.object, Dict.entries_ofList _ hnodup]
    rfl

theorem plain_map_iff {entries : List (Scalar × Value)} :
    (Value.map entries).Plain (limit + 1) ↔ ∃ members : List (String × Value),
      entries = members.map entry ∧ (members.map Prod.fst).Nodup ∧
        ∀ m ∈ members, m.2.Plain limit := by
  constructor
  · intro h
    cases h with
    | map keys distinct values =>
      have hrange : entries ∈ Set.range (List.map entry) := by
        rw [Set.range_list_map]
        intro e he
        obtain ⟨text, htext⟩ := keys e he
        exact ⟨(text, e.2), Prod.ext htext.symm rfl⟩
      obtain ⟨members, rfl⟩ := hrange
      refine ⟨members, rfl, nodup_keys_entry.mp distinct, fun m hm => ?_⟩
      exact values (entry m) (List.mem_map_of_mem hm)
  · rintro ⟨members, rfl, hnodup, hall⟩
    refine .map (fun e he => ?_) (nodup_keys_entry.mpr hnodup) fun e he => ?_
    · obtain ⟨m, -, rfl⟩ := List.mem_map.mp he
      exact ⟨m.1, rfl⟩
    · obtain ⟨m, hm, rfl⟩ := List.mem_map.mp he
      exact hall m hm

/-- A scalar is encoded, and decoded to itself, exactly if it is plain. -/
theorem roundTrips_scalar {s : Scalar} :
    (Value.scalar s).RoundTrips floatText limit ↔ s.Plain := by
  cases s with
  | bytes | date | datetime =>
    exact iff_of_false (fun ⟨_, henc, _⟩ => absurd henc (by simp [Value.encode, Scalar.encode])) id
  | int n =>
    rw [Scalar.Plain]
    rcases Nat.lt_or_ge n.natAbs digitLimit with hn | hn
    · refine iff_of_true ⟨.int n, ?_, rfl⟩ hn
      rw [Value.encode, Scalar.encode, strInt_ok hn]; rfl
    · obtain ⟨e, he⟩ := strInt_error hn
      refine iff_of_false (fun ⟨_, henc, _⟩ => ?_) (Nat.not_lt.mpr hn)
      rw [Value.encode, Scalar.encode, he] at henc
      exact absurd henc (by simp [Except.map])
  | _ => exact iff_of_true ⟨_, rfl, rfl⟩ trivial

/-- Nothing nested comes back with no level left. -/
theorem not_roundTrips_nested {v : Value} {enc : ℕ → Except String Json}
    (h : ∀ limit, v.encode floatText limit = nested limit enc) : ¬ v.RoundTrips floatText 0 := by
  rintro ⟨j, henc, -⟩
  exact nested_zero ((h 0).symm.trans henc)

/-- EXACT (JSON): a value is encoded, and decoded to itself, exactly if it is plain. -/
theorem roundTrips_iff_plain (floatText : UInt64 → String) (limit : ℕ) (v : Value) :
    v.RoundTrips floatText limit ↔ v.Plain limit := by
  induction v using Value.members_induction generalizing limit with
  | scalar s =>
    rw [roundTrips_scalar]
    exact ⟨.scalar, fun h => by cases h with | scalar hs => exact hs⟩
  | list items ih =>
    cases limit with
    | zero => exact iff_of_false (not_roundTrips_nested fun _ => by rw [Value.encode]) nofun
    | succ limit =>
      rw [roundTrips_list, forall₂_congr fun v hv => ih v hv limit]
      exact ⟨.list, fun h => by cases h with | list hall => exact hall⟩
  | tuple items =>
    refine iff_of_false ?_ nofun
    rintro ⟨j, henc, hdec⟩
    cases limit with
    | zero => exact absurd henc (by rw [Value.encode]; exact nested_zero)
    | succ limit =>
      rw [Value.encode, nested_succ] at henc
      obtain ⟨js, -, rfl⟩ := map_ok.mp henc
      exact absurd hdec (by simp [Json.decode])
  | map entries ih =>
    cases limit with
    | zero => exact iff_of_false (not_roundTrips_nested fun _ => by rw [Value.encode]) nofun
    | succ limit =>
      rw [roundTrips_map, plain_map_iff]
      refine exists_congr fun members => and_congr_right fun hentries => and_congr_right fun _ =>
        forall₂_congr fun m hm => ih (entry m) ?_ limit
      rw [hentries]
      exact List.mem_map_of_mem hm
  | set members =>
    exact iff_of_false (fun ⟨j, henc, _⟩ => absurd henc (by simp [Value.encode])) nofun
  | enclosing n =>
    refine iff_of_false (fun ⟨j, henc, _⟩ => absurd henc ?_) nofun
    cases limit <;> simp [Value.encode, nested]

end WorkflowEngine
