import WorkflowEngine.Dashboard.Dag
import WorkflowEngine.Schemes.Splitting

/-! The edges that the dashboard draws.

    Two edges between the same nodes are drawn as one, which is conditional if one of them is. They
    are recognised by a key, the two ids with an arrow between them, and the drawn edge gets its ends
    by splitting the key again. So an id that contains an arrow itself is drawn cut short, and two
    pairs of ids can share a key. -/

namespace WorkflowEngine
open Schemes

/-! ### The component -/

/-- An entry of `edges`. -/
structure DrawnEdge where
  fromId : String
  toId : String
  conditional : Bool
  deriving DecidableEq

/-- `${e.from}->${e.to}`. -/
def DagEdge.key (e : DagEdge) : String := e.fromId ++ "->" ++ e.toId

/-- `key.split("->")`. -/
def splitArrow (key : String) : List String :=
  (splitPair '-' '>' key.toList).map String.ofList

/-- `const [from, to] = key.split("->")`; a key has at least two pieces. -/
def arrowEnds (key : String) : String × String :=
  (((splitArrow key)[0]?).getD "", ((splitArrow key)[1]?).getD "")

/-- `seen`. -/
def seenEdges (edges : List DagEdge) : Dict String Bool :=
  edges.foldl (fun seen e =>
    seen.set e.key ((seen.get e.key).getD false || e.type = .conditional)) Dict.empty

/-- The edges that `DagGraph` draws. -/
def drawnEdges (dag : Dag) : List DrawnEdge :=
  (seenEdges dag.edges).entries.map fun entry =>
    ⟨(arrowEnds entry.1).1, (arrowEnds entry.1).2, entry.2⟩

/-! ### What should be drawn -/

/-- One edge is drawn for each pair of nodes that are joined and for no other, conditional exactly if
    some edge between them is. -/
structure DrawsEdges (dag : Dag) : Prop where
  once : ((drawnEdges dag).map fun e => (e.fromId, e.toId)).Nodup
  mem : ∀ d x conditional, ⟨d, x, conditional⟩ ∈ drawnEdges dag ↔ dag.Joins d x ∧
    (conditional = true ↔ ∃ e ∈ dag.edges, e.fromId = d ∧ e.toId = x ∧ e.type = .conditional)

/-! ### Keys -/

/-- The id does not contain an arrow. -/
def Arrowless (id : String) : Prop := isSubstring "->" id = false

instance (id : String) : Decidable (Arrowless id) :=
  inferInstanceAs (Decidable (isSubstring "->" id = false))

theorem arrowless_iff (id : String) : Arrowless id ↔ ¬ ['-', '>'] <:+: id.toList := by
  rw [Arrowless, isSubstring, decide_eq_false_iff_not]
  rfl

/-- Without arrows in the ids the key gives them back. -/
theorem arrowEnds_key {e : DagEdge} (hfrom : Arrowless e.fromId) (hto : Arrowless e.toId) :
    arrowEnds e.key = (e.fromId, e.toId) := by
  have hkey : e.key.toList = e.fromId.toList ++ '-' :: '>' :: e.toId.toList := by
    simp [DagEdge.key]
  have hsplit : splitArrow e.key = [e.fromId, e.toId] := by
    rw [splitArrow, hkey, splitPair_append (by decide) _ ((arrowless_iff _).mp hfrom),
      splitPair_of_not_infix ((arrowless_iff _).mp hto)]
    simp
  rw [arrowEnds, hsplit]
  rfl

/-- What is drawn has no arrow in its ends. -/
theorem arrowEnds_arrowless (key : String) :
    Arrowless (arrowEnds key).1 ∧ Arrowless (arrowEnds key).2 := by
  have hpiece : ∀ i : ℕ, Arrowless (((splitArrow key)[i]?).getD "") := by
    intro i
    cases hget : (splitArrow key)[i]? with
    | none => rfl
    | some piece =>
      obtain ⟨p, hp, rfl⟩ := List.mem_map.mp (List.mem_of_getElem? hget)
      rw [Option.getD_some, arrowless_iff, String.toList_ofList]
      exact not_infix_of_mem_splitPair hp
  exact ⟨hpiece 0, hpiece 1⟩

/-! ### The map of seen edges -/

theorem seenEdges_concat (edges : List DagEdge) (e : DagEdge) :
    seenEdges (edges ++ [e]) = (seenEdges edges).set e.key
      (((seenEdges edges).get e.key).getD false || e.type = .conditional) := by
  rw [seenEdges, List.foldl_append]
  rfl

/-- A key is seen if an edge has it. -/
theorem seen_iff (edges : List DagEdge) (key : String) :
    (∃ flag, (seenEdges edges).get key = some flag) ↔ ∃ e ∈ edges, e.key = key := by
  induction edges using List.reverseRecOn with
  | nil => simp [seenEdges]
  | append_singleton edges e ih =>
    rw [seenEdges_concat, Dict.get_set]
    by_cases h : key = e.key
    · rw [if_pos h]
      exact iff_of_true ⟨_, rfl⟩ ⟨e, by simp, h.symm⟩
    · rw [if_neg h, ih]
      simp only [List.mem_append, List.mem_singleton]
      constructor
      · rintro ⟨d, hd, hkey⟩
        exact ⟨d, .inl hd, hkey⟩
      · rintro ⟨d, hd | rfl, hkey⟩
        · exact ⟨d, hd, hkey⟩
        · exact absurd hkey.symm h

/-- It is flagged if a conditional edge has it. -/
theorem flagged_iff (edges : List DagEdge) (key : String) :
    ((seenEdges edges).get key).getD false = true ↔
      ∃ e ∈ edges, e.key = key ∧ e.type = .conditional := by
  induction edges using List.reverseRecOn with
  | nil => simp [seenEdges]
  | append_singleton edges e ih =>
    rw [seenEdges_concat, Dict.get_set]
    have hmem : (∃ d ∈ edges ++ [e], d.key = key ∧ d.type = .conditional) ↔
        (∃ d ∈ edges, d.key = key ∧ d.type = .conditional) ∨
          (e.key = key ∧ e.type = .conditional) := by
      simp [or_and_right, exists_or]
    rw [hmem, ← ih]
    by_cases h : key = e.key
    · subst h
      simp
    · rw [if_neg h]
      exact (or_iff_left fun hkey => h hkey.1.symm).symm

/-- What an entry of the map is drawn as. -/
theorem mem_drawnEdges {dag : Dag} {drawn : DrawnEdge} : drawn ∈ drawnEdges dag ↔
    ∃ key, (seenEdges dag.edges).get key = some drawn.conditional ∧
      arrowEnds key = (drawn.fromId, drawn.toId) := by
  rw [drawnEdges, List.mem_map]
  constructor
  · rintro ⟨⟨key, flag⟩, he, rfl⟩
    exact ⟨key, (Dict.mem_entries_iff _ _ _).mp he, rfl⟩
  · rintro ⟨key, hget, hends⟩
    refine ⟨(key, drawn.conditional), (Dict.mem_entries_iff _ _ _).mpr hget, ?_⟩
    rw [hends]

/-! ### When the drawing is right -/

section Right
variable {dag : Dag} (hids : ∀ e ∈ dag.edges, Arrowless e.fromId ∧ Arrowless e.toId)
include hids

/-- Without arrows in the ids a pair of ids has a key of its own. -/
theorem key_injective {d e : DagEdge} (hd : d ∈ dag.edges) (he : e ∈ dag.edges)
    (h : d.key = e.key) : d.fromId = e.fromId ∧ d.toId = e.toId := by
  have hends := congrArg arrowEnds h
  rw [arrowEnds_key (hids d hd).1 (hids d hd).2, arrowEnds_key (hids e he).1 (hids e he).2] at hends
  exact Prod.mk.inj hends

/-- The flag of a key is that of its pair. -/
theorem flagged_pair_iff {e : DagEdge} (he : e ∈ dag.edges) {flag : Bool}
    (hget : (seenEdges dag.edges).get e.key = some flag) : flag = true ↔
      ∃ d ∈ dag.edges, d.fromId = e.fromId ∧ d.toId = e.toId ∧ d.type = .conditional := by
  have hflag := flagged_iff dag.edges e.key
  rw [hget, Option.getD_some] at hflag
  rw [hflag]
  constructor
  · rintro ⟨d, hd, hkey, htype⟩
    obtain ⟨hfrom, hto⟩ := key_injective hids hd he hkey
    exact ⟨d, hd, hfrom, hto, htype⟩
  · rintro ⟨d, hd, hfrom, hto, htype⟩
    exact ⟨d, hd, by rw [DagEdge.key, hfrom, hto, DagEdge.key], htype⟩

theorem drawnEdges_once : ((drawnEdges dag).map fun e => (e.fromId, e.toId)).Nodup := by
  have hends : (drawnEdges dag).map (fun e => (e.fromId, e.toId)) =
      (seenEdges dag.edges).keys.map arrowEnds := by
    rw [drawnEdges, List.map_map, Dict.keys, List.map_map]
    rfl
  rw [hends]
  refine List.Nodup.map_on (fun k hk k' hk' h => ?_) (seenEdges dag.edges).nodup
  obtain ⟨e, he, rfl⟩ := (seen_iff _ k).mp ((Dict.mem_keys_iff _ k).mp hk)
  obtain ⟨e', he', rfl⟩ := (seen_iff _ k').mp ((Dict.mem_keys_iff _ k').mp hk')
  rw [arrowEnds_key (hids e he).1 (hids e he).2, arrowEnds_key (hids e' he').1 (hids e' he').2] at h
  obtain ⟨hfrom, hto⟩ := Prod.mk.inj h
  rw [DagEdge.key, DagEdge.key, hfrom, hto]

theorem drawsEdges_of_arrowless : DrawsEdges dag where
  once := drawnEdges_once hids
  mem d x conditional := by
    rw [mem_drawnEdges]
    constructor
    · rintro ⟨key, hget, hends⟩
      obtain ⟨e, he, rfl⟩ := (seen_iff _ key).mp ⟨_, hget⟩
      rw [arrowEnds_key (hids e he).1 (hids e he).2] at hends
      obtain ⟨rfl, rfl⟩ := Prod.mk.inj hends
      exact ⟨⟨e, he, rfl, rfl⟩, flagged_pair_iff hids he hget⟩
    · rintro ⟨⟨e, he, rfl, rfl⟩, hflag⟩
      obtain ⟨flag, hget⟩ := (seen_iff dag.edges e.key).mpr ⟨e, he, rfl⟩
      have hsame : flag = conditional :=
        Bool.eq_iff_iff.mpr ((flagged_pair_iff hids he hget).trans hflag.symm)
      exact ⟨e.key, hsame ▸ hget, arrowEnds_key (hids e he).1 (hids e he).2⟩

end Right

/-- An edge that is drawn has no arrow in its ids. -/
theorem DrawsEdges.arrowless {dag : Dag} (h : DrawsEdges dag) {e : DagEdge} (he : e ∈ dag.edges) :
    Arrowless e.fromId ∧ Arrowless e.toId := by
  let conditional : Bool :=
    decide (∃ d ∈ dag.edges, d.fromId = e.fromId ∧ d.toId = e.toId ∧ d.type = .conditional)
  have hdrawn : ⟨e.fromId, e.toId, conditional⟩ ∈ drawnEdges dag :=
    (h.mem _ _ _).mpr ⟨⟨e, he, rfl, rfl⟩, decide_eq_true_iff⟩
  obtain ⟨key, -, hends⟩ := mem_drawnEdges.mp hdrawn
  have hpieces := arrowEnds_arrowless key
  rw [hends] at hpieces
  exact hpieces

/-- EXACT (drawn edges): the dashboard draws one edge for each pair of joined nodes and no other, rightly
    flagged, if and only if no step that needs another, and none that is needed, has an arrow in its
    id. -/
theorem drawsEdges_iff {P : Type} (config : WorkflowConfig P)
    (statuses : Option (Dict String String)) :
    DrawsEdges (buildDag config statuses) ↔
      ∀ d x, Dep config.steps d x → Arrowless d ∧ Arrowless x := by
  constructor
  · intro h d x hdep
    obtain ⟨e, he, rfl, rfl⟩ := (joins_iff config statuses d x).mpr hdep
    exact h.arrowless he
  · intro hids
    exact drawsEdges_of_arrowless fun e he =>
      hids _ _ ((joins_iff config statuses _ _).mp ⟨e, he, rfl, rfl⟩)

/-- A step with an arrow in its id, and one that needs it. -/
def arrowIds : WorkflowConfig Unit where
  name := "arrows"
  steps := [{ id := "a->b", task := "t", params := () },
            { id := "c", task := "t", dependsOn := some ["a->b"], params := () }]
  uniqueStepIds := by decide

/-- The edge from `a->b` to `c` is drawn from `a` to `b`, which are no steps. -/
theorem arrowIds_misdrawn : detectCycles arrowIds.steps = .ok () ∧
    drawnEdges (buildDag arrowIds) = [⟨"a", "b", false⟩] ∧ ¬ DrawsEdges (buildDag arrowIds) := by
  refine ⟨rfl, by decide +kernel, fun h => ?_⟩
  have he : (⟨"a->b", "c", .dependency⟩ : DagEdge) ∈ (buildDag arrowIds).edges := by decide +kernel
  exact absurd (h.arrowless he).1 (by decide +kernel)

end WorkflowEngine
