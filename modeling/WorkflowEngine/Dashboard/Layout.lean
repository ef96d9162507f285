import WorkflowEngine.Dashboard.Dag
import WorkflowEngine.Schemes.Layers

/-! The layout of a workflow's graph.

    The dashboard raises levels edge by edge until nothing changes, gives every level a column and
    every node of a level a row, and takes the size of its canvas from the numbers of columns and
    rows. On the graph of an accepted definition the levels are the layers of the graph. So they are
    settled within as many rounds as there are nodes, and the columns are numbered from 0 without a
    gap, which is what makes their number the right width. -/

namespace WorkflowEngine
open Schemes

/-! ### The component -/

def nodeW : ℤ := 168
def nodeH : ℤ := 64
def colGap : ℤ := 96
def rowGap : ℤ := 32
def pad : ℤ := 24

/-- One edge of a round: whether the round has changed something, and the levels. -/
def relaxEdge (acc : Bool × Dict String ℕ) (e : DagEdge) : Bool × Dict String ℕ :=
  match acc.2.get e.fromId, acc.2.get e.toId with
  | some source, some target =>
    if target < source + 1 then (true, acc.2.set e.toId (source + 1)) else acc
  | _, _ => acc

def relaxRound (edges : List DagEdge) (level : Dict String ℕ) : Bool × Dict String ℕ :=
  edges.foldl relaxEdge (false, level)

/-- `while (changed && guard-- > 0)`: the levels, and `changed` when the loop stops. -/
def relaxLoop (edges : List DagEdge) : ℕ → Dict String ℕ → Dict String ℕ × Bool
  | 0, level => (level, true)
  | guard + 1, level =>
    let next := relaxRound edges level
    if next.1 then relaxLoop edges guard next.2 else (next.2, false)

/-- `computeLevels`: the levels, and whether the guard has cut the loop short. -/
def computeLevels (dag : Dag) : Dict String ℕ × Bool :=
  relaxLoop dag.edges (dag.nodes.length + 1) (Dict.ofList (dag.nodes.map fun n => (n.id, 0)))

/-- A node and its place on the canvas. -/
structure Positioned extends DagNode where
  x : ℤ
  y : ℤ

structure Layout where
  positioned : List Positioned
  width : ℤ
  height : ℤ

/-- `columns`: the nodes of every level. -/
def columns (level : Dict String ℕ) (nodes : List DagNode) : Dict ℕ (List DagNode) :=
  nodes.foldl (fun columns node =>
    let col := (level.get node.id).getD 0
    columns.set col ((columns.get col).getD [] ++ [node])) Dict.empty

/-- The node in a row of a column. -/
def place (col : ℕ) (node : DagNode) (row : ℕ) : Positioned :=
  { node with x := pad + col * (nodeW + colGap), y := pad + row * (nodeH + rowGap) }

/-- The nodes of a column, row by row. -/
def placeColumn (columns : Dict ℕ (List DagNode)) (col : ℕ) : List Positioned :=
  ((columns.get col).getD []).zipIdx.map fun p => place col p.1 p.2

/-- The layout that `DagGraph` draws. -/
def layout (dag : Dag) : Layout :=
  let columns := columns (computeLevels dag).1 dag.nodes
  let sortedCols := columns.keys.mergeSort fun a b => a ≤ b
  let maxRows : ℕ := sortedCols.foldl (fun m col => max m ((columns.get col).getD []).length) 0
  let cols : ℕ := if sortedCols.length = 0 then 1 else sortedCols.length
  { positioned := sortedCols.flatMap (placeColumn columns)
    width := max (pad * 2 + cols * nodeW + (cols - 1) * colGap) 320
    height := max (pad * 2 + maxRows * nodeH + (maxRows - 1) * rowGap) 120 }

/-- Two rectangles side by side, or one above the other. -/
def Positioned.Apart (p q : Positioned) : Prop :=
  p.x + nodeW ≤ q.x ∨ q.x + nodeW ≤ p.x ∨ p.y + nodeH ≤ q.y ∨ q.y + nodeH ≤ p.y

/-! ### The levels -/

/-- The level of a node, 0 for anything else. -/
def levelOf (level : Dict String ℕ) (id : String) : ℕ := (level.get id).getD 0

/-- The ends of an edge. -/
def DagEdge.ends (e : DagEdge) : String × String := (e.fromId, e.toId)

section Levels
variable {level : Dict String ℕ} {edges : List DagEdge}

theorem levelOf_set (level : Dict String ℕ) (id : String) (n : ℕ) :
    levelOf (level.set id n) = Function.update (levelOf level) id n := by
  funext v
  unfold levelOf
  rw [Dict.get_set]
  by_cases h : v = id
  · rw [if_pos h, h, Function.update_self]
    rfl
  · rw [if_neg h, Function.update_of_ne h]

/-- A node keeps having a level. -/
theorem relaxEdge_keeps (acc : Bool × Dict String ℕ) (e : DagEdge) {id : String}
    (hid : (acc.2.get id).isSome) : ((relaxEdge acc e).2.get id).isSome := by
  unfold relaxEdge
  split
  · split_ifs
    · rw [Dict.get_set]
      split_ifs
      · rfl
      · exact hid
    · exact hid
  · exact hid

theorem relaxRound_keeps {id : String} (hid : (level.get id).isSome) :
    ((relaxRound edges level).2.get id).isSome :=
  List.foldlRecOn (motive := fun acc : Bool × Dict String ℕ => (acc.2.get id).isSome) edges relaxEdge
    hid fun acc h e _ => relaxEdge_keeps acc e h

theorem relaxLoop_keeps {id : String} : ∀ (guard : ℕ) (level : Dict String ℕ),
    (level.get id).isSome → ((relaxLoop edges guard level).1.get id).isSome
  | 0, _, hid => hid
  | guard + 1, level, hid => by
      rw [relaxLoop]
      split_ifs
      · exact relaxLoop_keeps guard _ (relaxRound_keeps hid)
      · exact relaxRound_keeps hid

/-- STEP: relaxing an edge raises its target, and reports it. -/
theorem relaxEdge_spec {acc : Bool × Dict String ℕ} {e : DagEdge} {source target : ℕ}
    (hsource : acc.2.get e.fromId = some source) (htarget : acc.2.get e.toId = some target) :
    levelOf (relaxEdge acc e).2 = Layers.raise (levelOf acc.2) e.ends ∧
    ((relaxEdge acc e).1 = false ↔
      acc.1 = false ∧ levelOf acc.2 e.fromId + 1 ≤ levelOf acc.2 e.toId) := by
  have hs : levelOf acc.2 e.fromId = source := by rw [levelOf, hsource, Option.getD_some]
  have ht : levelOf acc.2 e.toId = target := by rw [levelOf, htarget, Option.getD_some]
  rw [relaxEdge, hsource, htarget, hs, ht]
  unfold Layers.raise DagEdge.ends
  simp only [hs, ht]
  split_ifs with h
  · refine ⟨?_, by simp [not_le.mpr h]⟩
    rw [levelOf_set, max_eq_right h.le]
  · have hle := not_lt.mp h
    refine ⟨?_, by simp [hle]⟩
    rw [max_eq_left hle, ← ht, Function.update_eq_self]

/-- The ends of the edges have levels. -/
def Levelled (level : Dict String ℕ) (edges : List DagEdge) : Prop :=
  ∀ e ∈ edges, (level.get e.fromId).isSome ∧ (level.get e.toId).isSome

/-- A round over the edges, from any state of the flag. -/
theorem foldl_relaxEdge (edges : List DagEdge) (acc : Bool × Dict String ℕ)
    (hknown : Levelled acc.2 edges) :
    levelOf (edges.foldl relaxEdge acc).2 = Layers.round (edges.map DagEdge.ends) (levelOf acc.2) ∧
    ((edges.foldl relaxEdge acc).1 = false ↔
      acc.1 = false ∧ ∀ e ∈ edges, levelOf acc.2 e.fromId + 1 ≤ levelOf acc.2 e.toId) := by
  induction edges generalizing acc with
  | nil => exact ⟨rfl, by simp⟩
  | cons e edges ih =>
    obtain ⟨hfrom, hto⟩ := hknown e List.mem_cons_self
    obtain ⟨source, hsource⟩ := Option.isSome_iff_exists.mp hfrom
    obtain ⟨target, htarget⟩ := Option.isSome_iff_exists.mp hto
    obtain ⟨hlevel, hflag⟩ := relaxEdge_spec hsource htarget
    obtain ⟨ihlevel, ihflag⟩ := ih (relaxEdge acc e) fun e' he' =>
      (hknown e' (List.mem_cons_of_mem _ he')).imp (relaxEdge_keeps acc e) (relaxEdge_keeps acc e)
    rw [List.foldl_cons]
    refine ⟨by rw [ihlevel, hlevel]; rfl, ?_⟩
    rw [ihflag, hflag, hlevel, List.forall_mem_cons, and_assoc]
    refine and_congr_right fun _ => and_congr_right fun hup => ?_
    -- an edge that leads up already leaves the levels to the others as they are
    have hsame : Layers.raise (levelOf acc.2) e.ends = levelOf acc.2 :=
      Layers.raise_eq_self hup
    rw [hsame]

/-- STEP: one round. -/
theorem relaxRound_spec (hknown : Levelled level edges) :
    levelOf (relaxRound edges level).2 = Layers.round (edges.map DagEdge.ends) (levelOf level) ∧
    ((relaxRound edges level).1 = false ↔
      ∀ e ∈ edges, levelOf level e.fromId + 1 ≤ levelOf level e.toId) := by
  obtain ⟨hlevel, hflag⟩ := foldl_relaxEdge edges (false, level) hknown
  refine ⟨hlevel, hflag.trans ?_⟩
  simp

variable {E : String → String → Prop}

/-- RUN: with a guard above the longest path the loop stops because nothing changes, and the levels
    are the layers. `k` counts the rounds so far. -/
theorem relaxLoop_settles (hE : ∀ d x, E d x ↔ (d, x) ∈ edges.map DagEdge.ends) {longest : ℕ}
    (hlen : ∀ n v, Layers.PathTo E n v → n ≤ longest) :
    ∀ (guard k : ℕ) (level : Dict String ℕ), Levelled level edges → Layers.Sound E (levelOf level) →
      Layers.Covers E k (levelOf level) → 0 < guard → longest + 1 ≤ k + guard →
      (relaxLoop edges guard level).2 = false ∧
        ∀ v, Layers.Longest E v (levelOf (relaxLoop edges guard level).1 v)
  | 0, _, _, _, _, _, hguard, _ => absurd hguard (lt_irrefl 0)
  | guard + 1, k, level, hknown, hsound, hcovers, _, hbound => by
      obtain ⟨hlevel, hflag⟩ := relaxRound_spec hknown
      have hknown' : Levelled (relaxRound edges level).2 edges :=
        fun e he => (hknown e he).imp relaxRound_keeps relaxRound_keeps
      have hedge : ∀ e ∈ edges, E e.fromId e.toId :=
        fun e he => (hE _ _).mpr (List.mem_map_of_mem he)
      have hsound' : Layers.Sound E (levelOf (relaxRound edges level).2) := by
        rw [hlevel]
        refine hsound.round fun e he => ?_
        exact (hE e.1 e.2).mpr he
      rw [relaxLoop]
      cases hchanged : (relaxRound edges level).1 with
      | false =>
        have hup := hflag.mp hchanged
        have hsame : levelOf (relaxRound edges level).2 = levelOf level := by
          rw [hlevel]
          refine Layers.round_eq_self fun e he => ?_
          obtain ⟨edge, hedge, rfl⟩ := List.mem_map.mp he
          exact hup edge hedge
        simp only [Bool.false_eq_true, if_false, true_and]
        rw [hsame]
        refine hsound.longest fun d x hdx => ?_
        obtain ⟨edge, hmem, heq⟩ := List.mem_map.mp ((hE d x).mp hdx)
        obtain ⟨rfl, rfl⟩ := Prod.mk.inj heq
        exact hup edge hmem
      | true =>
        have hmore : k < longest := by
          -- once the longest path is settled the round would not have changed anything
          by_contra hdone
          have hlayers := hcovers.longest hsound fun n v hp => (hlen n v hp).trans (not_lt.mp hdone)
          have hnone := hflag.mpr fun e he => (hlayers _).lt (hlayers _) (hedge e he)
          exact absurd (hchanged.symm.trans hnone) (by decide)
        simp only [if_true]
        refine relaxLoop_settles hE hlen guard (k + 1) _ hknown' hsound' ?_ (by omega) (by omega)
        rw [hlevel]
        exact hcovers.round fun u v huv => (hE u v).mp huv

end Levels

/-! ### The columns -/

/-- The nodes of a level, in the order of the graph. -/
def inColumn (level : Dict String ℕ) (nodes : List DagNode) (col : ℕ) : List DagNode :=
  nodes.filter fun n => levelOf level n.id = col

section Columns
variable {level : Dict String ℕ} {nodes : List DagNode}

theorem columns_getD (level : Dict String ℕ) (nodes : List DagNode) (col : ℕ) :
    ((columns level nodes).get col).getD [] = inColumn level nodes col ∧
    (((columns level nodes).get col).isSome ↔ ∃ n ∈ nodes, levelOf level n.id = col) := by
  induction nodes using List.reverseRecOn with
  | nil => exact ⟨rfl, by simp [columns]⟩
  | append_singleton nodes node ih =>
    have hcolumns : columns level (nodes ++ [node]) = (columns level nodes).set
        (levelOf level node.id)
        (((columns level nodes).get (levelOf level node.id)).getD [] ++ [node]) := by
      rw [columns, List.foldl_append]
      rfl
    rw [hcolumns, Dict.get_set, inColumn, List.filter_append]
    by_cases h : col = levelOf level node.id
    · subst h
      rw [if_pos rfl, ih.1]
      exact ⟨by simp [inColumn], by simp⟩
    · rw [if_neg h, ih.1, ih.2]
      simp [inColumn, Ne.symm h]

theorem mem_columns_keys (col : ℕ) :
    col ∈ (columns level nodes).keys ↔ ∃ n ∈ nodes, levelOf level n.id = col := by
  rw [Dict.mem_keys_iff, ← Option.isSome_iff_exists]
  exact (columns_getD level nodes col).2

theorem mem_inColumn {n : DagNode} {col : ℕ} :
    n ∈ inColumn level nodes col ↔ n ∈ nodes ∧ levelOf level n.id = col := by
  rw [inColumn, List.mem_filter, decide_eq_true_eq]

theorem placeColumn_eq (level : Dict String ℕ) (nodes : List DagNode) (col : ℕ) :
    placeColumn (columns level nodes) col =
      (inColumn level nodes col).zipIdx.map fun p => place col p.1 p.2 := by
  rw [placeColumn, (columns_getD level nodes col).1]

theorem mem_placeColumn {p : Positioned} {col : ℕ} (hp : p ∈ placeColumn (columns level nodes) col) :
    ∃ node ∈ nodes, ∃ row < (inColumn level nodes col).length,
      levelOf level node.id = col ∧ p = place col node row := by
  rw [placeColumn_eq] at hp
  obtain ⟨⟨node, row⟩, he, rfl⟩ := List.mem_map.mp hp
  have hget := List.mem_zipIdx_iff_getElem?.mp he
  obtain ⟨hrow, hnode⟩ := List.getElem?_eq_some_iff.mp hget
  obtain ⟨hmem, hlevel⟩ := mem_inColumn.mp (hnode ▸ List.getElem_mem hrow)
  exact ⟨node, hmem, row, hrow, hlevel, rfl⟩

/-- The rows of a column lie below one another. -/
theorem placeColumn_apart (col : ℕ) :
    (placeColumn (columns level nodes) col).Pairwise Positioned.Apart := by
  rw [placeColumn_eq, List.pairwise_map]
  have hrows : (List.range' 0 (inColumn level nodes col).length).Pairwise (· < ·) :=
    List.pairwise_lt_range'
  rw [← List.zipIdx_map_snd, List.pairwise_map] at hrows
  refine hrows.imp fun {a b} hlt => .inr (.inr (.inl ?_))
  simp only [place, pad, nodeH, rowGap]
  omega

/-- Nodes of different columns stand side by side, the one of the lower level on the left. -/
theorem place_left {c d r s : ℕ} {m n : DagNode} (h : c < d) :
    (place c m r).x + nodeW ≤ (place d n s).x := by
  simp only [place, pad, nodeW, colGap]
  omega

/-- The columns in order, each of them once. -/
def sortedCols (level : Dict String ℕ) (nodes : List DagNode) : List ℕ :=
  (columns level nodes).keys.mergeSort fun a b => a ≤ b

theorem sortedCols_perm : (sortedCols level nodes).Perm (columns level nodes).keys :=
  List.mergeSort_perm _ _

theorem sortedCols_nodup : (sortedCols level nodes).Nodup :=
  sortedCols_perm.nodup_iff.mpr (columns level nodes).nodup

/-- Every node is placed exactly once. -/
theorem positioned_perm (hnodup : nodes.Nodup) :
    (((sortedCols level nodes).flatMap (placeColumn (columns level nodes))).map
      Positioned.toDagNode).Perm nodes := by
  have hcol : ∀ col, (placeColumn (columns level nodes) col).map Positioned.toDagNode =
      inColumn level nodes col := by
    intro col
    rw [placeColumn_eq, List.map_map]
    exact List.zipIdx_map_fst ..
  rw [List.map_flatMap]
  simp only [hcol]
  refine (List.perm_ext_iff_of_nodup ?_ hnodup).mpr fun n => ?_
  · refine List.nodup_flatMap.mpr ⟨fun col _ => hnodup.filter _, ?_⟩
    refine sortedCols_nodup.imp fun {a b} hab n ha hb => hab ?_
    exact (mem_inColumn.mp ha).2.symm.trans (mem_inColumn.mp hb).2
  · rw [List.mem_flatMap]
    constructor
    · rintro ⟨col, -, hn⟩
      exact (mem_inColumn.mp hn).1
    · intro hn
      exact ⟨_, sortedCols_perm.mem_iff.mpr ((mem_columns_keys _).mpr ⟨n, hn, rfl⟩),
        mem_inColumn.mpr ⟨hn, rfl⟩⟩

/-- No two rectangles overlap. -/
theorem positioned_apart :
    ((sortedCols level nodes).flatMap (placeColumn (columns level nodes))).Pairwise
      Positioned.Apart := by
  refine List.pairwise_flatMap.mpr ⟨fun col _ => placeColumn_apart col, ?_⟩
  refine sortedCols_nodup.imp fun {a b} hab p hp q hq => ?_
  obtain ⟨m, -, r, -, -, rfl⟩ := mem_placeColumn hp
  obtain ⟨n, -, s, -, -, rfl⟩ := mem_placeColumn hq
  rcases Nat.lt_or_gt_of_ne hab with hlt | hgt
  · exact .inl (place_left hlt)
  · exact .inr (.inl (place_left hgt))

/-- Levels without a gap are numbers of columns. -/
theorem level_lt_length (hbelow : ∀ n ∈ nodes, ∀ m ≤ levelOf level n.id,
    ∃ n' ∈ nodes, levelOf level n'.id = m) {n : DagNode} (hn : n ∈ nodes) :
    levelOf level n.id < (sortedCols level nodes).length := by
  have hsub : ∀ m ∈ List.range (levelOf level n.id + 1), m ∈ sortedCols level nodes := by
    intro m hm
    refine sortedCols_perm.mem_iff.mpr ((mem_columns_keys m).mpr ?_)
    exact hbelow n hn m (Nat.le_of_lt_succ (List.mem_range.mp hm))
  have hle := (List.nodup_range.subperm hsub).length_le
  rw [List.length_range] at hle
  exact hle

theorem le_foldl_max (f : ℕ → ℕ) {a : ℕ} : ∀ (l : List ℕ) (m : ℕ),
    (m ≤ l.foldl (fun m b => max m (f b)) m) ∧
      (a ∈ l → f a ≤ l.foldl (fun m b => max m (f b)) m)
  | [], _ => ⟨le_rfl, fun h => absurd h (List.not_mem_nil)⟩
  | b :: l, m => by
      obtain ⟨hstart, hmem⟩ := le_foldl_max f (a := a) l (max m (f b))
      refine ⟨(le_max_left _ _).trans hstart, fun ha => ?_⟩
      rcases List.mem_cons.mp ha with rfl | ha
      · exact (le_max_right _ _).trans hstart
      · exact hmem ha

end Columns

/-! ### Accepted definitions -/

/-- The levels before the first round. -/
def startLevels (nodes : List DagNode) : Dict String ℕ := Dict.ofList (nodes.map fun n => (n.id, 0))

theorem get_startLevels (nodes : List DagNode) (id : String) :
    (startLevels nodes).get id = if id ∈ nodes.map DagNode.id then some 0 else none := by
  rw [startLevels, ← Dict.get_ofList_map (fun _ => 0) (nodes.map DagNode.id) id, List.map_map]
  rfl

theorem levelOf_startLevels (nodes : List DagNode) (id : String) :
    levelOf (startLevels nodes) id = 0 := by
  rw [levelOf, get_startLevels]
  split_ifs <;> rfl

/-- `maxRows`. -/
def maxRows (level : Dict String ℕ) (nodes : List DagNode) : ℕ :=
  (sortedCols level nodes).foldl
    (fun m col => max m (((columns level nodes).get col).getD []).length) 0

theorem row_lt_maxRows {level : Dict String ℕ} {nodes : List DagNode} {col row : ℕ}
    (hcol : col ∈ sortedCols level nodes) (hrow : row < (inColumn level nodes col).length) :
    row < maxRows level nodes := by
  have hle := (le_foldl_max (fun col => (((columns level nodes).get col).getD []).length)
    (sortedCols level nodes) 0).2 hcol
  simp only [(columns_getD _ _ _).1] at hle
  rw [maxRows]
  simp only [(columns_getD _ _ _).1]
  exact hrow.trans_le hle

/-- A node in a numbered column lies inside the canvas. -/
theorem place_inside {dag : Dag} {node : DagNode} {col row : ℕ}
    (hcol : col < (sortedCols (computeLevels dag).1 dag.nodes).length)
    (hrow : row < maxRows (computeLevels dag).1 dag.nodes) :
    0 ≤ (place col node row).x ∧ (place col node row).x + nodeW ≤ (layout dag).width ∧
      0 ≤ (place col node row).y ∧ (place col node row).y + nodeH ≤ (layout dag).height := by
  have hcols : (layout dag).width = max (pad * 2 +
      ((if (sortedCols (computeLevels dag).1 dag.nodes).length = 0 then 1
        else (sortedCols (computeLevels dag).1 dag.nodes).length : ℕ) : ℤ) * nodeW +
      (((if (sortedCols (computeLevels dag).1 dag.nodes).length = 0 then 1
        else (sortedCols (computeLevels dag).1 dag.nodes).length : ℕ) : ℤ) - 1) * colGap) 320 := rfl
  have hrows : (layout dag).height = max (pad * 2 + (maxRows (computeLevels dag).1 dag.nodes : ℤ) *
      nodeH + ((maxRows (computeLevels dag).1 dag.nodes : ℤ) - 1) * rowGap) 120 := rfl
  rw [if_neg (by omega)] at hcols
  rw [hcols, hrows]
  simp only [place, pad, nodeW, nodeH, colGap, rowGap]
  omega

section Accepted
variable {P : Type} {config : WorkflowConfig P} (haccepted : detectCycles config.steps = .ok ())
  (statuses : Option (Dict String String))
include haccepted

/-- The loop settles the levels of an accepted definition. -/
theorem computeLevels_settles :
    (computeLevels (buildDag config statuses)).2 = false ∧
      ∀ v, Layers.Longest (buildDag config statuses).Joins v
        (levelOf (computeLevels (buildDag config statuses)).1 v) := by
  let dag := buildDag config statuses
  have hknown : Levelled (startLevels dag.nodes) dag.edges := by
    intro e he
    obtain ⟨hfrom, hto⟩ := edge_joins_nodes config statuses haccepted he
    rw [get_startLevels, get_startLevels, if_pos hfrom, if_pos hto]
    exact ⟨rfl, rfl⟩
  have hE : ∀ d x, dag.Joins d x ↔ (d, x) ∈ dag.edges.map DagEdge.ends := by
    intro d x
    simp [Dag.Joins, DagEdge.ends]
  have hlen : ∀ n v, Layers.PathTo dag.Joins n v → n ≤ dag.nodes.length := by
    intro n v hpath
    rw [← List.length_map DagNode.id]
    refine hpath.le_length (fun u x hux => ?_) fun u hcycle => ?_
    · obtain ⟨e, he, -, rfl⟩ := hux
      exact (edge_joins_nodes config statuses haccepted he).2
    · obtain ⟨order, horder, -⟩ := (acyclic_of_accepted haccepted).order
      have hsame : dag.Joins = Dep config.steps :=
        funext₂ fun d x => propext (joins_iff config statuses d x)
      exact horder.transGen_wf.irrefl.irrefl u (hsame ▸ hcycle)
  refine relaxLoop_settles hE hlen (dag.nodes.length + 1) 0 (startLevels dag.nodes) hknown
    (fun v => ?_) (fun m hm v _ => ?_) (Nat.succ_pos _) (by omega)
  · rw [levelOf_startLevels]
    exact .nil v
  · rw [Nat.le_zero.mp hm]
    exact Nat.zero_le _

/-- Below the level of a node every level is some node's. -/
theorem level_below {n : DagNode} (hn : n ∈ (buildDag config statuses).nodes) {m : ℕ}
    (hm : m ≤ levelOf (computeLevels (buildDag config statuses)).1 n.id) :
    ∃ n' ∈ (buildDag config statuses).nodes,
      levelOf (computeLevels (buildDag config statuses)).1 n'.id = m := by
  have hlongest := (computeLevels_settles haccepted statuses).2
  obtain ⟨u, hreach, hu⟩ := (hlongest n.id).below hm
  have hnode : u ∈ (buildDag config statuses).nodes.map DagNode.id := by
    rcases Relation.ReflTransGen.cases_head hreach with rfl | ⟨w, ⟨e, he, rfl, -⟩, -⟩
    · exact List.mem_map_of_mem hn
    · exact (edge_joins_nodes config statuses haccepted he).1
  obtain ⟨n', hn', rfl⟩ := List.mem_map.mp hnode
  exact ⟨n', hn', (hlongest n'.id).unique hu⟩

/-- EXACT (layout): the edges are the pairs that the static check counts and join nodes; the loop stops
    because nothing changes, with the layers of the graph as levels; and every node is drawn once, to
    the right of the nodes it needs, apart from the others and inside the canvas. -/
theorem layout_correct :
    (∀ d x, (buildDag config statuses).Joins d x ↔ Dep config.steps d x) ∧
    (∀ e ∈ (buildDag config statuses).edges,
      e.fromId ∈ (buildDag config statuses).nodes.map DagNode.id ∧
      e.toId ∈ (buildDag config statuses).nodes.map DagNode.id) ∧
    (computeLevels (buildDag config statuses)).2 = false ∧
    (∀ node ∈ (buildDag config statuses).nodes, ∃ n,
      (computeLevels (buildDag config statuses)).1.get node.id = some n ∧
      Layers.Longest (buildDag config statuses).Joins node.id n) ∧
    ((layout (buildDag config statuses)).positioned.map Positioned.toDagNode).Perm
      (buildDag config statuses).nodes ∧
    (∀ e ∈ (buildDag config statuses).edges,
      ∀ p ∈ (layout (buildDag config statuses)).positioned,
      ∀ q ∈ (layout (buildDag config statuses)).positioned,
      p.id = e.fromId → q.id = e.toId → p.x < q.x) ∧
    (layout (buildDag config statuses)).positioned.Pairwise Positioned.Apart ∧
    ∀ p ∈ (layout (buildDag config statuses)).positioned,
      0 ≤ p.x ∧ p.x + nodeW ≤ (layout (buildDag config statuses)).width ∧
      0 ≤ p.y ∧ p.y + nodeH ≤ (layout (buildDag config statuses)).height := by
  obtain ⟨hsettled, hlongest⟩ := computeLevels_settles haccepted statuses
  have hnodup : (buildDag config statuses).nodes.Nodup :=
    .of_map DagNode.id (by rw [buildDag_ids]; exact config.uniqueStepIds)
  refine ⟨joins_iff config statuses, fun e => edge_joins_nodes config statuses haccepted, hsettled,
    fun node hnode => ?_, positioned_perm hnodup, fun e he p hp q hq hpe hqe => ?_, positioned_apart,
    fun p hp => ?_⟩
  · have hstart : ((startLevels (buildDag config statuses).nodes).get node.id).isSome := by
      rw [get_startLevels, if_pos (List.mem_map_of_mem hnode)]
      rfl
    have hkeeps : ((computeLevels (buildDag config statuses)).1.get node.id).isSome :=
      relaxLoop_keeps _ _ hstart
    obtain ⟨n, hn⟩ := Option.isSome_iff_exists.mp hkeeps
    have hlevel : levelOf (computeLevels (buildDag config statuses)).1 node.id = n := by
      rw [levelOf]
      exact (congrArg (fun o => o.getD 0) hn).trans rfl
    exact ⟨n, hn, hlevel ▸ hlongest node.id⟩
  · obtain ⟨cp, -, hp⟩ := List.mem_flatMap.mp hp
    obtain ⟨cq, -, hq⟩ := List.mem_flatMap.mp hq
    obtain ⟨m, -, r, -, hcp, rfl⟩ := mem_placeColumn hp
    obtain ⟨n, -, s, -, hcq, rfl⟩ := mem_placeColumn hq
    have hlt : cp < cq := by
      rw [← hcp, ← hcq]
      exact (hlongest m.id).lt (hlongest n.id) ⟨e, he, hpe.symm, hqe.symm⟩
    have hleft := place_left (r := r) (s := s) (m := m) (n := n) hlt
    have hpos : (0 : ℤ) < nodeW := by decide
    omega
  · obtain ⟨col, hcol, hp⟩ := List.mem_flatMap.mp hp
    obtain ⟨n, hn, row, hrow, hlevel, rfl⟩ := mem_placeColumn hp
    have hlt := level_lt_length (fun n hn m hm => level_below haccepted statuses hn hm) hn
    exact place_inside (hlevel ▸ hlt) (row_lt_maxRows hcol hrow)

end Accepted

/-- A step that stands before the two it needs, one of them needing the other. -/
def reportFirst : WorkflowConfig Unit where
  name := "report"
  steps := [{ id := "report", task := "t", dependsOn := some ["load"], params := (),
              condition := some { step := "extract" } },
            { id := "load", task := "t", dependsOn := some ["extract"], params := () },
            { id := "extract", task := "t", params := () }]
  uniqueStepIds := by decide

theorem reportFirst_layout :
    (computeLevels (buildDag reportFirst)).2 = false ∧
    (∀ node ∈ (buildDag reportFirst).nodes, ∃ n,
      (computeLevels (buildDag reportFirst)).1.get node.id = some n ∧
      Layers.Longest (buildDag reportFirst).Joins node.id n) ∧
    (layout (buildDag reportFirst)).positioned.Pairwise Positioned.Apart := by
  have haccepted : detectCycles reportFirst.steps = .ok () := rfl
  obtain ⟨-, -, hsettled, hlevels, -, -, hapart, -⟩ := layout_correct haccepted none
  exact ⟨hsettled, hlevels, hapart⟩

end WorkflowEngine
