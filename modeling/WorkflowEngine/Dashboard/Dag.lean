import WorkflowEngine.Engine.Cycles

/-! The graph that the dashboard is given.

    `build_dag` makes a node of every step, an edge of every entry of its `depends_on`, and a flagged
    edge of its condition. A source that is listed and also the condition's gives two edges; apart
    from that they are the pairs that the static check counts. -/

namespace WorkflowEngine
open Schemes

structure DagNode where
  id : String
  task : String
  status : String
  conditional : Bool
  retries : ℕ

inductive EdgeType where | dependency | conditional
  deriving DecidableEq

structure DagEdge where
  fromId : String
  toId : String
  type : EdgeType
  deriving DecidableEq

/-- `{"nodes": [...], "edges": [...]}`. -/
structure Dag where
  nodes : List DagNode
  edges : List DagEdge

variable {P : Type}

def StepConfig.dagNode (statuses : Dict String String) (s : StepConfig P) : DagNode where
  id := s.id
  task := s.task
  status := (statuses.get s.id).getD "PENDING"
  conditional := s.condition.isSome
  retries := s.retries

/-- The edges to one step. -/
def StepConfig.dagEdges (s : StepConfig P) : List DagEdge :=
  s.listed.map (fun dep => ⟨dep, s.id, .dependency⟩) ++
    s.condition.toList.map fun c => ⟨c.step, s.id, .conditional⟩

def buildDag (config : WorkflowConfig P) (statuses : Option (Dict String String) := none) : Dag where
  nodes := config.steps.map (StepConfig.dagNode (statuses.getD Dict.empty))
  edges := config.steps.flatMap StepConfig.dagEdges

/-- There is an edge between these nodes, of either type. -/
def Dag.Joins (dag : Dag) (d x : String) : Prop := ∃ e ∈ dag.edges, e.fromId = d ∧ e.toId = x

section Build
variable (config : WorkflowConfig P) (statuses : Option (Dict String String))

theorem buildDag_ids :
    (buildDag config statuses).nodes.map DagNode.id = config.steps.map StepConfig.id := by
  rw [buildDag, List.map_map]
  rfl

theorem StepConfig.mem_dagEdges (s : StepConfig P) (e : DagEdge) :
    e ∈ s.dagEdges ↔ e.toId = s.id ∧ ((e.type = .dependency ∧ e.fromId ∈ s.listed) ∨
      (e.type = .conditional ∧ ∃ c, s.condition = some c ∧ c.step = e.fromId)) := by
  obtain ⟨d, x, type⟩ := e
  cases type with
  | dependency => simp [StepConfig.dagEdges, and_comm, eq_comm]
  | conditional =>
    simp only [StepConfig.dagEdges, List.mem_append, List.mem_map, Option.mem_toList, reduceCtorEq,
      DagEdge.mk.injEq, and_false, exists_false, false_or, and_true, true_and, false_and]
    constructor
    · rintro ⟨c, hc, rfl, rfl⟩
      exact ⟨rfl, c, hc, rfl⟩
    · rintro ⟨rfl, c, hc, rfl⟩
      exact ⟨c, hc, rfl, rfl⟩

/-- SPEC: the edges are the pairs that the static check counts. -/
theorem joins_iff (d x : String) :
    (buildDag config statuses).Joins d x ↔ Dep config.steps d x := by
  simp only [Dag.Joins, buildDag, List.mem_flatMap, Dep]
  constructor
  · rintro ⟨e, ⟨s, hs, he⟩, rfl, rfl⟩
    obtain ⟨hto, h⟩ := (s.mem_dagEdges e).mp he
    exact ⟨s, hs, hto.symm, (s.mem_deps _).mpr (h.imp And.right And.right)⟩
  · rintro ⟨s, hs, rfl, hd⟩
    rcases (s.mem_deps d).mp hd with hlisted | hcondition
    · exact ⟨⟨d, s.id, .dependency⟩, ⟨s, hs, (s.mem_dagEdges _).mpr ⟨rfl, .inl ⟨rfl, hlisted⟩⟩⟩,
        rfl, rfl⟩
    · exact ⟨⟨d, s.id, .conditional⟩, ⟨s, hs, (s.mem_dagEdges _).mpr ⟨rfl, .inr ⟨rfl, hcondition⟩⟩⟩,
        rfl, rfl⟩

/-- The edges of an accepted definition join nodes. -/
theorem edge_joins_nodes (haccepted : detectCycles config.steps = .ok ()) {e : DagEdge}
    (he : e ∈ (buildDag config statuses).edges) :
    e.fromId ∈ (buildDag config statuses).nodes.map DagNode.id ∧
      e.toId ∈ (buildDag config statuses).nodes.map DagNode.id := by
  have hdep : Dep config.steps e.fromId e.toId := (joins_iff config statuses _ _).mp ⟨e, he, rfl, rfl⟩
  rw [buildDag_ids]
  exact ⟨(acyclic_of_accepted haccepted).known _ _ hdep, dep_target hdep⟩

end Build

end WorkflowEngine
