import Dataflow.Graph.State

/-!
# Structure: which names flow where, and on which parameters they depend

Synchronizing a data node computes, from the nodes that it refers to, the names at its three ports and the parameters that each
depends on. The tables are a function of the authored graph and its registry alone; `DataNode.tables` computes them from
the tables of the nodes below.
-/

namespace Dataflow

/-- The tables of a data node's three ports, the parameters that its operator's inputs depend on, and its operator. -/
structure Tables where
  input : ParamTable
  extended : ParamTable
  output : ParamTable
  operator : Option Operator
  operatorParams : NameSet
  deriving Inhabited

/-- A leaf's part of the table above it: its name, which depends on itself when it is a placeholder. -/
def Leaf.addTo (l : Leaf) (t : ParamTable) : ParamTable := t.add l.name (if l.param then ({l.name} : NameSet) else ∅)

namespace DataNode

/-- The parameters that the inputs of an operator depend on. -/
def paramsOf (input : ParamTable) (c : Compute) (op : Operator) : NameSet :=
  unionAll (op.params.mapIdx fun i p => (input[c.inputs.inputName i p.source]?).getD ∅)

/-- The table with the outputs of an operator, which depend on what its inputs depend on. -/
def addOutputs (input : ParamTable) (c : Compute) (op : Operator) (params : NameSet) : ParamTable :=
  (op.outputs.mapIdx fun i o => c.outputs.outputName i o.name).foldl (fun t name => t.add name params) input

/-- The table with the names of a template in place of its own: each depends on what its parameters are bound to. -/
def addTemplate (extended template : ParamTable) : ParamTable :=
  template.toList.foldl
    (fun t (name, params) => t.insert name (unionAll (params.toList.filterMap (extended[·]?)))) extended

/-- The table of the names that a filter lets through. -/
def selectNames (filter : Option Filter) (t : ParamTable) : ParamTable :=
  (Filter.selectFrom filter t.keys).foldl
    (fun out (dest, source) => match t[source]? with
      | some params => out.add dest params
      | none => out) ∅

/-- The tables of a data node, given its input table, the table that its template exposes, and its operator. -/
def tables (d : DataNode) (operator : Option Operator) (input : ParamTable) (template : Option ParamTable) : Tables :=
  let (params, extended) := match operator, d.compute with
    | some op, some c =>
      let params := paramsOf input c op
      (params, addOutputs input c op params)
    | _, _ => (∅, input)
  let before := match template with
    | some t => addTemplate extended t
    | none => extended
  { input, extended, output := selectNames d.filter before, operator, operatorParams := params }

end DataNode

namespace Wiring

/-- The wiring of a data node with these tables, in sync and holding no channels. -/
def ofTables (w : Wiring) (t : Tables) : Wiring :=
  { w with
    outOfSync := false
    input := .ofTable w.input.id t.input
    extended := .ofTable w.extended.id t.extended
    output := .ofTable w.output.id t.output
    operator := t.operator
    operatorParams := t.operatorParams
    params := t.input.all }

end Wiring

namespace Graph

/-- The table that a node exposes; leaves and nodes that do not exist expose none. -/
def exposed (g : Graph) (node : NodeId) : ParamTable := ((g.wiring? node).map (·.output.table)).getD ∅

/-- The table of what comes into a data node: its source's, or its children's merged in order. -/
def inputTable (g : Graph) (d : DataNode) : ParamTable :=
  match d.source with
  | some source => ParamTable.merge ∅ (g.exposed source)
  | none => d.children.foldl
    (fun t child => match g.leaf? child with
      | some l => l.addTo t
      | none => t.merge (g.exposed child)) ∅

/-- The operator that a data node's computation names. -/
def operatorOf (g : Graph) (d : DataNode) : Option Operator := d.compute.bind fun c => g.registry.get? c.operator

/-- The graph in which a data node is in sync with those below it, which are; an operator that the registry does not have is
logged. -/
def rewire (g : Graph) (node : NodeId) (d : DataNode) : Graph :=
  let operator := g.operatorOf d
  let t := d.tables operator (g.inputTable d) (d.proto.map g.exposed)
  let g := match d.compute, operator with
    | some c, none => g.notice (.unknownOperator node c.operator)
    | _, _ => g
  let g := g.modifyWiring node (·.ofTables t)
  g.check .structureSync ((g.wiring? node).any fun w => !w.outOfSync && w.instances.isEmpty) "synchronize"

/-- The graph in which a data node and all below it are in sync, down to `n` nodes below one another. What is in sync already is
left alone. -/
def syncWithin : Nat → Graph → NodeId → Graph
  | 0, g, _ => g
  | n + 1, g, node =>
    match g.data? node with
    | none => g
    | some d => if d.wiring.outOfSync then (d.references.foldl (syncWithin n) g).rewire node d else g

/-- The graph in which a data node and all below it are in sync. No node is below itself, so no more can be below one another than
there are. -/
def synchronize (g : Graph) (node : NodeId) : Graph := syncWithin (g.nodes.size + 1) g node

end Graph

end Dataflow
