import Dataflow.Graph.Edit

/-!
# Building trees

A builder makes the nodes of a graph in one go each, and keeps names for them. Unlike the calls of a graph it refuses filters and
computations that cannot be read, and computations whose operator does not exist.
-/

namespace Dataflow

/-- A graph under construction, and the nodes that were given names. -/
structure TreeBuilder where
  graph : Graph
  names : NameMap NodeId := ∅

/-- The builder after a step, and the answer or the cause of the refusal. -/
abbrev BuildOutcome (α : Type) := TreeBuilder × Except Error α

namespace TreeBuilder

/-- The builder after calls of its graph in turn, up to the first that is refused; the answer is `answer`. -/
def run {α : Type} (answer : α) : List (Graph → Outcome Unit) → TreeBuilder → BuildOutcome α
  | [], b => (b, .ok answer)
  | call :: calls, b =>
    match call b.graph with
    | (graph, .ok ()) => run answer calls { b with graph }
    | (graph, .error e) => ({ b with graph }, .error e)

/-- A leaf with a name, after further calls on it. -/
def leaf (b : TreeBuilder) (name : String) (calls : NodeId → List (Graph → Outcome Unit)) : BuildOutcome NodeId :=
  let id := b.graph.nodes.next
  run id ((·.setName id name) :: calls id) { b with graph := b.graph.createLeaf }

/-- A leaf with a name, a key and a value of a type. -/
def keyedValue (b : TreeBuilder) (name : String) (key : Float32) (type : DataType) (payload : Payload) :
    BuildOutcome NodeId :=
  match b.graph.createPayload type payload with
  | (graph, .error e) => ({ b with graph }, .error e)
  | (graph, .ok entry) =>
    leaf { b with graph } name fun id => [(·.setKey id key), (·.setData id (some entry))]

/-- A leaf with a name and a value of a type, under key zero. -/
def value (b : TreeBuilder) (name : String) (type : DataType) (payload : Payload) : BuildOutcome NodeId :=
  b.keyedValue name 0 type payload

/-- A leaf with a name and a texture. -/
def texture (b : TreeBuilder) (name : String) (t : Texture) : BuildOutcome NodeId :=
  let (graph, entry) := b.graph.createEntry (.ofTexture t)
  leaf { b with graph } name fun id => [(·.setData id (some entry))]

/-- A placeholder with a name, bound by whoever uses the template that it is in. -/
def param (b : TreeBuilder) (name : String) : BuildOutcome NodeId := b.leaf name fun id => [(·.setParam id true)]

/-- A data node, a template or not, with children. -/
def dataNode (b : TreeBuilder) (isProto : Bool) (children : List NodeId) : BuildOutcome NodeId :=
  let id := b.graph.nodes.next
  run id (children.map fun child => (·.appendChild id child)) { b with graph := b.graph.createData isProto }

/-- A data node gets the computation that `text` spells, whose operator has to exist. -/
def compute (b : TreeBuilder) (node : NodeId) (text : String) : BuildOutcome Unit :=
  match Compute.parse text with
  | .error e => (b, .error e)
  | .ok c =>
    match c.filter fun c => !b.graph.registry.contains c.operator with
    | some c => (b, .error (.unknownOperator c.operator))
    | none => run () [(·.setCompute node text)] b

/-- A data node gets the filter that `text` spells. -/
def filter (b : TreeBuilder) (node : NodeId) (text : String) : BuildOutcome Unit :=
  match Filter.parse text with
  | .error e => (b, .error e)
  | .ok _ => run () [(·.setFilter node text)] b

/-- A data node forwards everything from a source. -/
def source (b : TreeBuilder) (node source : NodeId) : BuildOutcome Unit := run () [(·.setSource node (some source))] b

/-- A data node uses a template. -/
def instantiate (b : TreeBuilder) (node proto : NodeId) : BuildOutcome Unit := run () [(·.setProto node (some proto))] b

/-- A node gets a name in the builder. -/
def name (b : TreeBuilder) (name : String) (node : NodeId) : TreeBuilder := { b with names := b.names.insert name node }

/-- The node of a name. -/
def lookup (b : TreeBuilder) (name : String) : Except Error NodeId :=
  match b.names[name]? with
  | some node => .ok node
  | none => .error (.missingNode name)

end TreeBuilder

end Dataflow
