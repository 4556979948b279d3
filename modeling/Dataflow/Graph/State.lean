import Dataflow.Channel.Map
import Dataflow.Journal
import Dataflow.Naming.Compute
import Dataflow.Naming.Filter
import Dataflow.Operator.Registry

/-!
# The state of a graph

A graph holds authored nodes and what is derived from them. A leaf feeds one entry into the channel of its name. A data node
gathers its children, or forwards a source; it may bind an operator, take another node as its template, and filter the names
that it exposes. Derived are, per data node, its wiring: the channel maps at its three ports; per substitution, an instance;
per bound operator and substitution, a process; and per list of requested names, an outlet that publishes results.
-/

namespace Dataflow

abbrev NodeId := Nat
abbrev InstanceId := Nat
abbrev RequestId := Nat

/-- A leaf: the channel that it feeds, the key of its value, whether a substitution may replace it, and its entry. -/
structure Leaf where
  name : String := ""
  key : Float32 := 0
  param : Bool := false
  entry : Option EntryId := none
  deriving DecidableEq, Repr

/-- The points of a data node that have a channel map: what comes in, the same with the outputs of the operator, and what is
exposed. -/
inductive Port where
  | input | extended | output
  deriving DecidableEq, Repr

/-- What is derived from a data node's place in the graph. It is computed afresh when it is out of sync, and then holds no
channels, instances or processes. -/
structure Wiring where
  outOfSync : Bool := true
  input : ChannelMap
  extended : ChannelMap
  output : ChannelMap
  operator : Option Operator := none
  operatorParams : NameSet := ∅
  params : NameSet := ∅
  instances : NameMap InstanceId := ∅
  processes : NameMap ProcessId := ∅

/-- A data node: it gathers children or forwards a source, and may have a template, a filter and a computation. -/
structure DataNode where
  children : List NodeId := []
  source : Option NodeId := none
  proto : Option NodeId := none
  isProto : Bool
  filter : Option Filter := none
  compute : Option Compute := none
  wiring : Wiring
  outlets : NameMap OutletId := ∅

/-- A node is a leaf or a data node. -/
inductive NodeKind where
  | leaf (leaf : Leaf)
  | data (data : DataNode)

/-- A node and the nodes that refer to it, once for every reference. -/
structure Node where
  parents : List NodeId := []
  kind : NodeKind

/-- A data node under one substitution: the process that it runs, the instances of its children or source, and the instance of
its template. It lives as long as something uses it. -/
structure Instance where
  owner : NodeId
  key : String
  substitution : Substitution
  uses : Nat := 1
  process : Option ProcessId := none
  children : List InstanceId := []
  proto : Option InstanceId := none

/-- Whether the outputs of a process are current: its inputs changed, it ran, or its inputs were refused. -/
inductive ProcessState where
  | unprocessed | processed | invalidInput
  deriving DecidableEq, Repr

/-- An operator bound to channels: the channel of every parameter, the name and entry of every output, and the processes that
write what it reads. -/
structure Process where
  owner : NodeId
  key : String
  operator : Operator
  inputs : List (Option ChannelId)
  outputs : List (String × EntryId)
  children : List ProcessId
  state : ProcessState := .unprocessed
  uses : Nat := 1

/-- What the next pull of a result has to do: rebuild, rerun, or nothing. -/
inductive Status where
  | needsStructure | needsData | ready
  deriving DecidableEq, Repr

/-- A published result: the entry of every name, whether anything it shows is still loading, and whether it is valid. -/
structure Result where
  outputs : NameMap EntryId := ∅
  loading : Bool := false
  valid : Bool := false
  deriving DecidableEq

/-- The place where a data node publishes the names of a filter, all of them when the filter is empty. It is shared by the
requests for them, and stays without requests when it is pinned. -/
structure Outlet where
  owner : NodeId
  filter : List String
  held : Option InstanceId := none
  channels : NameMap ChannelId := ∅
  status : Status := .needsStructure
  result : Result := {}
  requests : IdSet := ∅
  pinned : Bool := false

/-- A consumer of an outlet, with the tag of its callback, if it has one. -/
structure Request where
  outlet : OutletId
  tag : Option String := none
  deriving DecidableEq, Repr

/-- What is fixed when a graph is made: whether truncated iterations are warned of, and the tolerance of keys. -/
structure Config where
  warn : Bool := true
  tolerance : Float32 := 1e-6
  deriving DecidableEq

/-- A graph. Instances, processes, outlets and requests draw their ids from one counter, of which `lastId` is the last. -/
structure Graph where
  nodes : Arena Node := .empty
  store : Store
  instances : IdMap Instance := ∅
  processes : IdMap Process := ∅
  outlets : IdMap Outlet := ∅
  requests : IdMap Request := ∅
  plans : NameMap IterationPlan := ∅
  lastId : Nat := 0
  config : Config
  registry : Registry
  journal : Journal := {}

namespace Wiring

/-- The channel map of a port. -/
def map (w : Wiring) : Port → ChannelMap
  | .input => w.input
  | .extended => w.extended
  | .output => w.output

/-- The wiring with the channel map of a port replaced. -/
def setMap (w : Wiring) (port : Port) (m : ChannelMap) : Wiring :=
  match port with
  | .input => { w with input := m }
  | .extended => { w with extended := m }
  | .output => { w with output := m }

end Wiring

namespace Node

/-- The leaf that a node is. -/
def leaf? (n : Node) : Option Leaf :=
  match n.kind with
  | .leaf l => some l
  | .data _ => none

/-- The data node that a node is. -/
def data? (n : Node) : Option DataNode :=
  match n.kind with
  | .leaf _ => none
  | .data d => some d

end Node

namespace DataNode

/-- The nodes that a data node refers to: its children, its source and its template. -/
def references (d : DataNode) : List NodeId := d.children ++ d.source.toList ++ d.proto.toList

end DataNode

namespace Process

/-- The slots that a process writes, by name. -/
def slots (p : Process) (id : ProcessId) : List (String × Slot Float32) :=
  p.outputs.map fun (name, entry) => (name, { entry, key := 0, creator := some id })

end Process

namespace Graph

/-- A graph without nodes. -/
def new (registry : Registry := Registry.empty) (config : Config := {}) : Graph :=
  { store := { tolerance := config.tolerance }, config, registry }

/-- The graph with an empty journal. -/
def settled (g : Graph) : Graph := { g with journal := {} }

/-- The node under an id. -/
def node? (g : Graph) (id : NodeId) : Option Node := g.nodes.get? id

/-- The leaf under an id. -/
def leaf? (g : Graph) (id : NodeId) : Option Leaf := (g.node? id).bind Node.leaf?

/-- The data node under an id. -/
def data? (g : Graph) (id : NodeId) : Option DataNode := (g.node? id).bind Node.data?

/-- The wiring of the data node under an id. -/
def wiring? (g : Graph) (id : NodeId) : Option Wiring := (g.data? id).map (·.wiring)

/-- The nodes that a node refers to. -/
def references (g : Graph) (id : NodeId) : List NodeId := ((g.data? id).map (·.references)).getD []

/-- The nodes that refer to a node, once for every reference. -/
def parentsOf (g : Graph) (id : NodeId) : List NodeId := ((g.node? id).map (·.parents)).getD []

/-- The nodes that refer to a node, each once. -/
def parents (g : Graph) (id : NodeId) : List NodeId := (g.parentsOf id).eraseDups

/-- The entry under an id. -/
def entryAt? (g : Graph) (id : EntryId) : Option Entry := g.store.entryAt? id

/-- The graph with a data node changed. -/
def modifyData (g : Graph) (id : NodeId) (f : DataNode → DataNode) : Graph :=
  { g with nodes := g.nodes.modify id fun n =>
      match n.kind with
      | .leaf _ => n
      | .data d => { n with kind := .data (f d) } }

/-- The graph with a leaf changed. -/
def modifyLeaf (g : Graph) (id : NodeId) (f : Leaf → Leaf) : Graph :=
  { g with nodes := g.nodes.modify id fun n =>
      match n.kind with
      | .leaf l => { n with kind := .leaf (f l) }
      | .data _ => n }

/-- The graph with the wiring of a data node changed. -/
def modifyWiring (g : Graph) (id : NodeId) (f : Wiring → Wiring) : Graph :=
  g.modifyData id fun d => { d with wiring := f d.wiring }

/-- The graph with the parents of a node changed. -/
def modifyParents (g : Graph) (id : NodeId) (f : List NodeId → List NodeId) : Graph :=
  { g with nodes := g.nodes.modify id fun n => { n with parents := f n.parents } }

/-- The graph with a notice logged. -/
def notice (g : Graph) (n : Notice) : Graph := { g with journal := g.journal.notice n }

/-- The graph with the check of an invariant noted. -/
def check (g : Graph) (i : Invariant) (holds : Bool) (context : String) : Graph :=
  { g with journal := g.journal.check i holds context }

/-- The channels that a node exposes under a substitution, by name. -/
def finalChannels (g : Graph) (id : NodeId) (sub : Substitution) : List (String × ChannelId) :=
  ((g.wiring? id).map (·.output.resolve sub)).getD []

/-- The number of data nodes that are out of sync. -/
def outOfSyncCount (g : Graph) : Nat :=
  (g.nodes.toList.filter fun (_, n) => n.data?.any (·.wiring.outOfSync)).length

end Graph

end Dataflow
