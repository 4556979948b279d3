import Dataflow.Graph.Structure
import Dataflow.Graph.Teardown

/-!
# Instances: a data node under a substitution

Acquiring an instance gives the one that its owner remembers for the same bindings of its parameters, or builds it: the channels
of its children or its source are merged at the input, the operator's process adds its outputs, the template is instantiated
with all of these bound, and the filter selects what is exposed.
-/

namespace Dataflow

namespace Graph

/-- The graph with the next id drawn, and the id. -/
def drawId (g : Graph) : Graph × Nat := ({ g with lastId := g.lastId + 1 }, g.lastId + 1)

/-- The graph with entries more for the outputs of an operator, each empty, and the entries by the names of their channels. -/
def createOutputs (g : Graph) (c : Compute) (op : Operator) : Graph × List (String × EntryId) :=
  (op.outputs.mapIdx fun i o => (c.outputs.outputName i o.name, o.type)).foldl
    (fun (g, outputs) (name, type) =>
      let id := g.store.entries.next
      ({ g with store := g.store.pushEntry (.empty type) }, outputs ++ [(name, id)])) (g, [])

/-- The process of a data node that has a computation and an operator: the one that it has for the same bindings of the
parameters that the operator's inputs depend on, or a new one, which listens to its inputs. -/
def acquireProcess (g : Graph) (node : NodeId) (sub : Substitution) : Graph × Option ProcessId :=
  match g.data? node with
  | none => (g, none)
  | some d => match d.compute, d.wiring.operator with
    | some c, some op =>
      let key := sub.keyOf d.wiring.operatorParams
      match (d.wiring.processes[key]?).bind fun id => (g.processes[id]?).map (id, ·) with
      | some (id, p) => ({ g with processes := g.processes.insert id { p with uses := p.uses + 1 } }, some id)
      | none =>
        let inputs := op.params.mapIdx fun i p => d.wiring.input.channel? (c.inputs.inputName i p.source) sub
        let (g, id) := g.drawId
        let bound := inputs.filterMap fun c => c
        let children := (bound.flatMap g.store.creators).eraseDups
        let g := { g with store := bound.foldl (fun s channel => s.listen channel (.process id)) g.store }
        let (g, outputs) := g.createOutputs c op
        let p : Process := { owner := node, key, operator := op, inputs, outputs, children }
        let g := { g with processes := g.processes.insert id p }
        (g.modifyWiring node fun w => { w with processes := w.processes.insert key id }, some id)
    | _, _ => (g, none)

/-- A way to acquire the instance of a node under a substitution. -/
abbrev Acquire := Graph → NodeId → Substitution → Graph × Option InstanceId

/-- The graph with what a data node exposes merged at the input of the node above it, and its instance. -/
def mergeOutputs (acquire : Acquire) (node : NodeId) (sub : Substitution) (g : Graph) (child : NodeId) :
    Graph × List InstanceId :=
  match acquire g child sub with
  | (g, none) => (g, [])
  | (g, some i) => (g.mergeChannels node .input sub (g.finalChannels child sub), [i])

/-- The graph with a leaf merged at the input of the node above it: the channel that a placeholder is bound to, or its entry. -/
def mergeLeaf (node : NodeId) (sub : Substitution) (g : Graph) (l : Leaf) : Graph :=
  match (if l.param then sub.get? l.name else none), l.entry with
  | some channel, _ => g.mergeChannel node .input sub l.name channel
  | none, some entry => g.mergeSlot node .input sub l.name { entry, key := l.key }
  | none, none => g

/-- The graph with everything that comes into a data node merged at its input, and the instances of what it refers to. -/
def mergeInputs (acquire : Acquire) (node : NodeId) (sub : Substitution) (g : Graph) (d : DataNode) :
    Graph × List InstanceId :=
  match d.source with
  | some source => mergeOutputs acquire node sub g source
  | none => d.children.foldl
    (fun (g, instances) child => match g.leaf? child with
      | some l => (mergeLeaf node sub g l, instances)
      | none =>
        let (g, more) := mergeOutputs acquire node sub g child
        (g, instances ++ more)) (g, [])

/-- The graph with what came in and what the operator adds merged at the extended port. -/
def mergeExtended (g : Graph) (node : NodeId) (sub : Substitution) (process : Option ProcessId) : Graph :=
  let inputs := ((g.wiring? node).map (·.input.resolve sub)).getD []
  let slots := match process with
    | some id => ((g.processes[id]?).map (·.slots id)).getD []
    | none => []
  (g.mergeChannels node .extended sub inputs).mergeSlots node .extended sub slots

/-- The graph with the instance of a data node's template under a substitution, the instance, and what it exposes. -/
def acquireTemplate (acquire : Acquire) (g : Graph) (d : DataNode) (sub : Substitution) :
    Graph × Option InstanceId × List (String × ChannelId) :=
  match d.proto with
  | none => (g, none, [])
  | some p => match acquire g p sub with
    | (g, none) => (g, none, [])
    | (g, some i) => (g, some i, g.finalChannels p sub)

/-- The channels that a filter lets through, destination first. -/
def selectChannels (filter : Option Filter) (channels : NameMap ChannelId) : List (String × ChannelId) :=
  (Filter.selectFrom filter channels.keys).filterMap fun (dest, source) => (channels[source]?).map (dest, ·)

/-- The graph with an instance of a data node built, and the instance. -/
def build (acquire : Acquire) (g : Graph) (node : NodeId) (d : DataNode) (sub : Substitution) (key : String) :
    Graph × Instance :=
  let (g, children) := mergeInputs acquire node sub g d
  let (g, process) := g.acquireProcess node sub
  let g := g.mergeExtended node sub process
  let extended := ((g.wiring? node).map (·.extended.resolve sub)).getD []
  let (g, proto, template) := acquireTemplate acquire g d (.ofList extended)
  let channels := tableOf (extended ++ template)
  let g := (g.mergeChannels node .output sub (selectChannels d.filter channels)).markUsed node sub
  (g, { owner := node, key, substitution := sub, process, children, proto })

/-- The graph with an instance remembered under an id. -/
def remember (g : Graph) (id : InstanceId) (i : Instance) : Graph :=
  { g with instances := g.instances.insert id i }.modifyWiring i.owner
    fun w => { w with instances := w.instances.insert i.key id }

/-- Acquires the instance of a node under a substitution, down to `n` nodes below one another. -/
def acquireWithin : Nat → Acquire
  | 0, g, _, _ => (g, none)
  | n + 1, g, node, sub =>
    let g := g.synchronize node
    match g.data? node with
    | none => (g, none)
    | some d =>
      let sub := sub.restrict d.wiring.params
      let key := sub.fullKey
      match (d.wiring.instances[key]?).bind fun id => (g.instances[id]?).map (id, ·) with
      | some (id, i) =>
        let g := { g with instances := g.instances.insert id { i with uses := i.uses + 1 } }
        (g.check .memoized (i.owner = node && i.key = key) "get_substitution_node", some id)
      | none =>
        let (g, id) := g.drawId
        let (g, i) := build (acquireWithin n) g node d sub key
        (g.remember id i, some id)

/-- Acquires the instance of a data node under a substitution; every acquisition is paired with a release. No node is below
itself, so no more can be below one another than there are. -/
def acquireInstance (g : Graph) (node : NodeId) (sub : Substitution) : Graph × Option InstanceId :=
  acquireWithin (g.nodes.size + 1) g node sub

end Graph

end Dataflow
