import Dataflow.Graph.Publish

/-!
# Calls

Everything that can be asked of a graph that changes it, as one type, so that a history of a graph is a list of calls. A call
is answered, or refused for a cause of `Error`; what it reports besides is in the journal of the graph after it.
-/

namespace Dataflow

/-- What is asked of a graph. -/
inductive Call where
  | createLeaf
  | createData (isProto : Bool)
  | createEntry (entry : Entry)
  | createPayload (type : DataType) (payload : Payload)
  | appendChild (parent child : NodeId)
  | insertBefore (parent child before : NodeId)
  | removeChild (parent child : NodeId)
  | clearChildren (parent : NodeId)
  | detach (node : NodeId)
  | remove (node : NodeId)
  | setSource (node : NodeId) (source : Option NodeId)
  | setProto (node : NodeId) (proto : Option NodeId)
  | setFilter (node : NodeId) (text : String)
  | setCompute (node : NodeId) (text : String)
  | setName (node : NodeId) (name : String)
  | setKey (node : NodeId) (key : Float32)
  | setParam (node : NodeId) (param : Bool)
  | setData (node : NodeId) (entry : Option EntryId)
  | setPayload (entry : EntryId) (payload : Payload)
  | setImage (entry : EntryId) (image : Option Image)
  | setLoading (entry : EntryId) (loading : Bool)
  | touch (node : NodeId)
  | synchronize (node : NodeId)
  | acquireInstance (node : NodeId) (sub : Substitution)
  | releaseInstance (id : InstanceId)
  | process (id : ProcessId)
  | createRequest (node : NodeId) (names : List String)
  | watchRequest (request : RequestId) (tag : String)
  | pull (request : RequestId)
  | pullNode (node : NodeId) (names : List String)
  | releaseRequest (request : RequestId)

/-- The answer to a call: that it is done, the id of what was made, the instance that was acquired, or a result. -/
inductive Reply where
  | done
  | created (id : Nat)
  | acquired (id : Option InstanceId)
  | pulled (result : Option Result)
  deriving DecidableEq

namespace Graph

/-- A call that only has to be done. -/
def done (o : Outcome Unit) : Outcome Reply := (o.1, o.2.map fun _ => .done)

/-- A call that makes something. -/
def created (o : Outcome Nat) : Outcome Reply := (o.1, o.2.map .created)

/-- The graph after a call, and the answer. -/
def perform (g : Graph) : Call → Outcome Reply
  | .createLeaf => created (g.createLeaf, .ok g.nodes.next)
  | .createData isProto => created (g.createData isProto, .ok g.nodes.next)
  | .createEntry e =>
    let (g, id) := g.createEntry e
    created (g, .ok id)
  | .createPayload type payload => created (g.createPayload type payload)
  | .appendChild parent child => done (g.appendChild parent child)
  | .insertBefore parent child before => done (g.insertBefore parent child before)
  | .removeChild parent child => done (g.removeChild parent child)
  | .clearChildren parent => done (g.clearChildren parent)
  | .detach node => done (g.detachFromParents node)
  | .remove node => done (g.removeNode node)
  | .setSource node source => done (g.setSource node source)
  | .setProto node proto => done (g.setProto node proto)
  | .setFilter node text => done (g.setFilter node text)
  | .setCompute node text => done (g.setCompute node text)
  | .setName node name => done (g.setName node name)
  | .setKey node key => done (g.setKey node key)
  | .setParam node param => done (g.setParam node param)
  | .setData node entry => done (g.setData node entry)
  | .setPayload entry payload => done (g.setPayload entry payload)
  | .setImage entry image => done (g.setImage entry image)
  | .setLoading entry loading => done (g.setLoading entry loading)
  | .touch node => (g.structureChanged node, .ok .done)
  | .synchronize node => (g.synchronize node, .ok .done)
  | .acquireInstance node sub =>
    let (g, id) := g.acquireInstance node sub
    (g, .ok (.acquired id))
  | .releaseInstance id => (g.releaseInstance id, .ok .done)
  | .process id => (g.runAll [id], .ok .done)
  | .createRequest node names => created (g.createRequest node names)
  | .watchRequest request tag => (g.watchRequest request tag, .ok .done)
  | .pull request =>
    let (g, result) := g.pull request
    (g, .ok (.pulled result))
  | .pullNode node names =>
    let (g, result) := g.pullNode node names
    (g, .ok (.pulled result))
  | .releaseRequest request => (g.releaseRequest request, .ok .done)

end Graph

end Dataflow
