import Dataflow.Graph.Edit
import Dataflow.Graph.Instantiate
import Dataflow.Graph.Run

/-!
# Requests and results

A request subscribes to names that a data node exposes. Pulling its result brings it up to date: after a change of structure the
node is instantiated again and the outlet listens to its channels; after any change the processes that write them run; and the
first entry of every channel is published.
-/

namespace Dataflow

namespace Graph

/-- The key under which a data node keeps the outlet of some names. -/
def outletKey (names : List String) : String := ",".intercalate names

/-- The names of a filter in ascending order, each once. -/
def sortNames (names : List String) : List String := ((∅ : NameSet).insertMany names).toList

/-- The graph with the outlet of a data node for some names, and the outlet: the one that is there, or a new one. -/
def outletFor (g : Graph) (node : NodeId) (names : List String) : Outcome OutletId :=
  match g.requireData node with
  | .error e => (g, .error e)
  | .ok d =>
    let filter := sortNames names
    let key := outletKey filter
    match (d.outlets[key]?).filter g.outlets.contains with
    | some id => (g, .ok id)
    | none =>
      let (g, id) := g.drawId
      let g := { g with outlets := g.outlets.insert id { owner := node, filter } }
      (g.modifyData node fun d => { d with outlets := d.outlets.insert key id }, .ok id)

/-- Subscribes to names that a data node exposes, to all of them when there are no names. -/
def createRequest (g : Graph) (node : NodeId) (names : List String) : Outcome RequestId :=
  match g.outletFor node names with
  | (g, .error e) => (g, .error e)
  | (g, .ok outlet) =>
    let (g, id) := g.drawId
    let g := { g with requests := g.requests.insert id { outlet } }
    (g.modifyOutlet outlet fun o => { o with requests := o.requests.insert id }, .ok id)

/-- The graph in which a request has a callback with a tag. -/
def watchRequest (g : Graph) (request : RequestId) (tag : String) : Graph :=
  { g with requests := g.requests.modify request ({ · with tag := some tag }) }

/-- The channels that an outlet publishes. -/
def selectOutputs (filter : List String) (channels : List (String × ChannelId)) : NameMap ChannelId :=
  tableOf (channels.filter fun (name, _) => filter.isEmpty || filter.contains name)

/-- The graph in which an outlet gave back the instance that it held. -/
def releaseHeld (g : Graph) (id : OutletId) : Graph :=
  match (g.outlets[id]?).bind (·.held) with
  | none => g
  | some i => (g.modifyOutlet id ({ · with held := none })).releaseInstance i

/-- The graph in which an outlet holds a new instance of its node and listens to the channels that it publishes. -/
def rebuild (g : Graph) (id : OutletId) (o : Outlet) : Graph :=
  let g := (g.unsubscribe id).releaseHeld id
  let (g, held) := g.acquireInstance o.owner .empty
  let channels := selectOutputs o.filter (g.finalChannels o.owner .empty)
  let g := { g with store := channels.values.foldl (fun s c => s.listen c (.outlet id)) g.store }
  g.modifyOutlet id ({ · with held, channels })

/-- The entries that an outlet publishes: the first of every channel. -/
def published (g : Graph) (channels : NameMap ChannelId) : NameMap EntryId :=
  channels.filterMap fun _ c => g.store.firstId? c

/-- The graph in which an outlet publishes what its channels hold, once the processes that write them ran. -/
def refresh (g : Graph) (id : OutletId) (owner : NodeId) : Graph :=
  let channels := ((g.outlets[id]?).map (·.channels)).getD ∅
  let g := g.runAll (channels.values.flatMap g.store.creators)
  let outputs := g.published channels
  let entries := outputs.values.map g.entryAt?
  let loading := g.isLoading owner || entries.any fun e => e.any (·.isLoading)
  let g := g.check .resultResolved (entries.all (·.isSome)) "get_result"
  g.modifyOutlet id ({ · with result := { outputs, loading, valid := true }, status := .ready })

/-- The graph in which the result of an outlet is up to date. -/
def resolve (g : Graph) (id : OutletId) : Graph :=
  match g.outlets[id]? with
  | none => g
  | some o => match o.status with
    | .ready => g
    | .needsData => g.refresh id o.owner
    | .needsStructure => (g.rebuild id o).refresh id o.owner

/-- The result of an outlet, as it was last published. -/
def resultOf (g : Graph) (id : OutletId) : Option Result := (g.outlets[id]?).map (·.result)

/-- Pulls the result of a request; there is none for an unknown request. -/
def pull (g : Graph) (request : RequestId) : Graph × Option Result :=
  match g.requests[request]? with
  | none => (g, none)
  | some r =>
    let g := g.resolve r.outlet
    (g, g.resultOf r.outlet)

/-- Pulls the result of a data node without a request. The outlet stays for as long as the node does. -/
def pullNode (g : Graph) (node : NodeId) (names : List String) : Graph × Option Result :=
  match g.outletFor node names with
  | (g, .error _) => (g, none)
  | (g, .ok id) =>
    let g := (g.modifyOutlet id ({ · with pinned := true })).resolve id
    (g, g.resultOf id)

/-- The entry that a request last published under a name. -/
def publishedEntry (g : Graph) (request : RequestId) (name : String) : Option Entry := do
  let r ← g.requests[request]?
  let o ← g.outlets[r.outlet]?
  let id ← o.result.outputs[name]?
  g.entryAt? id

/-- What the next pull of a request has to do. -/
def statusOf (g : Graph) (request : RequestId) : Option Status := do
  let r ← g.requests[request]?
  let o ← g.outlets[r.outlet]?
  return o.status

/-- The graph without an outlet. -/
def dropOutlet (g : Graph) (id : OutletId) (o : Outlet) : Graph :=
  let g := g.unsubscribe id
  let g := { g with outlets := g.outlets.erase id }
  let g := match o.held with
    | some i => g.releaseInstance i
    | none => g
  g.modifyData o.owner fun d => { d with outlets := d.outlets.erase (outletKey o.filter) }

/-- The graph without a request. Its outlet goes with the last request, unless it is pinned. -/
def releaseRequest (g : Graph) (request : RequestId) : Graph :=
  match g.requests[request]? with
  | none => g
  | some r =>
    let g := { g with requests := g.requests.erase request }
    let g := g.modifyOutlet r.outlet fun o => { o with requests := o.requests.erase request }
    match g.outlets[r.outlet]? with
    | some o => if o.requests.isEmpty && !o.pinned then g.dropOutlet r.outlet o else g
    | none => g

end Graph

end Dataflow
