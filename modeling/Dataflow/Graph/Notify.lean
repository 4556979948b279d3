import Dataflow.Graph.Teardown
import Dataflow.Reach

/-!
# Telling what a change makes stale

A change of structure at a node resets it and everything above it; the requests there have to rebuild. A change of the data of
an entry makes every process downstream of it rerun; the outlets downstream have to refresh. The callbacks of the requests
concerned are invoked once each, in ascending order.
-/

namespace Dataflow

namespace Graph

/-- A node, which may be one that does not exist, and everything that refers to it, directly or not. -/
def ancestors (g : Graph) (node : NodeId) : List NodeId := reachable (g.nodes.size + 1) g.parentsOf [node]

/-- A node, which may be one that does not exist, and everything that it refers to, directly or not. -/
def descendants (g : Graph) (node : NodeId) : List NodeId := reachable (g.nodes.size + 1) g.references [node]

/-- Whether a texture that a leaf at or below a node holds is still loading. -/
def isLoading (g : Graph) (node : NodeId) : Bool :=
  (g.descendants node).any fun id => (((g.leaf? id).bind (·.entry)).bind g.entryAt?).any (·.isLoading)

/-- The graph with an outlet changed. -/
def modifyOutlet (g : Graph) (id : OutletId) (f : Outlet → Outlet) : Graph := { g with outlets := g.outlets.modify id f }

/-- The graph in which an outlet listens to no channel. -/
def unsubscribe (g : Graph) (id : OutletId) : Graph :=
  match g.outlets[id]? with
  | none => g
  | some o =>
    { g with store := o.channels.values.foldl (fun s c => s.unlisten c (.outlet id)) g.store }.modifyOutlet id
      ({ · with channels := ∅ })

/-- The outlets of a data node. -/
def outletsOf (g : Graph) (node : NodeId) : List OutletId := ((g.data? node).map (·.outlets.values)).getD []

/-- The requests at an outlet. -/
def requestsAt (g : Graph) (id : OutletId) : List RequestId := ((g.outlets[id]?).map (·.requests.toList)).getD []

/-- The graph in which the outlets of a node have to rebuild. -/
def staleStructure (g : Graph) (node : NodeId) : Graph :=
  (g.outletsOf node).foldl
    (fun g id => (g.unsubscribe id).modifyOutlet id fun o =>
      { o with held := none, status := .needsStructure, result := { o.result with valid := false } }) g

/-- The graph in which outlets have to refresh. -/
def staleData (g : Graph) (outlets : List OutletId) : Graph :=
  outlets.foldl
    (fun g id => g.modifyOutlet id fun o =>
      { o with status := if o.status = .ready then .needsData else o.status, result := { o.result with valid := false } }) g

/-- The ids in ascending order, each once. -/
def inOrder (ids : List Nat) : List Nat := ((∅ : IdSet).insertMany ids).toList

/-- The graph in which the callbacks of some requests were invoked, once each in ascending order. -/
def fire (g : Graph) (requests : List RequestId) (change : Change) : Graph :=
  (inOrder requests).foldl
    (fun g id => match (g.requests[id]?).bind (·.tag) with
      | some tag => { g with journal := g.journal.event ⟨id, change, tag⟩ }
      | none => g) g

/-- The graph after a change of structure at a node. -/
def structureChanged (g : Graph) (node : NodeId) : Graph :=
  let ids := g.ancestors node
  let requests := (ids.flatMap g.outletsOf).flatMap g.requestsAt
  (ids.foldl (fun g id => (g.resetWiring id).staleStructure id) g).fire requests .structure

/-- Who listens to a channel that holds an entry. -/
def listeners (g : Graph) (entry : EntryId) : List Listener :=
  (g.store.watchers entry).flatMap fun c => ((g.store.channel? c).map (·.listeners)).getD []

/-- The processes that read an entry. -/
def readers (g : Graph) (entry : EntryId) : List ProcessId :=
  (g.listeners entry).filterMap fun | .process p => some p | .outlet _ => none

/-- The outlets that publish an entry. -/
def publishers (g : Graph) (entry : EntryId) : List OutletId :=
  (g.listeners entry).filterMap fun | .outlet o => some o | .process _ => none

/-- The entries that a process writes. -/
def written (g : Graph) (p : ProcessId) : List EntryId := ((g.processes[p]?).map (·.outputs.map (·.2))).getD []

/-- Everyone who listens to a channel, once for every channel. -/
def audience (g : Graph) : List Listener := g.store.channels.items.values.flatMap (·.listeners)

/-- The processes that read an entry, directly or through what other such processes write. -/
def downstream (g : Graph) (entry : EntryId) : List ProcessId :=
  reachable g.audience.length (fun p => (g.written p).flatMap g.readers) (g.readers entry)

/-- The graph in which some processes have to rerun. -/
def unprocess (g : Graph) (processes : List ProcessId) : Graph :=
  { g with processes := processes.foldl (fun ps p => ps.modify p ({ · with state := .unprocessed })) g.processes }

/-- The graph after a change of the data of an entry. -/
def dataChanged (g : Graph) (entry : EntryId) : Graph :=
  let processes := g.downstream entry
  let outlets := inOrder ((entry :: processes.flatMap g.written).flatMap g.publishers)
  let requests := outlets.flatMap g.requestsAt
  let stale := (g.unprocess processes).staleData outlets
  (stale.check .dataKeepsStructure (stale.outOfSyncCount = g.outOfSyncCount) "notify_data_change").fire requests .data

end Graph

end Dataflow
