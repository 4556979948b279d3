import Dataflow.Graph.Notify

/-!
# Editing a graph

The authoring calls. Each either refuses, for one of the causes of `Error`, and leaves the graph as it is, or makes its change
and tells what the change makes stale.
-/

namespace Dataflow

/-- The graph after a call, and the answer or the cause of the refusal. -/
abbrev Outcome (α : Type) := Graph × Except Error α

namespace Graph

/-- The graph with a leaf more, under the id `g.nodes.next`. -/
def createLeaf (g : Graph) : Graph := { g with nodes := g.nodes.push { kind := .leaf {} } }

/-- The graph with a data node more, under the id `g.nodes.next`. -/
def createData (g : Graph) (isProto : Bool) : Graph :=
  let m := g.store.nextMap
  let wiring : Wiring := { input := ⟨m + 1, ∅⟩, extended := ⟨m + 2, ∅⟩, output := ⟨m + 3, ∅⟩ }
  { g with
    nodes := g.nodes.push { kind := .data { isProto, wiring } }
    store := { g.store with nextMap := m + 3 } }

/-- The data node under an id, which has to be one. -/
def requireData (g : Graph) (id : NodeId) : Except Error DataNode :=
  match g.node? id with
  | none => .error .invalidNode
  | some n => match n.data? with
    | none => .error .notADataNode
    | some d => .ok d

/-- Whether a reference from `parent` to `child` would close a cycle: `parent` is `child` or something that it refers to. -/
def closesCycle (g : Graph) (parent child : NodeId) : Bool := (g.descendants child).contains parent

/-- Whether a reference from `parent` to `child` is allowed. -/
def checkReference (g : Graph) (parent child : NodeId) : Except Error Unit :=
  if (g.node? child).isNone then .error .invalidNode
  else if g.closesCycle parent child then .error .cycle
  else .ok ()

/-- Whether `child` may become a child of `parent`. -/
def checkChild (g : Graph) (parent child : NodeId) : Except Error Unit := do
  let d ← g.requireData parent
  if d.source.isSome then throw .sourceAndChildren
  g.checkReference parent child

/-- Whether a node may be a data node's source or template. -/
def checkData (g : Graph) (node target : NodeId) : Except Error Unit := do
  if (g.data? target).isNone then throw .notADataNode
  g.checkReference node target

/-- The graph in which `child` has `parent` as a parent once more. -/
def link (g : Graph) (parent child : NodeId) : Graph := g.modifyParents child (· ++ [parent])

/-- The graph in which `child` has `parent` as a parent once less. -/
def unlink (g : Graph) (parent child : NodeId) : Graph := g.modifyParents child (·.erase parent)

/-- The graph with the check noted that an accepted reference closes no cycle. -/
def accepted (g : Graph) (parent child : NodeId) : Graph := g.check .graphAcyclic (parent ≠ child) "check_edge"

/-- `child` becomes the last child of `parent`. -/
def appendChild (g : Graph) (parent child : NodeId) : Outcome Unit :=
  match g.checkChild parent child with
  | .error e => (g, .error e)
  | .ok () =>
    let g := (g.accepted parent child).modifyData parent fun d => { d with children := d.children ++ [child] }
    ((g.link parent child).structureChanged parent, .ok ())

/-- `child` becomes a child of `parent`, before the first occurrence of `before`. -/
def insertBefore (g : Graph) (parent child before : NodeId) : Outcome Unit :=
  match g.checkChild parent child with
  | .error e => (g, .error e)
  | .ok () =>
    let g := g.accepted parent child
    match ((g.data? parent).map (·.children)).bind (·.idxOf? before) with
    | none => (g, .error .notAChild)
    | some i =>
      let g := g.modifyData parent fun d => { d with children := d.children.insertIdx i child }
      ((g.link parent child).structureChanged parent, .ok ())

/-- The first occurrence of `child` among the children of `parent` is taken away. -/
def removeChild (g : Graph) (parent child : NodeId) : Outcome Unit :=
  match g.requireData parent with
  | .error e => (g, .error e)
  | .ok d =>
    if d.children.contains child then
      let g := g.modifyData parent fun d => { d with children := d.children.erase child }
      ((g.unlink parent child).structureChanged parent, .ok ())
    else (g, .error .notAChild)

/-- All children of `parent` are taken away. -/
def clearChildren (g : Graph) (parent : NodeId) : Outcome Unit :=
  match g.requireData parent with
  | .error e => (g, .error e)
  | .ok d =>
    let g := g.modifyData parent fun d => { d with children := [] }
    ((d.children.foldl (fun g child => g.unlink parent child) g).structureChanged parent, .ok ())

/-- The graph in which `parent` does not refer to `node`. -/
def detachFrom (g : Graph) (node parent : NodeId) : Graph :=
  let g := g.modifyData parent fun d =>
    { d with
      children := d.children.filter (· ≠ node)
      source := d.source.filter (· ≠ node)
      proto := d.proto.filter (· ≠ node) }
  (g.modifyParents node (·.filter (· ≠ parent))).structureChanged parent

/-- No node refers to `node` any more. -/
def detachFromParents (g : Graph) (node : NodeId) : Outcome Unit :=
  match g.node? node with
  | none => (g, .error .invalidNode)
  | some _ => ((g.parents node).foldl (fun g parent => g.detachFrom node parent) g, .ok ())

/-- The graph in which the node's old reference gives way to a new one, of which the parents of both take note. -/
def relink (g : Graph) (node : NodeId) (old new : Option NodeId) : Graph :=
  let g := match old with
    | some old => g.unlink node old
    | none => g
  let g := match new with
    | some new => g.link node new
    | none => g
  g.structureChanged node

/-- A data node forwards everything from a source, which must not have children besides; or it no longer has a source. -/
def setSource (g : Graph) (node : NodeId) (source : Option NodeId) : Outcome Unit :=
  match g.requireData node with
  | .error e => (g, .error e)
  | .ok d =>
    let g' := g.modifyData node fun d => { d with source }
    match source with
    | none => (g'.relink node d.source none, .ok ())
    | some src =>
      if !d.children.isEmpty then (g, .error .sourceAndChildren)
      else match g.checkData node src with
        | .error e => (g, .error e)
        | .ok () => ((g'.accepted node src).relink node d.source (some src), .ok ())

/-- A data node has a template; or it no longer has one. -/
def setProto (g : Graph) (node : NodeId) (proto : Option NodeId) : Outcome Unit :=
  match g.requireData node with
  | .error e => (g, .error e)
  | .ok d =>
    let g' := g.modifyData node fun d => { d with proto }
    match proto with
    | none => (g'.relink node d.proto none, .ok ())
    | some p =>
      match g.checkData node p with
      | .error e => (g, .error e)
      | .ok () => ((g'.accepted node p).relink node d.proto (some p), .ok ())

/-- The graph after a change of a data node. -/
def updateData (g : Graph) (node : NodeId) (f : DataNode → DataNode) : Outcome Unit :=
  match g.requireData node with
  | .error e => (g, .error e)
  | .ok _ => ((g.modifyData node f).structureChanged node, .ok ())

/-- A data node gets the filter that `text` spells; text that spells none is logged, and everything passes. -/
def setFilter (g : Graph) (node : NodeId) (text : String) : Outcome Unit :=
  match Filter.parse text with
  | .ok filter => g.updateData node ({ · with filter })
  | .error e => (g.notice (.invalidFilter node e)).updateData node ({ · with filter := some Filter.pass })

/-- A data node gets the computation that `text` spells; text that spells none is logged, and nothing is computed. -/
def setCompute (g : Graph) (node : NodeId) (text : String) : Outcome Unit :=
  match Compute.parse text with
  | .ok compute => g.updateData node ({ · with compute })
  | .error e => (g.notice (.invalidCompute node e)).updateData node ({ · with compute := none })

/-- The graph after a change of a leaf. -/
def updateLeaf (g : Graph) (node : NodeId) (f : Leaf → Leaf) : Outcome Unit :=
  match g.leaf? node with
  | none => (g, .error .invalidNode)
  | some _ => ((g.modifyLeaf node f).structureChanged node, .ok ())

/-- A leaf gets a name. -/
def setName (g : Graph) (node : NodeId) (name : String) : Outcome Unit := g.updateLeaf node ({ · with name })

/-- The value of a leaf gets a key. -/
def setKey (g : Graph) (node : NodeId) (key : Float32) : Outcome Unit := g.updateLeaf node ({ · with key })

/-- A leaf becomes a placeholder that a substitution may replace, or ceases to be one. -/
def setParam (g : Graph) (node : NodeId) (param : Bool) : Outcome Unit := g.updateLeaf node ({ · with param })

/-- A leaf is bound to an entry, or to none. -/
def setData (g : Graph) (node : NodeId) (entry : Option EntryId) : Outcome Unit := g.updateLeaf node ({ · with entry })

/-- The graph without the outlets of a node and the requests there. -/
def dropOutlets (g : Graph) (node : NodeId) : Graph :=
  let outlets := g.outletsOf node
  let requests := outlets.flatMap g.requestsAt
  let g := g.staleStructure node
  { g with
    requests := requests.foldl (fun m id => m.erase id) g.requests
    outlets := outlets.foldl (fun m id => m.erase id) g.outlets }

/-- A node is taken away, with everything derived from it. -/
def removeNode (g : Graph) (node : NodeId) : Outcome Unit :=
  match g.detachFromParents node with
  | (g, .error e) => (g, .error e)
  | (g, .ok ()) =>
    let g := (g.references node).foldl (fun g child => g.unlink node child) g
    let g := (g.resetWiring node).dropOutlets node
    ({ g with nodes := g.nodes.erase node }, .ok ())

/-- The graph with an entry more, and its id. -/
def createEntry (g : Graph) (e : Entry) : Graph × EntryId := ({ g with store := g.store.pushEntry e }, g.store.entries.next)

/-- An entry of a type that holds a payload, which has to be of the type's class. -/
def createPayload (g : Graph) (type : DataType) (payload : Payload) : Outcome EntryId :=
  match Entry.ofPayload type payload with
  | .error e => (g, .error e)
  | .ok e =>
    let (g, id) := g.createEntry e
    (g, .ok id)

/-- The graph after a change of an entry. -/
def updateEntry (g : Graph) (id : EntryId) (f : Entry → Except Error Entry) : Outcome Unit :=
  match g.entryAt? id with
  | none => (g, .error (.unknownEntry id))
  | some e => match f e with
    | .error e => (g, .error e)
    | .ok e => ({ g with store := g.store.modifyEntry id fun _ => e }.dataChanged id, .ok ())

/-- An entry gets a new payload. -/
def setPayload (g : Graph) (id : EntryId) (payload : Payload) : Outcome Unit := g.updateEntry id (·.setPayload payload)

/-- A texture gets an image, or loses the one that it has. -/
def setImage (g : Graph) (id : EntryId) (image : Option Image) : Outcome Unit :=
  g.updateEntry id (·.mapTexture ({ · with image }))

/-- A texture is still loading, or no longer. -/
def setLoading (g : Graph) (id : EntryId) (loading : Bool) : Outcome Unit :=
  g.updateEntry id (·.mapTexture ({ · with loading }))

end Graph

end Dataflow
