import Dataflow.Graph.State

/-!
# Merging channels at a port

A name at a port of a data node gets its channel by merging, one after the other, the channels and slots that feed it. A channel
that the port's map did not make itself is copied before it is changed, so that whoever else uses it sees it unchanged; and what
an instance already uses is not merged into any more.
-/

namespace Dataflow

namespace Graph

/-- The graph with a slot put into a channel's sequence, whose order is checked. -/
def addSlot (g : Graph) (id : ChannelId) (slot : Slot Float32) : Graph :=
  if (g.store.channel? id).isNone then g
  else
    let store := g.store.addSlot id slot
    { g with store }.check .sequenceOrdered (store.isOrdered id) "add_slot"

/-- The graph with slots put into a channel's sequence in turn. -/
def addSlots (g : Graph) (id : ChannelId) (slots : List (Slot Float32)) : Graph :=
  slots.foldl (fun g slot => g.addSlot id slot) g

/-- The graph with a channel more that a map owns and that holds the slots, and the id of the channel. -/
def createChannel (g : Graph) (owner : MapId) (slots : List (Slot Float32)) : Graph × ChannelId :=
  let id := g.store.channels.next
  ({ g with store := g.store.pushChannel owner }.addSlots id slots, id)

/-- The graph with a channel that a map owns in place of `current`: itself, or a copy of its slots without its listeners. -/
def ownChannel (g : Graph) (owner : MapId) (current : ChannelId) : Graph × ChannelId :=
  if (g.store.channel? current).any (·.owner = owner) then (g, current)
  else g.createChannel owner (g.store.slots current)

/-- The graph with a channel set for a name at a port. -/
def setChannel (g : Graph) (node : NodeId) (port : Port) (name : String) (sub : Substitution) (cell : Cell)
    (channel : ChannelId) : Graph :=
  g.modifyWiring node fun w => w.setMap port ((w.map port).setCell name sub { cell with channel := some channel })

/-- The graph with a channel merged under a name at a port. -/
def mergeChannel (g : Graph) (node : NodeId) (port : Port) (sub : Substitution) (name : String) (channel : ChannelId) :
    Graph :=
  match g.wiring? node with
  | none => g
  | some w =>
    let m := w.map port
    let cell := (m.cell? name sub).getD {}
    if cell.uses ≠ 0 then g
    else match cell.channel with
      | none => g.setChannel node port name sub cell channel
      | some current =>
        if current = channel then g.check .mergeIdentity true "add_channel"
        else if g.store.mergesChannel current channel then
          let (g, owned) := g.ownChannel m.id current
          let g := g.addSlots owned (g.store.slots channel)
          g.setChannel node port name sub cell owned
        else { g with store := g.store.release current m.id }.setChannel node port name sub cell channel

/-- The graph with a slot merged under a name at a port. -/
def mergeSlot (g : Graph) (node : NodeId) (port : Port) (sub : Substitution) (name : String) (slot : Slot Float32) : Graph :=
  match g.wiring? node with
  | none => g
  | some w =>
    let m := w.map port
    let cell := (m.cell? name sub).getD {}
    if cell.uses ≠ 0 then g
    else match cell.channel with
      | none =>
        let (g, id) := g.createChannel m.id [slot]
        g.setChannel node port name sub cell id
      | some current =>
        if g.store.mergesSlot current slot then
          let (g, owned) := g.ownChannel m.id current
          (g.addSlot owned slot).setChannel node port name sub cell owned
        else
          let (g, id) := { g with store := g.store.release current m.id }.createChannel m.id [slot]
          g.setChannel node port name sub cell id

/-- The graph with channels merged under their names at a port, in turn. -/
def mergeChannels (g : Graph) (node : NodeId) (port : Port) (sub : Substitution) (channels : List (String × ChannelId)) :
    Graph :=
  channels.foldl (fun g (name, channel) => g.mergeChannel node port sub name channel) g

/-- The graph with slots merged under their names at a port, in turn. -/
def mergeSlots (g : Graph) (node : NodeId) (port : Port) (sub : Substitution) (slots : List (String × Slot Float32)) :
    Graph :=
  slots.foldl (fun g (name, slot) => g.mergeSlot node port sub name slot) g

/-- The graph in which what a node's ports cache under a substitution has one user more. -/
def markUsed (g : Graph) (node : NodeId) (sub : Substitution) : Graph :=
  g.modifyWiring node fun w =>
    { w with input := w.input.markUsed sub, extended := w.extended.markUsed sub, output := w.output.markUsed sub }

/-- The graph in which what a port caches under a substitution has one user less. Channels that the port's map owns go with
their last user. -/
def markUnused (g : Graph) (node : NodeId) (sub : Substitution) (port : Port) : Graph :=
  match g.wiring? node with
  | none => g
  | some w =>
    let m := w.map port
    { g with store := (m.lastUsed sub).foldl (fun s c => s.release c m.id) g.store }.modifyWiring node
      fun w => w.setMap port (m.markUnused sub)

/-- The graph in which a port has no names and no channels. Channels that the port's map owns go with it. -/
def clearPort (g : Graph) (node : NodeId) (port : Port) : Graph :=
  match g.wiring? node with
  | none => g
  | some w =>
    let m := w.map port
    { g with store := m.channels.foldl (fun s c => s.release c m.id) g.store }.modifyWiring node
      fun w => w.setMap port { m with entries := ∅ }

end Graph

end Dataflow
