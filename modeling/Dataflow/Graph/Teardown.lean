import Dataflow.Graph.Merge

/-!
# Taking derived objects down

Processes and instances are counted by their users and go with the last one, giving back all that they acquired: channels in
the caches of their owner, listeners, output entries, and their own use of other instances. A node that changes drops its
whole wiring at once, whoever uses it.
-/

namespace Dataflow

namespace Graph

/-- The graph without a process: it no longer listens, its outputs are freed, and its owner forgets it. -/
def destroyProcess (g : Graph) (id : ProcessId) : Graph :=
  match g.processes[id]? with
  | none => g
  | some p =>
    let store := p.inputs.foldl (fun s c => match c with
      | some c => s.unlisten c (.process id)
      | none => s) g.store
    let store := p.outputs.foldl (fun s (_, entry) => s.freeEntry entry) store
    { g with processes := g.processes.erase id, store }.modifyWiring p.owner fun w =>
      if w.processes[p.key]? = some id then { w with processes := w.processes.erase p.key } else w

/-- The graph in which a process has one user less; it goes with the last one. -/
def releaseProcess (g : Graph) (id : ProcessId) : Graph :=
  match g.processes[id]? with
  | none => g
  | some p =>
    if p.uses ≤ 1 then g.destroyProcess id
    else { g with processes := g.processes.insert id { p with uses := p.uses - 1 } }

/-- The instances that an instance uses: that of its template and those of its children. -/
def usedBy (i : Instance) : List InstanceId := i.proto.toList ++ i.children

/-- Whether a node remembers an instance under a key. -/
def remembers (g : Graph) (node : NodeId) (key : String) (id : InstanceId) : Bool :=
  (g.wiring? node).any fun w => w.instances[key]? = some id

/-- The graph in which an instance has one user less. With the last one it goes: what its owner cached for it has one user less,
its owner forgets it, and it releases its process and the instances that it used. At most `n` instances go one below the
other. -/
def releaseWithin : Nat → Graph → InstanceId → Graph
  | 0, g, _ => g
  | n + 1, g, id =>
    match g.instances[id]? with
    | none => g
    | some i =>
      if 1 < i.uses then { g with instances := g.instances.insert id { i with uses := i.uses - 1 } }
      else
        let g := { g with instances := g.instances.erase id }
        let g := [Port.output, .extended, .input].foldl (fun g port => g.markUnused i.owner i.substitution port) g
        let g := g.modifyWiring i.owner fun w =>
          if w.instances[i.key]? = some id then { w with instances := w.instances.erase i.key } else w
        let g := match i.process with
          | some p => g.releaseProcess p
          | none => g
        let g := (usedBy i).foldl (releaseWithin n) g
        g.check .teardownSymmetric (!g.remembers i.owner i.key id) "release_substitution_node"

/-- The graph in which an instance has one user less. Every instance that goes is one less, so no more can go one below the other
than there are. -/
def releaseInstance (g : Graph) (id : InstanceId) : Graph := releaseWithin (g.instances.size + 1) g id

/-- The graph without an instance, whoever uses it. What its owner cached for it is left to the owner. -/
def discardInstance (g : Graph) (id : InstanceId) : Graph :=
  match g.instances[id]? with
  | none => g
  | some i => (usedBy i).foldl releaseInstance { g with instances := g.instances.erase id }

/-- The graph in which a data node is out of sync: everything derived from it is dropped. -/
def resetWiring (g : Graph) (node : NodeId) : Graph :=
  match g.wiring? node with
  | none => g
  | some w =>
    let g := g.modifyWiring node fun w =>
      { w with outOfSync := true, operator := none, operatorParams := ∅, params := ∅, instances := ∅, processes := ∅ }
    let g := w.processes.values.foldl destroyProcess g
    let g := w.instances.values.foldl discardInstance g
    [Port.input, .extended, .output].foldl (fun g port => g.clearPort node port) g

end Graph

end Dataflow
