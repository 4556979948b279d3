import Dataflow.Graph.State
import Dataflow.Schedule

/-!
# Running processes

Processes run in the order of a schedule, what others read first, and only when their inputs changed. A process whose inputs are
missing, empty or of the wrong type does not run, and neither does one whose kernel refuses; both are logged, and what they
wrote before stays published.
-/

namespace Dataflow

namespace Graph

/-- What is wrong with the channel bound to a parameter. An optional parameter may be unbound; what is bound has to hold an entry
that is not empty and of the parameter's type. -/
def inputFlaw (g : Graph) (operator : String) (param : ParamDecl) (channel : Option ChannelId) : Option Notice :=
  match channel.bind g.store.first? with
  | none => if param.optional && channel.isNone then none else some (.missingInput operator param.source)
  | some e =>
    if e.isEmpty then some (.emptyInput operator param.source)
    else if e.type ≠ param.type then some (.inputTypeMismatch operator param.source param.type e.type)
    else none

/-- The first flaw of a process's inputs. -/
def processFlaw (g : Graph) (p : Process) : Option Notice :=
  (p.operator.params.zip p.inputs).findSome? fun (param, channel) => g.inputFlaw p.operator.name param channel

/-- The key at which an argument reads: the first scalar of its key parameter, or zero. -/
def keyOf (g : Graph) (p : Process) (arg : ArgDecl) : Float32 :=
  let entry := (arg.key.bind fun k => (p.inputs[k]?).join).bind g.store.first?
  (entry.bind (·.payload.floatScalars.head?)).getD 0

/-- What the kernel of a process sees of an argument. Entries that the process writes itself are out of its sight. -/
def argView (g : Graph) (p : Process) (arg : ArgDecl) : View :=
  match (p.inputs[arg.param]?).join.bind fun c => g.store.read c arg.access (g.keyOf p arg) with
  | some (.entry id) => if (p.outputs.map (·.2)).contains id then none else (g.entryAt? id).map (·.payload)
  | some (.weight w) => some (.floats [w])
  | none => none

/-- The graph with every output of a process resized. -/
def resizeOutputs (g : Graph) (p : Process) (allocated : Option (List Nat)) (count : Nat) : Graph :=
  let lengths := p.operator.outputs.mapIdx fun i o => o.length allocated count i
  let store := (p.outputs.zip lengths).foldl (fun s ((_, id), n) => s.modifyEntry id (·.resize n)) g.store
  { g with store }

/-- What the outputs of a process hold. -/
def outputPayloads (g : Graph) (p : Process) : List Payload := p.outputs.filterMap fun (_, id) => (g.entryAt? id).map (·.payload)

/-- The graph with what a kernel computed written over the outputs of a process. -/
def writeOutputs (g : Graph) (p : Process) (payloads : List Payload) : Graph :=
  let store := (p.outputs.zip payloads).foldl (fun s ((_, id), new) => s.modifyEntry id (·.write new)) g.store
  { g with store }

/-- The graph with the iteration plan of an operator and a pattern, and the plan: the one made for an earlier call of the same
pattern, or a new one. -/
def planFor (g : Graph) (op : Operator) (advancing : List Bool) : Graph × IterationPlan :=
  let key := op.name ++ ":" ++ Iteration.pattern advancing
  match g.plans[key]? with
  | some plan => (g, plan)
  | none =>
    let plan := IterationPlan.ofSizes op.argSizes advancing op.outputSizes
    ({ g with plans := g.plans.insert key plan }, plan)

/-- The graph after a kernel ran on the views of its arguments, and the reason why it refused, if it did. -/
def runKernel (g : Graph) (p : Process) (views : List View) (iteration : Iteration) : Graph × Option String :=
  let op := p.operator
  let outs := g.outputPayloads p
  match op.kernel with
  | .core core =>
    let (g, plan) := g.planFor op iteration.advancing
    let (outs, calls) := plan.run core views iteration.count outs
    ({ g.writeOutputs p outs with journal := g.journal.invoke (calls.map fun c => ⟨op.name, c, false⟩) }, none)
  | .evaluate evaluate =>
    let call : KernelCall := ⟨views, outs, some iteration⟩
    match evaluate iteration views outs with
    | .ok news => ({ g.writeOutputs p news with journal := g.journal.invoke [⟨op.name, call, false⟩] }, none)
    | .error reason => ({ g with journal := g.journal.invoke [⟨op.name, call, true⟩] }, some reason)

/-- The graph after a process, whose inputs have no flaw, ran its kernel, and the reason why that refused, if it did. -/
def applyOperator (g : Graph) (p : Process) : Graph × Option String :=
  let op := p.operator
  let views := op.args.map (g.argView p)
  let iteration := Iteration.ofArgs views op.argSizes (op.args.map (·.array))
  let g := if iteration.truncated && g.config.warn then g.notice (.truncated op.name iteration.count) else g
  let fits := ((views.zip op.argSizes).zip iteration.advancing).all fun ((view, size), advances) =>
    !advances || iteration.count ≤ view.tupleCount size
  let bound := (op.params.zip p.inputs).all fun (param, channel) => param.optional || channel.isSome
  let g := (g.check .broadcastSound fits op.name).check .inputValidated bound op.name
  (g.resizeOutputs p (op.alloc.map fun alloc => alloc views iteration.count) iteration.count).runKernel p views iteration

/-- The graph with the state of a process set. -/
def setState (g : Graph) (id : ProcessId) (state : ProcessState) : Graph :=
  { g with processes := g.processes.modify id ({ · with state }) }

/-- The graph after a process ran, if it had to. -/
def runProcess (g : Graph) (id : ProcessId) : Graph :=
  match g.processes[id]? with
  | none => g
  | some p =>
    if p.state ≠ .unprocessed then g
    else match g.processFlaw p with
      | some flaw => (g.notice flaw).setState id .invalidInput
      | none => match g.applyOperator p with
        | (g, none) => g.setState id .processed
        | (g, some reason) => (g.notice (.operatorFailed id reason)).setState id .invalidInput

/-- The graph after some processes and all that they read from ran, those read first. -/
def runAll (g : Graph) (roots : List ProcessId) : Graph :=
  match Schedule.compile (g.processes.map fun _ p => p.children) roots with
  | .ok order => order.foldl runProcess g
  | .error _ => g

end Graph

end Dataflow
