import Dataflow.Proofs.Acquire
import Dataflow.Proofs.Calm
import Dataflow.Proofs.Restructure
import Dataflow.Proofs.Subscribe
import Mathlib.Data.Multiset.AddSub

/-!
# Moves: the steps that calls are made of

In the middle of a call a graph does not keep what it promises between calls: a use that was taken is not yet anyone's, a node whose
structure changed is not yet reset, an outlet that was opened has no request. The work in hand says what is missing. A move is one step
from a graph and the work in hand to the next, and every call is a run of moves. So a property of all reachable graphs is an
invariant of graph and work that every move keeps.
-/

namespace Dataflow

/-- An instance that is being built for a node under a substitution: the id that was drawn for it, its process once there is one, and
what the extended port showed. -/
structure Job where
  id : InstanceId
  node : NodeId
  data : DataNode
  sub : Substitution
  process : Option ProcessId := none
  shown : List (String × ChannelId) := []

/-- A node that is being reset, with the processes and the instances that it remembered and that have not gone yet. -/
structure Tear where
  node : NodeId
  processes : List ProcessId
  instances : List InstanceId

/-- The work in hand: the uses of instances and of processes that no instance and no outlet accounts for, the instances that are being
built, innermost first, the nodes that have to be told of a change of structure, the node that is being reset, the nodes of the
instances that were acquired, an outlet that may be without requests, an outlet's place that has to be given up, the entries that
were made from outside, and the requests that were created, with their nodes. -/
structure Work where
  hands : Multiset InstanceId := 0
  busy : Multiset ProcessId := 0
  jobs : List Job := []
  stale : List NodeId := []
  tear : Option Tear := none
  claims : List (InstanceId × NodeId) := []
  bare : Option OutletId := none
  closing : Option (NodeId × String) := none
  made : List EntryId := []
  asked : List (RequestId × NodeId) := []

/-- The instance that a job makes, with the instances of what flows in and of the template. -/
def Job.made (J : Job) (children : List InstanceId) (proto : Option InstanceId) : Instance :=
  { owner := J.node, key := J.sub.fullKey, substitution := J.sub, process := J.process, children, proto }

namespace Work

/-- One use of an instance more in hand. -/
def hold (τ : Work) (id : InstanceId) : Work := { τ with hands := id ::ₘ τ.hands }

/-- A use of every instance of a list more in hand. -/
def holdAll (τ : Work) (ids : List InstanceId) : Work := { τ with hands := ↑ids + τ.hands }

/-- A use of a process more in hand, if there is one. -/
def run (τ : Work) (p : Option ProcessId) : Work := { τ with busy := ↑p.toList + τ.busy }

/-- The instance was acquired for the node, and its use is in hand. -/
def take (τ : Work) (id : InstanceId) (n : NodeId) : Work := { τ with hands := id ::ₘ τ.hands, claims := (id, n) :: τ.claims }

/-- The work with another node being reset. -/
def tearing (τ : Work) (t : Option Tear) : Work := { τ with tear := t }

/-- The work with other nodes to be told. -/
def telling (τ : Work) (ns : List NodeId) : Work := { τ with stale := ns }

/-- The work with other jobs. -/
def doing (τ : Work) (jobs : List Job) : Work := { τ with jobs }

/-- The work with another outlet that may be without requests. -/
def baring (τ : Work) (o : Option OutletId) : Work := { τ with bare := o }

theorem tearing_self {τ : Work} {t : Option Tear} (h : τ.tear = t) : τ.tearing t = τ := by
  subst h
  rfl

theorem telling_self {τ : Work} {ns : List NodeId} (h : τ.stale = ns) : τ.telling ns = τ := by
  subst h
  rfl

/-- A channel that an instance may be acquired under: one that the call binds, or one that the innermost job is under or noted. -/
def Grants (κ : Call) (τ : Work) (c : ChannelId) : Prop :=
  (∃ n s x, κ = .acquireInstance n s ∧ s.get? x = some c) ∨ ∃ J ∈ τ.jobs.head?, ∃ x, J.sub.get? x = some c ∨ (x, c) ∈ J.shown

/-- No change of structure is under way. -/
structure Settled (τ : Work) : Prop where
  stale : τ.stale = []
  tear : τ.tear = none

end Work

/-- The outlet without what it notes of its result. -/
def Outlet.unread (o : Outlet) : Outlet := { o with status := .needsStructure, result := {} }

namespace Graph

/-! ## Changes that moves make -/

/-- A process may keep the plan of its operator for a pattern, under the key of both. -/
def Devises (g : Graph) (key : String) (plan : IterationPlan) : Prop :=
  ∃ (id : ProcessId) (p : Process) (advancing : List Bool), g.processes[id]? = some p ∧
    key = p.operator.name ++ ":" ++ Iteration.pattern advancing ∧ plan = .ofSizes p.operator.argSizes advancing p.operator.outputSizes

/-- The graph with other values, states of processes, results and tags, and with plans that its processes kept. -/
structure Restated (g g' : Graph) : Prop where
  rest : ∃ entries processes outlets requests plans journal,
    g' = { g with store := { g.store with entries }, processes, outlets, requests, plans, journal }
  next : g'.store.entries.next = g.store.entries.next
  entries : ∀ e, (g'.store.entries.get? e).map (fun r => (r.entry.type, r.watchers)) =
    (g.store.entries.get? e).map fun r => (r.entry.type, r.watchers)
  processes : ∀ id : ProcessId, (g'.processes[id]?).map Process.unrun = (g.processes[id]?).map Process.unrun
  outlets : ∀ id : OutletId, (g'.outlets[id]?).map Outlet.unread = (g.outlets[id]?).map Outlet.unread
  requests : ∀ r : RequestId, (g'.requests[r]?).map (·.outlet) = (g.requests[r]?).map (·.outlet)
  plans : ∀ key plan, g'.plans[key]? = some plan → g.plans[key]? = some plan ∨ g.Devises key plan

/-- What is merged at a port of the node of a job: what a node that flows in exposes, or a leaf; what came in and what the process
writes; what the filter selects of that and of what the template exposes. -/
inductive Offers (g : Graph) (J : Job) : Port → List (String × Feed) → Prop where
  | exposed {r : NodeId} (hr : r ∈ inflow J.data.design) (hl : g.leaf? r = none) :
    Offers g J .input ((g.finalChannels r J.sub).map fun e => (e.1, .channel e.2))
  | bound {r : NodeId} {l : Leaf} {c : ChannelId} (hr : r ∈ inflow J.data.design) (hl : g.leaf? r = some l)
    (hc : J.sub.get? l.name = some c) : Offers g J .input [(l.name, .channel c)]
  | leaf {r : NodeId} {l : Leaf} {e : EntryId} (hr : r ∈ inflow J.data.design) (hl : g.leaf? r = some l) (he : l.entry = some e) :
    Offers g J .input [(l.name, .slot { entry := e, key := l.key })]
  | extended : Offers g J .extended (g.shows J.node .input J.sub ++ g.writes J.process)
  | output {template : List (String × ChannelId)}
    (ht : template = [] ∨ ∃ p s, J.data.proto = some p ∧ template = g.finalChannels p s) :
    Offers g J .output ((selectChannels J.data.filter (Dataflow.tableOf (J.shown ++ template))).map fun e => (e.1, .channel e.2))

/-- The graph without a request, which its outlet forgets. -/
def withdraw (g : Graph) (r : RequestId) (id : OutletId) : Graph :=
  { g with requests := g.requests.erase r }.modifyOutlet id fun o => { o with requests := o.requests.erase r }

/-- A payload is refused, or makes an entry. -/
theorem createPayload_cases (g : Graph) (type : DataType) (payload : Payload) :
    (∃ e, g.createPayload type payload = (g, .error e)) ∨
      ∃ x, g.createPayload type payload = ((g.createEntry x).1, .ok (g.createEntry x).2) := by
  rw [createPayload]
  rcases Entry.ofPayload type payload with e | x
  · exact .inl ⟨e, rfl⟩
  · exact .inr ⟨x, rfl⟩

/-- Releasing a request that is there withdraws it, and drops its outlet if that is then asked for no more. -/
theorem releaseRequest_cases (g : Graph) (r : RequestId) : g.releaseRequest r = g ∧ g.requests[r]? = none ∨
    ∃ q : Request, g.requests[r]? = some q ∧
      (g.releaseRequest r = g.withdraw r q.outlet ∧
          (∀ o, (g.withdraw r q.outlet).outlets[q.outlet]? = some o → o.requests.isEmpty = false ∨ o.pinned = true) ∨
        ∃ o, (g.withdraw r q.outlet).outlets[q.outlet]? = some o ∧ o.requests.isEmpty = true ∧ o.pinned = false ∧
          g.releaseRequest r = (g.withdraw r q.outlet).dropOutlet q.outlet o) := by
  rw [releaseRequest]
  rcases g.requests[r]? with _ | q <;> dsimp only
  · exact .inl ⟨rfl, rfl⟩
  refine .inr ⟨q, rfl, ?_⟩
  rw [← withdraw]
  rcases ho : (g.withdraw r q.outlet).outlets[q.outlet]? with _ | o <;> dsimp only
  · exact .inl ⟨rfl, fun _ ho' => by cases ho'⟩
  · by_cases hdrop : (o.requests.isEmpty && !o.pinned) = true
    · obtain ⟨he, hp⟩ := Bool.and_eq_true_iff.1 hdrop
      rw [if_pos hdrop]
      exact .inr ⟨o, rfl, he, Bool.not_eq_true' _ ▸ hp, rfl⟩
    · rw [if_neg hdrop]
      rw [Bool.and_eq_true_iff, Bool.not_eq_true', not_and_or, Bool.not_eq_true, Bool.not_eq_false] at hdrop
      refine .inl ⟨rfl, fun o' ho' => ?_⟩
      cases ho'
      exact hdrop

/-- The graph in which an outlet holds an instance and listens to the channels that it publishes. -/
def attach (g : Graph) (id : OutletId) (held : Option InstanceId) (channels : NameMap ChannelId) : Graph :=
  { g with store := g.store.listenAll (.outlet id) channels.values }.modifyOutlet id ({ · with held, channels })

/-- The graph without a node, its outlets and their requests. -/
def cutOff (g : Graph) (n : NodeId) : Graph :=
  { g with
    requests := ((g.outletsOf n).flatMap g.requestsAt).foldl (fun m id => m.erase id) g.requests
    outlets := (g.outletsOf n).foldl (fun m id => m.erase id) g.outlets
    nodes := g.nodes.erase n }

/-- A node that is not in sync, if it is a data node at all. -/
def Unsynced (g : Graph) (n : NodeId) : Prop := ∀ w, g.wiring? n = some w → w.outOfSync = true

/-! ## Moves -/

/-- One step of a call from a graph, with the work in hand, to the next. -/
inductive Move (κ : Call) : Work → Graph → Work → Graph → Prop where
  /-- Values, states, results and notes change. -/
  | restate {τ : Work} {g g' : Graph} (h : g.Restated g') : Move κ τ g τ g'
  /-- Parents change. -/
  | reparent {τ : Work} {g g' : Graph} (h : g.Noted g') : Move κ τ g τ g'
  /-- A node and all below it get in sync. -/
  | sync {τ : Work} {g : Graph} (n : NodeId) (hτ : τ.Settled) (ha : g.Authored) : Move κ τ g τ (g.synchronize n)
  /-- A remembered instance is acquired. -/
  | reuse {τ : Work} {g : Graph} {n : NodeId} {d : DataNode} {key : String} {id : InstanceId} {i : Instance} (hτ : τ.Settled)
    (hd : g.data? n = some d) (hs : d.wiring.outOfSync = false) (hk : d.wiring.instances[key]? = some id)
    (hi : g.instances[id]? = some i) :
    Move κ τ g (τ.take id n) { g with instances := g.instances.insert id { i with uses := i.uses + 1 } }
  /-- The making of an instance begins: an id is drawn. -/
  | start {τ : Work} {g : Graph} {n : NodeId} {d : DataNode} {s : Substitution} (hτ : τ.Settled) (ha : g.Authored)
    (hd : g.data? n = some d) (hs : d.wiring.outOfSync = false)
    (hk : ∀ id, d.wiring.instances[(s.restrict d.wiring.params).fullKey]? = some id → g.instances[id]? = none)
    (hnest : ∀ J ∈ τ.jobs.head?, n ∈ J.data.references) (hgrant : ∀ x c, s.get? x = some c → τ.Grants κ c) :
    Move κ τ g (τ.doing ({ id := g.lastId + 1, node := n, data := d, sub := s.restrict d.wiring.params } :: τ.jobs)) (g.drawId).1
  /-- Feeds are merged at a port of the node of the innermost job. -/
  | merge {τ : Work} {g : Graph} {J : Job} {jobs : List Job} {port : Port} {fs : List (String × Feed)} (hj : τ.jobs = J :: jobs)
    (ho : g.Offers J port fs) : Move κ τ g τ (g.mergeFeeds J.node port J.sub fs)
  /-- The process of the innermost job is acquired. -/
  | operate {τ : Work} {g : Graph} {J : Job} {jobs : List Job} (hj : τ.jobs = J :: jobs) :
    Move κ τ g ((τ.doing ({ J with process := (g.acquireProcess J.node J.sub).2 } :: jobs)).run (g.acquireProcess J.node J.sub).2)
      (g.acquireProcess J.node J.sub).1
  /-- What the extended port of the node of the innermost job shows is noted. -/
  | view {τ : Work} {g : Graph} {J : Job} {jobs : List Job} (hj : τ.jobs = J :: jobs) :
    Move κ τ g (τ.doing ({ J with shown := ((g.wiring? J.node).map (·.extended.resolve J.sub)).getD [] } :: jobs)) g
  /-- The innermost job is done: its instance is live, and uses what was acquired for it. -/
  | finish {τ : Work} {g : Graph} {J : Job} {jobs : List Job} {hands : Multiset InstanceId} {busy : Multiset ProcessId}
    (children : List InstanceId) (proto : Option InstanceId) (hj : τ.jobs = J :: jobs) (ha : g.Authored)
    (hh : τ.hands = ↑(usedBy (J.made children proto)) + hands) (hb : τ.busy = ↑J.process.toList + busy) :
    Move κ τ g ({ τ with hands, busy, jobs }.take J.id J.node) (g.enlist J.id (J.made children proto))
  /-- One of several users of an instance leaves. -/
  | lessen {τ : Work} {g : Graph} {id : InstanceId} {i : Instance} (hτ : τ.jobs = []) (hi : g.instances[id]? = some i) (hu : 1 < i.uses) :
    Move κ (τ.hold id) g τ { g with instances := g.instances.insert id { i with uses := i.uses - 1 } }
  /-- The last user of an instance leaves. -/
  | dismantle {τ : Work} {g : Graph} {id : InstanceId} {i : Instance} (hτ : τ.jobs = []) (hi : g.instances[id]? = some i)
    (hu : ¬ 1 < i.uses) : Move κ (τ.hold id) g ((τ.holdAll (usedBy i)).run i.process) (g.dismantle id i)
  /-- A use of an instance that has gone ends. -/
  | miss {τ : Work} {g : Graph} {id : InstanceId} (hi : g.instances[id]? = none) : Move κ (τ.hold id) g τ g
  /-- A use of a process ends. -/
  | giveBack {τ : Work} {g : Graph} (p : Option ProcessId) (hτ : τ.jobs = []) : Move κ (τ.run p) g τ (g.giveBack p)
  /-- The reset of a node begins. -/
  | unwire {τ : Work} {g : Graph} {n : NodeId} {w : Wiring} (hτ : τ.jobs = []) (ht : τ.tear = none) (hw : g.wiring? n = some w)
    (hup : n ∈ τ.stale ∨ ∀ m, n ∉ g.references m) :
    Move κ τ g (τ.tearing (some ⟨n, w.processes.values, w.instances.values⟩)) (g.modifyWiring n Wiring.unwired)
  /-- A process of the node that is being reset goes. -/
  | destroy {τ : Work} {g : Graph} {n : NodeId} {p : ProcessId} {ps : List ProcessId} {is : List InstanceId} (hτ : τ.jobs = [])
    (ht : τ.tear = some ⟨n, p :: ps, is⟩) : Move κ τ g (τ.tearing (some ⟨n, ps, is⟩)) (g.destroyProcess p)
  /-- An instance of the node that is being reset goes. -/
  | discard {τ : Work} {g : Graph} {n : NodeId} {id : InstanceId} {is : List InstanceId} {i : Instance}
    (hτ : τ.jobs = []) (ht : τ.tear = some ⟨n, [], id :: is⟩) (hi : g.instances[id]? = some i) :
    Move κ τ g ((τ.tearing (some ⟨n, [], is⟩)).holdAll (usedBy i)) { g with instances := g.instances.erase id }
  /-- An instance of the node that is being reset has gone already. -/
  | pass {τ : Work} {g : Graph} {n : NodeId} {id : InstanceId} {is : List InstanceId} (hτ : τ.jobs = [])
    (ht : τ.tear = some ⟨n, [], id :: is⟩) (hi : g.instances[id]? = none) : Move κ τ g (τ.tearing (some ⟨n, [], is⟩)) g
  /-- The ports of the node that is being reset are emptied. -/
  | empty {τ : Work} {g : Graph} {n : NodeId} (hτ : τ.jobs = []) (ht : τ.tear = some ⟨n, [], []⟩) :
    Move κ τ g (τ.tearing none) ([Port.input, .extended, .output].foldl (fun g port => g.clearPort n port) g)
  /-- An outlet of a node that was reset has to rebuild. -/
  | hush {τ : Work} {g : Graph} {n : NodeId} {d : DataNode} {id : OutletId} (ht : τ.tear = none) (hc : τ.closing = none)
    (hd : g.data? n = some d) (hs : d.wiring.outOfSync = true) (hid : id ∈ d.outlets.values) : Move κ τ g τ (g.hush id)
  /-- A node was told of a change of structure. -/
  | told {τ : Work} {g : Graph} {n : NodeId} {ns : List NodeId} (hst : τ.stale = n :: ns) (ht : τ.tear = none) (hs : g.Unsynced n) :
    Move κ τ g (τ.telling ns) g
  /-- A node is edited; it and all above it have to be told. -/
  | edit {τ : Work} {g g' : Graph} {p : NodeId} (hτ : τ.Settled) (hj : τ.jobs = []) (h : Touched κ g g' p) :
    Move κ τ g (τ.telling (g'.ancestors p)) g'
  /-- A leaf is made. -/
  | addLeaf {τ : Work} {g : Graph} (hτ : τ.jobs = []) : Move κ τ g τ g.createLeaf
  /-- A data node is made. -/
  | addData {τ : Work} {g : Graph} (isProto : Bool) (hτ : τ.jobs = []) : Move κ τ g τ (g.createData isProto)
  /-- An entry is made from outside. -/
  | addEntry {τ : Work} {g : Graph} (e : Entry) :
    Move κ τ g { τ with made := g.store.entries.next :: τ.made } (g.createEntry e).1
  /-- An outlet is opened. -/
  | openOutlet {τ : Work} {g : Graph} {n : NodeId} {d : DataNode} {filter : List String} (hτ : τ.bare = none) (hc : τ.closing = none)
    (hd : g.data? n = some d) (hk : ∀ id, d.outlets[outletKey filter]? = some id → g.outlets[id]? = none) :
    Move κ τ g (τ.baring (some (g.lastId + 1))) (g.openOutlet n filter)
  /-- A request is created at an outlet. -/
  | enroll {τ : Work} {g : Graph} {id : OutletId} {o : Outlet} (ho : g.outlets[id]? = some o) (hb : ∀ b ∈ τ.bare, b = id) :
    Move κ τ g { τ with bare := none, asked := (g.lastId + 1, o.owner) :: τ.asked } (g.enroll id)
  /-- An outlet is pinned. -/
  | pin {τ : Work} {g : Graph} {id : OutletId} (hc : ∃ n names, κ = .pullNode n names) (hb : ∀ b ∈ τ.bare, b = id) :
    Move κ τ g (τ.baring none) (g.modifyOutlet id ({ · with pinned := true }))
  /-- An outlet stops listening. -/
  | unsubscribe {τ : Work} {g : Graph} (id : OutletId) : Move κ τ g τ (g.unsubscribe id)
  /-- An outlet gives up the instance that it holds. -/
  | giveUp {τ : Work} {g : Graph} {id : OutletId} {o : Outlet} {j : InstanceId} (ho : g.outlets[id]? = some o) (hh : o.held = some j) :
    Move κ τ g (τ.hold j) (g.modifyOutlet id ({ · with held := none }))
  /-- An outlet holds what was acquired for it and listens to what it publishes. -/
  | attach {τ : Work} {g : Graph} {id : OutletId} {o : Outlet} {held : Option InstanceId} {channels : NameMap ChannelId}
    (ho : g.outlets[id]? = some o) (hn : o.held = none) (hc : o.channels = ∅) (hcl : ∀ j ∈ held, (j, o.owner) ∈ τ.claims)
    (hex : ∀ c ∈ channels.values, ∃ x s, (x, c) ∈ g.finalChannels o.owner s) :
    Move κ (τ.holdAll held.toList) g τ (g.attach id held channels)
  /-- A request is given up. -/
  | withdraw {τ : Work} {g : Graph} {r : RequestId} {q : Request} (hτ : τ.bare = none) (hr : g.requests[r]? = some q) :
    Move κ τ g { τ with bare := some q.outlet, asked := τ.asked.filter (·.1 ≠ r) } (g.withdraw r q.outlet)
  /-- Something that is no request is given up. -/
  | unasked {τ : Work} {g : Graph} {r : RequestId} (hr : g.requests[r]? = none) :
    Move κ τ g { τ with asked := τ.asked.filter (·.1 ≠ r) } g
  /-- An outlet is still asked for. -/
  | keep {τ : Work} {g : Graph} {id : OutletId} (hb : τ.bare = some id)
    (ho : ∀ o : Outlet, g.outlets[id]? = some o → o.requests.isEmpty = false ∨ o.pinned = true) : Move κ τ g (τ.baring none) g
  /-- An outlet that nobody asks for is closed. -/
  | close {τ : Work} {g : Graph} {id : OutletId} {o : Outlet} (hb : τ.bare = some id) (hτ : τ.closing = none)
    (ho : g.outlets[id]? = some o) (he : o.requests.isEmpty = true) (hp : o.pinned = false) (hc : o.channels = ∅) :
    Move κ τ g ({ τ with bare := none, closing := some (o.owner, outletKey o.filter) }.holdAll o.held.toList)
      { g with outlets := g.outlets.erase id }
  /-- A node forgets an outlet that was closed. -/
  | forget {τ : Work} {g : Graph} {n : NodeId} {k : String} (hc : τ.closing = some (n, k)) :
    Move κ τ g { τ with closing := none } (g.modifyData n fun d => { d with outlets := d.outlets.erase k })
  /-- A node goes that nobody refers to and that was reset. -/
  | uproot {τ : Work} {g : Graph} {n : NodeId} (hτ : τ.Settled) (hj : τ.jobs = []) (hc : τ.closing = none)
    (hrefs : ∀ m, n ∉ g.references m) (hs : g.Unsynced n)
    (hidle : ∀ id ∈ g.outletsOf n, ∀ o : Outlet, g.outlets[id]? = some o → o.held = none ∧ o.channels = ∅) :
    Move κ τ g { τ with asked := τ.asked.filter (·.2 ≠ n) } (g.cutOff n)
  /-- It is no longer of interest for which nodes instances were acquired. -/
  | disclaim {τ : Work} {g : Graph} {claims : List (InstanceId × NodeId)} (h : claims ⊆ τ.claims) :
    Move κ τ g { τ with claims } g

/-- A run of moves. -/
inductive Moves (κ : Call) : Work → Graph → Work → Graph → Prop where
  | refl (τ : Work) (g : Graph) : Moves κ τ g τ g
  | head {τ τ' τ'' : Work} {g g' g'' : Graph} (h : Move κ τ g τ' g') (rest : Moves κ τ' g' τ'' g'') : Moves κ τ g τ'' g''

variable {κ : Call} {τ τ' τ'' : Work} {g g' g'' : Graph}

theorem Move.moves (h : Move κ τ g τ' g') : Moves κ τ g τ' g' := .head h (.refl _ _)

theorem Moves.trans (h : Moves κ τ g τ' g') (h' : Moves κ τ' g' τ'' g'') : Moves κ τ g τ'' g'' := by
  induction h with
  | refl => exact h'
  | head m _ ih => exact .head m (ih h')

theorem Moves.tail (h : Moves κ τ g τ' g') (m : Move κ τ' g' τ'' g'') : Moves κ τ g τ'' g'' := h.trans m.moves

/-- What every move keeps, a run of moves keeps. -/
theorem Moves.keeps {I : Work → Graph → Prop} (hI : ∀ τ g τ' g', Move κ τ g τ' g' → I τ g → I τ' g') (h : Moves κ τ g τ' g')
    (hi : I τ g) : I τ' g' := by
  induction h with
  | refl => exact hi
  | head m _ ih => exact ih (hI _ _ _ _ m hi)

/-! ## Restating -/

theorem Restated.refl (g : Graph) : g.Restated g :=
  ⟨⟨_, _, _, _, _, _, rfl⟩, rfl, fun _ => rfl, fun _ => rfl, fun _ => rfl, fun _ => rfl, fun _ _ hk => .inl hk⟩

theorem Restated.trans (h : g.Restated g') (h' : g'.Restated g'') : g.Restated g'' := by
  refine ⟨?_, h'.next.trans h.next, fun e => (h'.entries e).trans (h.entries e), fun id => (h'.processes id).trans (h.processes id),
    fun id => (h'.outlets id).trans (h.outlets id), fun r => (h'.requests r).trans (h.requests r), fun key plan hk => ?_⟩
  · obtain ⟨_, _, _, _, _, _, rfl⟩ := h.rest
    obtain ⟨_, _, _, _, _, _, rfl⟩ := h'.rest
    exact ⟨_, _, _, _, _, _, rfl⟩
  · rcases h'.plans key plan hk with hk | ⟨id, p', advancing, hp', hkey, hplan⟩
    · exact h.plans key plan hk
    · -- a process has the operator that it had before
      have hsame := h.processes id
      rw [hp', Option.map_some, eq_comm, Option.map_eq_some_iff] at hsame
      obtain ⟨p, hp, he⟩ := hsame
      have hop : p.unrun.operator = p'.unrun.operator := congrArg Process.operator he
      change p.operator = p'.operator at hop
      exact .inr ⟨id, p, advancing, hp, hop ▸ hkey, hop ▸ hplan⟩

theorem Restated.foldl {α : Type} {f : Graph → α → Graph} (hf : ∀ (g : Graph) a, g.Restated (f g a)) :
    ∀ (l : List α) (g : Graph), g.Restated (l.foldl f g)
  | [], g => refl g
  | a :: l, g => (hf g a).trans (foldl hf l (f g a))

/-- Only the journal changes. -/
theorem restated_aside (g : Graph) (journal : Journal) : g.Restated { g with journal } :=
  ⟨⟨_, _, _, _, _, _, rfl⟩, rfl, fun _ => rfl, fun _ => rfl, fun _ => rfl, fun _ => rfl, fun _ _ hk => .inl hk⟩

theorem restated_check (g : Graph) (i : Invariant) (b : Bool) (t : String) : g.Restated (g.check i b t) := restated_aside g _

theorem moves_check (τ : Work) (g : Graph) (i : Invariant) (b : Bool) (t : String) : Moves κ τ g τ (g.check i b t) :=
  (Move.restate (restated_check g i b t)).moves

end Graph

end Dataflow
