import Dataflow.Proofs.Feeds
import Dataflow.Proofs.Mirror

/-!
# Sound graphs

What the derived part of a graph promises between calls, and while it builds. Every live instance is faithful: its channels are the
drafts of the feeds that the graph shows, its process reads them, and what it uses serves it. Everything derived is registered where
it is looked up, counted as often as it is used, and made under ids that nothing else has.
-/

namespace Dataflow

/-- The order in which the ports of a node are filled. -/
def Port.rank : Port → Nat
  | .input => 0
  | .extended => 1
  | .output => 2

namespace Substitution

/-- Whether some name is bound to a channel. -/
def Binds (s : Substitution) (c : ChannelId) : Prop := ∃ x, s.get? x = some c

theorem Binds.of_restrict {s : Substitution} {T : NameSet} {c : ChannelId} (h : (s.restrict T).Binds c) : s.Binds c := by
  obtain ⟨x, hx⟩ := h
  rw [get?_restrict] at hx
  split at hx
  · exact ⟨x, hx⟩
  · cases hx

end Substitution

/-- A class of substitutions whose keys tell them apart. -/
structure Regime (R : Substitution → Prop) : Prop where
  empty : R .empty
  restrict : ∀ s T, R s → R (s.restrict T)
  keys : ∀ s t T, R s → R t → s.keyOf T = t.keyOf T → s.AgreeOn t T

namespace Graph

/-! ## Channels and slots -/

/-- A slot holds a live entry: one of its creator's outputs, or one that no process writes. -/
def Grounded (g : Graph) (y : Slot Float32) : Prop :=
  (g.store.typeAt? y.entry).isSome ∧ match y.creator with
    | some p => ∃ q : Process, g.processes[p]? = some q ∧ y.entry ∈ q.outputs.map (·.2)
    | none => ∀ (p : ProcessId) (q : Process), g.processes[p]? = some q → y.entry ∉ q.outputs.map (·.2)

/-- A feed of grounded slots, of a live channel if it is one. -/
def Known (g : Graph) : Feed → Prop
  | .channel c => ∃ o l, g.store.wire? c = some (o, l) ∧ ∀ y ∈ l, g.Grounded y
  | .slot y => g.Grounded y

/-- Whether a live instance holds a channel at one of its ports or in its substitution. -/
def Seen (g : Graph) (c : ChannelId) : Prop :=
  ∃ (id : InstanceId) (i : Instance), g.instances[id]? = some i ∧ (i.substitution.Binds c ∨ ∃ port x, g.chan i.owner port x i.substitution = some c)

/-- The channel of a name at a port shows the draft of what is merged there. -/
def Shown (g : Graph) (n : NodeId) (s : Substitution) (port : Port) (x : String) : Prop :=
  ∃ m, g.mapId n port = some m ∧ g.store.Shows m 0 (g.chan n port x s) (g.store.draft (g.feeds n s x port))

/-- The ports whose channels may be found at a port: those of the node up to it, and those of the nodes that flow into it. -/
def Reaches (g : Graph) (n : NodeId) (port : Port) (m : NodeId) (q : Port) : Prop :=
  (m = n ∧ q.rank ≤ port.rank) ∨ ∃ d, g.design? n = some d ∧
    ((∃ r ∈ inflow d, g.Below r m) ∨ (port = .output ∧ ∃ p, d.proto = some p ∧ g.Below p m))

/-- A channel that the map of a port within reach owns, or that a substitution binds. -/
def Owned (g : Graph) (n : NodeId) (s : Substitution) (port : Port) (c : ChannelId) : Prop :=
  s.Binds c ∨ ∃ o l m q, g.store.wire? c = some (o, l) ∧ g.mapId m q = some o ∧ g.Reaches n port m q

/-- A port is filled for a substitution: every name shows its feeds, which are known and come from within reach. -/
structure Built (g : Graph) (n : NodeId) (s : Substitution) (port : Port) : Prop where
  shown : ∀ x, g.Shown n s port x
  known : ∀ x, ∀ f ∈ g.feeds n s x port, g.Known f
  owned : ∀ x c, .channel c ∈ g.feeds n s x port → g.Owned n s port c

/-! ## Instances and processes -/

/-- `j` is the instance of a node under a substitution. -/
def Serves (g : Graph) (n : NodeId) (s : Substitution) (j : InstanceId) : Prop :=
  ∃ i : Instance, g.instances[j]? = some i ∧ i.owner = n ∧ i.substitution = s.restrict (g.params n)

/-- A process is that of a node under a substitution: it reads and awaits what the names that feed its operator show. -/
structure Runs (g : Graph) (n : NodeId) (s : Substitution) (c : Compute) (op : Operator) (id : ProcessId) (p : Process) :
    Prop where
  owner : p.owner = n
  key : p.key = s.keyOf (g.operatorParams n)
  inputs : p.inputs = (DataNode.inputNames c op).map fun x => g.chan n .input x s
  children : p.children = ((p.inputs.filterMap fun o => o).flatMap g.store.creators).eraseDups
  listens : ∀ ch, some ch ∈ p.inputs → .process id ∈ g.store.listenersOf ch

/-- An instance is what its owner's design and its substitution ask for. -/
structure FaithfulAt (g : Graph) (i : Instance) : Prop where
  inSync : g.InSync i.owner
  key : i.key = i.substitution.fullKey
  bound : ∀ x c, i.substitution.get? x = some c → x ∈ g.params i.owner ∧ c < g.store.channels.next
  children : ∀ d, g.design? i.owner = some d →
    List.Forall₂ (fun r j => g.Serves r i.substitution j) ((inflow d).filter fun r => (g.leaf? r).isNone) i.children
  proto : ∀ d, g.design? i.owner = some d → match d.proto with
    | some p => ∃ j, i.proto = some j ∧ g.Serves p (g.derived i.owner i.substitution) j
    | none => i.proto = none
  process : i.process = g.processOf i.owner i.substitution
  runs : ∀ c op, g.operation? i.owner = some (c, op) →
    ∃ (id : ProcessId) (p : Process), i.process = some id ∧ g.processes[id]? = some p ∧ g.Runs i.owner i.substitution c op id p
  built : ∀ port, g.Built i.owner i.substitution port

/-- A live process runs the operation of its owner and owns its outputs. -/
structure ProcessAt (g : Graph) (id : ProcessId) (p : Process) : Prop where
  inSync : g.InSync p.owner
  operation : ∃ c, g.operation? p.owner = some (c, p.operator) ∧ p.outputs.map (·.1) = DataNode.outputNames c p.operator
  distinct : (p.outputs.map (·.2)).Nodup
  types : p.outputs.map (fun e => g.store.typeAt? e.2) = p.operator.outputs.map fun o => some o.type
  apart : ∀ (id' : ProcessId) (p' : Process), g.processes[id']? = some p' → id' ≠ id → ∀ e ∈ p.outputs.map (·.2), e ∉ p'.outputs.map (·.2)
  children : ∀ j ∈ p.children, j < id ∧ (g.processes[j]?).isSome

/-- The number of instances of a node that share the cell of a name under a key. -/
def sharers (g : Graph) (n : NodeId) (port : Port) (x key : String) : Nat :=
  Table.tally g.instances fun _ i => if i.owner = n ∧ g.keyAt n port x i.substitution = key then 1 else 0

/-- The number of times that instances use an instance. -/
def useCount (g : Graph) (id : InstanceId) : Nat := Table.tally g.instances fun _ i => (usedBy i).count id

/-- The number of instances that run a process. -/
def runCount (g : Graph) (id : ProcessId) : Nat := Table.tally g.instances fun _ i => if i.process = some id then 1 else 0

/-! ## Sound graphs -/

/-- Every port has a map id of its own, of those handed out. -/
structure Anchored (g : Graph) : Prop where
  bounded : ∀ n port m, g.mapId n port = some m → m ≤ g.store.nextMap
  injective : ∀ n port n' port' m, g.mapId n port = some m → g.mapId n' port' = some m → n = n' ∧ port = port'

/-- Instances and processes are found where their owners look them up, under ids that were drawn. -/
structure Registered (g : Graph) : Prop where
  instanceId : ∀ (id : InstanceId) (i : Instance), g.instances[id]? = some i → id ≤ g.lastId
  processId : ∀ (id : ProcessId) (p : Process), g.processes[id]? = some p → id ≤ g.lastId
  memo : ∀ n w k id, g.wiring? n = some w →
    (w.instances[k]? = some id ↔ ∃ i : Instance, g.instances[id]? = some i ∧ i.owner = n ∧ i.key = k)
  processMemo : ∀ n w k id, g.wiring? n = some w →
    (w.processes[k]? = some id ↔ ∃ p : Process, g.processes[id]? = some p ∧ p.owner = n ∧ p.key = k)

/-- Instances and processes are in use, as often as they count; `hands` and `busy` are the uses from outside. -/
structure Counted (hands : List InstanceId) (busy : List ProcessId) (g : Graph) : Prop where
  uses : ∀ (id : InstanceId) (i : Instance), g.instances[id]? = some i → i.uses = g.useCount id + hands.count id ∧ 0 < i.uses
  hands : ∀ id ∈ hands, (g.instances[id]?).isSome
  runs : ∀ (id : ProcessId) (p : Process), g.processes[id]? = some p → p.uses = g.runCount id + busy.count id ∧ 0 < p.uses
  busy : ∀ id ∈ busy, (g.processes[id]?).isSome

/-- Cells hold channels and are used as often as they count; a map's own channel is in one cell of it only. Nodes out of sync
have no cells. -/
structure Stocked (g : Graph) : Prop where
  uses : ∀ n port x k c, g.cell? n port x k = some c → c.uses = g.sharers n port x k
  channel : ∀ n port x k c, g.cell? n port x k = some c → ∃ ch, c.channel = some ch ∧ ch < g.store.channels.next
  sole : ∀ n port x k c x' k' c' ch l m, g.cell? n port x k = some c → g.cell? n port x' k' = some c' → c.channel = some ch →
    c'.channel = some ch → g.mapId n port = some m → g.store.wire? ch = some (m, l) → x = x' ∧ k = k'
  blank : ∀ n port x k, ¬ g.InSync n → g.cell? n port x k = none

/-- What a graph promises as it works, when its substitutions are of a class, and `hands` and `busy` are used from outside. -/
structure Sound (R : Substitution → Prop) (hands : List InstanceId) (busy : List ProcessId) (g : Graph) : Prop where
  authored : g.Authored
  wired : g.Wired
  leaves : ∀ n l e, g.leaf? n = some l → l.entry = some e → g.Grounded { entry := e, key := l.key }
  anchored : g.Anchored
  registered : g.Registered
  faithful : ∀ (id : InstanceId) (i : Instance), g.instances[id]? = some i → g.FaithfulAt i ∧ R i.substitution
  process : ∀ (id : ProcessId) (p : Process), g.processes[id]? = some p → g.ProcessAt id p
  counted : g.Counted hands busy
  stocked : g.Stocked
  mirrored : g.store.Mirrored

/-! ## First consequences -/

section Lookup

variable {g : Graph} {n : NodeId}

theorem InSync.of_data? {d : DataNode} (hd : g.data? n = some d) (hs : d.wiring.outOfSync = false) : g.InSync n :=
  ⟨d.wiring, wiring?_of_data? hd, hs⟩

theorem InSync.exists_data (h : g.InSync n) : ∃ d, g.data? n = some d ∧ d.wiring.outOfSync = false := by
  obtain ⟨w, hw, hs⟩ := h
  obtain ⟨d, hd, rfl⟩ := exists_data_of_wiring? hw
  exact ⟨d, hd, hs⟩

theorem InSync.exists_design (h : g.InSync n) : ∃ d, g.design? n = some d := by
  obtain ⟨d, hd, -⟩ := h.exists_data
  exact ⟨_, design?_of_data? hd⟩

/-- What a node in sync sees of a substitution. -/
theorem InSync.chan_restrict (h : g.InSync n) (hw : g.Wired) (port : Port) (x : String) (s : Substitution) :
    g.chan n port x (s.restrict (g.params n)) = g.chan n port x s := by
  obtain ⟨d, hd, hs⟩ := h.exists_data
  exact (hw n d hd hs).chan_restrict hd port x s

theorem InSync.paramsAt_subset (h : g.InSync n) (hw : g.Wired) {port : Port} {x q : String} (hq : q ∈ g.paramsAt n port x) :
    q ∈ g.params n := by
  obtain ⟨d, hd, hs⟩ := h.exists_data
  exact (hw n d hd hs).paramsAt_subset hd hq

end Lookup

theorem Grounded.of_eq {g : Graph} {x y : Slot Float32} (hx : g.Grounded x) (he : y.entry = x.entry) (hc : y.creator = x.creator) :
    g.Grounded y := by
  rw [Grounded, he, hc]
  exact hx

/-- The slots of a known feed are grounded. -/
theorem Known.grounded {g : Graph} {f : Feed} (h : g.Known f) {y : Slot Float32} (hy : y ∈ g.store.feedSlots f) :
    g.Grounded y := by
  rcases f with c | x
  · obtain ⟨o, l, hw, hl⟩ := h
    rw [Store.feedSlots, Store.slots_of_wire? hw] at hy
    exact hl y hy
  · rw [List.mem_singleton.1 hy]
    exact h

theorem grounded_of_draft {g : Graph} {fs : List Feed} (hf : ∀ f ∈ fs, g.Known f) {d : Draft} (hd : g.store.draft fs = some d)
    {y : Slot Float32} (hy : y ∈ d.slots) : g.Grounded y := by
  obtain ⟨f, hfm, x, hx, he, hc⟩ := Store.of_mem_draft hd hy
  exact ((hf f hfm).grounded hx).of_eq he hc

/-- A channel that shows known feeds is known. -/
theorem Built.known_chan {g : Graph} {n : NodeId} {s : Substitution} {port : Port} (h : g.Built n s port) {x : String}
    {c : ChannelId} (hc : g.chan n port x s = some c) : g.Known (.channel c) := by
  obtain ⟨m, -, hs⟩ := h.shown x
  rw [hc] at hs
  obtain ⟨d, o, hd, hw, -⟩ := hs.of_some
  exact ⟨o, d.slots, hw, fun y hy => grounded_of_draft (h.known x) hd hy⟩

/-- A channel of a filled port is the map's own, or lent from within reach. -/
theorem Built.owned_chan {g : Graph} {n : NodeId} {s : Substitution} {port : Port} (h : g.Built n s port) {x : String}
    {c : ChannelId} (hc : g.chan n port x s = some c) : g.Owned n s port c := by
  obtain ⟨m, hm, hs⟩ := h.shown x
  rw [hc] at hs
  obtain ⟨e, o, he, hw, ⟨hl, -⟩ | ⟨-, rfl, -⟩⟩ := hs.of_some
  · exact h.owned x c (Store.of_lender he hl).1
  · exact .inr ⟨o, _, n, port, hw, hm, .inl ⟨rfl, Nat.le_refl _⟩⟩

/-- There is no channel exactly when nothing is merged. -/
theorem Built.chan_eq_none_iff {g : Graph} {n : NodeId} {s : Substitution} {port : Port} (h : g.Built n s port) {x : String} :
    g.chan n port x s = none ↔ g.feeds n s x port = [] := by
  obtain ⟨m, -, hs⟩ := h.shown x
  rw [← Store.draft_eq_none_iff g.store]
  exact hs.eq_none_iff

section Sharers

variable {g : Graph} {n : NodeId} {port : Port} {x key : String}

/-- A cell is shared exactly when some live instance of the node spells its key. -/
theorem sharers_ne_zero : g.sharers n port x key ≠ 0 ↔
    ∃ (id : InstanceId) (i : Instance), g.instances[id]? = some i ∧ i.owner = n ∧ g.keyAt n port x i.substitution = key := by
  rw [← Nat.pos_iff_ne_zero, sharers, Table.tally_pos]
  constructor
  · rintro ⟨id, i, hi, hpos⟩
    split at hpos
    · rename_i h
      exact ⟨id, i, hi, h⟩
    · exact absurd hpos (Nat.lt_irrefl _)
  · rintro ⟨id, i, hi, h⟩
    exact ⟨id, i, hi, by rw [if_pos h]; exact Nat.one_pos⟩

end Sharers

end Graph

end Dataflow
