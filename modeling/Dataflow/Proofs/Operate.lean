import Dataflow.Graph.Instantiate
import Dataflow.Proofs.Agree
import Dataflow.Proofs.Filling

/-!
# Acquiring a process

A data node with an operator runs one process for every key that its substitutions spell of the operator's parameters. Acquiring it
gives the one that is registered, which reads what the node's input shows, or makes one with new entries for its outputs. No channel
changes but in who listens to it.
-/

namespace Dataflow

namespace Store

/-- The store in which a listener listens to some channels. -/
def listenAll (s : Store) (l : Listener) (cs : List ChannelId) : Store := cs.foldl (fun s c => s.listen c l) s

theorem wire?_listenAll (s : Store) (l : Listener) (cs : List ChannelId) (c : ChannelId) :
    (s.listenAll l cs).wire? c = s.wire? c := by
  rw [listenAll]
  induction cs generalizing s with
  | nil => rfl
  | cons a cs ih => rw [List.foldl_cons, ih, wire?_listen]

theorem mem_listenersOf_listenAll (s : Store) (l l' : Listener) (cs : List ChannelId) (c : ChannelId) :
    l' ∈ (s.listenAll l cs).listenersOf c ↔ l' ∈ s.listenersOf c ∨ (c ∈ cs ∧ l' = l ∧ (s.wire? c).isSome) := by
  rw [listenAll]
  induction cs generalizing s with
  | nil => simp
  | cons a cs ih =>
    rw [List.foldl_cons, ih, mem_listenersOf_listen, wire?_listen, List.mem_cons, ← isSome_wire?]
    tauto

theorem listenAll_fields (s : Store) (l : Listener) (cs : List ChannelId) :
    (s.listenAll l cs).entries = s.entries ∧ (s.listenAll l cs).channels.next = s.channels.next ∧
      (s.listenAll l cs).nextMap = s.nextMap ∧ (s.listenAll l cs).tolerance = s.tolerance := by
  rw [listenAll]
  induction cs generalizing s with
  | nil => exact ⟨rfl, rfl, rfl, rfl⟩
  | cons a cs ih => exact ih (s.listen a l)

theorem mirrored_listenAll {s : Store} (h : s.Mirrored) (l : Listener) (cs : List ChannelId) : (s.listenAll l cs).Mirrored := by
  rw [listenAll]
  induction cs generalizing s with
  | nil => exact h
  | cons a cs ih => exact ih (mirrored_listen h a l)

/-- The store with empty entries more, of the given types in turn. -/
def pushEmpties (s : Store) (types : List DataType) : Store := types.foldl (fun s t => s.pushEntry (.empty t)) s

theorem pushEmpties_fields (s : Store) (types : List DataType) :
    (s.pushEmpties types).channels = s.channels ∧ (s.pushEmpties types).nextMap = s.nextMap ∧
      (s.pushEmpties types).tolerance = s.tolerance := by
  rw [pushEmpties]
  induction types generalizing s with
  | nil => exact ⟨rfl, rfl, rfl⟩
  | cons t types ih => exact ih (s.pushEntry (.empty t))

theorem mirrored_pushEmpties {s : Store} (h : s.Mirrored) (types : List DataType) : (s.pushEmpties types).Mirrored := by
  rw [pushEmpties]
  induction types generalizing s with
  | nil => exact h
  | cons t types ih => exact ih (mirrored_pushEntry h (.empty t))

theorem entryAt?_eq_none_of_le {s : Store} {e : EntryId} (h : s.entries.next ≤ e) : s.entryAt? e = none := by
  rcases hx : s.entryAt? e with _ | x
  · rfl
  · exact absurd (lt_next_of_entryAt? hx) (Nat.not_lt.2 h)

/-- The new entries come after those that were there, in the order of their types. -/
theorem entryAt?_pushEmpties (s : Store) (types : List DataType) (e : EntryId) :
    (s.pushEmpties types).entryAt? e =
      if e < s.entries.next then s.entryAt? e else (types[e - s.entries.next]?).map .empty := by
  rw [pushEmpties]
  induction types generalizing s with
  | nil =>
    rw [List.foldl_nil]
    split
    · rfl
    · rename_i h
      rw [entryAt?_eq_none_of_le (Nat.not_lt.1 h)]
      rfl
  | cons t types ih =>
    rw [List.foldl_cons, ih, entryAt?_pushEntry]
    change (if e < s.entries.next + 1 then _ else (types[e - (s.entries.next + 1)]?).map _) = _
    by_cases h : e < s.entries.next
    · rw [if_pos (Nat.lt_succ_of_lt h), if_neg (Nat.ne_of_lt h), if_pos h]
    · by_cases he : e = s.entries.next
      · subst he
        rw [if_pos (Nat.lt_succ_self _), if_pos rfl, if_neg h, Nat.sub_self]
        rfl
      · have hlt : s.entries.next + 1 ≤ e := by
          have : s.entries.next ≠ e := fun h => he h.symm
          exact Nat.lt_of_le_of_ne (Nat.not_lt.1 h) this
        rw [if_neg (Nat.not_lt.2 hlt), if_neg h]
        obtain ⟨k, rfl⟩ := Nat.exists_eq_add_of_le hlt
        rw [Nat.add_sub_cancel_left, Nat.add_assoc, Nat.add_sub_cancel_left, Nat.add_comm 1 k]
        rfl

end Store

namespace Graph

theorem map_mapIdx {α β γ : Type} (l : List α) (f : Nat → α → β) (h : β → γ) :
    (l.mapIdx f).map h = l.mapIdx fun i a => h (f i a) := List.ext_getElem (by simp) fun i h1 h2 => by simp

/-- The outputs of a new process: the names of its operator's outputs, with the next entries in turn. -/
def newOutputs (g : Graph) (c : Compute) (op : Operator) : List (String × EntryId) :=
  op.outputs.mapIdx fun i o => (c.outputs.outputName i o.name, g.store.entries.next + i)

theorem createOutputs_eq (g : Graph) (c : Compute) (op : Operator) :
    g.createOutputs c op =
      ({ g with store := g.store.pushEmpties (op.outputs.map OutputDecl.type) }, g.newOutputs c op) := by
  have key : ∀ (l : List (String × DataType)) (g : Graph) (acc : List (String × EntryId)),
      l.foldl (fun e o => ({ e.1 with store := e.1.store.pushEntry (.empty o.2) }, e.2 ++ [(o.1, e.1.store.entries.next)])) (g, acc) =
      ({ g with store := g.store.pushEmpties (l.map (·.2)) }, acc ++ l.mapIdx fun i e => (e.1, g.store.entries.next + i)) := by
    intro l
    induction l with
    | nil =>
      intro g acc
      simp [Store.pushEmpties]
    | cons e l ih =>
      intro g acc
      rw [List.foldl_cons, ih, List.mapIdx_cons]
      rw [List.append_assoc, List.singleton_append]
      have hidx : (l.mapIdx fun i e => (e.1, (g.store.pushEntry (.empty e.2)).entries.next + i)) =
          l.mapIdx fun i e => (e.1, g.store.entries.next + (i + 1)) := by
        congr 1
        funext i e
        exact congrArg (e.1, ·) (by rw [Nat.add_comm i 1, ← Nat.add_assoc]; rfl)
      exact congrArg (fun t => (_, acc ++ (e.1, g.store.entries.next + 0) :: t)) hidx
  refine (key _ g []).trans ?_
  rw [newOutputs, List.nil_append, List.mapIdx_mapIdx, map_mapIdx]
  refine Prod.ext (congrArg (fun t => { g with store := g.store.pushEmpties t }) ?_) rfl
  exact List.ext_getElem (by simp) fun i h1 h2 => by simp

theorem map_fst_newOutputs (g : Graph) (c : Compute) (op : Operator) :
    (g.newOutputs c op).map (·.1) = DataNode.outputNames c op := by
  rw [newOutputs, map_mapIdx]
  rfl

theorem mem_newOutputs {g : Graph} {c : Compute} {op : Operator} {e : EntryId} (h : e ∈ (g.newOutputs c op).map (·.2)) :
    g.store.entries.next ≤ e := by
  rw [newOutputs, map_mapIdx, List.mem_mapIdx] at h
  obtain ⟨i, -, rfl⟩ := h
  exact Nat.le_add_right _ _

theorem nodup_newOutputs (g : Graph) (c : Compute) (op : Operator) : ((g.newOutputs c op).map (·.2)).Nodup := by
  rw [newOutputs, map_mapIdx]
  refine List.nodup_iff_injective_get.2 fun i j h => ?_
  simp only [List.get_eq_getElem, List.getElem_mapIdx] at h
  exact Fin.ext (Nat.add_left_cancel h)

/-- The types of the new entries are those of the operator's outputs. -/
theorem types_newOutputs (g : Graph) (c : Compute) (op : Operator) :
    (g.newOutputs c op).map (fun e => (g.store.pushEmpties (op.outputs.map OutputDecl.type)).typeAt? e.2) =
      op.outputs.map fun o => some o.type := by
  refine List.ext_getElem (by simp [newOutputs]) fun i h1 h2 => ?_
  simp only [newOutputs, List.getElem_map, List.getElem_mapIdx]
  rw [Store.typeAt?, Store.entryAt?_pushEmpties, if_neg (Nat.not_lt.2 (Nat.le_add_right _ _)), Nat.add_sub_cancel_left]
  rw [List.length_map] at h2
  rw [List.getElem?_map, List.getElem?_eq_getElem h2]
  rfl

/-! ## Changes of what nodes register -/

/-- The nodes of two graphs differ in what data nodes register at most. -/
structure Relisted (g g' : Graph) : Prop where
  registry : g'.registry = g.registry
  rewired : Rewired (fun _ w w' => ∃ is ps, w' = { w with instances := is, processes := ps }) g g'

namespace Relisted

variable {g g' : Graph}

theorem of_nodes_eq (hr : g'.registry = g.registry) (h : g'.nodes = g.nodes) : g.Relisted g' := ⟨hr, .of_nodes_eq h⟩

/-- Changing what one node registers. -/
theorem of_modifyWiring (g : Graph) (n : NodeId) (f : Wiring → Wiring)
    (hf : ∀ w, ∃ is ps, f w = { w with instances := is, processes := ps }) : g.Relisted (g.modifyWiring n f) :=
  ⟨rfl, (rewired_modifyWiring g n f).mono fun _ w _ ⟨_, h⟩ => h ▸ hf w⟩

variable (h : g.Relisted g')

include h

theorem sameDesign : g.SameDesign g' := h.rewired.sameDesign h.registry

theorem data (n : NodeId) : g'.data? n = g.data? n ∨
    ∃ d is ps, g.data? n = some d ∧ g'.data? n = some { d with wiring := { d.wiring with instances := is, processes := ps } } := by
  rcases h.rewired.data? n with hn | ⟨d, w, hd, ⟨is, ps, rfl⟩, hd'⟩
  · exact .inl hn
  · exact .inr ⟨d, is, ps, hd, hd'⟩

theorem wiring (n : NodeId) : g'.wiring? n = g.wiring? n ∨
    ∃ w is ps, g.wiring? n = some w ∧ g'.wiring? n = some { w with instances := is, processes := ps } := by
  rcases h.data n with hn | ⟨d, is, ps, hd, hd'⟩
  · exact .inl (by rw [wiring?, hn, wiring?])
  · exact .inr ⟨d.wiring, is, ps, wiring?_of_data? hd, wiring?_of_data? hd'⟩

theorem map (n : NodeId) (port : Port) : (g'.wiring? n).map (·.map port) = (g.wiring? n).map (·.map port) := by
  rcases h.wiring n with hn | ⟨w, is, ps, hw, hw'⟩
  · rw [hn]
  · rw [hw, hw']
    cases port <;> rfl

theorem table (n : NodeId) (port : Port) : g'.table n port = g.table n port := by
  have hm := congrArg (fun o => (o.map ChannelMap.table).getD ∅) (h.map n port)
  simp only [Option.map_map] at hm
  exact hm

theorem paramsAt (n : NodeId) (port : Port) (x : String) : g'.paramsAt n port x = g.paramsAt n port x := by
  rw [Graph.paramsAt, h.table, Graph.paramsAt]

theorem keyAt (n : NodeId) (port : Port) (x : String) (s : Substitution) : g'.keyAt n port x s = g.keyAt n port x s := by
  rw [Graph.keyAt, h.paramsAt, Graph.keyAt]

theorem cell? (n : NodeId) (port : Port) (x k : String) : g'.cell? n port x k = g.cell? n port x k := by
  have hm := congrArg (fun o => o.bind fun m => ChannelMap.at? m x k) (h.map n port)
  simp only [Option.bind_map] at hm
  exact hm

theorem chan (n : NodeId) (port : Port) (x : String) (s : Substitution) : g'.chan n port x s = g.chan n port x s := by
  rw [Graph.chan, h.keyAt, h.cell?, Graph.chan]

theorem mapId (n : NodeId) (port : Port) : g'.mapId n port = g.mapId n port := by
  have hm := congrArg (fun o => o.map ChannelMap.id) (h.map n port)
  simp only [Option.map_map] at hm
  exact hm

theorem params (n : NodeId) : g'.params n = g.params n := by
  rw [Graph.params, Graph.params]
  rcases h.wiring n with hn | ⟨w, is, ps, hw, hw'⟩
  · rw [hn]
  · rw [hw, hw']
    rfl

theorem operatorParams (n : NodeId) : g'.operatorParams n = g.operatorParams n := by
  rw [Graph.operatorParams, Graph.operatorParams]
  rcases h.wiring n with hn | ⟨w, is, ps, hw, hw'⟩
  · rw [hn]
  · rw [hw, hw']
    rfl

theorem operation? (n : NodeId) : g'.operation? n = g.operation? n := by
  rw [Graph.operation?, Graph.operation?]
  rcases h.data n with hn | ⟨d, is, ps, hd, hd'⟩
  · rw [hn]
  · rw [hd, hd']
    rfl

theorem inSync {n : NodeId} : g'.InSync n ↔ g.InSync n := by
  rcases h.wiring n with hn | ⟨w, is, ps, hw, hw'⟩
  · rw [InSync, InSync, hn]
  · rw [InSync, InSync, hw, hw']
    simp

theorem wired (hw : g.Wired) : g'.Wired := by
  intro n d hd hs
  have hdata : ∀ r e, g'.data? r = some e → ∃ e', g.data? r = some e' ∧ e'.design = e.design ∧
      e'.wiring.outOfSync = e.wiring.outOfSync ∧ e'.wiring.tables = e.wiring.tables ∧ e'.wiring.params = e.wiring.params := by
    intro r e he
    rcases h.data r with hr | ⟨d', is, ps, hd', hd''⟩
    · exact ⟨e, hr ▸ he, rfl, rfl, rfl, rfl⟩
    · rw [he] at hd''
      cases hd''
      exact ⟨d', hd', rfl, rfl, rfl, rfl⟩
  obtain ⟨d', hd', hdes, hs', ht, hp⟩ := hdata n d hd
  refine (hw n d' hd' (hs'.trans hs)).congr h.registry hdes.symm ht.symm hp.symm (fun r _ => h.sameDesign.leaf r)
    (fun r _ => h.table r .output) fun r hr e he => ?_
  obtain ⟨e', he', -, hs'', -, -⟩ := hdata r e he
  rw [← hs'']
  exact (hw n d' hd' (hs'.trans hs)).below r hr e' he'

end Relisted

/-! ## Acquiring a process -/

section Process

variable {g : Graph} {n : NodeId} {s : Substitution} {c : Compute} {op : Operator}

/-- The inputs of the process of a node under a substitution. -/
def inputsOf (g : Graph) (n : NodeId) (s : Substitution) (c : Compute) (op : Operator) : List (Option ChannelId) :=
  (DataNode.inputNames c op).map fun x => g.chan n .input x s

/-- The channels that are bound among inputs. -/
def boundOf (inputs : List (Option ChannelId)) : List ChannelId := inputs.filterMap fun o => o

theorem mem_boundOf {inputs : List (Option ChannelId)} {ch : ChannelId} : ch ∈ boundOf inputs ↔ some ch ∈ inputs := by
  rw [boundOf, List.mem_filterMap]
  simp

/-- A new process of a node under a substitution. -/
def newProcess (g : Graph) (n : NodeId) (s : Substitution) (c : Compute) (op : Operator) : Process :=
  { owner := n, key := s.keyOf (g.operatorParams n), operator := op, inputs := g.inputsOf n s c op
    outputs := g.newOutputs c op
    children := ((boundOf (g.inputsOf n s c op)).flatMap g.store.creators).eraseDups }

/-- The graph with a new process. -/
def withProcess (g : Graph) (n : NodeId) (s : Substitution) (c : Compute) (op : Operator) : Graph :=
  { g with
    lastId := g.lastId + 1
    store := (g.store.listenAll (.process (g.lastId + 1)) (boundOf (g.inputsOf n s c op))).pushEmpties (op.outputs.map OutputDecl.type)
    processes := g.processes.insert (g.lastId + 1) (g.newProcess n s c op) }.modifyWiring n fun w =>
      { w with processes := w.processes.insert (s.keyOf (g.operatorParams n)) (g.lastId + 1) }

theorem acquireProcess_none (h : g.operation? n = none) : g.acquireProcess n s = (g, none) := by
  rw [operation?] at h
  rw [acquireProcess]
  rcases hd : g.data? n with _ | d
  · rfl
  · rw [hd, Option.bind_some] at h
    rcases hc : d.compute with _ | c <;> rcases ho : d.wiring.operator with _ | op <;> simp [hc, ho] at h ⊢

theorem acquireProcess_hit (h : g.operation? n = some (c, op)) {id : ProcessId} {p : Process}
    (hk : g.processAt? n (s.keyOf (g.operatorParams n)) = some id) (hp : g.processes[id]? = some p) :
    g.acquireProcess n s = ({ g with processes := g.processes.insert id { p with uses := p.uses + 1 } }, some id) := by
  rcases hd : g.data? n with _ | d
  · rw [operation?, hd] at h
    cases h
  · obtain ⟨hc, ho⟩ := (operation?_of_data? hd).1 h
    rw [processAt?, wiring?_of_data? hd, operatorParams_of_data? hd, Option.bind_some] at hk
    simp only [acquireProcess, hd, hc, ho, hk, Option.bind_some, hp, Option.map_some]

theorem acquireProcess_new (h : g.operation? n = some (c, op))
    (hk : ∀ id, g.processAt? n (s.keyOf (g.operatorParams n)) = some id → g.processes[id]? = none) :
    g.acquireProcess n s = (g.withProcess n s c op, some (g.lastId + 1)) := by
  rcases hd : g.data? n with _ | d
  · rw [operation?, hd] at h
    cases h
  · obtain ⟨hc, ho⟩ := (operation?_of_data? hd).1 h
    have hkey : g.operatorParams n = d.wiring.operatorParams := operatorParams_of_data? hd
    have hin : (op.params.mapIdx fun i p => d.wiring.input.channel? (c.inputs.inputName i p.source) s) = g.inputsOf n s c op := by
      rw [inputsOf, DataNode.inputNames, map_mapIdx]
      congr 1
      funext i p
      exact (chan_of_wiring? (wiring?_of_data? hd) .input _ s).symm
    rw [processAt?, wiring?_of_data? hd, hkey, Option.bind_some] at hk
    have hnone : ((d.wiring.processes[s.keyOf d.wiring.operatorParams]?).bind fun id => (g.processes[id]?).map (id, ·)) = none := by
      rcases hid : d.wiring.processes[s.keyOf d.wiring.operatorParams]? with _ | id
      · rfl
      · rw [Option.bind_some, hk id hid]
        rfl
    simp only [acquireProcess, hd, hc, ho, hnone, hin, drawId, createOutputs_eq, withProcess, newProcess, hkey]
    have he := (Store.listenAll_fields g.store (.process (g.lastId + 1)) (boundOf (g.inputsOf n s c op))).1
    rw [Store.listenAll, boundOf] at he
    simp only [newOutputs, he]
    rfl

/-- A process is acquired in one of three ways: there is no operator, one that is remembered has one user more, or a new one is made. -/
theorem acquireProcess_cases (g : Graph) (n : NodeId) (s : Substitution) :
    g.acquireProcess n s = (g, none) ∨
    (∃ id p, g.processAt? n (s.keyOf (g.operatorParams n)) = some id ∧ g.processes[id]? = some p ∧
      g.acquireProcess n s = ({ g with processes := g.processes.insert id { p with uses := p.uses + 1 } }, some id)) ∨
    ∃ c op, g.operation? n = some (c, op) ∧
      (∀ id, g.processAt? n (s.keyOf (g.operatorParams n)) = some id → g.processes[id]? = none) ∧
      g.acquireProcess n s = (g.withProcess n s c op, some (g.lastId + 1)) := by
  rcases hop : g.operation? n with _ | ⟨c, op⟩
  · exact .inl (acquireProcess_none hop)
  · by_cases hk : ∀ id, g.processAt? n (s.keyOf (g.operatorParams n)) = some id → g.processes[id]? = none
    · exact .inr (.inr ⟨c, op, rfl, hk, acquireProcess_new hop hk⟩)
    · simp only [not_forall] at hk
      obtain ⟨id, hid, hp⟩ := hk
      obtain ⟨p, hp⟩ := Option.ne_none_iff_exists'.1 hp
      exact .inr (.inl ⟨id, p, hid, hp, acquireProcess_hit hop hid hp⟩)

end Process

/-! ## What acquiring a process keeps -/

/-- What acquiring a process leaves alone: all but what its owner registers, the processes, the entries and who listens. -/
structure Operated (g g' : Graph) (n : NodeId) : Prop where
  relisted : g.Relisted g'
  nodes : ∀ m, m ≠ n → g'.node? m = g.node? m
  instances : g'.instances = g.instances
  lastId : g.lastId ≤ g'.lastId
  wires : ∀ c, g'.store.wire? c = g.store.wire? c
  listeners : ∀ c l, l ∈ g.store.listenersOf c → l ∈ g'.store.listenersOf c
  next : g'.store.channels.next = g.store.channels.next
  nextMap : g'.store.nextMap = g.store.nextMap

theorem Operated.refl (g : Graph) (n : NodeId) : g.Operated g n :=
  ⟨.of_nodes_eq rfl rfl, fun _ _ => rfl, rfl, Nat.le_refl _, fun _ => rfl, fun _ _ h => h, rfl, rfl⟩

namespace Operated

variable {g g' : Graph} {n : NodeId} (h : g.Operated g' n)

include h

theorem sharers (m : NodeId) (port : Port) (x k : String) : g'.sharers m port x k = g.sharers m port x k := by
  rw [Graph.sharers, Graph.sharers, h.instances]
  simp only [h.relisted.keyAt]

theorem stocked (hst : g.Stocked) : g'.Stocked := by
  refine ⟨fun m port x k c hc => ?_, fun m port x k c hc => ?_, fun m port x k c x' k' c' ch l o hc hc' hch hch' ho hw => ?_,
    fun m port x k hm => ?_⟩
  · rw [h.relisted.cell?] at hc
    rw [h.sharers]
    exact hst.uses m port x k c hc
  · rw [h.relisted.cell?] at hc
    rw [h.next]
    exact hst.channel m port x k c hc
  · rw [h.relisted.cell?] at hc hc'
    rw [h.relisted.mapId] at ho
    rw [h.wires] at hw
    exact hst.sole m port x k c x' k' c' ch l o hc hc' hch hch' ho hw
  · rw [h.relisted.inSync] at hm
    rw [h.relisted.cell?]
    exact hst.blank m port x k hm

theorem seen {c : ChannelId} (hc : g'.Seen c) : g.Seen c := by
  obtain ⟨id, i, hi, hc⟩ := hc
  rw [h.instances] at hi
  refine ⟨id, i, hi, hc.imp_right ?_⟩
  rintro ⟨port, x, hx⟩
  exact ⟨port, x, (h.relisted.chan ..).symm.trans hx⟩

theorem extending
    (hp : ∀ (id : ProcessId) (p : Process), g.processes[id]? = some p → ∃ u, g'.processes[id]? = some { p with uses := u })
    (hf : ∀ (id : ProcessId) (p : Process), g'.processes[id]? = some p →
      (g.processes[id]?).isSome ∨ (∀ e ∈ p.outputs.map (·.2), g.store.entryAt? e = none) ∧ p.state = .unprocessed)
    (hreg : ∀ m w w', g.wiring? m = some w → g'.wiring? m = some w' →
      ∀ (k : String) (id : ProcessId), w.processes[k]? = some id → w'.processes[k]? = some id)
    (ht : g'.store.tolerance = g.store.tolerance)
    (he : ∀ e x, g.store.entryAt? e = some x → g'.store.entryAt? e = some x) : g.Extends g' := by
  refine ⟨h.relisted.registry, ⟨h.relisted.rewired.size, h.relisted.rewired.next, fun m => ?_⟩,
    fun id i hi => ⟨i.uses, by rw [h.instances]; exact hi⟩, hp, hf, fun id i hi port x => h.relisted.chan .., ht,
    Nat.le_of_eq h.next.symm, he, fun c w _ hw => (h.wires c).trans hw, fun c l _ => h.listeners c l⟩
  rcases h.relisted.rewired.node m with hm | ⟨x, d, w, hx, hk, ⟨is, ps, rfl⟩, hm⟩
  · exact .inl hm
  · refine .inr ⟨x, d, { d.wiring with instances := is, processes := ps }, hx, hk,
      ⟨fun port => by cases port <;> rfl, fun hs => hs, fun _ => rfl, fun _ => rfl, fun _ => ?_⟩, hm⟩
    have hd : g.data? m = some d := by rw [data?, hx, Option.bind_some, Node.data?, hk]
    have hd' : g'.data? m = some { d with wiring := { d.wiring with instances := is, processes := ps } } := by
      rw [data?, hm]
      rfl
    exact hreg m _ _ (wiring?_of_data? hd) (wiring?_of_data? hd')

/-- Soundness after acquiring a process, when processes are still registered, counted and what they should be. -/
theorem sound {R : Substitution → Prop} {hands : List InstanceId} {busy busy' : List ProcessId} (hs : g.Sound R hands busy)
    (he : g.Extends g') (hreg : g'.Registered) (hp : ∀ (id : ProcessId) (p : Process), g'.processes[id]? = some p → g'.ProcessAt id p)
    (hruns : ∀ (id : ProcessId) (p : Process), g'.processes[id]? = some p → p.uses = g.runCount id + busy'.count id ∧ 0 < p.uses)
    (hbusy : ∀ id ∈ busy', (g'.processes[id]?).isSome) (hm : g'.store.Mirrored) : g'.Sound R hands busy' := by
  have hw := h.relisted.wired hs.wired
  refine ⟨h.relisted.rewired.authored hs.authored, hw, fun n l e hl hle => he.leaves hs hl hle,
    ⟨fun m port o ho => ?_, fun m port m' port' o ho ho' => ?_⟩, hreg, fun id i hi => ?_, hp, ⟨fun id i hi => ?_, fun id hid => ?_,
    fun id p hp => ?_, hbusy⟩, h.stocked hs.stocked, hm⟩
  · rw [h.relisted.mapId] at ho
    rw [h.nextMap]
    exact hs.anchored.bounded m port o ho
  · rw [h.relisted.mapId] at ho ho'
    exact hs.anchored.injective m port m' port' o ho ho'
  · rw [h.instances] at hi
    exact ⟨he.faithfulAt hs hw hi i.uses, (hs.faithful id i hi).2⟩
  · rw [h.instances] at hi
    rw [useCount, h.instances]
    exact hs.counted.uses id i hi
  · rw [h.instances]
    exact hs.counted.hands id hid
  · rw [runCount, h.instances]
    exact hruns id p hp

end Operated

section Process

variable {R : Substitution → Prop} {hands : List InstanceId} {busy : List ProcessId} {g : Graph} {n : NodeId} {s : Substitution}
  {c : Compute} {op : Operator}

/-- A process that nothing outside uses is run by an instance. -/
theorem Sound.exists_runner (hs : g.Sound R hands busy) {id : ProcessId} {p : Process} (hp : g.processes[id]? = some p)
    (hb : id ∉ busy) : ∃ (j : InstanceId) (i : Instance), g.instances[j]? = some i ∧ i.process = some id := by
  obtain ⟨hu, hpos⟩ := hs.counted.runs id p hp
  rw [List.count_eq_zero_of_not_mem hb, Nat.add_zero] at hu
  rw [hu, runCount, Table.tally_pos] at hpos
  obtain ⟨j, i, hi, h⟩ := hpos
  split at h
  · exact ⟨j, i, hi, ‹_›⟩
  · exact absurd h (Nat.lt_irrefl _)

/-- A registered process reads what the substitution shows at the input. -/
theorem Sound.runs_of_processAt? (hR : Regime R) (hs : g.Sound R hands busy) (hn : g.InSync n) (hsub : R s)
    (hop : g.operation? n = some (c, op)) {id : ProcessId} {p : Process} (hp : g.processes[id]? = some p)
    (hk : g.processAt? n (s.keyOf (g.operatorParams n)) = some id) (hb : id ∉ busy) : g.Runs n s c op id p := by
  obtain ⟨w, hw, hk⟩ := Option.bind_eq_some_iff.1 hk
  obtain ⟨p', hp', ho, hkey⟩ := (hs.registered.processMemo n w _ id hw).1 hk
  rw [hp] at hp'
  cases hp'
  obtain ⟨j, i, hi, hip⟩ := hs.exists_runner hp hb
  obtain ⟨hf, hRi⟩ := hs.faithful j i hi
  have hopi : ∃ c' op', g.operation? i.owner = some (c', op') := by
    have := hf.process
    rw [hip] at this
    obtain ⟨⟨c', op'⟩, ho', -⟩ := Option.bind_eq_some_iff.1 this.symm
    exact ⟨c', op', ho'⟩
  obtain ⟨c', op', ho'⟩ := hopi
  obtain ⟨id', q, hid', hq, hr⟩ := hf.runs c' op' ho'
  rw [hip] at hid'
  cases hid'
  rw [hp] at hq
  cases hq
  -- the instance that runs it is one of the same node, and agrees on what the operator depends on
  have hio : i.owner = n := hr.owner.symm.trans ho
  rw [hio, hop] at ho'
  cases ho'
  rw [hio] at hr
  have ha : i.substitution.AgreeOn s (g.operatorParams n) := hR.keys _ _ _ hRi hsub (hr.key.symm.trans hkey)
  refine ⟨ho, hkey, ?_, hr.children, hr.listens⟩
  rw [hr.inputs]
  obtain ⟨d, hd, hwd⟩ := hn.wiredAt hs.wired
  obtain ⟨hc, hopr⟩ := (operation?_of_data? hd).1 hop
  refine List.map_congr_left fun x hx => g.chan_congr fun q hq => ha q ?_
  rw [operatorParams_of_data? hd]
  exact hwd.mem_operatorParams hd (hwd.operator_eq.symm.trans hopr) hc hx hq

/-- One user more of a process. -/
theorem sound_reuse (hs : g.Sound R hands busy) {id : ProcessId} {p : Process} (hp : g.processes[id]? = some p) :
    { g with processes := g.processes.insert id { p with uses := p.uses + 1 } }.Sound R hands (id :: busy) ∧
    g.Extends { g with processes := g.processes.insert id { p with uses := p.uses + 1 } } ∧
    g.Operated { g with processes := g.processes.insert id { p with uses := p.uses + 1 } } n := by
  generalize hg : { g with processes := g.processes.insert id { p with uses := p.uses + 1 } } = g'
  have hop : g.Operated g' n := by
    subst hg
    exact ⟨.of_nodes_eq rfl rfl, fun _ _ => rfl, rfl, Nat.le_refl _, fun _ => rfl, fun _ _ h => h, rfl, rfl⟩
  have hget : ∀ j, g'.processes[j]? = if j = id then some { p with uses := p.uses + 1 } else g.processes[j]? := by
    subst hg
    exact fun j => Table.get_insert ..
  have hst : g'.store = g.store := by rw [← hg]
  have hwir : ∀ m, g'.wiring? m = g.wiring? m := by
    subst hg
    exact fun _ => rfl
  have hback : ∀ (j : ProcessId) (q : Process), g'.processes[j]? = some q → ∃ u, g.processes[j]? = some { q with uses := u } := by
    intro j q hq
    rw [hget] at hq
    split at hq
    · rename_i hj
      cases hq
      exact ⟨p.uses, hj ▸ hp⟩
    · exact ⟨q.uses, hq⟩
  have hfwd : ∀ (j : ProcessId) (q : Process), g.processes[j]? = some q → ∃ u, g'.processes[j]? = some { q with uses := u } := by
    intro j q hq
    rw [hget]
    by_cases hj : j = id
    · subst hj
      rw [hp] at hq
      cases hq
      exact ⟨p.uses + 1, if_pos rfl⟩
    · exact ⟨q.uses, (if_neg hj).trans hq⟩
  have hext : g.Extends g' := by
    refine hop.extending hfwd (fun j q hq => ?_) (fun m w w' hw hw' => ?_) (by rw [hst]) fun e x hx => by rw [hst]; exact hx
    · obtain ⟨u, hu⟩ := hback j q hq
      exact .inl (by rw [hu]; rfl)
    · rw [hwir, hw] at hw'
      cases hw'
      exact fun _ _ h => h
  refine ⟨hop.sound hs hext ⟨fun j i hi => ?_, fun j q hq => ?_, fun m w k j hw => ?_, fun m w k j hw => ?_⟩ (fun j q hq => ?_)
    (fun j q hq => ?_) (fun j hj => ?_) (by rw [hst]; exact hs.mirrored), hext, hop⟩
  · rw [hop.instances] at hi
    exact Nat.le_trans (hs.registered.instanceId j i hi) hop.lastId
  · obtain ⟨u, hu⟩ := hback j q hq
    exact Nat.le_trans (hs.registered.processId j _ hu) hop.lastId
  · rw [hwir] at hw
    rw [hop.instances]
    exact hs.registered.memo m w k j hw
  · rw [hwir] at hw
    rw [hs.registered.processMemo m w k j hw]
    constructor
    · rintro ⟨q, hq, ho, hk⟩
      obtain ⟨u, hu⟩ := hfwd j q hq
      exact ⟨_, hu, ho, hk⟩
    · rintro ⟨q, hq, ho, hk⟩
      obtain ⟨u, hu⟩ := hback j q hq
      exact ⟨_, hu, ho, hk⟩
  · obtain ⟨u, hu⟩ := hback j q hq
    exact hext.processAt hs hu q.uses
  · rw [hget] at hq
    split at hq
    · rename_i hj
      cases hq
      subst hj
      obtain ⟨hu, -⟩ := hs.counted.runs j p hp
      refine ⟨?_, Nat.succ_pos _⟩
      rw [List.count_cons_self]
      change p.uses + 1 = _
      omega
    · rename_i hj
      rw [List.count_cons_of_ne (Ne.symm hj)]
      exact hs.counted.runs j q hq
  · rcases List.mem_cons.1 hj with rfl | hj
    · rw [hget, if_pos rfl]
      rfl
    · obtain ⟨q, hq⟩ := Option.isSome_iff_exists.1 (hs.counted.busy j hj)
      obtain ⟨u, hu⟩ := hfwd j q hq
      rw [hu]
      rfl

theorem Store.wire?_of_channels_eq {st st' : Store} (h : st'.channels = st.channels) (ch : ChannelId) :
    st'.wire? ch = st.wire? ch := by
  rw [Store.wire?, Store.channel?, h, Store.wire?, Store.channel?]

theorem Store.listenersOf_of_channels_eq {st st' : Store} (h : st'.channels = st.channels) (ch : ChannelId) :
    st'.listenersOf ch = st.listenersOf ch := by
  rw [Store.listenersOf, Store.channel?, h, Store.listenersOf, Store.channel?]

/-- Starting a process changes nothing else. -/
theorem operated_withProcess (g : Graph) (n : NodeId) (s : Substitution) (c : Compute) (op : Operator) :
    g.Operated (g.withProcess n s c op) n := by
  have hr := rewired_modifyWiring g n fun w =>
    { w with processes := w.processes.insert (s.keyOf (g.operatorParams n)) (g.lastId + 1) }
  have hr' := hr.mono (Q := fun _ w w' => ∃ is ps, w' = { w with instances := is, processes := ps })
    fun m w w' ⟨_, h⟩ => ⟨w.instances, _, h⟩
  have hf := Store.listenAll_fields g.store (.process (g.lastId + 1)) (boundOf (g.inputsOf n s c op))
  have hch : (g.withProcess n s c op).store.channels =
      (g.store.listenAll (.process (g.lastId + 1)) (boundOf (g.inputsOf n s c op))).channels :=
    (Store.pushEmpties_fields _ _).1
  refine ⟨⟨rfl, ⟨hr'.size, hr'.next, hr'.node⟩⟩, fun m hm => (node?_modifyData ..).trans (if_neg hm), rfl, Nat.le_succ _,
    fun ch => ?_, fun ch l hl => ?_, ?_, ?_⟩
  · rw [Store.wire?_of_channels_eq hch, Store.wire?_listenAll]
  · rw [Store.listenersOf_of_channels_eq hch, Store.mem_listenersOf_listenAll]
    exact .inl hl
  · rw [hch, hf.2.1]
  · exact (Store.pushEmpties_fields _ _).2.1.trans hf.2.2.1

theorem entryAt?_withProcess (g : Graph) (n : NodeId) (s : Substitution) (c : Compute) (op : Operator) {e : EntryId} {x : Entry}
    (h : g.store.entryAt? e = some x) : (g.withProcess n s c op).store.entryAt? e = some x := by
  have hf := (Store.listenAll_fields g.store (.process (g.lastId + 1)) (boundOf (g.inputsOf n s c op))).1
  refine (Store.entryAt?_pushEmpties ..).trans ?_
  rw [if_pos (by rw [hf]; exact Store.lt_next_of_entryAt? h), Store.entryAt?_of_entries_eq hf, h]

theorem processes_withProcess (g : Graph) (n : NodeId) (s : Substitution) (c : Compute) (op : Operator) (j : ProcessId) :
    (g.withProcess n s c op).processes[j]? = if j = g.lastId + 1 then some (g.newProcess n s c op) else g.processes[j]? :=
  Table.get_insert ..

/-- What a new process is. -/
theorem types_withProcess (g : Graph) (n : NodeId) (s : Substitution) (c : Compute) (op : Operator) :
    (g.newOutputs c op).map (fun e => (g.withProcess n s c op).store.typeAt? e.2) = op.outputs.map fun o => some o.type := by
  have hf := (Store.listenAll_fields g.store (.process (g.lastId + 1)) (boundOf (g.inputsOf n s c op))).1
  refine Eq.trans (List.map_congr_left fun e _ => congrArg (Option.map Entry.type) ?_) (types_newOutputs g c op)
  refine (Store.entryAt?_pushEmpties ..).trans (Eq.trans ?_ (Store.entryAt?_pushEmpties ..).symm)
  rw [hf, Store.entryAt?_of_entries_eq hf]

theorem processAt_withProcess (hs : g.Sound R hands busy) (hn : g.InSync n) (hb : g.Built n s .input)
    (hop : g.operation? n = some (c, op)) : (g.withProcess n s c op).ProcessAt (g.lastId + 1) (g.newProcess n s c op) := by
  have ho := operated_withProcess g n s c op
  refine ⟨ho.relisted.inSync.2 hn, ⟨c, (ho.relisted.operation? n).trans hop, map_fst_newOutputs g c op⟩, nodup_newOutputs g c op,
    types_withProcess g n s c op, fun j q hq hj e he he' => ?_, fun j hj => ?_⟩
  · rw [processes_withProcess, if_neg hj] at hq
    have hpa := hs.process j q hq
    obtain ⟨b, hb, rfl⟩ := List.mem_map.1 he'
    have hty : g.store.typeAt? b.2 ∈ q.operator.outputs.map fun o => some o.type := by
      rw [← hpa.types]
      exact List.mem_map.2 ⟨b, hb, rfl⟩
    obtain ⟨o, -, hty⟩ := List.mem_map.1 hty
    obtain ⟨x, hx, -⟩ := Option.map_eq_some_iff.1 hty.symm
    exact absurd (Store.lt_next_of_entryAt? hx) (Nat.not_lt.2 (mem_newOutputs he))
  · -- what it awaits was there before
    have hj : j ∈ (boundOf (g.inputsOf n s c op)).flatMap g.store.creators := List.mem_eraseDups.1 hj
    obtain ⟨ch, hch, hj⟩ := List.mem_flatMap.1 hj
    rw [mem_boundOf, inputsOf, List.mem_map] at hch
    obtain ⟨x, -, hx⟩ := hch
    obtain ⟨y, hy, hyj⟩ := List.mem_filterMap.1 hj
    have hg := (hb.known_chan hx).grounded (y := y) hy
    obtain ⟨-, hg⟩ := hg
    rw [hyj] at hg
    obtain ⟨q, hq, -⟩ := hg
    have hle := hs.registered.processId j q hq
    refine ⟨Nat.lt_succ_of_le hle, ?_⟩
    rw [processes_withProcess, if_neg (Nat.ne_of_lt (Nat.lt_succ_of_le hle)), hq]
    rfl

/-- A new process of a key that has none. -/
theorem sound_start (hs : g.Sound R hands busy) (hn : g.InSync n) (hb : g.Built n s .input)
    (hop : g.operation? n = some (c, op)) (hk : g.processAt? n (s.keyOf (g.operatorParams n)) = none) :
    (g.withProcess n s c op).Sound R hands ((g.lastId + 1) :: busy) ∧ g.Extends (g.withProcess n s c op) := by
  have ho := operated_withProcess g n s c op
  have hget := processes_withProcess g n s c op
  have hfresh : ∀ (j : ProcessId) (q : Process), g.processes[j]? = some q → j ≠ g.lastId + 1 := by
    rintro j q hq rfl
    exact Nat.not_succ_le_self _ (hs.registered.processId _ q hq)
  have hwir : ∀ m, (g.withProcess n s c op).wiring? m = if m = n then (g.wiring? m).map fun w =>
      { w with processes := w.processes.insert (s.keyOf (g.operatorParams n)) (g.lastId + 1) } else g.wiring? m :=
    fun m => wiring?_modifyWiring ..
  obtain ⟨w₀, hw₀, -⟩ := id hn
  have hk₀ : w₀.processes[s.keyOf (g.operatorParams n)]? = none := by
    rw [processAt?, hw₀] at hk
    exact hk
  have hext : g.Extends (g.withProcess n s c op) := by
    refine ho.extending (fun j q hq => ⟨q.uses, ?_⟩) (fun j q hq => ?_) (fun m w w' hw hw' => ?_) ?_
      fun e x hx => entryAt?_withProcess g n s c op hx
    · rw [hget, if_neg (hfresh j q hq)]
      exact hq
    · rw [hget] at hq
      split at hq
      · cases hq
        exact .inr ⟨fun e he => Store.entryAt?_eq_none_of_le (mem_newOutputs he), rfl⟩
      · exact .inl (by rw [hq]; rfl)
    · intro k j hkj
      rw [hwir, hw] at hw'
      split at hw'
      · rename_i hm
        subst hm
        cases hw'
        rw [hw] at hw₀
        cases hw₀
        change (w₀.processes.insert _ _)[k]? = _
        rw [Table.get_insert, if_neg]
        · exact hkj
        · rintro rfl
          rw [hk₀] at hkj
          cases hkj
      · cases hw'
        exact hkj
    · exact (Store.pushEmpties_fields _ _).2.2.trans (Store.listenAll_fields ..).2.2.2
  refine ⟨ho.sound hs hext ⟨fun j i hi => ?_, fun j q hq => ?_, fun m w k j hw => ?_, fun m w k j hw => ?_⟩ (fun j q hq => ?_)
    (fun j q hq => ?_) (fun j hj => ?_) (Store.mirrored_pushEmpties (Store.mirrored_listenAll hs.mirrored _ _) _), hext⟩
  · exact Nat.le_succ_of_le (hs.registered.instanceId j i hi)
  · rw [hget] at hq
    split at hq
    · rename_i hj
      rw [hj]
      exact Nat.le_refl _
    · exact Nat.le_succ_of_le (hs.registered.processId j q hq)
  · rw [hwir] at hw
    split at hw
    · obtain ⟨w', hw', rfl⟩ := Option.map_eq_some_iff.1 hw
      exact hs.registered.memo m w' k j hw'
    · exact hs.registered.memo m w k j hw
  · have hother : ∀ w', g.wiring? m = some w' → (m ≠ n ∨ k ≠ s.keyOf (g.operatorParams n)) →
        (w'.processes[k]? = some j ↔ ∃ q : Process, (g.withProcess n s c op).processes[j]? = some q ∧ q.owner = m ∧ q.key = k) := by
      intro w' hw' hne
      rw [hs.registered.processMemo m w' k j hw']
      constructor
      · rintro ⟨q, hq, h⟩
        exact ⟨q, by rw [hget, if_neg (hfresh j q hq)]; exact hq, h⟩
      · rintro ⟨q, hq, hqo, hqk⟩
        rw [hget] at hq
        split at hq
        · cases hq
          rcases hne with hne | hne
          · exact absurd hqo.symm hne
          · exact absurd hqk.symm hne
        · exact ⟨q, hq, hqo, hqk⟩
    rw [hwir] at hw
    split at hw
    · rename_i hm
      obtain ⟨w', hw', rfl⟩ := Option.map_eq_some_iff.1 hw
      change (w'.processes.insert _ _)[k]? = _ ↔ _
      rw [Table.get_insert]
      by_cases hkk : k = s.keyOf (g.operatorParams n)
      · rw [if_pos hkk]
        constructor
        · rintro ⟨⟩
          exact ⟨_, by rw [hget, if_pos rfl], hm.symm, hkk.symm⟩
        · rintro ⟨q, hq, hqo, hqk⟩
          rw [hget] at hq
          split at hq
          · rename_i hj
            rw [hj]
          · -- no process had the key
            have := (hs.registered.processMemo m w' k j hw').2 ⟨q, hq, hqo, hqk⟩
            subst hm
            rw [hw₀] at hw'
            cases hw'
            rw [hkk, hk₀] at this
            cases this
      · rw [if_neg hkk]
        exact hother w' hw' (.inr hkk)
    · rename_i hm
      exact hother w hw (.inl hm)
  · rw [hget] at hq
    split at hq
    · rename_i hj
      cases hq
      rw [hj]
      exact processAt_withProcess hs hn hb hop
    · exact hext.processAt hs hq q.uses
  · rw [hget] at hq
    split at hq
    · rename_i hj
      cases hq
      subst hj
      have hrun : g.runCount (g.lastId + 1) = 0 := by
        rw [runCount, Table.tally_eq_zero]
        intro k i hi
        rw [if_neg]
        intro hip
        have hp := (hs.faithful k i hi).1.process
        rw [hip] at hp
        obtain ⟨q, hq⟩ := Option.isSome_iff_exists.1 (hs.processOf_live hp.symm)
        exact hfresh _ q hq rfl
      have hcount : busy.count (g.lastId + 1) = 0 := by
        refine List.count_eq_zero_of_not_mem fun hm => ?_
        obtain ⟨q, hq⟩ := Option.isSome_iff_exists.1 (hs.counted.busy _ hm)
        exact hfresh _ q hq rfl
      rw [hrun, List.count_cons_self, hcount]
      exact ⟨rfl, Nat.one_pos⟩
    · rename_i hj
      rw [List.count_cons_of_ne (Ne.symm hj)]
      exact hs.counted.runs j q hq
  · rw [hget]
    rcases List.mem_cons.1 hj with rfl | hj
    · rw [if_pos rfl]
      rfl
    · obtain ⟨q, hq⟩ := Option.isSome_iff_exists.1 (hs.counted.busy j hj)
      rw [if_neg (hfresh j q hq), hq]
      rfl

/-- Acquiring a process gives the one that the node runs under the substitution. -/
theorem acquireProcess_spec (hR : Regime R) (hs : g.Sound R hands busy) (hn : g.InSync n) (hsub : R s) (hb : g.Built n s .input)
    (hidle : ∀ id ∈ busy, ∀ p : Process, g.processes[id]? = some p → p.owner ≠ n) :
    ∃ g' r, g.acquireProcess n s = (g', r) ∧ g'.Sound R hands (r.toList ++ busy) ∧ g.Extends g' ∧ g.Operated g' n ∧
      r = g'.processOf n s ∧ ∀ c op, g'.operation? n = some (c, op) →
        ∃ (id : ProcessId) (p : Process), r = some id ∧ g'.processes[id]? = some p ∧ g'.Runs n s c op id p := by
  rcases hop : g.operation? n with _ | ⟨c, op⟩
  · refine ⟨g, none, acquireProcess_none hop, hs, .refl g, .refl g n, ?_, fun c op h => ?_⟩
    · rw [processOf, hop]
      rfl
    · rw [hop] at h
      cases h
  · rcases hk : g.processAt? n (s.keyOf (g.operatorParams n)) with _ | id
    · -- a new process
      obtain ⟨hs', hext⟩ := sound_start hs hn hb hop hk
      have ho := operated_withProcess g n s c op
      have hat : (g.withProcess n s c op).processAt? n (s.keyOf (g.operatorParams n)) = some (g.lastId + 1) := by
        obtain ⟨w, hw, -⟩ := id hn
        have hw' : (g.withProcess n s c op).wiring? n = some { w with
            processes := w.processes.insert (s.keyOf (g.operatorParams n)) (g.lastId + 1) } := by
          refine (wiring?_modifyWiring ..).trans ?_
          rw [if_pos rfl]
          change (g.wiring? n).map _ = _
          rw [hw]
          rfl
        rw [processAt?, hw', Option.bind_some, Table.get_insert, if_pos rfl]
      have hnew : ∀ id, g.processAt? n (s.keyOf (g.operatorParams n)) = some id → g.processes[id]? = none := fun id hid => by
        rw [hk] at hid
        cases hid
      refine ⟨_, _, acquireProcess_new hop hnew, hs', hext, ho, ?_, fun c' op' hop' => ?_⟩
      · rw [processOf, ho.relisted.operation?, hop, Option.bind_some, ho.relisted.operatorParams, hat]
      · rw [ho.relisted.operation?, hop] at hop'
        cases hop'
        refine ⟨_, _, rfl, (processes_withProcess ..).trans (if_pos rfl), rfl, ?_, ?_, ?_, fun ch hch => ?_⟩
        · rw [ho.relisted.operatorParams]
          rfl
        · exact List.map_congr_left fun x _ => (ho.relisted.chan n .input x s).symm
        · refine congrArg List.eraseDups (List.flatMap_congr fun ch _ => ?_)
          rw [Store.creators, Store.creators, Store.slots_of_wire?_eq (ho.wires ch)]
        · have hch' : (g.withProcess n s c op).store.channels =
              (g.store.listenAll (.process (g.lastId + 1)) (boundOf (g.inputsOf n s c op))).channels :=
            (Store.pushEmpties_fields _ _).1
          rw [Store.listenersOf_of_channels_eq hch', Store.mem_listenersOf_listenAll]
          refine .inr ⟨mem_boundOf.2 hch, rfl, ?_⟩
          have hch : some ch ∈ g.inputsOf n s c op := hch
          rw [inputsOf, List.mem_map] at hch
          obtain ⟨x, -, hx⟩ := hch
          obtain ⟨o, l, hw, -⟩ := hb.known_chan hx
          rw [hw]
          rfl
    · -- the process that is registered
      obtain ⟨w, hw, hk'⟩ := Option.bind_eq_some_iff.1 hk
      obtain ⟨p, hp, hpo, -⟩ := (hs.registered.processMemo n w _ id hw).1 hk'
      have hid : id ∉ busy := fun hm => hidle id hm p hp hpo
      obtain ⟨hs', hext, ho⟩ := sound_reuse (n := n) hs hp
      have hr := hs.runs_of_processAt? hR hn hsub hop hp hk hid
      refine ⟨_, _, acquireProcess_hit hop hk hp, hs', hext, ho, ?_, fun c' op' hop' => ?_⟩
      · rw [processOf]
        change some id = (g.operation? n).bind fun _ => g.processAt? n (s.keyOf (g.operatorParams n))
        rw [hop, Option.bind_some, hk]
      · change g.operation? n = _ at hop'
        rw [hop] at hop'
        cases hop'
        exact ⟨id, _, rfl, (Table.get_insert ..).trans (if_pos rfl), hr.owner, hr.key, hr.inputs, hr.children, hr.listens⟩

end Process

end Graph

end Dataflow
