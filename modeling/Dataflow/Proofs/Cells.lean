import Dataflow.Proofs.Sync

/-!
# Cells: what the ports of a graph cache

A cell of a port holds the channel that was built for a name under the key of a substitution. Some operations change cells and
the store only; they leave the design of the graph, its tables, and what its nodes remember as they were.
-/

namespace Dataflow

namespace Substitution

theorem get?_restrict (s : Substitution) (T : NameSet) (x : String) :
    (s.restrict T).get? x = if x ∈ T then s.get? x else none := by
  rw [get?, restrict, Std.ExtTreeMap.getElem?_filter', get?]
  by_cases h : x ∈ T
  · have : T.contains x = true := h
    rw [if_pos h]
    rcases s.bindings[x]? with _ | c <;> simp [this]
  · have : T.contains x = false := by
      rw [Bool.eq_false_iff]
      exact h
    rw [if_neg h]
    rcases s.bindings[x]? with _ | c <;> simp [this]

theorem get?_empty (x : String) : empty.get? x = none := Std.ExtTreeMap.getElem?_empty

theorem ext_get? {s t : Substitution} (h : ∀ x, s.get? x = t.get? x) : s = t := by
  obtain ⟨b⟩ := s
  obtain ⟨c⟩ := t
  exact congrArg _ (Std.ExtTreeMap.ext_getElem? fun {x} => h x)

theorem get?_ofList (l : List (String × ChannelId)) (x : String) : (ofList l).get? x = (tableOf l)[x]? := rfl

/-- Two substitutions bind the names of a set alike. -/
def AgreeOn (s t : Substitution) (T : NameSet) : Prop := ∀ x ∈ T, s.get? x = t.get? x

theorem AgreeOn.symm {s t : Substitution} {T : NameSet} (h : AgreeOn s t T) : AgreeOn t s T := fun x hx => (h x hx).symm

theorem AgreeOn.mono {s t : Substitution} {T U : NameSet} (h : AgreeOn s t T) (hs : ∀ x ∈ U, x ∈ T) : AgreeOn s t U :=
  fun x hx => h x (hs x hx)

/-- A key spells the bindings of its names only. -/
theorem key_congr {s t : Substitution} {l : List String} (h : ∀ x ∈ l, s.get? x = t.get? x) : s.key l = t.key l := by
  rw [key, key]
  congr 1
  induction l with
  | nil => rfl
  | cons a l ih =>
    rw [List.filterMap_cons, List.filterMap_cons, h a (List.mem_cons_self ..), ih fun x hx => h x (List.mem_cons_of_mem _ hx)]

theorem AgreeOn.keyOf_eq {s t : Substitution} {T : NameSet} (h : AgreeOn s t T) : s.keyOf T = t.keyOf T :=
  key_congr fun x hx => h x (Std.ExtTreeSet.mem_toList.1 hx)

end Substitution

/-- Two wirings differ in their cells at most. -/
structure Wiring.Same (w w' : Wiring) : Prop where
  outOfSync : w'.outOfSync = w.outOfSync
  tables : w'.tables = w.tables
  params : w'.params = w.params
  ids : ∀ port, (w'.map port).id = (w.map port).id
  instances : w'.instances = w.instances
  processes : w'.processes = w.processes

theorem Wiring.Same.refl (w : Wiring) : w.Same w := ⟨rfl, rfl, rfl, fun _ => rfl, rfl, rfl⟩

theorem Wiring.Same.trans {w w' w'' : Wiring} (h : w.Same w') (h' : w'.Same w'') : w.Same w'' :=
  ⟨h'.outOfSync.trans h.outOfSync, h'.tables.trans h.tables, h'.params.trans h.params,
    fun port => (h'.ids port).trans (h.ids port), h'.instances.trans h.instances, h'.processes.trans h.processes⟩

theorem Wiring.Same.table {w w' : Wiring} (h : w.Same w') (port : Port) : (w'.map port).table = (w.map port).table := by
  cases port with
  | input => exact congrArg Tables.input h.tables
  | extended => exact congrArg Tables.extended h.tables
  | output => exact congrArg Tables.output h.tables

/-- Replacing the map of a port by one with the same table. -/
theorem Wiring.same_setMap {w : Wiring} {port : Port} {m : ChannelMap} (hid : m.id = (w.map port).id)
    (ht : m.table = (w.map port).table) : w.Same (w.setMap port m) := by
  cases port with
  | input => exact ⟨rfl, congrArg (fun t => Tables.mk t _ _ _ _) ht, rfl, fun q => by cases q <;> first | exact hid | rfl, rfl, rfl⟩
  | extended =>
    exact ⟨rfl, congrArg (fun t => Tables.mk _ t _ _ _) ht, rfl, fun q => by cases q <;> first | exact hid | rfl, rfl, rfl⟩
  | output =>
    exact ⟨rfl, congrArg (fun t => Tables.mk _ _ t _ _) ht, rfl, fun q => by cases q <;> first | exact hid | rfl, rfl, rfl⟩

namespace Graph

/-- What a port caches for a name under a key. -/
def cell? (g : Graph) (n : NodeId) (port : Port) (x key : String) : Option Cell :=
  (g.wiring? n).bind fun w => (w.map port).at? x key

/-- The key that a substitution spells for a name at a port. -/
def keyAt (g : Graph) (n : NodeId) (port : Port) (x : String) (s : Substitution) : String := s.keyOf (g.paramsAt n port x)

/-- The channel of a name at a port under a substitution. -/
def chan (g : Graph) (n : NodeId) (port : Port) (x : String) (s : Substitution) : Option ChannelId :=
  (g.cell? n port x (g.keyAt n port x s)).bind (·.channel)

/-- The id of the map of a port. -/
def mapId (g : Graph) (n : NodeId) (port : Port) : Option MapId := (g.wiring? n).map fun w => (w.map port).id

section Lookup

variable {g : Graph} {n : NodeId} {w : Wiring}

theorem cell?_of_wiring? (h : g.wiring? n = some w) (port : Port) (x key : String) :
    g.cell? n port x key = (w.map port).at? x key := by
  rw [cell?, h]
  rfl

theorem keyAt_of_wiring? (h : g.wiring? n = some w) (port : Port) (x : String) (s : Substitution) :
    g.keyAt n port x s = (w.map port).keyOf x s := by
  rw [keyAt, paramsAt_of_wiring? h]
  rfl

theorem chan_of_wiring? (h : g.wiring? n = some w) (port : Port) (x : String) (s : Substitution) :
    g.chan n port x s = (w.map port).channel? x s := by
  rw [chan, cell?_of_wiring? h, keyAt_of_wiring? h]
  rfl

theorem mapId_of_wiring? (h : g.wiring? n = some w) (port : Port) : g.mapId n port = some (w.map port).id := by
  rw [mapId, h]
  rfl

theorem exists_wiring_of_cell? {port : Port} {x key : String} {c : Cell} (h : g.cell? n port x key = some c) :
    ∃ w, g.wiring? n = some w := by
  rw [cell?] at h
  rcases hw : g.wiring? n with _ | w
  · rw [hw] at h
    cases h
  · exact ⟨w, rfl⟩

/-- A name that has a channel at a port is in the port's table. -/
theorem mem_table_of_chan {port : Port} {x : String} {s : Substitution} {c : ChannelId} (h : g.chan n port x s = some c) :
    x ∈ g.table n port := by
  obtain ⟨cell, hc, -⟩ := Option.bind_eq_some_iff.1 h
  obtain ⟨w, hw⟩ := exists_wiring_of_cell? hc
  rw [cell?_of_wiring? hw] at hc
  rw [table_of_wiring? hw]
  exact (ChannelMap.mem_table _ _).2 (ChannelMap.mem_entries_of_at? hc)

/-- Substitutions that agree on the parameters of a name share its channel. -/
theorem chan_congr (g : Graph) {n : NodeId} {port : Port} {x : String} {s t : Substitution}
    (h : s.AgreeOn t (g.paramsAt n port x)) : g.chan n port x s = g.chan n port x t := by
  rw [chan, chan, keyAt, keyAt, h.keyOf_eq]

theorem mem_finalChannels {s : Substitution} {x : String} {c : ChannelId} :
    (x, c) ∈ g.finalChannels n s ↔ g.chan n .output x s = some c := by
  rw [finalChannels]
  rcases hw : g.wiring? n with _ | w
  · rw [chan, cell?, hw]
    simp
  · rw [chan_of_wiring? hw]
    exact ChannelMap.mem_resolve

theorem nodup_finalChannels (s : Substitution) : ((g.finalChannels n s).map (·.1)).Nodup := by
  rw [finalChannels]
  rcases g.wiring? n with _ | w
  · exact List.nodup_nil
  · exact ChannelMap.nodup_resolve ..

end Lookup

/-! ## Parameters -/

/-- What a name depends on at any port is a parameter of the node. -/
theorem WiredAt.paramsAt_subset {g : Graph} {n : NodeId} {d : DataNode} (h : g.WiredAt d) (hd : g.data? n = some d) {port : Port}
    {x q : String} (hq : q ∈ g.paramsAt n port x) : q ∈ g.params n := by
  have hin : ∀ {x q}, q ∈ g.paramsAt n .input x → q ∈ g.params n := h.mem_params hd
  have hex : ∀ {x q}, q ∈ g.paramsAt n .extended x → q ∈ g.params n := by
    intro x q hq
    rw [paramsAt, h.extended_eq hd] at hq
    unfold DataNode.extendedTable at hq
    split at hq
    · rename_i c op ho hc
      rcases DataNode.mem_paramsOf_addOutputs.1 hq with hq | ⟨-, hq⟩
      · rw [← h.input_eq hd] at hq
        exact hin hq
      · obtain ⟨y, -, hy⟩ := DataNode.mem_operatorParams.1 hq
        rw [← h.input_eq hd] at hy
        exact hin hy
    · rw [← h.input_eq hd] at hq
      exact hin hq
  cases port with
  | input => exact hin hq
  | extended => exact hex hq
  | output =>
    rw [paramsAt, h.output_eq hd] at hq
    obtain ⟨y, -, hy⟩ := DataNode.mem_paramsOf_selectNames.1 hq
    rw [unfiltered] at hy
    rcases hp : d.design.proto with _ | p
    · rw [hp] at hy
      exact hex hy
    · rw [hp] at hy
      by_cases hm : y ∈ g.exposed p
      · obtain ⟨z, -, hz⟩ := (DataNode.mem_paramsOf_addTemplate hm).1 hy
        exact hex hz
      · simp only [DataNode.paramsOf_addTemplate_of_not_mem hm] at hy
        exact hex hy

/-- A node sees of a substitution what binds its parameters. -/
theorem WiredAt.chan_restrict {g : Graph} {n : NodeId} {d : DataNode} (h : g.WiredAt d) (hd : g.data? n = some d) (port : Port)
    (x : String) (s : Substitution) : g.chan n port x (s.restrict (g.params n)) = g.chan n port x s := by
  refine g.chan_congr fun q hq => ?_
  rw [Substitution.get?_restrict, if_pos (h.paramsAt_subset hd hq)]

/-! ## Changes of cells and the store -/

/-- `g'` is `g` but for its cells, its store and its journal. -/
structure Recached (g g' : Graph) : Prop where
  rest : ∃ nodes store journal, g' = { g with nodes, store, journal }
  rewired : Rewired (fun _ => Wiring.Same) g g'

namespace Recached

variable {g g' g'' : Graph}

theorem refl (g : Graph) : g.Recached g := ⟨⟨g.nodes, g.store, g.journal, rfl⟩, .refl g⟩

theorem trans (h : g.Recached g') (h' : g'.Recached g'') : g.Recached g'' := by
  refine ⟨?_, h.rewired.trans h'.rewired (fun _ _ _ h => h) (fun _ _ _ h => h) fun _ _ _ _ h h' => h.trans h'⟩
  obtain ⟨n₂, s₂, j₂, rfl⟩ := h.rest
  obtain ⟨n₃, s₃, j₃, rfl⟩ := h'.rest
  exact ⟨n₃, s₃, j₃, rfl⟩

theorem same_self (m : NodeId) (w : Wiring) : (fun _ : NodeId => Wiring.Same) m w w := Wiring.Same.refl w

theorem wiring (h : g.Recached g') {m : NodeId} {w : Wiring} (hw : g.wiring? m = some w) :
    ∃ w', w.Same w' ∧ g'.wiring? m = some w' := h.rewired.exists_wiring same_self hw

theorem wiring_of (h : g.Recached g') {m : NodeId} {w : Wiring} (hw : g'.wiring? m = some w) :
    ∃ w', w'.Same w ∧ g.wiring? m = some w' := h.rewired.exists_wiring_of same_self hw

theorem wiring?_eq_none (h : g.Recached g') {m : NodeId} (hm : g.wiring? m = none) : g'.wiring? m = none := by
  rcases hw : g'.wiring? m with _ | w
  · rfl
  · obtain ⟨w', -, hw'⟩ := h.wiring_of hw
    rw [hm] at hw'
    cases hw'

theorem table (h : g.Recached g') (m : NodeId) (port : Port) : g'.table m port = g.table m port := by
  rw [Graph.table, Graph.table]
  rcases hw : g.wiring? m with _ | w
  · rw [h.wiring?_eq_none hw]
  · obtain ⟨w', hs, hw'⟩ := h.wiring hw
    rw [hw', Option.map_some, Option.map_some, Option.getD_some, Option.getD_some, hs.table]

theorem paramsAt (h : g.Recached g') (m : NodeId) (port : Port) (x : String) : g'.paramsAt m port x = g.paramsAt m port x := by
  rw [Graph.paramsAt, h.table, Graph.paramsAt]

theorem params (h : g.Recached g') (m : NodeId) : g'.params m = g.params m := by
  rw [Graph.params, Graph.params]
  rcases hw : g.wiring? m with _ | w
  · rw [h.wiring?_eq_none hw]
  · obtain ⟨w', hs, hw'⟩ := h.wiring hw
    rw [hw', Option.map_some, Option.map_some, Option.getD_some, Option.getD_some, hs.params]

theorem keyAt (h : g.Recached g') (m : NodeId) (port : Port) (x : String) (s : Substitution) :
    g'.keyAt m port x s = g.keyAt m port x s := by
  rw [Graph.keyAt, h.paramsAt, Graph.keyAt]

theorem mapId (h : g.Recached g') (m : NodeId) (port : Port) : g'.mapId m port = g.mapId m port := by
  rw [Graph.mapId, Graph.mapId]
  rcases hw : g.wiring? m with _ | w
  · rw [h.wiring?_eq_none hw]
  · obtain ⟨w', hs, hw'⟩ := h.wiring hw
    rw [hw', Option.map_some, Option.map_some, hs.ids]

theorem exposed (h : g.Recached g') (m : NodeId) : g'.exposed m = g.exposed m := h.table m .output

theorem data (h : g.Recached g') {m : NodeId} {d : DataNode} (hd : g.data? m = some d) :
    ∃ w, d.wiring.Same w ∧ g'.data? m = some { d with wiring := w } := h.rewired.exists_data same_self hd

theorem data_of (h : g.Recached g') {m : NodeId} {d : DataNode} (hd : g'.data? m = some d) :
    ∃ e, g.data? m = some e ∧ e.wiring.Same d.wiring ∧ d = { e with wiring := d.wiring } :=
  h.rewired.exists_data_of same_self hd

theorem registry (h : g.Recached g') : g'.registry = g.registry := by
  obtain ⟨ns, s, j, rfl⟩ := h.rest
  rfl

/-- Changes of cells keep a graph wired. -/
theorem wired (h : g.Recached g') (hw : g.Wired) : g'.Wired := by
  intro m d hd ho
  obtain ⟨e, he, hs, hde⟩ := h.data_of hd
  have hdes : d.design = e.design := by rw [hde]; rfl
  refine (hw m e he (hs.outOfSync ▸ ho)).congr h.registry hdes hs.tables hs.params (fun r _ => h.rewired.leaf? r)
    (fun r _ => h.exposed r) fun r hr d' hd' => ?_
  obtain ⟨e', he', hs', -⟩ := h.data_of hd'
  rw [hs'.outOfSync]
  exact (hw m e he (hs.outOfSync ▸ ho)).below r hr e' he'

end Recached

/-- Setting a cell of a name of a port. -/
theorem recached_setChannel {g : Graph} {n : NodeId} {w : Wiring} (hw : g.wiring? n = some w) {port : Port} {x : String}
    (hx : x ∈ g.table n port) (s : Substitution) (c : Cell) (ch : ChannelId) :
    g.Recached (g.setChannel n port x s c ch) := by
  refine ⟨⟨_, _, _, rfl⟩, (rewired_modifyWiring g n _).size, (rewired_modifyWiring g n _).next, fun m => ?_⟩
  rcases (rewired_modifyWiring g n fun w => w.setMap port ((w.map port).setCell x s { c with channel := some ch })).node m with
    hm | ⟨y, d, w', hy, hk, ⟨rfl, rfl⟩, hm⟩
  · exact .inl hm
  · refine .inr ⟨y, d, _, hy, hk, ?_, hm⟩
    have hd : g.data? m = some d := by rw [data?, hy, Option.bind_some, Node.data?, hk]
    rw [table_of_wiring? (wiring?_of_data? hd)] at hx
    exact Wiring.same_setMap rfl (ChannelMap.table_setCell ((ChannelMap.mem_table _ _).1 hx) ..)

theorem cell?_setChannel {g : Graph} {n : NodeId} {w : Wiring} (hw : g.wiring? n = some w) (port : Port) (x : String)
    (s : Substitution) (c : Cell) (ch : ChannelId) (m : NodeId) (q : Port) (y k : String) :
    (g.setChannel n port x s c ch).cell? m q y k =
      if m = n ∧ q = port ∧ y = x ∧ k = g.keyAt n port x s then some { c with channel := some ch } else g.cell? m q y k := by
  rw [cell?, setChannel, wiring?_modifyWiring]
  by_cases hm : m = n
  · subst hm
    rw [if_pos rfl, hw, Option.map_some, Option.bind_some, Wiring.map_setMap, cell?_of_wiring? hw, keyAt_of_wiring? hw]
    by_cases hq : q = port
    · subst hq
      rw [if_pos rfl, ChannelMap.at?_setCell]
      simp
    · rw [if_neg hq, if_neg fun h => hq h.2.1]
  · rw [if_neg hm, if_neg fun h => hm h.1]
    rfl

end Graph

end Dataflow
