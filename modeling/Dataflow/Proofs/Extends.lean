import Dataflow.Proofs.Sound

/-!
# Extending a graph

Building only adds to what live instances see: their channels, processes and entries stay as they are, nodes in sync keep their
tables, and channels that nobody sees yet are the only ones that change. Whatever a live instance is faithful to, it stays faithful
to in an extended graph.
-/

namespace Dataflow

/-- A wiring in sync stays in sync with its tables and forgets nothing that it registered; map ids never change. -/
structure Wiring.Grows (w w' : Wiring) : Prop where
  ids : ∀ port, (w'.map port).id = (w.map port).id
  sync : w.outOfSync = false → w'.outOfSync = false
  tables : w.outOfSync = false → w'.tables = w.tables
  params : w.outOfSync = false → w'.params = w.params
  processes : w.outOfSync = false → ∀ (k : String) (id : ProcessId), w.processes[k]? = some id → w'.processes[k]? = some id

theorem Wiring.Grows.refl (w : Wiring) : w.Grows w :=
  ⟨fun _ => rfl, fun h => h, fun _ => rfl, fun _ => rfl, fun _ _ _ h => h⟩

theorem Wiring.Grows.trans {w w' w'' : Wiring} (h : w.Grows w') (h' : w'.Grows w'') : w.Grows w'' :=
  ⟨fun port => (h'.ids port).trans (h.ids port), fun hs => h'.sync (h.sync hs),
    fun hs => (h'.tables (h.sync hs)).trans (h.tables hs), fun hs => (h'.params (h.sync hs)).trans (h.params hs),
    fun hs k id hk => h'.processes (h.sync hs) k id (h.processes hs k id hk)⟩

theorem Wiring.Same.grows {w w' : Wiring} (h : w.Same w') : w.Grows w' :=
  ⟨h.ids, fun hs => h.outOfSync.trans hs, fun _ => h.tables, fun _ => h.params, fun _ k id hk => by rw [h.processes]; exact hk⟩

namespace Graph

/-- `g'` is `g` with more built. -/
structure Extends (g g' : Graph) : Prop where
  registry : g'.registry = g.registry
  rewired : Rewired (fun _ => Wiring.Grows) g g'
  instances : ∀ (id : InstanceId) (i : Instance), g.instances[id]? = some i → ∃ u, g'.instances[id]? = some { i with uses := u }
  processes : ∀ (id : ProcessId) (p : Process), g.processes[id]? = some p → ∃ u, g'.processes[id]? = some { p with uses := u }
  fresh : ∀ (id : ProcessId) (p : Process), g'.processes[id]? = some p →
    (g.processes[id]?).isSome ∨ (∀ e ∈ p.outputs.map (·.2), g.store.entryAt? e = none) ∧ p.state = .unprocessed
  chans : ∀ (id : InstanceId) (i : Instance), g.instances[id]? = some i →
    ∀ port x, g'.chan i.owner port x i.substitution = g.chan i.owner port x i.substitution
  tolerance : g'.store.tolerance = g.store.tolerance
  next : g.store.channels.next ≤ g'.store.channels.next
  entries : ∀ e x, g.store.entryAt? e = some x → g'.store.entryAt? e = some x
  wires : ∀ c w, g.Seen c → g.store.wire? c = some w → g'.store.wire? c = some w
  listeners : ∀ c l, g.Seen c → l ∈ g.store.listenersOf c → l ∈ g'.store.listenersOf c

namespace Extends

variable {g g' g'' : Graph}

theorem refl (g : Graph) : g.Extends g :=
  ⟨rfl, .refl g, fun _ i h => ⟨i.uses, h⟩, fun _ p h => ⟨p.uses, h⟩, fun _ _ h => .inl (by rw [h]; rfl), fun _ _ _ _ _ => rfl,
    rfl, Nat.le_refl _, fun _ _ h => h, fun _ _ _ h => h, fun _ _ _ h => h⟩

theorem seen (h : g.Extends g') {c : ChannelId} (hc : g.Seen c) : g'.Seen c := by
  obtain ⟨id, i, hi, hc⟩ := hc
  obtain ⟨u, hu⟩ := h.instances id i hi
  refine ⟨id, _, hu, ?_⟩
  rcases hc with hc | ⟨port, x, hc⟩
  · exact .inl hc
  · exact .inr ⟨port, x, (h.chans id i hi port x).trans hc⟩

theorem trans (h : g.Extends g') (h' : g'.Extends g'') : g.Extends g'' := by
  refine ⟨h'.registry.trans h.registry, h.rewired.trans h'.rewired (fun _ _ _ h => h) (fun _ _ _ h => h)
    fun _ _ _ _ h h' => h.trans h', fun id i hi => ?_, fun id p hp => ?_, fun id p hp => ?_, fun id i hi port x => ?_,
    h'.tolerance.trans h.tolerance, Nat.le_trans h.next h'.next, fun e x hx => h'.entries e x (h.entries e x hx),
    fun c w hc hw => h'.wires c w (h.seen hc) (h.wires c w hc hw),
    fun c l hc hl => h'.listeners c l (h.seen hc) (h.listeners c l hc hl)⟩
  · obtain ⟨u, hu⟩ := h.instances id i hi
    obtain ⟨u', hu'⟩ := h'.instances id _ hu
    exact ⟨u', hu'⟩
  · obtain ⟨u, hu⟩ := h.processes id p hp
    obtain ⟨u', hu'⟩ := h'.processes id _ hu
    exact ⟨u', hu'⟩
  · rcases h'.fresh id p hp with hs | hf
    · obtain ⟨q, hq⟩ := Option.isSome_iff_exists.1 hs
      obtain ⟨u, hu⟩ := h'.processes id q hq
      rw [hp] at hu
      cases hu
      exact h.fresh id q hq
    · refine .inr ⟨fun e he => ?_, hf.2⟩
      rcases hx : g.store.entryAt? e with _ | x
      · rfl
      · have := h.entries e x hx
        rw [hf.1 e he] at this
        cases this
  · obtain ⟨u, hu⟩ := h.instances id i hi
    exact (h'.chans id _ hu port x).trans (h.chans id i hi port x)

section Nodes

variable (h : g.Extends g')

include h

theorem sameDesign : g.SameDesign g' := h.rewired.sameDesign h.registry

theorem wiring {n : NodeId} {w : Wiring} (hw : g.wiring? n = some w) : ∃ w', w.Grows w' ∧ g'.wiring? n = some w' :=
  h.rewired.exists_wiring (fun _ => .refl) hw

theorem mapId (n : NodeId) (port : Port) : g'.mapId n port = g.mapId n port := by
  rw [Graph.mapId, Graph.mapId]
  rcases hw : g.wiring? n with _ | w
  · rcases hw' : g'.wiring? n with _ | w'
    · rfl
    · obtain ⟨w, -, hw''⟩ := h.rewired.exists_wiring_of (fun _ => .refl) hw'
      rw [hw] at hw''
      cases hw''
  · obtain ⟨w', hg, hw'⟩ := h.wiring hw
    rw [hw', Option.map_some, Option.map_some, hg.ids]

theorem reaches {n m : NodeId} {port q : Port} : g'.Reaches n port m q ↔ g.Reaches n port m q := by
  simp only [Reaches, h.sameDesign.design, h.sameDesign.below]

variable {n : NodeId} (hn : g.InSync n)

include hn

theorem inSync : g'.InSync n := by
  obtain ⟨w, hw, hs⟩ := hn
  obtain ⟨w', hg, hw'⟩ := h.wiring hw
  exact ⟨w', hw', hg.sync hs⟩

theorem table (port : Port) : g'.table n port = g.table n port := by
  obtain ⟨w, hw, hs⟩ := hn
  obtain ⟨w', hg, hw'⟩ := h.wiring hw
  rw [table_of_wiring? hw, table_of_wiring? hw']
  cases port with
  | input => exact congrArg Tables.input (hg.tables hs)
  | extended => exact congrArg Tables.extended (hg.tables hs)
  | output => exact congrArg Tables.output (hg.tables hs)

theorem paramsAt (port : Port) (x : String) : g'.paramsAt n port x = g.paramsAt n port x := by
  rw [Graph.paramsAt, h.table hn, Graph.paramsAt]

theorem keyAt (port : Port) (x : String) (s : Substitution) : g'.keyAt n port x s = g.keyAt n port x s := by
  rw [Graph.keyAt, h.paramsAt hn, Graph.keyAt]

theorem params : g'.params n = g.params n := by
  obtain ⟨w, hw, hs⟩ := hn
  obtain ⟨w', hg, hw'⟩ := h.wiring hw
  rw [params_of_wiring? hw, params_of_wiring? hw', hg.params hs]

theorem operatorParams : g'.operatorParams n = g.operatorParams n := by
  obtain ⟨w, hw, hs⟩ := hn
  obtain ⟨w', hg, hw'⟩ := h.wiring hw
  rw [Graph.operatorParams, Graph.operatorParams, hw, hw']
  exact congrArg Tables.operatorParams (hg.tables hs)

theorem operation? : g'.operation? n = g.operation? n := by
  obtain ⟨d, hd, hs⟩ := hn.exists_data
  obtain ⟨w', hg, hd'⟩ := h.rewired.exists_data (fun _ => .refl) hd
  have ho : w'.operator = d.wiring.operator := congrArg Tables.operator (hg.tables hs)
  rw [Graph.operation?, Graph.operation?, hd, hd', Option.bind_some, Option.bind_some, ho]

theorem processAt? {k : String} {id : ProcessId} (hk : g.processAt? n k = some id) : g'.processAt? n k = some id := by
  obtain ⟨w, hw, hs⟩ := hn
  obtain ⟨w', hg, hw'⟩ := h.wiring hw
  rw [Graph.processAt?, hw] at hk
  rw [Graph.processAt?, hw']
  exact hg.processes hs k id hk

/-- A node that has a process under a key keeps it. -/
theorem processOf {s : Substitution} (hp : g.operation? n ≠ none → (g.processOf n s).isSome) :
    g'.processOf n s = g.processOf n s := by
  rw [Graph.processOf, Graph.processOf, h.operation? hn, h.operatorParams hn]
  rcases ho : g.operation? n with _ | co
  · rfl
  · have hp := hp (by rw [ho]; exact Option.some_ne_none co)
    rw [Graph.processOf, ho, Option.bind_some] at hp
    obtain ⟨id, hid⟩ := Option.isSome_iff_exists.1 hp
    rw [Option.bind_some, Option.bind_some, hid, h.processAt? hn hid]

theorem serves {s : Substitution} {j : InstanceId} (hj : g.Serves n s j) : g'.Serves n s j := by
  obtain ⟨i, hi, ho, hs⟩ := hj
  obtain ⟨u, hu⟩ := h.instances j i hi
  exact ⟨_, hu, ho, by rw [h.params hn]; exact hs⟩

/-- The channels of a node under a substitution that is served stay. -/
theorem chan_of_serves (hw : g.Wired) (hw' : g'.Wired) {s : Substitution} {j : InstanceId} (hj : g.Serves n s j) (port : Port)
    (x : String) : g'.chan n port x s = g.chan n port x s := by
  obtain ⟨i, hi, rfl, hs⟩ := hj
  rw [← hn.chan_restrict hw, ← (h.inSync hn).chan_restrict hw', h.params hn, ← hs]
  exact h.chans j i hi port x

end Nodes

section Slots

variable (h : g.Extends g')

include h

theorem typeAt? {e : EntryId} (he : (g.store.typeAt? e).isSome) : g'.store.typeAt? e = g.store.typeAt? e := by
  rw [Store.typeAt?, Option.isSome_map] at he
  obtain ⟨x, hx⟩ := Option.isSome_iff_exists.1 he
  rw [Store.typeAt?, Store.typeAt?, hx, h.entries e x hx]

theorem grounded {y : Slot Float32} (hy : g.Grounded y) : g'.Grounded y := by
  obtain ⟨ht, hc⟩ := hy
  refine ⟨by rw [h.typeAt? ht]; exact ht, ?_⟩
  rcases hcr : y.creator with _ | p <;> rw [hcr] at hc <;> simp only at hc ⊢
  · intro id q hq hm
    rcases h.fresh id q hq with hs | hf
    · obtain ⟨q', hq'⟩ := Option.isSome_iff_exists.1 hs
      obtain ⟨u, hu⟩ := h.processes id q' hq'
      rw [hq] at hu
      cases hu
      exact hc id q' hq' hm
    · have := hf.1 y.entry hm
      rw [Store.typeAt?, this] at ht
      cases ht
  · obtain ⟨q, hq, hm⟩ := hc
    obtain ⟨u, hu⟩ := h.processes p q hq
    exact ⟨_, hu, hm⟩

/-- A known feed stays known when its channel is left alone. -/
theorem known {f : Feed} (hf : g.Known f) (hw : ∀ c w, f = .channel c → g.store.wire? c = some w → g'.store.wire? c = some w) :
    g'.Known f := by
  rcases f with c | y
  · obtain ⟨o, l, hl, hg⟩ := hf
    exact ⟨o, l, hw c _ rfl hl, fun y hy => h.grounded (hg y hy)⟩
  · exact h.grounded hf

/-- Known feeds whose channels are left alone make the same draft. -/
theorem draft {fs : List Feed} (hf : ∀ f ∈ fs, g.Known f)
    (hw : ∀ c w, .channel c ∈ fs → g.store.wire? c = some w → g'.store.wire? c = some w) :
    g'.store.draft fs = g.store.draft fs := by
  refine Store.draft_congr ⟨h.tolerance, fun f hfm => ?_, fun f hfm x hx => h.typeAt? ((hf f hfm).grounded hx).1⟩
  rcases f with c | y
  · obtain ⟨o, l, hl, -⟩ := hf _ hfm
    rw [Store.feedSlots, Store.feedSlots, Store.slots_of_wire? hl, Store.slots_of_wire? (hw c _ hfm hl)]
  · rfl

theorem produced {x : String} {p : Option ProcessId} (hp : ∀ id, p = some id → (g.processes[id]?).isSome) :
    g'.produced x p = g.produced x p := by
  rcases p with _ | id
  · rfl
  · obtain ⟨q, hq⟩ := Option.isSome_iff_exists.1 (hp id rfl)
    obtain ⟨u, hu⟩ := h.processes id q hq
    rw [produced_of hq, produced_of hu]
    rfl

omit h in
theorem derived {n : NodeId} {s : Substitution} (hc : ∀ x, g'.chan n .extended x s = g.chan n .extended x s) :
    g'.derived n s = g.derived n s :=
  Substitution.ext_get? fun x => by rw [get?_derived, get?_derived, hc]

theorem owned {n : NodeId} {s : Substitution} {port : Port} {c : ChannelId} (hc : g.Owned n s port c)
    (hw : ∀ w, g.store.wire? c = some w → g'.store.wire? c = some w) : g'.Owned n s port c := by
  rcases hc with hb | ⟨o, l, m, q, hl, hm, hr⟩
  · exact .inl hb
  · exact .inr ⟨o, l, m, q, hw _ hl, (h.mapId m q).trans hm, h.reaches.2 hr⟩

/-- A filled port stays filled when its feeds, its cells and the channels of both are left alone. -/
theorem built {n : NodeId} {s : Substitution} {port : Port} (hb : g.Built n s port)
    (hf : ∀ x, g'.feeds n s x port = g.feeds n s x port) (hc : ∀ x, g'.chan n port x s = g.chan n port x s)
    (hwf : ∀ x c w, .channel c ∈ g.feeds n s x port → g.store.wire? c = some w → g'.store.wire? c = some w)
    (hwc : ∀ x c w, g.chan n port x s = some c → g.store.wire? c = some w → g'.store.wire? c = some w) :
    g'.Built n s port := by
  refine ⟨fun x => ?_, fun x f hfm => ?_, fun x c hx => ?_⟩
  · obtain ⟨m, hm, hs⟩ := hb.shown x
    refine ⟨m, (h.mapId n port).trans hm, ?_⟩
    rw [hf, hc, h.draft (hb.known x) fun c w => hwf x c w]
    rcases hx : g.chan n port x s with _ | c
    · rw [hx] at hs
      rw [hs.eq_none_iff.1 rfl]
      trivial
    · rw [hx] at hs
      obtain ⟨e, o, he, hw, hl⟩ := hs.of_some
      rw [he]
      refine ⟨o, hwc x c _ hx hw, ?_⟩
      rcases hl with ⟨hl, ho⟩ | ⟨hl, ho⟩ <;> rw [hl]
      · exact ⟨rfl, ho⟩
      · exact ho
  · rw [hf] at hfm
    refine h.known (hb.known x f hfm) fun c w hfc => ?_
    subst hfc
    exact hwf x c w hfm
  · rw [hf] at hx
    exact h.owned (hb.owned x c hx) fun w => hwf x c w hx

end Slots

/-! ## Feeds -/

section Feeds

variable (h : g.Extends g') (hw : g.Wired) (hw' : g'.Wired) {n : NodeId} {s : Substitution} {d : Design}
  (hd : g.design? n = some d)

include h hd

theorem feeds_input (hw : g.Wired) (hw' : g'.Wired)
    (hr : ∀ r ∈ inflow d, g.leaf? r = none → g.InSync r ∧ ∃ j, g.Serves r s j) (x : String) :
    g'.feeds n s x .input = g.feeds n s x .input := by
  have hd' : g'.design? n = some d := (h.sameDesign.design n).trans hd
  rw [Graph.feeds_input s x hd, Graph.feeds_input s x hd']
  refine List.flatMap_congr fun r hrm => ?_
  rw [brought, brought, h.sameDesign.leaf]
  rcases hl : g.leaf? r with _ | l
  · obtain ⟨hrs, j, hj⟩ := hr r hrm hl
    rw [h.chan_of_serves hrs hw hw' hj]
  · rfl

theorem feeds_extended {x : String} (hc : g'.chan n .input x s = g.chan n .input x s)
    (hp : g'.processOf n s = g.processOf n s) (hl : ∀ id, g.processOf n s = some id → (g.processes[id]?).isSome) :
    g'.feeds n s x .extended = g.feeds n s x .extended := by
  have hd' : g'.design? n = some d := (h.sameDesign.design n).trans hd
  rw [Graph.feeds_extended s x hd, Graph.feeds_extended s x hd', hc, hp, h.produced hl]

theorem feeds_output (hw : g.Wired) (hw' : g'.Wired) (hc : ∀ x, g'.chan n .extended x s = g.chan n .extended x s)
    (hp : ∀ p, d.proto = some p → g.InSync p ∧ ∃ j, g.Serves p (g.derived n s) j) (x : String) :
    g'.feeds n s x .output = g.feeds n s x .output := by
  have hd' : g'.design? n = some d := (h.sameDesign.design n).trans hd
  rw [Graph.feeds_output s x hd, Graph.feeds_output s x hd']
  congr 1
  funext y
  rw [unfilteredChan, unfilteredChan, hc, derived hc]
  rcases hpr : d.proto with _ | p
  · rfl
  · obtain ⟨hps, j, hj⟩ := hp p hpr
    simp only
    rw [h.chan_of_serves hps hw hw' hj]

end Feeds

end Extends

/-! ## What live instances and processes are faithful to -/

section Sound

variable {R : Substitution → Prop} {hands : List InstanceId} {busy : List ProcessId} {g g' : Graph}

theorem Sound.inSync_of_serves (hs : g.Sound R hands busy) {n : NodeId} {s : Substitution} {j : InstanceId}
    (hj : g.Serves n s j) : g.InSync n := by
  obtain ⟨i, hi, rfl, -⟩ := hj
  exact (hs.faithful j i hi).1.inSync

theorem Serves.seen {n : NodeId} {s : Substitution} {j : InstanceId} (hj : g.Serves n s j) (hn : g.InSync n) (hw : g.Wired)
    {port : Port} {x : String} {c : ChannelId} (hc : g.chan n port x s = some c) : g.Seen c := by
  obtain ⟨i, hi, rfl, hs⟩ := hj
  refine ⟨j, i, hi, .inr ⟨port, x, ?_⟩⟩
  rw [hs, hn.chan_restrict hw]
  exact hc

/-- The process that a node runs under the substitution of an instance is live. -/
theorem Sound.processOf_live (hs : g.Sound R hands busy) {n : NodeId} {s : Substitution} {id : ProcessId}
    (hp : g.processOf n s = some id) : (g.processes[id]?).isSome := by
  obtain ⟨co, -, hp⟩ := Option.bind_eq_some_iff.1 hp
  obtain ⟨w, hw, hk⟩ := Option.bind_eq_some_iff.1 hp
  obtain ⟨p, hp, -⟩ := (hs.registered.processMemo n w _ id hw).1 hk
  rw [hp]
  rfl

/-- What flows into a faithful instance is served. -/
theorem FaithfulAt.served {i : Instance} (hf : g.FaithfulAt i) {d : Design} (hd : g.design? i.owner = some d) {r : NodeId}
    (hr : r ∈ inflow d) (hl : g.leaf? r = none) : ∃ j ∈ i.children, g.Serves r i.substitution j := by
  have hm : r ∈ (inflow d).filter fun r => (g.leaf? r).isNone := List.mem_filter.2 ⟨hr, by rw [hl]; rfl⟩
  have hc := hf.children d hd
  revert hm hc
  generalize (inflow d).filter (fun r => (g.leaf? r).isNone) = l
  generalize i.children = js
  intro hm hc
  revert hm
  induction hc with
  | nil => exact fun hm => absurd hm List.not_mem_nil
  | cons hj _ ih =>
    intro hm
    rcases List.mem_cons.1 hm with rfl | hm
    · exact ⟨_, List.mem_cons_self .., hj⟩
    · obtain ⟨j, hj, hs⟩ := ih hm
      exact ⟨j, List.mem_cons_of_mem _ hj, hs⟩

theorem FaithfulAt.template {i : Instance} (hf : g.FaithfulAt i) {d : Design} (hd : g.design? i.owner = some d) {p : NodeId}
    (hp : d.proto = some p) : ∃ j, i.proto = some j ∧ g.Serves p (g.derived i.owner i.substitution) j := by
  have := hf.proto d hd
  rw [hp] at this
  exact this

/-- A live instance sees the channels that feed its ports. -/
theorem Sound.seen_of_feed (hs : g.Sound R hands busy) {id : InstanceId} {i : Instance} (hi : g.instances[id]? = some i)
    {port : Port} {x : String} {c : ChannelId} (hc : .channel c ∈ g.feeds i.owner i.substitution x port) : g.Seen c := by
  have hf := (hs.faithful id i hi).1
  obtain ⟨d, hd⟩ := hf.inSync.exists_design
  cases port with
  | input =>
    rw [feeds_input _ _ hd, List.mem_flatMap] at hc
    obtain ⟨r, hr, hc⟩ := hc
    rcases mem_brought.1 hc with ⟨l, -, -, hl⟩ | ⟨hl, c', hc', he⟩
    · -- a leaf brings a channel only when it is bound
      rw [Leaf.feed?] at hl
      rcases hb : (if l.param = true then i.substitution.get? l.name else none) with _ | c'
      · rw [hb] at hl
        rcases he : l.entry with _ | e <;> rw [he] at hl <;> simp at hl
      · rw [hb] at hl
        cases hl
        split at hb
        · exact ⟨id, i, hi, .inl ⟨_, hb⟩⟩
        · cases hb
    · cases he
      obtain ⟨j, -, hj⟩ := hf.served hd hr hl
      exact hj.seen (hs.inSync_of_serves hj) hs.wired hc'
  | extended =>
    rw [feeds_extended _ _ hd, List.mem_append] at hc
    rcases hc with hc | hc
    · simp only [List.mem_map, Option.mem_toList, Feed.channel.injEq, exists_eq_right] at hc
      exact ⟨id, i, hi, .inr ⟨.input, x, hc⟩⟩
    · obtain ⟨_, _, _, -, -, -, he⟩ := mem_produced.1 hc
      cases he
  | output =>
    rw [feeds_output _ _ hd, List.mem_filterMap] at hc
    obtain ⟨y, -, hy⟩ := hc
    obtain ⟨c', hc', he⟩ := Option.map_eq_some_iff.1 hy
    cases he
    rw [unfilteredChan] at hc'
    have hext : g.chan i.owner .extended y i.substitution = some c → g.Seen c :=
      fun h => ⟨id, i, hi, .inr ⟨.extended, y, h⟩⟩
    rcases hp : d.proto with _ | p <;> rw [hp] at hc'
    · exact hext hc'
    · rcases Option.or_eq_some_iff.1 hc' with hc' | ⟨-, hc'⟩
      · obtain ⟨j, -, hj⟩ := hf.template hd hp
        exact hj.seen (hs.inSync_of_serves hj) hs.wired hc'
      · exact hext hc'

namespace Extends

variable (h : g.Extends g') (hs : g.Sound R hands busy)

include h hs

theorem feeds_eq (hw' : g'.Wired) {id : InstanceId} {i : Instance} (hi : g.instances[id]? = some i) (port : Port) (x : String) :
    g'.feeds i.owner i.substitution x port = g.feeds i.owner i.substitution x port := by
  have hf := (hs.faithful id i hi).1
  obtain ⟨d, hd⟩ := hf.inSync.exists_design
  have hc := h.chans id i hi
  cases port with
  | input =>
    refine h.feeds_input hd hs.wired hw' (fun r hr hl => ?_) x
    obtain ⟨j, -, hj⟩ := hf.served hd hr hl
    exact ⟨hs.inSync_of_serves hj, j, hj⟩
  | extended =>
    refine h.feeds_extended hd (hc .input x) (h.processOf hf.inSync fun ho => ?_) fun id hid => hs.processOf_live hid
    obtain ⟨⟨c, op⟩, ho⟩ := Option.ne_none_iff_exists'.1 ho
    obtain ⟨pid, p, hp, -⟩ := hf.runs c op ho
    rw [← hf.process, hp]
    rfl
  | output =>
    refine h.feeds_output hd hs.wired hw' (hc .extended) (fun p hp => ?_) x
    obtain ⟨j, -, hj⟩ := hf.template hd hp
    exact ⟨hs.inSync_of_serves hj, j, hj⟩

/-- A live instance stays faithful. -/
theorem faithfulAt (hw' : g'.Wired) {id : InstanceId} {i : Instance} (hi : g.instances[id]? = some i) (u : Nat) :
    g'.FaithfulAt { i with uses := u } := by
  have hf := (hs.faithful id i hi).1
  have hc := h.chans id i hi
  have hd : ∀ d, g'.design? i.owner = some d → g.design? i.owner = some d := fun d hd => (h.sameDesign.design _).symm.trans hd
  have hproc : g'.processOf i.owner i.substitution = g.processOf i.owner i.substitution := by
    refine h.processOf hf.inSync fun ho => ?_
    obtain ⟨⟨c, op⟩, ho⟩ := Option.ne_none_iff_exists'.1 ho
    obtain ⟨pid, p, hp, -⟩ := hf.runs c op ho
    rw [← hf.process, hp]
    rfl
  refine ⟨h.inSync hf.inSync, hf.key, ?_, fun d hd' => ?_, fun d hd' => ?_, ?_, fun c op ho => ?_, fun port => ?_⟩
  · rw [h.params hf.inSync]
    exact fun x c hx => ⟨(hf.bound x c hx).1, Nat.lt_of_lt_of_le (hf.bound x c hx).2 h.next⟩
  · simp only [h.sameDesign.leaf]
    exact (hf.children d (hd d hd')).imp fun r j hj => h.serves (hs.inSync_of_serves hj) hj
  · have := hf.proto d (hd d hd')
    rcases hp : d.proto with _ | p <;> rw [hp] at this
    · exact this
    · obtain ⟨j, hj, hserv⟩ := this
      refine ⟨j, hj, ?_⟩
      rw [derived (hc .extended)]
      exact h.serves (hs.inSync_of_serves hserv) hserv
  · exact hf.process.trans hproc.symm
  · rw [h.operation? hf.inSync] at ho
    obtain ⟨pid, p, hp, hlive, hr⟩ := hf.runs c op ho
    obtain ⟨v, hv⟩ := h.processes pid p hlive
    have hseen : ∀ ch, some ch ∈ p.inputs → g.Seen ch := by
      intro ch hch
      rw [hr.inputs, List.mem_map] at hch
      obtain ⟨x, -, hx⟩ := hch
      exact ⟨id, i, hi, .inr ⟨.input, x, hx⟩⟩
    refine ⟨pid, _, hp, hv, hr.owner, ?_, ?_, ?_, fun ch hch => h.listeners ch _ (hseen ch hch) (hr.listens ch hch)⟩
    · rw [h.operatorParams hf.inSync]
      exact hr.key
    · exact hr.inputs.trans (List.map_congr_left fun x _ => (hc .input x).symm)
    · refine hr.children.trans (congrArg List.eraseDups (List.flatMap_congr fun ch hch => ?_))
      have hch : some ch ∈ p.inputs := by simpa using hch
      rw [hr.inputs, List.mem_map] at hch
      obtain ⟨x, hx, hcx⟩ := hch
      obtain ⟨o, l, hl, -⟩ := (hf.built .input).known_chan hcx
      have hseen : g.Seen ch := ⟨id, i, hi, .inr ⟨.input, x, hcx⟩⟩
      rw [Store.creators, Store.creators, Store.slots_of_wire? hl, Store.slots_of_wire? (h.wires ch _ hseen hl)]
  · exact h.built (hf.built port) (h.feeds_eq hs hw' hi port) (hc port)
      (fun x c w hfx => h.wires c w (hs.seen_of_feed hi hfx)) fun x c w hcx => h.wires c w ⟨id, i, hi, .inr ⟨port, x, hcx⟩⟩

/-- A live process keeps what it owns. -/
theorem processAt {id : ProcessId} {p : Process} (hp : g.processes[id]? = some p) (u : Nat) : g'.ProcessAt id { p with uses := u } := by
  have hpa := hs.process id p hp
  have htypes : ∀ e ∈ p.outputs.map (·.2), (g.store.typeAt? e).isSome := by
    intro e he
    obtain ⟨b, hb, rfl⟩ := List.mem_map.1 he
    have : g.store.typeAt? b.2 ∈ p.operator.outputs.map fun o => some o.type := by
      rw [← hpa.types]
      exact List.mem_map.2 ⟨b, hb, rfl⟩
    obtain ⟨o, -, ho⟩ := List.mem_map.1 this
    rw [← ho]
    rfl
  refine ⟨h.inSync hpa.inSync, ?_, hpa.distinct, ?_, fun id' p' hp' hne e he he' => ?_, fun j hj => ?_⟩
  · rw [h.operation? hpa.inSync]
    exact hpa.operation
  · refine Eq.trans (List.map_congr_left fun b hb => ?_) hpa.types
    exact h.typeAt? (htypes _ (List.mem_map.2 ⟨b, hb, rfl⟩))
  · rcases h.fresh id' p' hp' with hl | hf
    · obtain ⟨q, hq⟩ := Option.isSome_iff_exists.1 hl
      obtain ⟨v, hv⟩ := h.processes id' q hq
      rw [hp'] at hv
      cases hv
      exact hpa.apart id' q hq hne e he he'
    · have := htypes e he
      rw [Store.typeAt?, hf.1 e he'] at this
      cases this
  · obtain ⟨hlt, hl⟩ := hpa.children j hj
    obtain ⟨q, hq⟩ := Option.isSome_iff_exists.1 hl
    obtain ⟨v, hv⟩ := h.processes j q hq
    exact ⟨hlt, by rw [hv]; rfl⟩

theorem leaves {n : NodeId} {l : Leaf} {e : EntryId} (hl : g'.leaf? n = some l) (he : l.entry = some e) :
    g'.Grounded { entry := e, key := l.key } :=
  h.grounded (hs.leaves n l e ((h.sameDesign.leaf n).symm.trans hl) he)

end Extends

end Sound

end Graph

end Dataflow
