import Dataflow.Proofs.Gather

/-!
# Building an instance

Once the input port is filled, the operator's process is acquired, what came in and what the process writes fill the extended port, the
template is instantiated with all of these bound, and what the filter selects of both fills the output port.
-/

namespace Dataflow

namespace Graph

variable {R : Substitution → Prop} {hands : List InstanceId} {busy : List ProcessId} {g g' g₀ : Graph} {n r : NodeId}
  {s : Substitution} {D : Design}

/-! ## Ports that are filled already -/

/-- A filled port stays filled when its cells, its feeds and all channels are left alone. -/
theorem Filled.later {port : Port} (h : g₀.Filled g n s port) (hn : g.InSync n) (he : g.Extends g')
    (hcells : ∀ x k, g'.cell? n port x k = g.cell? n port x k) (hwires : ∀ c w, g.store.wire? c = some w → g'.store.wire? c = some w)
    (hfeeds : ∀ x, g'.feeds n s x port = g.feeds n s x port) : g₀.Filled g' n s port := by
  have hkey : ∀ x, g'.keyAt n port x s = g.keyAt n port x s := fun x => he.keyAt hn port x s
  have hchan : ∀ x, g'.chan n port x s = g.chan n port x s := fun x => by rw [chan, hkey, hcells, chan]
  refine ⟨he.built h.built hfeeds hchan (fun _ c w _ => hwires c w) fun _ c w _ => hwires c w, fun x k c hc hu => ?_,
    fun x c hc => ?_⟩
  · rw [hcells] at hc
    rw [hkey]
    exact h.pending x k c hc hu
  · rw [hchan] at hc
    exact h.origin x c hc

/-- The nodes that flow in are served. -/
def Inflowing (g : Graph) (n : NodeId) (s : Substitution) (js : List InstanceId) : Prop :=
  ∀ d, g.design? n = some d → List.Forall₂ (fun r j => g.Serves r s j) ((inflow d).filter fun r => (g.leaf? r).isNone) js

theorem Inflowing.served {js : List InstanceId} (h : g.Inflowing n s js) (hs : g.Sound R hands busy) (hD : g.design? n = some D)
    (hr : r ∈ inflow D) (hl : g.leaf? r = none) : g.InSync r ∧ ∃ j, g.Serves r s j := by
  obtain ⟨j, -, hj⟩ := exists_of_forall₂ (h D hD) (List.mem_filter.2 ⟨hr, by rw [hl]; rfl⟩)
  exact ⟨hs.inSync_of_serves hj, j, hj⟩

theorem Inflowing.of_extends {js : List InstanceId} (h : g.Inflowing n s js) (hs : g.Sound R hands busy) (he : g.Extends g') :
    g'.Inflowing n s js := by
  intro d hd
  rw [he.sameDesign.design] at hd
  simp only [he.sameDesign.leaf]
  exact (h d hd).imp fun r j hj => he.serves (hs.inSync_of_serves hj) hj

/-- The feeds of the input port stay. -/
theorem Inflowing.feeds_input {js : List InstanceId} (h : g.Inflowing n s js) (hn : g.InSync n) (hs : g.Sound R hands busy)
    (he : g.Extends g') (hw' : g'.Wired) (x : String) : g'.feeds n s x .input = g.feeds n s x .input := by
  obtain ⟨d, hd⟩ := hn.exists_design
  exact he.feeds_input hd hs.wired hw' (fun r hr hl => h.served hs hd hr hl) x

/-- The node runs its process, if it has an operation. -/
structure Running (g : Graph) (n : NodeId) (s : Substitution) (r : Option ProcessId) : Prop where
  process : r = g.processOf n s
  runs : ∀ c op, g.operation? n = some (c, op) →
    ∃ (id : ProcessId) (p : Process), r = some id ∧ g.processes[id]? = some p ∧ g.Runs n s c op id p

/-- The feeds of the extended port stay. -/
theorem Running.feeds_extended {r : Option ProcessId} (h : g.Running n s r) (hn : g.InSync n) (hs : g.Sound R hands busy)
    (he : g.Extends g') (hc : ∀ x, g'.chan n .input x s = g.chan n .input x s) (x : String) :
    g'.feeds n s x .extended = g.feeds n s x .extended := by
  obtain ⟨d, hd⟩ := hn.exists_design
  refine he.feeds_extended hd (hc x) (he.processOf hn fun ho => ?_) fun id hid => hs.processOf_live hid
  obtain ⟨⟨c, op⟩, ho⟩ := Option.ne_none_iff_exists'.1 ho
  obtain ⟨id, p, hr, -⟩ := h.runs c op ho
  rw [← h.process, hr]
  rfl

/-- A running process keeps running while its inputs and who listens to them stay. -/
theorem Running.of_extends {r : Option ProcessId} (h : g.Running n s r) (hn : g.InSync n) (he : g.Extends g')
    (hb : g.Built n s .input) (hc : ∀ x, g'.chan n .input x s = g.chan n .input x s)
    (hwires : ∀ c w, g.store.wire? c = some w → g'.store.wire? c = some w)
    (hlisten : ∀ c l, l ∈ g.store.listenersOf c → l ∈ g'.store.listenersOf c) : g'.Running n s r := by
  refine ⟨h.process.trans (he.processOf hn fun ho => ?_).symm, fun c op ho => ?_⟩
  · obtain ⟨⟨c, op⟩, ho⟩ := Option.ne_none_iff_exists'.1 ho
    obtain ⟨id, p, hr, -⟩ := h.runs c op ho
    rw [← h.process, hr]
    rfl
  · rw [he.operation? hn] at ho
    obtain ⟨id, p, hr, hp, hruns⟩ := h.runs c op ho
    obtain ⟨u, hu⟩ := he.processes id p hp
    refine ⟨id, _, hr, hu, hruns.owner, ?_, ?_, ?_, fun ch hch => hlisten ch _ (hruns.listens ch hch)⟩
    · rw [he.operatorParams hn]
      exact hruns.key
    · exact hruns.inputs.trans (List.map_congr_left fun x _ => (hc x).symm)
    · refine hruns.children.trans (congrArg List.eraseDups (List.flatMap_congr fun ch hch => ?_))
      have hch : some ch ∈ p.inputs := by simpa using hch
      rw [hruns.inputs, List.mem_map] at hch
      obtain ⟨x, -, hx⟩ := hch
      obtain ⟨o, l, hl, -⟩ := hb.known_chan hx
      rw [Store.creators, Store.creators, Store.slots_of_wire? hl, Store.slots_of_wire? (hwires ch _ hl)]

/-- Nodes register the same instances when the same are live. -/
theorem memo_eq_of_instances_eq {hands' : List InstanceId} {busy' : List ProcessId} (hs : g.Sound R hands busy)
    (hs' : g'.Sound R hands' busy') (hi : g'.instances = g.instances) (hn : g.InSync n) (hn' : g'.InSync n) :
    (g'.wiring? n).map (·.instances) = (g.wiring? n).map (·.instances) := by
  obtain ⟨w, hw, -⟩ := hn
  obtain ⟨w', hw', -⟩ := hn'
  rw [hw, hw', Option.map_some, Option.map_some]
  refine congrArg some (Std.ExtTreeMap.ext_getElem? fun {k} => Option.ext fun id => ?_)
  rw [hs.registered.memo n w k id hw, hs'.registered.memo n w' k id hw', hi]

/-! ## The process -/

/-- Acquiring the process of an instance whose input port is filled. -/
theorem process_spec (hR : Regime R) (hs₀ : g₀.Sound R hands busy) (hsite : Site R g₀ n s) (hidle : g₀.Idle busy n)
    {js : List InstanceId} (hb : Building R (js ++ hands) busy g₀ n s g) (hf : g₀.Filled g n s .input) (hj : g.Inflowing n s js)
    (hq : ∀ q, q ≠ .input → ∀ x k c, g.cell? n q x k = some c → c.uses ≠ 0) :
    ∃ g' r, g.acquireProcess n s = (g', r) ∧ Building R (js ++ hands) (r.toList ++ busy) g₀ n s g' ∧ g₀.Filled g' n s .input ∧
      g'.Inflowing n s js ∧ (∀ q, q ≠ .input → ∀ x k c, g'.cell? n q x k = some c → c.uses ≠ 0) ∧ g'.Running n s r := by
  have hs := hb.sound
  have hext₀ := hb.grown.extending
  have here := hsite.of_grown hs₀ hs hb.grown
  obtain ⟨g', r, he, hs', hext, ho, hr, hruns⟩ := acquireProcess_spec hR hs here.inSync here.regime hf.built fun id hid p hp heq =>
    (hidle.of_extends hs₀.counted.busy hext₀) id hid p hp (heq ▸ Leads.refl _)
  refine ⟨g', r, he, ⟨hs', hb.grown.of_operated hext ho, fun m hm hmn port x k c hc => ?_, ?_⟩,
    hf.later here.inSync hext (fun x k => ho.relisted.cell? n .input x k) (fun c w hw => (ho.wires c).trans hw)
      (hj.feeds_input here.inSync hs hext hs'.wired), hj.of_extends hs hext, fun q hqn x k c hc => ?_, ⟨hr, hruns⟩⟩
  · rw [ho.relisted.cell?] at hc
    exact hb.quiet m (hext.sameDesign.below.1 hm) hmn port x k c hc
  · rw [← hb.memo]
    exact memo_eq_of_instances_eq hs hs' ho.instances here.inSync (hext.inSync here.inSync)
  · rw [ho.relisted.cell?] at hc
    exact hq q hqn x k c hc

/-! ## Merging at one port -/

/-- What merging at a port leaves alone once the phase is over: the other ports, and all channels that were there. -/
structure Merged (g g' : Graph) (n : NodeId) (port : Port) : Prop where
  extending : g.Extends g'
  cells : ∀ q, q ≠ port → ∀ x k, g'.cell? n q x k = g.cell? n q x k
  wires : ∀ c w, g.store.wire? c = some w → g'.store.wire? c = some w
  listeners : ∀ c l, l ∈ g.store.listenersOf c → l ∈ g'.store.listenersOf c

theorem Merged.chan {port : Port} (h : g.Merged g' n port) (hn : g.InSync n) {q : Port} (hq : q ≠ port) (x : String)
    (s : Substitution) : g'.chan n q x s = g.chan n q x s := by
  rw [Graph.chan, h.extending.keyAt hn, h.cells q hq, Graph.chan]

/-- Merging its feeds fills a port. -/
theorem Building.fill {port : Port} {fs : List (String × Feed)} (hR : Regime R) (hs₀ : g₀.Sound R hands busy) (hsite : Site R g₀ n s)
    {hands' : List InstanceId} {busy' : List ProcessId} (hb : Building R hands' busy' g₀ n s g)
    (hq : ∀ x k c, g.cell? n port x k = some c → c.uses ≠ 0) (hnamed : ∀ x, named x fs = g.feeds n s x port)
    (htable : ∀ e ∈ fs, e.1 ∈ g.table n port) (hknown : ∀ e ∈ fs, g.Known e.2)
    (howned : ∀ x c, .channel c ∈ g.feeds n s x port → g.Owned n s port c)
    (hlends : ∀ x c, .channel c ∈ g.feeds n s x port → ∀ o l, g.store.wire? c = some (o, l) → g.mapId n port ≠ some o)
    (horigin : ∀ x c, .channel c ∈ g.feeds n s x port → g₀.Seen c ∨ g₀.store.channels.next ≤ c ∨ s.Binds c)
    (hsame : ∀ g', g.Merged g' n port → g'.Wired → ∀ x, g'.feeds n s x port = g.feeds n s x port) :
    Building R hands' busy' g₀ n s (g.mergeFeeds n port s fs) ∧ g₀.Filled (g.mergeFeeds n port s fs) n s port ∧
      g.Merged (g.mergeFeeds n port s fs) n port := by
  have hs := hb.sound
  have here := hsite.of_grown hs₀ hs hb.grown
  have hmem : ∀ e ∈ fs, e.2 ∈ g.feeds n s e.1 port := fun e he => by
    rw [← hnamed]
    exact mem_named.2 he
  obtain ⟨hs', hext, hfill, href, hseen⟩ := (@Filling.start _ _ port here.inSync hq s g.store.channels.next).steps fs hs here.inSync
    (Nat.le_refl _) htable hknown (fun e he m hm => by
      have hk := hknown e he
      rcases hf : e.2 with c | z
      · rw [hf] at hk
        obtain ⟨o, l, hw, -⟩ := hk
        refine ⟨o, l, hw, ?_⟩
        rintro rfl
        exact hlends e.1 c (hf ▸ hmem e he) o l hw hm
      · trivial)
    fun e he id i hi _ hk => here.shares hs hR (List.ne_nil_of_mem (hmem e he)) id i hi hk
  rw [List.nil_append] at hfill
  have hwires : ∀ c w, g.store.wire? c = some w → (g.mergeFeeds n port s fs).store.wire? c = some w :=
    fun c w hw => href.wires c _ _ hw fun _ => Store.lt_next_of_wire? hw
  have hmerged : g.Merged (g.mergeFeeds n port s fs) n port := by
    refine ⟨hext, href.cells, hwires, fun c l hl => ?_⟩
    rcases hw : g.store.wire? c with _ | w
    · rw [Store.listenersOf, Option.map_eq_none_iff.1 hw] at hl
      exact absurd hl List.not_mem_nil
    · rw [href.listeners c _ _ hw fun _ => Store.lt_next_of_wire? hw]
      exact hl
  have hgrown := hb.grown.of_refilled hb.grown.extending.next hext href hseen
  have here' := hsite.of_grown hs₀ hs' hgrown
  have hfeeds := hsame _ hmerged hs'.wired
  refine ⟨⟨hs', hgrown, fun m hm hmn q x k c hc => ?_, ?_⟩,
    ⟨hfill.built hR hs' here.regime (fun x => (hnamed x).trans (hfeeds x).symm) (fun x id i _ _ ha => ?_) fun x c hc => ?_,
      hfill.others, fun x c hc => ?_⟩, hmerged⟩
  · rw [cell?, wiring?, data?, href.nodes m hmn] at hc
    exact hb.quiet m (hext.sameDesign.below.1 hm) hmn q x k c hc
  · rw [← hb.memo]
    exact memo_eq_of_instances_eq hs hs' href.recached.instances here.inSync here'.inSync
  · exact feeds_agree hs' here'.inSync here'.orderly ha
  · rw [hfeeds] at hc
    exact hext.owned (howned x c hc) fun w => hwires c w
  · rcases hfill.origin hs' hR here.regime hc with hc | hc | hc
    · exact hb.grown.seen c (hseen c hc)
    · exact .inr (.inl (Nat.le_trans hb.grown.extending.next hc))
    · rw [hnamed] at hc
      exact horigin x c hc

/-! ## Owners -/

theorem Reaches.mono {port port' q : Port} {m : NodeId} (h : g.Reaches n port m q) (hr : port.rank ≤ port'.rank) :
    g.Reaches n port' m q := by
  rcases h with ⟨rfl, hq⟩ | ⟨d, hd, hb | ⟨rfl, hp⟩⟩
  · exact .inl ⟨rfl, Nat.le_trans hq hr⟩
  · exact .inr ⟨d, hd, .inl hb⟩
  · have : port' = .output := by
      cases port' with
      | output => rfl
      | _ => exact absurd hr (by decide)
    exact .inr ⟨d, hd, .inr ⟨this, hp⟩⟩

theorem Owned.mono {port port' : Port} {c : ChannelId} (h : g.Owned n s port c) (hr : port.rank ≤ port'.rank) :
    g.Owned n s port' c :=
  h.imp_right fun ⟨o, l, m, q, hw, hm, hq⟩ => ⟨o, l, m, q, hw, hm, hq.mono hr⟩

/-- A channel from within reach of a port does not belong to a later port. -/
theorem Site.mapId_ne_of_owned (h : Site R g n s) (hs : g.Sound R hands busy) {port q : Port} (hq : port.rank < q.rank)
    {c : ChannelId} (hc : g.Owned n s port c) {o : MapId} {l : List (Slot Float32)} (hw : g.store.wire? c = some (o, l)) :
    g.mapId n q ≠ some o := by
  intro hm
  rcases hc with hb | ⟨o', l', m, q', hw', hm', hreach⟩
  · exact h.mapId_ne hs hb hw q hm
  · rw [hw] at hw'
    obtain ⟨rfl, rfl⟩ := Prod.mk.inj (Option.some.inj hw')
    obtain ⟨rfl, rfl⟩ := hs.anchored.injective _ _ _ _ _ hm hm'
    rcases hreach with ⟨-, hle⟩ | ⟨d, hd, ⟨r, hr, hb⟩ | ⟨-, p, hp, hb⟩⟩
    · exact absurd hle (Nat.not_le.2 hq)
    · exact not_below_of_reference hs.authored.ranked (mem_references_of_inflow hd hr) hb
    · exact not_below_of_reference hs.authored.ranked (mem_references_of_template hd hp) hb

/-! ## The extended port -/

/-- An instance that is being built, once its extended port is filled. -/
structure Widened (R : Substitution → Prop) (hands : List InstanceId) (busy : List ProcessId) (g₀ : Graph) (n : NodeId)
    (s : Substitution) (js : List InstanceId) (r : Option ProcessId) (g : Graph) : Prop where
  building : Building R (js ++ hands) (r.toList ++ busy) g₀ n s g
  input : g₀.Filled g n s .input
  extended : g₀.Filled g n s .extended
  inflowing : g.Inflowing n s js
  running : g.Running n s r
  quiet : ∀ x k c, g.cell? n .output x k = some c → c.uses ≠ 0

theorem mem_resolve_of {port : Port} {x : String} {c : ChannelId} :
    (x, c) ∈ ((g.wiring? n).map fun w => (w.map port).resolve s).getD [] ↔ g.chan n port x s = some c := by
  rcases hw : g.wiring? n with _ | w
  · simp [chan, cell?, hw]
  · rw [chan_of_wiring? hw]
    exact ChannelMap.mem_resolve ..

theorem nodup_resolve_of (g : Graph) (n : NodeId) (port : Port) (s : Substitution) :
    ((((g.wiring? n).map fun w => (w.map port).resolve s).getD []).map (·.1)).Nodup := by
  rcases hw : g.wiring? n with _ | w
  · exact List.nodup_nil
  · exact ChannelMap.nodup_resolve ..

/-- What a running process writes is grounded, and has names of the extended port. -/
theorem Running.mem_produced {p : Option ProcessId} (h : g.Running n s p) (hs : g.Sound R hands busy) (hn : g.InSync n)
    {x : String} {f : Feed} (hf : f ∈ g.produced x p) : (∃ y, f = .slot y) ∧ g.Known f ∧ x ∈ g.table n .extended := by
  obtain ⟨id, q, e, rfl, hq, he, rfl⟩ := Graph.mem_produced.1 hf
  have hpa := hs.process id q hq
  refine ⟨⟨_, rfl⟩, ⟨?_, q, hq, List.mem_map.2 ⟨_, he, rfl⟩⟩, ?_⟩
  · have : g.store.typeAt? e ∈ q.operator.outputs.map fun o => some o.type := by
      rw [← hpa.types]
      exact List.mem_map.2 ⟨_, he, rfl⟩
    obtain ⟨o, -, ho⟩ := List.mem_map.1 this
    rw [← ho]
    rfl
  · obtain ⟨c, hc, hnames⟩ := hpa.operation
    obtain ⟨co, hco, -⟩ := Option.bind_eq_some_iff.1 h.process.symm
    obtain ⟨id', q', hid', hq', hruns⟩ := h.runs co.1 co.2 hco
    cases hid'
    rw [hq] at hq'
    cases hq'
    rw [hruns.owner, hco] at hc
    cases hc
    obtain ⟨d, hd, hwd⟩ := hn.wiredAt hs.wired
    obtain ⟨hc, hop⟩ := (operation?_of_data? hd).1 hco
    refine hwd.mem_extended_output hd (hwd.operator_eq.symm.trans hop) hc ?_
    rw [← hnames]
    exact List.mem_map.2 ⟨_, he, rfl⟩

/-- The channels that a port shows, as feeds of the next. -/
def shows (g : Graph) (n : NodeId) (port : Port) (s : Substitution) : List (String × Feed) :=
  (((g.wiring? n).map fun w => (w.map port).resolve s).getD []).map fun e => (e.1, .channel e.2)

/-- The slots that a process writes, as feeds. -/
def writes (g : Graph) : Option ProcessId → List (String × Feed)
  | some id => (((g.processes[id]?).map fun q : Process => q.slots id).getD []).map fun e => (e.1, .slot e.2)
  | none => []

theorem named_shows (g : Graph) (n : NodeId) (port : Port) (s : Substitution) (x : String) :
    named x (g.shows n port s) = (g.chan n port x s).toList.map .channel :=
  named_channels (nodup_resolve_of g n port s) x fun _ => mem_resolve_of

theorem named_writes (g : Graph) (p : Option ProcessId) (x : String) : named x (g.writes p) = g.produced x p := by
  rcases p with _ | id <;> rfl

theorem mergeExtended_eq (g : Graph) (n : NodeId) (s : Substitution) (p : Option ProcessId) :
    g.mergeExtended n s p = g.mergeFeeds n .extended s (g.shows n .input s ++ g.writes p) := by
  change (g.mergeChannels n .extended s (((g.wiring? n).map (·.input.resolve s)).getD [])).mergeSlots n .extended s _ = _
  rw [mergeFeeds_append, mergeChannels_eq, mergeSlots_eq]
  rcases p with _ | id <;> rfl

/-- What came in and what the process writes fill the extended port. -/
theorem extended_spec (hR : Regime R) (hs₀ : g₀.Sound R hands busy) (hsite : Site R g₀ n s) {js : List InstanceId}
    {p : Option ProcessId} (hb : Building R (js ++ hands) (p.toList ++ busy) g₀ n s g) (hf : g₀.Filled g n s .input)
    (hj : g.Inflowing n s js) (hq : ∀ q, q ≠ .input → ∀ x k c, g.cell? n q x k = some c → c.uses ≠ 0)
    (hrun : g.Running n s p) : Widened R hands busy g₀ n s js p (g.mergeExtended n s p) := by
  have hs := hb.sound
  have here := hsite.of_grown hs₀ hs hb.grown
  obtain ⟨d, hd, hwd⟩ := here.inSync.wiredAt hs.wired
  have hD := design?_of_data? hd
  have hnamed : ∀ x, named x (g.shows n .input s ++ g.writes p) = g.feeds n s x .extended := by
    intro x
    rw [named_append, named_shows, named_writes, feeds_extended _ _ hD, hrun.process]
  -- a feed is a channel of the input, or a slot of the process
  have hcases : ∀ x f, f ∈ g.feeds n s x .extended → (∃ c, f = .channel c ∧ g.chan n .input x s = some c) ∨
      f ∈ g.produced x p := by
    intro x f hfm
    rw [feeds_extended _ _ hD, List.mem_append, ← hrun.process] at hfm
    refine hfm.imp_left fun h => ?_
    obtain ⟨c, hc, rfl⟩ := List.mem_map.1 h
    exact ⟨c, rfl, Option.mem_toList.1 hc⟩
  have hchan : ∀ x c, .channel c ∈ g.feeds n s x .extended → g.chan n .input x s = some c := by
    intro x c hc
    rcases hcases x _ hc with ⟨c', he, h⟩ | h
    · cases he
      exact h
    · obtain ⟨⟨y, hy⟩, -⟩ := hrun.mem_produced hs here.inSync h
      cases hy
  have hfeed : ∀ e ∈ g.shows n .input s ++ g.writes p, e.2 ∈ g.feeds n s e.1 .extended := fun e he => by
    rw [← hnamed]
    exact mem_named.2 he
  rw [mergeExtended_eq]
  have hfill := hb.fill hR hs₀ hsite (hq .extended (by decide)) hnamed
    (fun e hem => ?_) (fun e hem => ?_) (fun x c hc => ?_) (fun x c hc o l hw => ?_) (fun x c hc => hf.origin x c (hchan x c hc))
    fun g' hm _ x => ?_
  · obtain ⟨hb', hf', hmerged⟩ := hfill
    have hci : ∀ x, _ = g.chan n .input x s := fun x => hmerged.chan here.inSync (by decide) x s
    refine ⟨hb', hf.later here.inSync hmerged.extending (fun x k => hmerged.cells _ (by decide) x k) hmerged.wires
      (hj.feeds_input here.inSync hs hmerged.extending hb'.sound.wired), hf', hj.of_extends hs hmerged.extending,
      hrun.of_extends here.inSync hmerged.extending hf.built hci hmerged.wires hmerged.listeners, fun x k c hc => ?_⟩
    rw [hmerged.cells _ (by decide)] at hc
    exact hq .output (by decide) x k c hc
  · rcases hcases _ _ (hfeed e hem) with ⟨c, -, hc⟩ | h
    · exact hwd.mem_extended hd (mem_table_of_chan hc)
    · exact (hrun.mem_produced hs here.inSync h).2.2
  · rcases hcases _ _ (hfeed e hem) with ⟨c, hec, hc⟩ | h
    · rw [hec]
      exact hf.built.known_chan hc
    · exact (hrun.mem_produced hs here.inSync h).2.1
  · exact (hf.built.owned_chan (hchan x c hc)).mono (by decide)
  · exact here.mapId_ne_of_owned hs (by decide) (hf.built.owned_chan (hchan x c hc)) hw
  · exact hrun.feeds_extended here.inSync hs hm.extending (fun y => hm.chan here.inSync (by decide) y s) x

/-! ## The template -/

/-- The instance of a node's template, if it has one, under all that the extended port shows. -/
def Templated (g : Graph) (n : NodeId) (s : Substitution) (d : Design) (o : Option InstanceId) : Prop :=
  match d.proto with
  | some q => ∃ j, o = some j ∧ g.Serves q (g.derived n s) j
  | none => o = none

/-- What a template may be instantiated with: channels that belong to none of its nodes that vary. -/
theorem Widened.foreign {js : List InstanceId} {p : Option ProcessId} (h : Widened R hands busy g₀ n s js p g) (here : Site R g n s)
    (hD : g.design? n = some D) {q : NodeId} (hq : D.proto = some q) : g.Foreign q (g.derived n s) := by
  have hs := h.building.sound
  have hqn := mem_references_of_template hD hq
  rintro c ⟨x, hx⟩
  rw [get?_derived] at hx
  refine ⟨h.extended.built.known_chan hx, fun o l hw k port hk hv hm => ?_⟩
  rcases h.extended.built.owned_chan hx with hb | ⟨o', l', m, q', hw', hm', hreach⟩
  · exact (here.foreign c hb).2 o l hw k port (Leads.head hqn hk) hv hm
  · rw [hw] at hw'
    obtain ⟨rfl, rfl⟩ := Prod.mk.inj (Option.some.inj hw')
    obtain ⟨rfl, rfl⟩ := hs.anchored.injective _ _ _ _ _ hm hm'
    rcases hreach with ⟨rfl, -⟩ | ⟨d, hd, ⟨r, hr, hb⟩ | ⟨hne, -⟩⟩
    · exact not_below_of_reference hs.authored.ranked hqn hk
    · rw [hD] at hd
      cases hd
      exact here.orderly.secluded D q hD hq k hk r hr hb hv
    · cases hne

/-- Instantiating the template with all that the extended port shows. -/
theorem template_spec {ρ : NodeId → Nat} {acquire : Acquire} (hacq : Acquires R ρ (ρ n) acquire) (hρ : g₀.Ranked ρ)
    (hidle : g₀.Idle busy n) (hs₀ : g₀.Sound R hands busy) (hsite : Site R g₀ n s) {js : List InstanceId}
    {p : Option ProcessId} (h : Widened R hands busy g₀ n s js p g) {d : DataNode} (hd : g.design? n = some d.design)
    (hder : ∀ q, d.proto = some q → R ((g.derived n s).restrict (g.tableOf q .input).all)) :
    ∃ g' o, acquireTemplate acquire g d (g.derived n s) = (g', o, ((d.proto).map fun q => g'.finalChannels q (g.derived n s)).getD []) ∧
      Widened R (o.toList ++ hands) busy g₀ n s js p g' ∧ g'.Templated n s d.design o ∧ g'.derived n s = g.derived n s := by
  have hs := h.building.sound
  have here := hsite.of_grown hs₀ hs h.building.grown
  have hext₀ := h.building.grown.extending
  rw [acquireTemplate]
  rcases hq : d.proto with _ | q
  · exact ⟨g, none, rfl, h, by rw [Templated, show d.design.proto = none from hq], rfl⟩
  · have hqn := mem_references_of_template hd hq
    have hbelow : g.Below n q := Leads.head hqn (Leads.refl _)
    have hnb : ¬ g.Below q n := not_below_of_reference hs.authored.ranked hqn
    have hready : Ready R (js ++ hands) (p.toList ++ busy) g q (g.derived n s) := by
      refine ⟨hs, here.suited q hqn, hs.authored.dataRefs n _ hd q (.inr hq), hder q hq, (h.foreign here hd hq).restrict _,
        fun id hid pr hpr hb => ?_, fun m hm => h.building.quiet m (hbelow.trans hm) ?_⟩
      · rcases List.mem_append.1 hid with hid | hid
        · obtain ⟨co, hco, -⟩ := Option.bind_eq_some_iff.1 (h.running.process.symm.trans (Option.mem_toList.1 hid))
          obtain ⟨id', pr', hid', hpr', hruns⟩ := h.running.runs co.1 co.2 hco
          rw [Option.mem_toList.1 hid] at hid'
          cases hid'
          rw [hpr] at hpr'
          cases hpr'
          rw [hruns.owner] at hb
          exact hnb hb
        · exact (hidle.of_extends hs₀.counted.busy hext₀).below hbelow id hid pr hpr hb
      · rintro rfl
        exact hnb hm
    have hρ' : g.Ranked ρ := fun m k hk => hρ m k (by rw [hext₀.sameDesign.references] at hk; exact hk)
    obtain ⟨g', j, he, ha⟩ := hacq _ _ g q (g.derived n s) hρ' (hρ' n q hqn) hready
    have hext := ha.grown.extending
    have hnode := ha.grown.nodes n hnb
    have hcells : ∀ port x k, g'.cell? n port x k = g.cell? n port x k := fun port x k => by
      rw [cell?, wiring?, data?, hnode, cell?, wiring?, data?]
    have hchan : ∀ port x, g'.chan n port x s = g.chan n port x s := fun port x => by
      rw [chan, hext.keyAt here.inSync, hcells, chan]
    have hderived : g'.derived n s = g.derived n s := Extends.derived (hchan .extended)
    have hperm : (j :: (js ++ hands)).Perm (js ++ (j :: hands)) := List.perm_middle.symm
    refine ⟨g', some j, by simp only [he]; rfl, ⟨⟨ha.sound.of_perm hperm, ?_, fun m hm hmn => ?_, ?_⟩, ?_, ?_, ?_, ?_, fun x k c hc => ?_⟩, ?_,
      hderived⟩
    · refine h.building.grown.trans ha.grown (hext₀.sameDesign.below.1 hbelow) ?_
      rintro c ⟨x, hx⟩
      rw [get?_derived] at hx
      exact h.extended.origin x c hx
    · exact ha.quietAt (h.building.quiet m (hext.sameDesign.below.1 hm) hmn)
    · exact (memo_of_node? hnode).trans h.building.memo
    · exact h.input.later here.inSync hext (hcells _) ha.grown.wires (h.inflowing.feeds_input here.inSync hs hext ha.sound.wired)
    · exact h.extended.later here.inSync hext (hcells _) ha.grown.wires
        (h.running.feeds_extended here.inSync hs hext (hchan .input))
    · exact h.inflowing.of_extends hs hext
    · exact h.running.of_extends here.inSync hext h.input.built (hchan .input) ha.grown.wires ha.grown.listeners
    · rw [hcells] at hc
      exact h.quiet x k c hc
    · rw [Templated, show d.design.proto = some q from hq, hderived]
      exact ⟨j, rfl, ha.serves⟩

/-! ## The output port -/

/-- What the filter selects of the names that the node and its template show. -/
theorem named_selected (f : Option Filter) (channels : NameMap ChannelId) (x : String) :
    named x ((selectChannels f channels).map fun e => (e.1, .channel e.2)) =
      (Filter.sources f x).filterMap fun y => (channels[y]?).map Feed.channel := by
  have hsel := @Filter.select_sources f channels.keys Std.ExtTreeMap.nodup_keys x
  have hkeys : ∀ y, channels.keys.contains y = (channels[y]?).isSome := by
    intro y
    rw [Bool.eq_iff_iff, List.contains_iff_mem, Table.mem_keys, Option.isSome_iff_exists]
  have hleft : named x ((selectChannels f channels).map fun e => (e.1, .channel e.2)) =
      (((Filter.selectFrom f channels.keys).filter (·.1 == x)).map (·.2)).filterMap fun y => (channels[y]?).map Feed.channel := by
    rw [named, selectChannels]
    generalize Filter.selectFrom f channels.keys = l
    induction l with
    | nil => rfl
    | cons e l ih =>
      obtain ⟨a, y⟩ := e
      rw [List.filterMap_cons, List.filter_cons]
      rcases hy : channels[y]? with _ | c
      · by_cases ha : (a == x) = true
        · simp only [hy, Option.map_none, ha, if_true, List.map_cons, List.filterMap_cons]
          exact ih
        · simp only [hy, Option.map_none, ha]
          exact ih
      · by_cases ha : (a == x) = true
        · simp only [hy, Option.map_some, List.map_cons, List.filter_cons, ha, if_true, List.filterMap_cons]
          exact congrArg _ ih
        · simp only [hy, Option.map_some, List.map_cons, List.filter_cons, ha]
          exact ih
  rw [hleft, hsel, List.filterMap_filter]
  refine List.filterMap_congr fun y _ => ?_
  rw [hkeys]
  rcases channels[y]? with _ | c <;> rfl

/-- An instance that is being built, once all its ports are filled. -/
structure Completed (R : Substitution → Prop) (hands : List InstanceId) (busy : List ProcessId) (g₀ : Graph) (n : NodeId)
    (s : Substitution) (js : List InstanceId) (p : Option ProcessId) (o : Option InstanceId) (g : Graph) : Prop where
  building : Building R (js ++ hands) (p.toList ++ busy) g₀ n s g
  filled : ∀ port, g₀.Filled g n s port
  inflowing : g.Inflowing n s js
  running : g.Running n s p
  templated : ∀ d, g.design? n = some d → g.Templated n s d o

/-- A channel that the filter may select is the node's own, or one that its template exposes. -/
theorem Templated.of_unfiltered {o : Option InstanceId} (ht : g.Templated n s D o) {y : String} {c : ChannelId}
    (hc : g.unfilteredChan n s y D = some c) : g.chan n .extended y s = some c ∨
      ∃ q j, D.proto = some q ∧ g.Serves q (g.derived n s) j ∧ g.chan q .output y (g.derived n s) = some c := by
  rw [unfilteredChan] at hc
  rw [Templated] at ht
  rcases hq : D.proto with _ | q <;> rw [hq] at hc ht
  · exact .inl hc
  · obtain ⟨j, -, hj⟩ := ht
    rcases Option.or_eq_some_iff.1 hc with hc | ⟨-, hc⟩
    · exact .inr ⟨q, j, rfl, hj, hc⟩
    · exact .inl hc

theorem Templated.of_extends {o : Option InstanceId} (ht : g.Templated n s D o) (hs : g.Sound R hands busy) (he : g.Extends g')
    (hd : g'.derived n s = g.derived n s) : g'.Templated n s D o := by
  rw [Templated] at ht ⊢
  rcases hq : D.proto with _ | q <;> rw [hq] at ht
  · exact ht
  · obtain ⟨j, hj, hserv⟩ := ht
    exact ⟨j, hj, by rw [hd]; exact he.serves (hs.inSync_of_serves hserv) hserv⟩

/-- What the filter selects fills the output port. -/
theorem output_spec (hR : Regime R) {busy' : List ProcessId} {hands' : List InstanceId} (hs₀ : g₀.Sound R hands' busy')
    (hsite : Site R g₀ n s) {js : List InstanceId} {p : Option ProcessId} {o : Option InstanceId}
    (h : Widened R hands busy g₀ n s js p g) (hD : g.design? n = some D) (ht : g.Templated n s D o)
    {channels : NameMap ChannelId} (hch : ∀ y, channels[y]? = g.unfilteredChan n s y D) :
    Completed R hands busy g₀ n s js p o (g.mergeChannels n .output s (selectChannels D.filter channels)) := by
  have hs := h.building.sound
  have here := hsite.of_grown hs₀ hs h.building.grown
  obtain ⟨d, hd, hwd⟩ := here.inSync.wiredAt hs.wired
  obtain rfl : d.design = D := by
    rw [design?_of_data? hd] at hD
    exact Option.some.inj hD
  have hnamed : ∀ x, named x ((selectChannels d.design.filter channels).map fun e => (e.1, .channel e.2)) =
      g.feeds n s x .output := by
    intro x
    rw [named_selected, feeds_output _ _ hD]
    exact List.filterMap_congr fun y _ => by rw [hch]
  -- a feed is a channel that is the node's own or the template's
  have hfeed : ∀ x f, f ∈ g.feeds n s x .output → ∃ y c, y ∈ Filter.sources d.design.filter x ∧ f = .channel c ∧
      g.unfilteredChan n s y d.design = some c := by
    intro x f hf
    rw [feeds_output _ _ hD, List.mem_filterMap] at hf
    obtain ⟨y, hy, hf⟩ := hf
    obtain ⟨c, hc, rfl⟩ := Option.map_eq_some_iff.1 hf
    exact ⟨y, c, hy, rfl, hc⟩
  have hchan : ∀ x c, .channel c ∈ g.feeds n s x .output → ∃ y, g.unfilteredChan n s y d.design = some c := by
    intro x c hc
    obtain ⟨y, c', -, he, hy⟩ := hfeed x _ hc
    cases he
    exact ⟨y, hy⟩
  have howned : ∀ x c, .channel c ∈ g.feeds n s x .output → g.Owned n s .extended c ∨
      ∃ q j y, d.design.proto = some q ∧ g.Serves q (g.derived n s) j ∧ g.chan q .output y (g.derived n s) = some c := by
    intro x c hc
    obtain ⟨y, hy⟩ := hchan x c hc
    rcases ht.of_unfiltered hy with hy | ⟨q, j, hq, hj, hy⟩
    · exact .inl (h.extended.built.owned_chan hy)
    · exact .inr ⟨q, j, y, hq, hj, hy⟩
  -- a channel that the template exposes is one of the node's own, or belongs to a node below
  have htemplate : ∀ q j y c, d.design.proto = some q → g.Serves q (g.derived n s) j →
      g.chan q .output y (g.derived n s) = some c → g.Owned n s .extended c ∨
        ∃ o l m port, g.store.wire? c = some (o, l) ∧ g.mapId m port = some o ∧ g.Below q m := by
    intro q j y c hq hj hc
    rcases hs.owned_of_serves hj hc with ⟨z, hz⟩ | ⟨o, l, m, port, hw, hm, hreach⟩
    · rw [get?_derived] at hz
      exact .inl (h.extended.built.owned_chan hz)
    · exact .inr ⟨o, l, m, port, hw, hm, hreach.below⟩
  rw [mergeChannels_eq]
  have hmem : ∀ e ∈ (selectChannels d.design.filter channels).map fun e => (e.1, Feed.channel e.2),
      e.2 ∈ g.feeds n s e.1 .output := fun e he => by
    rw [← hnamed]
    exact mem_named.2 he
  have hfill := h.building.fill hR hs₀ hsite h.quiet hnamed (fun e he => ?_) (fun e he => ?_)
    (fun x c hc => ?_) (fun x c hc o l hw hm => ?_) (fun x c hc => ?_) fun g' hm hw' x => ?_
  · obtain ⟨hb', hf', hmerged⟩ := hfill
    have hext := hmerged.extending
    have hci : ∀ x, _ = g.chan n .input x s := fun x => hmerged.chan here.inSync (by decide) x s
    have hce : ∀ x, _ = g.chan n .extended x s := fun x => hmerged.chan here.inSync (by decide) x s
    refine ⟨hb', fun port => ?_, h.inflowing.of_extends hs hext,
      h.running.of_extends here.inSync hext h.input.built hci hmerged.wires hmerged.listeners, fun d' hd' => ?_⟩
    · cases port with
      | input =>
        exact h.input.later here.inSync hext (fun x k => hmerged.cells _ (by decide) x k) hmerged.wires
          (h.inflowing.feeds_input here.inSync hs hext hb'.sound.wired)
      | extended =>
        exact h.extended.later here.inSync hext (fun x k => hmerged.cells _ (by decide) x k) hmerged.wires
          (h.running.feeds_extended here.inSync hs hext hci)
      | output => exact hf'
    · rw [hext.sameDesign.design, hD] at hd'
      cases hd'
      exact ht.of_extends hs hext (Extends.derived hce)
  · obtain ⟨y, c, hy, -, hc⟩ := hfeed e.1 e.2 (hmem e he)
    refine hwd.mem_output hd hy ?_
    rw [unfiltered]
    rcases ht.of_unfiltered hc with hc | ⟨q, j, hq, hj, hc⟩
    · rcases d.design.proto with _ | q
      · exact mem_table_of_chan hc
      · exact DataNode.mem_addTemplate.2 (.inr (mem_table_of_chan hc))
    · rw [hq]
      exact DataNode.mem_addTemplate.2 (.inl (mem_table_of_chan hc))
  · obtain ⟨y, c, -, hec, hc⟩ := hfeed e.1 e.2 (hmem e he)
    rw [hec]
    rcases ht.of_unfiltered hc with hc | ⟨q, j, hq, hj, hc⟩
    · exact h.extended.built.known_chan hc
    · exact hs.known_of_serves hj hc
  · rcases howned x c hc with ho | ⟨q, j, y, hq, hj, hc⟩
    · exact ho.mono (by decide)
    · rcases htemplate q j y c hq hj hc with ho | ⟨o, l, m, port, hw, hm, hb⟩
      · exact ho.mono (by decide)
      · exact .inr ⟨o, l, m, port, hw, hm, .inr ⟨_, hD, .inr ⟨rfl, q, hq, hb⟩⟩⟩
  · have hne := fun ho : g.Owned n s .extended c => here.mapId_ne_of_owned hs (q := .output) (by decide) ho hw hm
    rcases howned x c hc with ho | ⟨q, j, y, hq, hj, hc⟩
    · exact hne ho
    · rcases htemplate q j y c hq hj hc with ho | ⟨o', l', m, port, hw', hm', hb⟩
      · exact hne ho
      · rw [hw] at hw'
        obtain ⟨rfl, rfl⟩ := Prod.mk.inj (Option.some.inj hw')
        obtain ⟨rfl, -⟩ := hs.anchored.injective _ _ _ _ _ hm hm'
        exact not_below_of_reference hs.authored.ranked (mem_references_of_template hD hq) hb
  · obtain ⟨y, hy⟩ := hchan x c hc
    rcases ht.of_unfiltered hy with hy | ⟨q, j, hq, hj, hy⟩
    · exact h.extended.origin y c hy
    · exact h.building.grown.seen c (hj.seen (hs.inSync_of_serves hj) hs.wired hy)
  · refine hm.extending.feeds_output hD hs.wired hw' (fun y => hm.chan here.inSync (by decide) y s) (fun q hq => ?_) x
    rw [Templated, hq] at ht
    obtain ⟨j, -, hj⟩ := ht
    exact ⟨hs.inSync_of_serves hj, j, hj⟩

end Graph

end Dataflow
