import Dataflow.Proofs.Spread
import Dataflow.Proofs.Uprooted

/-!
# Calls on graphs without templates keep them consistent

As long as no data node is given a template, leaves are bound to entries that no process writes, and none but such entries are edited,
every call of a history keeps the graph consistent, and requests keep asking for what they asked for.
-/

namespace Dataflow

namespace Call

/-- The node and the names that a call asks for. -/
def asked : Call → Option (NodeId × List String)
  | .createRequest n names | .pullNode n names => some (n, names)
  | _ => none

/-- The names of a filter are those that a call asks for. -/
def AsksFor (c : Call) (filter : List String) : Prop := ∃ n names, c.asked = some (n, names) ∧ filter = Graph.sortNames names

end Call

namespace Graph

variable {g g' : Graph} {e : EntryId} {new : List String → Prop}

/-! ## Making -/

/-- A node that refers to nothing and shows nothing, from which nothing is derived, with maps under new ids. -/
structure Fresh (g : Graph) (nextMap : MapId) (x : Node) : Prop where
  parents : x.parents = []
  leaf : ∀ l, x.leaf? = some l → l.entry = none
  references : ∀ d, x.data? = some d → d.references = []
  wiring : ∀ d, x.data? = some d → d.wiring.outOfSync = true ∧ d.wiring.instances = ∅ ∧ d.wiring.processes = ∅
  map : ∀ d, x.data? = some d → ∀ port,
    (d.wiring.map port).entries = ∅ ∧ g.store.nextMap < (d.wiring.map port).id ∧ (d.wiring.map port).id ≤ nextMap
  apart : ∀ d, x.data? = some d → ∀ port port', (d.wiring.map port).id = (d.wiring.map port').id → port = port'

/-- The graph with a node more, and with the ids of its maps spent. -/
def withNode (g : Graph) (x : Node) (nextMap : MapId) : Graph := { g with nodes := g.nodes.push x, store := { g.store with nextMap } }

section WithNode

variable {x : Node} {nextMap : MapId} {n m : NodeId} {port : Port}

theorem node?_withNode (g : Graph) (x : Node) (nextMap : MapId) (m : NodeId) :
    (g.withNode x nextMap).node? m = if m = g.nodes.next then some x else g.node? m := Arena.get?_push ..

theorem node?_next (g : Graph) : g.node? g.nodes.next = none := g.nodes.get?_next

theorem data?_withNode (g : Graph) (x : Node) (nextMap : MapId) (m : NodeId) :
    (g.withNode x nextMap).data? m = if m = g.nodes.next then x.data? else g.data? m := by
  rw [data?, node?_withNode]
  split <;> rfl

theorem leaf?_withNode (g : Graph) (x : Node) (nextMap : MapId) (m : NodeId) :
    (g.withNode x nextMap).leaf? m = if m = g.nodes.next then x.leaf? else g.leaf? m := by
  rw [leaf?, node?_withNode]
  split <;> rfl

/-- A data node of the graph is not the next one to be made. -/
theorem ne_next_of_data? {d : DataNode} (hd : g.data? m = some d) : m ≠ g.nodes.next := by
  rintro rfl
  rw [data?, node?_next] at hd
  cases hd

theorem Authored.next_not_mem_references (h : g.Authored) (m : NodeId) : g.nodes.next ∉ g.references m := fun hm => by
  have hlive := h.live m _ hm
  rw [node?_next] at hlive
  cases hlive

theorem wiring?_withNode_next {w : Wiring} (hw : (g.withNode x nextMap).wiring? g.nodes.next = some w) : ∃ d, x.data? = some d ∧ d.wiring = w := by
  rw [wiring?, data?_withNode, if_pos rfl] at hw
  exact Option.map_eq_some_iff.1 hw

/-- A map of the graph is one of the new node or was there before. -/
theorem mapId_withNode {o : MapId} (ho : (g.withNode x nextMap).mapId m port = some o) :
    (m = g.nodes.next ∧ ∃ d, x.data? = some d ∧ (d.wiring.map port).id = o) ∨ (m ≠ g.nodes.next ∧ g.mapId m port = some o) := by
  rw [mapId, wiring?, data?_withNode] at ho
  split at ho
  · obtain ⟨w, hw, ho⟩ := Option.map_eq_some_iff.1 ho
    obtain ⟨d, hd, rfl⟩ := Option.map_eq_some_iff.1 hw
    exact .inl ⟨‹_›, d, hd, ho⟩
  · exact .inr ⟨‹_›, ho⟩

/-- A node that is made concerns itself alone. -/
theorem Fresh.spares (hx : g.Fresh nextMap x) (hle : g.store.nextMap ≤ nextMap)
    (hbounded : ∀ m q o, g.mapId m q = some o → o ≤ g.store.nextMap) : Spares (· = g.nodes.next) g (g.withNode x nextMap) :=
  { Spares.refl (· = g.nodes.next) g with
    nextMap := hle
    data := fun m hm => by rw [inner?, data?_withNode, if_neg hm, inner?]
    leaf := fun m hm => (leaf?_withNode g x nextMap m).trans (if_neg hm)
    mapIn := fun o ho ⟨m, q, hm, hmo⟩ => by
      rcases mapId_withNode hmo with ⟨-, d, hd, rfl⟩ | ⟨hne, -⟩
      · exact absurd ho (Nat.not_le.2 (hx.map d hd q).2.1)
      · exact absurd hm hne
    bounded := fun hall m q o ho => by
      rcases mapId_withNode ho with ⟨-, d, hd, rfl⟩ | ⟨-, ho⟩
      · exact (hx.map d hd q).2.2
      · exact Nat.le_trans (hall m q o ho) hle
    apart := fun hall m q m' q' o ho ho' => by
      rcases mapId_withNode ho with ⟨rfl, d, hd, rfl⟩ | ⟨-, ho⟩ <;> rcases mapId_withNode ho' with ⟨rfl, d', hd', ho'⟩ | ⟨-, ho'⟩
      · cases hd.symm.trans hd'
        exact ⟨rfl, (hx.apart d hd q' q ho').symm⟩
      · exact absurd (hbounded m' q' _ ho') (Nat.not_le.2 (hx.map d hd q).2.1)
      · exact absurd (hbounded m q _ ho) (Nat.not_le.2 (ho' ▸ (hx.map d' hd' q').2.1))
      · exact hall m q m' q' o ho ho' }

/-- Nothing is derived from a node that was just made. -/
theorem Fresh.vacant (hx : g.Fresh nextMap x) (h : g.Tended) : (g.withNode x nextMap).Vacant g.nodes.next := by
  refine ⟨fun id i hi ho => ?_, fun id p hp ho => ?_, fun port y k => ?_, fun w k hw => ?_⟩
  · obtain ⟨d, hd, -⟩ := (h.sound.faithful id i hi not_false).inSync.exists_data
    exact ne_next_of_data? hd ho
  · obtain ⟨d, hd, -⟩ := (h.sound.process id p hp not_false).inSync.exists_data
    exact ne_next_of_data? hd ho
  · rcases hw : (g.withNode x nextMap).wiring? g.nodes.next with _ | w
    · rw [cell?, hw]
      rfl
    · obtain ⟨d, hd, rfl⟩ := wiring?_withNode_next hw
      rw [cell?_of_wiring? hw, ChannelMap.at?, ChannelMap.entryOf, (hx.map d hd port).1, Std.ExtTreeMap.getElem?_empty]
      exact Std.ExtTreeMap.getElem?_empty
  · obtain ⟨d, hd, rfl⟩ := wiring?_withNode_next hw
    obtain ⟨-, hi, hp⟩ := hx.wiring d hd
    rw [hi, hp]
    exact ⟨Std.ExtTreeMap.getElem?_empty, Std.ExtTreeMap.getElem?_empty⟩

theorem Fresh.authored (hx : g.Fresh nextMap x) (ha : g.Authored) : (g.withNode x nextMap).Authored :=
  ha.pushed hx.parents hx.references rfl

/-- The graph stays sound when a node is made. -/
theorem Fresh.soundBut (hx : g.Fresh nextMap x) (h : g.Tended) (hle : g.store.nextMap ≤ nextMap) :
    SoundBut (fun _ => False) g.held (g.withNode x nextMap) := by
  have hdata := data?_withNode g x nextMap
  have hunref := h.authored.next_not_mem_references
  have hs : SoundBut (· = g.nodes.next) g.held (g.withNode x nextMap) := by
    refine (h.sound.weaken (fun _ hm => hm.elim) ?_).spared (hx.spares hle h.sound.anchored.bounded) (hx.authored h.authored).founded
      (fun m d hd => ?_) (fun m r hr hD => ?_) (fun m l e hl he => ?_) { h.sound.mirrored with } fun id i hi _ => h.sound.uses id i hi not_false
    · rintro m r hr rfl
      exact absurd hr (hunref m)
    · rw [design?, hdata] at hd
      split at hd
      · obtain ⟨d', hd', rfl⟩ := Option.map_eq_some_iff.1 hd
        have hrefs := hx.references d' hd'
        rw [DataNode.references, List.append_eq_nil_iff, Option.toList_eq_nil_iff] at hrefs
        exact hrefs.2
      · exact h.sound.plain m d hd
    · rw [Graph.references, hdata] at hr
      split at hr
      · rcases hd : x.data? with _ | d <;> rw [hd] at hr
        · cases hr
        · rw [Option.map_some, Option.getD_some, hx.references d hd] at hr
          cases hr
      · exact absurd (hD ▸ hr) (hunref m)
    · rw [leaf?_withNode] at hl
      split at hl
      · rw [hx.leaf l hl] at he
        cases he
      · exact h.sound.leaves m l e hl he
  refine hs.shrink (fun _ _ _ h => h) (fun m d _ hd hst => ?_) fun m hm _ => hm ▸ hx.vacant h
  by_cases hm : m = g.nodes.next
  · rw [hdata, if_pos hm] at hd
    rw [(hx.wiring d hd).1] at hst
    cases hst
  · exact hs.wired m d hm hd hst

/-- Making a node keeps the graph consistent, if outlets and requests stay enrolled. -/
theorem Consistent.pushNode (h : g.Consistent) (hle : g.store.nextMap ≤ nextMap) (hx : g.Fresh nextMap x)
    (he : (g.withNode x nextMap).Enrolled) : Upholds new g (g.withNode x nextMap) := by
  have hwanes : g.Wanes (g.withNode x nextMap) := { Wanes.refl g with mirrored := fun hm => { hm with } }
  have htended := h.tended.waned (hx.authored h.tended.authored) (hx.soundBut h.tended hle) he (fun _ _ _ => rfl) fun id o ho =>
    .inr ⟨ho, fun j i _ hi hown => ⟨⟨i.uses, hi⟩, ?_⟩, fun _ hl _ => hl⟩
  · exact ⟨⟨htended, h.current.wanes h.tended.sound htended hwanes rfl rfl fun id o ho hr => ⟨o, ho, hr, rfl, rfl⟩, h.named⟩,
      { Serving.refl new g with }, rfl, rfl⟩
  · obtain ⟨d, hd, -⟩ := h.tended.enrolled.home id o ho
    rw [wiring?, data?_withNode, if_neg (ne_next_of_data? hd), wiring?]

end WithNode

theorem Consistent.createLeaf (h : g.Consistent) (he : g.createLeaf.Enrolled) : Upholds new g g.createLeaf := by
  have hnone : ∀ d, Node.data? { kind := .leaf {} } ≠ some d := by simp [Node.data?]
  have hx : g.Fresh g.store.nextMap { kind := .leaf {} } :=
    ⟨rfl, fun l hl => by cases hl; rfl, fun d hd => absurd hd (hnone d), fun d hd => absurd hd (hnone d), fun d hd => absurd hd (hnone d),
      fun d hd => absurd hd (hnone d)⟩
  exact h.pushNode (Nat.le_refl _) hx he

theorem Consistent.createData (h : g.Consistent) (isProto : Bool) (he : (g.createData isProto).Enrolled) :
    Upholds new g (g.createData isProto) := by
  have hx : g.Fresh (g.store.nextMap + 3) { kind := .data { isProto, wiring :=
      { input := ⟨g.store.nextMap + 1, ∅⟩, extended := ⟨g.store.nextMap + 2, ∅⟩, output := ⟨g.store.nextMap + 3, ∅⟩ } } } := by
    refine ⟨rfl, nofun, fun d hd => ?_, fun d hd => ?_, fun d hd port => ?_, fun d hd port port' hp => ?_⟩
    · cases hd
      rfl
    · cases hd
      exact ⟨rfl, rfl, rfl⟩
    · cases hd
      cases port <;> exact ⟨rfl, by simp [Wiring.map], by simp [Wiring.map]⟩
    · cases hd
      cases port <;> cases port' <;> simp [Wiring.map] at hp ⊢
  exact h.pushNode (Nat.le_add_right _ 3) hx he

/-- Making an entry keeps the graph consistent. -/
theorem Consistent.createEntry (h : g.Consistent) (x : Entry) : Upholds new g (g.createEntry x).1 := by
  have hentry : ∀ e, (g.entryAt? e).isSome → (g.createEntry x).1.entryAt? e = g.entryAt? e := fun e he => by
    refine (Store.entryAt?_pushEntry ..).trans (if_neg ?_)
    exact Nat.ne_of_lt (Store.lt_next_of_isSome he)
  have htype : ∀ {e t}, g.store.typeAt? e = some t → (g.entryAt? e).isSome := fun ht => by
    obtain ⟨y, hy, -⟩ := Option.map_eq_some_iff.1 ht
    exact Option.isSome_iff_exists.2 ⟨y, hy⟩
  have hsp : Spares (fun _ => False) g (g.createEntry x).1 :=
    { Spares.refl (fun _ => False) g with
      types := fun e t ht _ => (congrArg (Option.map Entry.type) (hentry e (htype ht))).trans ht }
  have htended : (g.createEntry x).1.Tended := h.tended.calm hsp rfl (Store.mirrored_pushEntry h.tended.sound.mirrored x)
    { h.tended.authored with } { h.tended.enrolled with } (fun id o ho => .inr ⟨o, ho, .refl o⟩) (fun id o ho => by
      rw [show (g.createEntry x).1.outlets[id]? = some o from ho]
      rfl) fun _ _ hl => hl
  refine ⟨⟨htended, h.current.carry h.tended.sound rfl rfl rfl (fun id p hp => .inr ⟨p.uses, hp, ⟨fun c _ => rfl, fun c hc y hy => ?_⟩,
    fun e he => ?_⟩) (fun id p p' hp hp' => by cases hp.symm.trans hp'; rfl) fun id o ho hr => ⟨o, ho, hr, rfl, rfl, fun _ _ _ => rfl⟩, h.named⟩,
    { Serving.refl new g with }, rfl, rfl⟩
  · refine ⟨h.tended.sound.not_written hp hc hy, hentry _ ?_⟩
    obtain ⟨t, ht⟩ := Option.isSome_iff_exists.1 ((h.tended.sound.reads hp not_false hc).2.2 y hy).1.1
    exact htype ht
  · obtain ⟨o, ho, rfl⟩ := List.mem_map.1 he
    exact hentry _ ((h.tended.sound.fits hp).2 o ho)

/-! ## Values -/

/-- A process that another one waits for writes what that one reads. -/
theorem SoundBut.child_writes {hands : List InstanceId} (h : SoundBut (fun _ => False) hands g) {id j : ProcessId} {p q : Process}
    (hp : g.processes[id]? = some p) (hj : j ∈ p.children) (hq : g.processes[j]? = some q) :
    ∃ c y, some c ∈ p.inputs ∧ y ∈ g.store.slots c ∧ y.entry ∈ q.writes := by
  obtain ⟨k, i, c, hi, ho, -, hr⟩ := h.run hp not_false
  rw [hr.children, List.mem_eraseDups, List.mem_flatMap] at hj
  obtain ⟨ch, hch, hj⟩ := hj
  obtain ⟨y, hy, hcr⟩ := List.mem_filterMap.1 hj
  have hch : some ch ∈ p.inputs := by simpa using hch
  obtain ⟨-, hwritten⟩ := ((h.reads hp not_false hch).2.2 y hy).1
  rw [hcr] at hwritten
  obtain ⟨q', hq', hm⟩ := hwritten
  cases hq.symm.trans hq'
  exact ⟨ch, y, hch, hy, hm⟩

/-- A change of an authored entry that has spread leaves the graph consistent. -/
theorem Consistent.spread (h : g.Consistent) (hs : Spread g g' e) (hauthored : ∀ (id : ProcessId) (p : Process), g.processes[id]? = some p →
    e ∉ p.writes) (htype : g'.store.typeAt? e = g.store.typeAt? e) (hm : g'.store.Mirrored) : Upholds new g g' := by
  have hsound := h.tended.sound
  have hproc : ∀ {id : ProcessId} {p : Process}, g'.processes[id]? = some p → p.state ≠ .unprocessed → ¬ g.Stale e id ∧ g.processes[id]? = some p := by
    intro id p hp hst
    by_cases hstale : g.Stale e id
    · rw [hs.stale id hstale] at hp
      obtain ⟨q, -, rfl⟩ := Option.map_eq_some_iff.1 hp
      exact absurd rfl hst
    · exact ⟨hstale, (hs.current id hstale).symm.trans hp⟩
  have hout : ∀ id : OutletId, Option.Rel (fun o' o : Outlet => o.Like o' ∧ o'.requests = o.requests) g'.outlets[id]? g.outlets[id]? := by
    intro id
    by_cases hc : g.Concerned e id
    · rw [hs.concerned id hc]
      rcases g.outlets[id]? with _ | o
      · exact .none
      · refine .some ⟨⟨rfl, rfl, rfl, rfl, ?_⟩, rfl⟩
        rcases hst : o.status <;> simp [Outlet.outdated, hst]
    · rw [hs.unconcerned id hc]
      exact optionRel_self (fun o => ⟨.refl o, rfl⟩) _
  have hentry : ∀ e', e' ≠ e → g'.entryAt? e' = g.entryAt? e' := fun e' he => congrArg (Option.map StoredEntry.entry) (hs.entries e' he)
  have hunrun : ∀ id : ProcessId, (g'.processes[id]?).map Process.unrun = (g.processes[id]?).map Process.unrun := by
    intro id
    by_cases hstale : g.Stale e id
    · rw [hs.stale id hstale, Option.map_map]
      rfl
    · rw [hs.current id hstale]
  have hrest := hs.rest
  have hrv : g.Revalued g' := by
    obtain ⟨entries, processes, outlets, journal, hg'⟩ := hrest
    refine ⟨⟨entries, processes, outlets, g.requests, g.plans, journal, hg'⟩, fun e' t ht => ?_, fun _ => hm, hunrun⟩
    by_cases he : e' = e
    · rw [he] at ht ⊢
      exact htype.trans ht
    · exact (congrArg (Option.map Entry.type) (hentry e' he)).trans ht
  have hchannels := hrv.channels
  have hslots : ∀ c, g'.store.slots c = g.store.slots c := fun c => by rw [Store.slots, Store.slots, Store.channel?, Store.channel?, hchannels]
  have hsame : g'.requests = g.requests ∧ g'.plans = g.plans ∧ g'.registry = g.registry ∧ g'.store.tolerance = g.store.tolerance := by
    obtain ⟨entries, processes, outlets, journal, rfl⟩ := hrest
    exact ⟨rfl, rfl, rfl, rfl⟩
  obtain ⟨hreq, hplans, hreg, htol⟩ := hsame
  refine ⟨⟨hrv.tended h.tended hout fun r => by rw [hreq], ⟨fun id p hp hst j hj q hq hq' => ?_, fun id p hp hst => ?_, ?_, fun id o' ho' hr => ?_⟩, ?_⟩,
    ⟨Nat.le_of_eq hrv.lastId.symm, fun r q hq => .inl ⟨q, hreq ▸ hq, rfl⟩, fun id o' ho' => ?_⟩, hreg, htol⟩
  · -- what waits for a stale process is stale
    obtain ⟨hfresh, hp'⟩ := hproc hp hst
    obtain ⟨st, hq₀⟩ := hrv.processes_of hq
    have hstale : ¬ g.Stale e j := fun hstale => by
      obtain ⟨c, y, hc, hy, hw⟩ := hsound.child_writes hp' hj hq₀
      exact hfresh (.follows hstale hq₀ hw ⟨y, hy, rfl⟩ (hsound.reads hp' not_false hc).1)
    rw [hs.current j hstale] at hq
    exact h.current.settled id p hp' hst j hj q hq hq'
  · obtain ⟨hfresh, hp'⟩ := hproc hp (by rw [hst]; decide)
    refine SameSight.holds ⟨fun c _ => hslots c, fun c hc y hy => ⟨hsound.not_written hp' hc hy, hentry _ ?_⟩⟩ htol (fun e' he' => hentry e' ?_)
      (h.current.computed id p hp' hst)
    · rintro rfl
      exact hfresh (.reads ⟨y, hy, rfl⟩ (hsound.reads hp' not_false hc).1)
    · rintro rfl
      exact hauthored id p hp' he'
  · rw [Planned, hplans, hreg]
    exact h.current.planned
  · rw [hs.unconcerned id (hs.not_concerned ho' hr)] at ho'
    rw [h.current.published id o' ho' hr, published_congr fun _ c _ => hslots c]
  · rw [hreg]
    exact h.named
  · have := hout id
    rw [ho'] at this
    rcases ho : g.outlets[id]? with _ | o <;> rw [ho] at this
    · cases this
    · cases this with
      | some hl => exact .inl ⟨o, rfl, hl.1.owner.symm, hl.1.filter.symm⟩

theorem updateEntry_cases (g : Graph) (e : EntryId) (f : Entry → Except Error Entry) :
    (g.updateEntry e f).1 = g ∨ (g.updateEntry e f).2 = .ok () := by
  rw [updateEntry]
  split
  · exact .inl rfl
  · split
    · exact .inl rfl
    · exact .inr rfl

/-- An edit of an authored entry that keeps its type keeps the graph consistent. -/
theorem Consistent.updateEntry (h : g.Consistent) {a : Account} (ha : Attended False a g) {f : Entry → Except Error Entry}
    (hown : ∀ p ∈ g.processes.values, e ∉ p.writes) (hf : ∀ old value, f old = .ok value → value.type = old.type)
    (hm : (g.settled.updateEntry e f).1.store.Mirrored) : Upholds new g (g.settled.updateEntry e f).1 := by
  rcases updateEntry_cases g.settled e f with heq | hok
  · rw [heq]
    exact h.journal {}
  · obtain ⟨hs, old, value, hold, hvalue, hnew⟩ := ha.update hok
    refine h.spread hs (fun id p hp => hown p (Table.mem_values.2 ⟨id, hp⟩)) ?_ hm
    rw [Store.typeAt?, Store.typeAt?, show (g.settled.updateEntry e f).1.store.entryAt? e = some value from hnew,
      show g.store.entryAt? e = some old from hold, Option.map_some, Option.map_some, hf old value hvalue]

/-! ## Every call -/

/-- An entry that is there and that no process writes may be bound to a leaf. -/
theorem grounded_of_entry (he : (g.entryAt? e).isSome) (hw : ∀ p ∈ g.processes.values, e ∉ p.writes) :
    g.Grounded { entry := e, key := 0 } := by
  obtain ⟨x, hx⟩ := Option.isSome_iff_exists.1 he
  refine ⟨?_, fun id p hp => hw p (Table.mem_values.2 ⟨id, hp⟩)⟩
  rw [Store.typeAt?, show g.store.entryAt? e = some x from hx]
  rfl

/-- Running processes keeps the graph consistent. -/
theorem Consistent.runAll (h : g.Consistent) (roots : List ProcessId) : Upholds new g (g.runAll roots) := by
  obtain ⟨hr, hc, -⟩ := h.current.runAll h.tended.sound h.named roots
  refine ⟨⟨hr.tended h.tended (fun id => ?_) fun r => by rw [hr.requests], hc, by rw [hr.registry]; exact h.named⟩,
    ⟨Nat.le_of_eq hr.lastId.symm, fun r q hq => .inl ⟨q, hr.requests ▸ hq, rfl⟩, fun id o ho => .inl ⟨o, hr.outlets ▸ ho, rfl, rfl⟩⟩,
    hr.registry, ?_⟩
  · rw [hr.outlets]
    exact optionRel_self (fun o => ⟨.refl o, rfl⟩) _
  · obtain ⟨_, _, _, _, _, _, heq⟩ := hr.rest
    rw [heq]

/-- A callback does not matter. -/
theorem Consistent.watchRequest (h : g.Consistent) (r : RequestId) (tag : String) : Upholds new g (g.watchRequest r tag) := by
  have hreq : ∀ r' : RequestId, ((g.watchRequest r tag).requests[r']?).map (·.outlet) = (g.requests[r']?).map (·.outlet) := fun r' => by
    rw [Graph.watchRequest, Table.get_modify]
    split
    · rw [Option.map_map]
      rfl
    · rfl
  have hrv : g.Revalued (g.watchRequest r tag) := ⟨⟨_, _, _, _, _, _, rfl⟩, fun _ _ ht => ht, id, fun _ => rfl⟩
  refine ⟨⟨hrv.tended h.tended (fun _ => optionRel_self (fun o => ⟨.refl o, rfl⟩) _) hreq, { h.current with }, h.named⟩,
    ⟨Nat.le_refl _, fun r' q hq => .inl ?_, fun id o ho => .inl ⟨o, ho, rfl, rfl⟩⟩, rfl, rfl⟩
  have := hreq r'
  rw [hq] at this
  obtain ⟨q', hq', he⟩ := Option.map_eq_some_iff.1 this.symm
  exact ⟨q', hq', he⟩

instance (names : List String) : Decidable (Spelled names) := inferInstanceAs (Decidable (∀ x ∈ names, _ ∧ _))

/-- The calls at issue: no node is given a template, leaves are bound to entries that are there, those and the entries that are edited are
written by no process, what is asked for is spelled without commas, and instances are acquired and released by outlets alone. -/
def Fair (g : Graph) : Call → Prop
  | .setProto _ p => p = none
  | .setData _ (some e) => (g.entryAt? e).isSome ∧ ∀ p ∈ g.processes.values, e ∉ p.writes
  | .setPayload e _ | .setImage e _ | .setLoading e _ => ∀ p ∈ g.processes.values, e ∉ p.writes
  | .createRequest _ names | .pullNode _ names => Spelled names
  | .acquireInstance _ _ | .releaseInstance _ => False
  | _ => True

instance (g : Graph) (c : Call) : Decidable (g.Fair c) := by
  unfold Fair
  split <;> infer_instance

/-- The same calls, whatever names are asked for. -/
def Regular (g : Graph) : Call → Prop
  | .setProto _ p => p = none
  | .setData _ (some e) => (g.entryAt? e).isSome ∧ ∀ p ∈ g.processes.values, e ∉ p.writes
  | .setPayload e _ | .setImage e _ | .setLoading e _ => ∀ p ∈ g.processes.values, e ∉ p.writes
  | .acquireInstance _ _ | .releaseInstance _ => False
  | _ => True

instance (g : Graph) (c : Call) : Decidable (g.Regular c) := by
  unfold Regular
  split <;> infer_instance

theorem Fair.regular {c : Call} (h : g.Fair c) : g.Regular c := by
  cases c with
  | setData n o =>
    cases o with
    | none => trivial
    | some e => exact h
  | createRequest n names => trivial
  | pullNode n names => trivial
  | _ => exact h

theorem Fair.spelled {c : Call} (h : g.Fair c) {n : NodeId} {names : List String} (hc : c.asked = some (n, names)) : Spelled names := by
  cases c with
  | createRequest m l =>
    cases hc
    exact h
  | pullNode m l =>
    cases hc
    exact h
  | _ => cases hc

/-- What regular calls bind leaves to is there. -/
theorem Regular.bindsEntry {c : Call} (h : g.Regular c) : g.BindsEntry c := by
  rintro ⟨n, e⟩ hb -
  cases c with
  | setData n o =>
    cases o with
    | none => cases hb
    | some e =>
      cases hb
      exact h.1
  | _ => cases hb

theorem Upholds.mono {new' : List String → Prop} (h : Upholds new g g') (hn : ∀ f, new f → new' f) : Upholds new' g g' :=
  { h with serving := h.serving.mono hn }

/-- A regular call keeps the graph consistent, and new outlets are for the names that it asks for. -/
theorem Consistent.regular_step (h : g.Consistent) {a : Account} (ha : Attended False a g) {c : Call} (hc : g.Regular c) :
    Upholds c.AsksFor g (g.step c) := by
  obtain ⟨a', ha'⟩ := ha.step hc.bindsEntry nofun
  have he : (g.step c).Enrolled := ha'.orderly.posted.toEnrolled rfl
  have hm : (g.step c).store.Mirrored := ha'.stored.mirrored trivial
  have hsettle : Upholds c.AsksFor g g.settled := h.journal {}
  have hs := hsettle.consistent
  have hauth := hs.tended.authored
  cases c with
  | createLeaf => exact hsettle.trans (hs.createLeaf he)
  | createData isProto => exact hsettle.trans (hs.createData isProto he)
  | createEntry x => exact hsettle.trans (hs.createEntry x)
  | createPayload type payload =>
    refine hsettle.trans ?_
    show Upholds _ g.settled (g.settled.createPayload type payload).1
    rcases createPayload_cases g.settled type payload with ⟨e, heq⟩ | ⟨x, heq⟩ <;> rw [heq]
    · exact hs.upholds
    · exact hs.createEntry x
  | appendChild p c => exact hsettle.trans ((amends_appendChild hauth).revised.upholds nofun nofun hs)
  | insertBefore p c before => exact hsettle.trans ((amends_insertBefore hauth before).revised.upholds nofun nofun hs)
  | removeChild p c => exact hsettle.trans ((amends_removeChild hauth).revised.upholds nofun nofun hs)
  | clearChildren p => exact hsettle.trans ((amends_clearChildren hauth).revised.upholds nofun nofun hs)
  | detach n => exact hsettle.trans ((revised_detach hauth (.detach n)).upholds nofun nofun hs)
  | remove n => exact hsettle.trans (hs.removeNode he)
  | setSource n source => exact hsettle.trans ((amends_setSource hauth source).revised.upholds nofun nofun hs)
  | setProto n proto =>
    obtain rfl : proto = none := hc
    exact hsettle.trans ((amends_setProto hauth none).revised.upholds nofun nofun hs)
  | setFilter n text => exact hsettle.trans ((amends_setFilter hauth text).revised.upholds nofun nofun hs)
  | setCompute n text => exact hsettle.trans ((amends_setCompute hauth text).revised.upholds nofun nofun hs)
  | setName n name => exact hsettle.trans ((amends_updateLeaf hauth (.setName n name)).revised.upholds nofun nofun hs)
  | setKey n key => exact hsettle.trans ((amends_updateLeaf hauth (.setKey n key)).revised.upholds nofun nofun hs)
  | setParam n param => exact hsettle.trans ((amends_updateLeaf hauth (.setParam n param)).revised.upholds nofun nofun hs)
  | setData n entry =>
    cases entry with
    | none => exact hsettle.trans ((amends_updateLeaf hauth (.setData n none)).revised.upholds nofun nofun hs)
    | some e =>
      exact hsettle.trans (hs.setData (grounded_of_entry hc.1 hc.2)).1
  | setPayload e payload => exact h.updateEntry ha hc (fun _ _ hv => Entry.type_of_setPayload hv) hm
  | setImage e image => exact h.updateEntry ha hc (fun _ _ hv => Entry.type_of_mapTexture hv) hm
  | setLoading e loading => exact h.updateEntry ha hc (fun _ _ hv => Entry.type_of_mapTexture hv) hm
  | touch n => exact hsettle.trans (hs.told (touched_self hauth n) nofun fun l e hl he => hs.tended.sound.leaves n l e hl he).1
  | synchronize n => exact hsettle.trans (hs.synchronize n).1
  | acquireInstance n s => exact hc.elim
  | releaseInstance id => exact hc.elim
  | process id => exact hsettle.trans (hs.runAll [id])
  | createRequest n names => exact hsettle.trans ((hs.createRequest n names).1.mono fun _ hf => ⟨n, names, rfl, hf⟩)
  | watchRequest r tag => exact hsettle.trans (hs.watchRequest r tag)
  | pull r =>
    refine hsettle.trans ?_
    show Upholds _ g.settled (g.settled.pull r).1
    rcases hq : g.settled.requests[r]? with _ | q
    · have : (g.settled.pull r).1 = g.settled := by rw [Graph.pull, hq]
      rw [this]
      exact hs.upholds
    · obtain ⟨o, -, hres, -⟩ := hs.pull hq
      exact hres.upholds _
  | pullNode n names => exact hsettle.trans ((hs.pullNode n names).mono fun _ hf => ⟨n, names, rfl, hf⟩)
  | releaseRequest r => exact hsettle.trans (hs.releaseRequest he)

/-- A fair call keeps the graph consistent, and new outlets are for names that are spelled. -/
theorem Consistent.step (h : g.Consistent) {a : Account} (ha : Attended False a g) {c : Call} (hc : g.Fair c) :
    Upholds Spelled g (g.step c) := by
  refine (h.regular_step ha hc.regular).mono ?_
  rintro f ⟨n, names, hasked, rfl⟩
  exact spelled_sortNames (hc.spelled hasked)

/-! ## Histories -/

theorem throughout_append {P : Graph → Call → Prop} {calls calls' : List Call} :
    g.Throughout P (calls ++ calls') ↔ g.Throughout P calls ∧ (g.after calls).Throughout P calls' := by
  induction calls generalizing g with
  | nil => simp [Throughout, after_nil]
  | cons c calls ih =>
    rw [List.cons_append, Throughout, ih, Throughout, after_cons, and_assoc]

theorem Throughout.mono {P Q : Graph → Call → Prop} (h : ∀ g c, P g c → Q g c) {calls : List Call} (hc : g.Throughout P calls) :
    g.Throughout Q calls := by
  induction calls generalizing g with
  | nil => trivial
  | cons c calls ih => exact ⟨h g c hc.1, ih hc.2⟩

/-- What regular calls lead to: a consistent graph in which the entries know the channels that hold them. -/
structure Maintained (g : Graph) : Prop where
  consistent : g.Consistent
  attended : ∃ a, Attended False a g

theorem Maintained.step (h : g.Maintained) {c : Call} (hc : g.Regular c) : (g.step c).Maintained ∧ Upholds c.AsksFor g (g.step c) := by
  obtain ⟨a, ha⟩ := h.attended
  have hup := h.consistent.regular_step ha hc
  exact ⟨⟨hup.consistent, ha.step hc.bindsEntry nofun⟩, hup⟩

/-- Regular calls keep up a graph that regular calls led to. -/
theorem Maintained.after (h : g.Maintained) {calls : List Call} (hc : g.Throughout Regular calls) :
    (g.after calls).Maintained ∧ Upholds (fun _ => True) g (g.after calls) := by
  induction calls generalizing g with
  | nil => exact ⟨h, h.consistent.upholds⟩
  | cons c calls ih =>
    obtain ⟨hstep, hup⟩ := h.step hc.1
    obtain ⟨hend, hup'⟩ := ih hstep hc.2
    exact ⟨hend, (hup.mono fun _ _ => trivial).trans hup'⟩

end Graph

end Dataflow
