import Dataflow.Proofs.Plain

/-!
# What a change of some nodes spares

A change that concerns the nodes of `D` alone leaves everything else as it is: the nodes outside, their instances and processes, the
channels of their maps and the entries that their processes write. Whatever an instance outside is faithful to is among these, for
nothing outside refers into `D`.
-/

namespace Dataflow

namespace Graph

variable {D : NodeId → Prop} {hands : List InstanceId} {g g' g'' : Graph} {n : NodeId}

/-- The map is one of a node of `D`. -/
def MapIn (g : Graph) (D : NodeId → Prop) (o : MapId) : Prop := ∃ n q, D n ∧ g.mapId n q = some o

theorem mapIn_of_mapId (hmap : ∀ m q, g'.mapId m q = g.mapId m q) {o : MapId} (h : g'.MapIn D o) : g.MapIn D o := by
  obtain ⟨m, q, hD, hm⟩ := h
  exact ⟨m, q, hD, (hmap m q).symm.trans hm⟩

/-- The change is one of what is derived from the nodes of `D`, or authored of them. -/
structure Spares (D : NodeId → Prop) (g g' : Graph) : Prop where
  registry : g'.registry = g.registry
  lastId : g.lastId ≤ g'.lastId
  tolerance : g'.store.tolerance = g.store.tolerance
  next : g'.store.channels.next = g.store.channels.next
  nextMap : g.store.nextMap ≤ g'.store.nextMap
  data : ∀ m, ¬ D m → g'.inner? m = g.inner? m
  leaf : ∀ m, ¬ D m → g'.leaf? m = g.leaf? m
  mapIn : ∀ o, o ≤ g.store.nextMap → g'.MapIn D o → g.MapIn D o
  bounded : (∀ n port m, g.mapId n port = some m → m ≤ g.store.nextMap) → ∀ n port m, g'.mapId n port = some m → m ≤ g'.store.nextMap
  apart : (∀ n port n' port' m, g.mapId n port = some m → g.mapId n' port' = some m → n = n' ∧ port = port') →
    ∀ n port n' port' m, g'.mapId n port = some m → g'.mapId n' port' = some m → n = n' ∧ port = port'
  instances : ∀ (id : InstanceId) (i : Instance), g.instances[id]? = some i → ¬ D i.owner →
    ∃ u, g'.instances[id]? = some { i with uses := u }
  instancesOf : ∀ (id : InstanceId) (i : Instance), g'.instances[id]? = some i → ∃ u, g.instances[id]? = some { i with uses := u }
  processes : ∀ (id : ProcessId) (p : Process), g.processes[id]? = some p → ¬ D p.owner →
    ∃ st, g'.processes[id]? = some { p with state := st }
  processesOf : ∀ (id : ProcessId) (p : Process), g'.processes[id]? = some p →
    ∃ u st, g.processes[id]? = some { p with uses := u, state := st }
  types : ∀ e t, g.store.typeAt? e = some t →
    (∀ (id : ProcessId) (p : Process), g.processes[id]? = some p → D p.owner → e ∉ p.outputs.map (·.2)) → g'.store.typeAt? e = some t
  wires : ∀ c o l, g.store.wire? c = some (o, l) → o ≤ g.store.nextMap → ¬ g.MapIn D o → g'.store.wire? c = some (o, l)
  wiresOf : ∀ c w, g'.store.wire? c = some w → g.store.wire? c = some w
  listeners : ∀ c o l id p, g.store.wire? c = some (o, l) → o ≤ g.store.nextMap → ¬ g.MapIn D o → g.processes[id]? = some p →
    ¬ D p.owner → .process id ∈ g.store.listenersOf c → .process id ∈ g'.store.listenersOf c

namespace Spares

theorem refl (D : NodeId → Prop) (g : Graph) : Spares D g g where
  registry := rfl
  lastId := Nat.le_refl _
  tolerance := rfl
  next := rfl
  nextMap := Nat.le_refl _
  data _ _ := rfl
  leaf _ _ := rfl
  mapIn _ _ h := h
  bounded := id
  apart := id
  instances _ i hi _ := ⟨i.uses, hi⟩
  instancesOf _ i hi := ⟨i.uses, hi⟩
  processes _ p hp _ := ⟨p.state, hp⟩
  processesOf _ p hp := ⟨p.uses, p.state, hp⟩
  types _ _ he _ := he
  wires _ _ _ hw _ _ := hw
  wiresOf _ _ hw := hw
  listeners _ _ _ _ _ _ _ _ _ _ hl := hl

theorem trans (h : Spares D g g') (h' : Spares D g' g'') : Spares D g g'' where
  registry := h'.registry.trans h.registry
  lastId := Nat.le_trans h.lastId h'.lastId
  tolerance := h'.tolerance.trans h.tolerance
  next := h'.next.trans h.next
  nextMap := Nat.le_trans h.nextMap h'.nextMap
  data m hm := (h'.data m hm).trans (h.data m hm)
  leaf m hm := (h'.leaf m hm).trans (h.leaf m hm)
  mapIn o ho hin := h.mapIn o ho (h'.mapIn o (Nat.le_trans ho h.nextMap) hin)
  bounded ha := h'.bounded (h.bounded ha)
  apart ha := h'.apart (h.apart ha)
  instances id i hi hD := by
    obtain ⟨u, hu⟩ := h.instances id i hi hD
    exact h'.instances id { i with uses := u } hu hD
  instancesOf id i hi := by
    obtain ⟨u, hu⟩ := h'.instancesOf id i hi
    obtain ⟨v, hv⟩ := h.instancesOf id _ hu
    exact ⟨v, hv⟩
  processes id p hp hD := by
    obtain ⟨st, hst⟩ := h.processes id p hp hD
    exact h'.processes id { p with state := st } hst hD
  processesOf id p hp := by
    obtain ⟨u, st, hu⟩ := h'.processesOf id p hp
    obtain ⟨v, st', hv⟩ := h.processesOf id _ hu
    exact ⟨v, st', hv⟩
  types e t he hD := h'.types e t (h.types e t he hD) fun id p hp hDp => by
    obtain ⟨u, st, hu⟩ := h.processesOf id p hp
    exact hD id { p with uses := u, state := st } hu hDp
  wires c o l hw hle ho := h'.wires c o l (h.wires c o l hw hle ho) (Nat.le_trans hle h.nextMap) fun hin => ho (h.mapIn o hle hin)
  wiresOf c w hw := h.wiresOf c w (h'.wiresOf c w hw)
  listeners c o l id p hw hle ho hp hD hl := by
    obtain ⟨st, hst⟩ := h.processes id p hp hD
    exact h'.listeners c o l id { p with state := st } (h.wires c o l hw hle ho) (Nat.le_trans hle h.nextMap)
      (fun hin => ho (h.mapIn o hle hin)) hst hD
      (h.listeners c o l id p hw hle ho hp hD hl)

end Spares

/-! ## Where slots come from -/

/-- A slot of a channel that shows a draft comes from a feed. -/
theorem Built.slot_of_feed {s : Substitution} {port : Port} (h : g.Built n s port) {x : String} {c : ChannelId}
    (hc : g.chan n port x s = some c) {y : Slot Float32} (hy : y ∈ g.store.slots c) :
    ∃ f ∈ g.feeds n s x port, ∃ z ∈ g.store.feedSlots f, y.entry = z.entry ∧ y.creator = z.creator := by
  obtain ⟨m, -, hs⟩ := h.shown x
  rw [hc] at hs
  obtain ⟨d, o, hd, hw, -⟩ := hs.of_some
  rw [Store.slots_of_wire? hw] at hy
  exact Store.of_mem_draft hd hy

/-- The slot is authored, or written by a process of a node below. -/
def Traced (g : Graph) (n : NodeId) (y : Slot Float32) : Prop :=
  ∀ pid, y.creator = some pid → ∃ p : Process, g.processes[pid]? = some p ∧ g.Below n p.owner

/-- Without templates, what is exposed is what the extended port shows. -/
theorem feeds_output_plain (hp : g.Plain) {d : Design} (hd : g.design? n = some d) (s : Substitution) (x : String) :
    g.feeds n s x .output = (Filter.sources d.filter x).filterMap fun y => (g.chan n .extended y s).map .channel := by
  rw [feeds_output s x hd]
  congr 1
  funext y
  rw [unfilteredChan, hp n d hd]

/-- Nothing is bound, so a leaf brings its own entry. -/
theorem feed?_empty (l : Leaf) : l.feed? .empty = l.entry.map fun entry => .slot { entry, key := l.key } := by
  rw [Leaf.feed?, Substitution.get?_empty, ite_self]
  rcases l.entry with _ | e <;> rfl

namespace SoundBut

variable (h : SoundBut D hands g)

include h

theorem not_mem_below {m : NodeId} (hb : g.Below n m) (hD : ¬ D n) : ¬ D m := by
  have : ∀ a b, g.Below a b → D b → D a := by
    intro a b hab hb
    induction hab using Relation.ReflTransGen.head_induction_on with
    | refl => exact hb
    | head h' _ ih => exact h.upward _ _ h' ih
  exact fun hm => hD (this n m hb hm)

/-- What a node refers to is served by instances under the same substitution. -/
theorem child {id : InstanceId} {i : Instance} (hi : g.instances[id]? = some i) (hD : ¬ D i.owner) {d : Design}
    (hd : g.design? i.owner = some d) {r : NodeId} (hr : r ∈ inflow d) (hl : g.leaf? r = none) :
    ∃ (j : InstanceId) (i' : Instance), j ∈ i.children ∧ g.instances[j]? = some i' ∧ i'.owner = r := by
  obtain ⟨j, hj, i', hi', ho, -⟩ := (h.faithful id i hi hD).served hd hr hl
  exact ⟨j, i', hj, hi', ho⟩

omit h in
theorem reference_of_inflow {d : Design} (hd : g.design? n = some d) {r : NodeId} (hr : r ∈ inflow d) : r ∈ g.references n := by
  rw [references_eq, hd]
  exact mem_references_of_mem_inflow hr

/-- Every slot of a live instance's feeds is authored or written by a process of a node below. -/
theorem traced_feeds {id : InstanceId} {i : Instance} (hi : g.instances[id]? = some i) (hD : ¬ D i.owner) :
    ∀ port x, ∀ f ∈ g.feeds i.owner .empty x port, ∀ y ∈ g.store.feedSlots f, g.Traced i.owner y := by
  obtain ⟨k, hk⟩ : ∃ k, g.rank i.owner = k := ⟨_, rfl⟩
  induction k using Nat.strongRecOn generalizing id i with
  | ind k ih =>
    have hf := h.faithful id i hi hD
    have hs := (h.unbound id i hi).substitution
    obtain ⟨d, hd⟩ := hf.inSync.exists_design
    have hbuilt : ∀ port, g.Built i.owner .empty port := fun port => hs ▸ hf.built port
    have hchan : ∀ port, (∀ x, ∀ f ∈ g.feeds i.owner .empty x port, ∀ y ∈ g.store.feedSlots f, g.Traced i.owner y) →
        ∀ x c, g.chan i.owner port x .empty = some c → ∀ y ∈ g.store.slots c, g.Traced i.owner y := by
      intro port hport x c hc y hy
      obtain ⟨f, hf, z, hz, -, hcr⟩ := (hbuilt port).slot_of_feed hc hy
      exact fun pid hpid => hport x f hf z hz pid (hcr.symm.trans hpid)
    have hinput : ∀ x, ∀ f ∈ g.feeds i.owner .empty x .input, ∀ y ∈ g.store.feedSlots f, g.Traced i.owner y := by
      intro x f hfm y hy
      rw [feeds_input _ _ hd, List.mem_flatMap] at hfm
      obtain ⟨r, hr, hb⟩ := hfm
      have href := reference_of_inflow hd hr
      rcases mem_brought.1 hb with ⟨l, -, -, hl⟩ | ⟨hl, c, hc, rfl⟩
      · rw [feed?_empty] at hl
        obtain ⟨e, -, rfl⟩ := Option.map_eq_some_iff.1 hl
        rw [List.mem_singleton.1 hy]
        exact fun pid hpid => by cases hpid
      · obtain ⟨j, i', -, hi', rfl⟩ := h.child hi hD hd hr hl
        have hDr : ¬ D i'.owner := fun hDr => hD (h.upward _ _ href hDr)
        have hlt : g.rank i'.owner < k := hk ▸ h.founded.ranked _ _ href
        obtain ⟨f, hf, z, hz, -, hcr⟩ := Built.slot_of_feed ((h.unbound j i' hi').substitution ▸ (h.faithful j i' hi' hDr).built .output) hc hy
        intro pid hpid
        obtain ⟨p, hp, hb⟩ := ih _ hlt hi' hDr rfl .output x f hf z hz pid (hcr.symm.trans hpid)
        exact ⟨p, hp, Leads.head href hb⟩
    have hextended : ∀ x, ∀ f ∈ g.feeds i.owner .empty x .extended, ∀ y ∈ g.store.feedSlots f, g.Traced i.owner y := by
      intro x f hfm y hy
      rw [feeds_extended _ _ hd, List.mem_append] at hfm
      rcases hfm with hfm | hfm
      · obtain ⟨c, hc, rfl⟩ := List.mem_map.1 hfm
        exact hchan .input hinput x c (Option.mem_toList.1 hc) y hy
      · obtain ⟨pid, p, e, hpid, hp, -, rfl⟩ := mem_produced.1 hfm
        rw [List.mem_singleton.1 hy]
        rintro _ ⟨⟩
        refine ⟨p, hp, ?_⟩
        rw [h.runner id i pid p hi (by rw [hf.process, hs]; exact hpid) hp]
        exact Leads.refl _
    intro port x f hfm y hy
    cases port with
    | input => exact hinput x f hfm y hy
    | extended => exact hextended x f hfm y hy
    | output =>
      rw [feeds_output_plain h.plain hd, List.mem_filterMap] at hfm
      obtain ⟨z, -, hz⟩ := hfm
      obtain ⟨c, hc, rfl⟩ := Option.map_eq_some_iff.1 hz
      exact hchan .extended hextended z c hc y hy

/-- The port of a live instance. -/
theorem built {id : InstanceId} {i : Instance} (hi : g.instances[id]? = some i) (hD : ¬ D i.owner) (port : Port) :
    g.Built i.owner .empty port := (h.unbound id i hi).substitution ▸ (h.faithful id i hi hD).built port

theorem traced_chan {id : InstanceId} {i : Instance} (hi : g.instances[id]? = some i) (hD : ¬ D i.owner) {port : Port} {x : String}
    {c : ChannelId} (hc : g.chan i.owner port x .empty = some c) {y : Slot Float32} (hy : y ∈ g.store.slots c) :
    g.Traced i.owner y := by
  obtain ⟨f, hf, z, hz, -, hcr⟩ := (h.built hi hD port).slot_of_feed hc hy
  exact fun pid hpid => h.traced_feeds hi hD port x f hf z hz pid (hcr.symm.trans hpid)

end SoundBut

/-! ## What is spared stays sound -/

theorem forall₂_of_mem {α β : Type} {P Q : α → β → Prop} {l : List α} {l' : List β} (h : List.Forall₂ P l l')
    (hPQ : ∀ a ∈ l, ∀ b, P a b → Q a b) : List.Forall₂ Q l l' := by
  induction h with
  | nil => exact .nil
  | cons hab _ ih => exact .cons (hPQ _ (List.mem_cons_self ..) _ hab) (ih fun a ha => hPQ a (List.mem_cons_of_mem _ ha))

theorem chan_of_wiring?_eq (h : g'.wiring? n = g.wiring? n) (port : Port) (x : String) (s : Substitution) :
    g'.chan n port x s = g.chan n port x s := by
  rw [Graph.chan, Graph.chan, cell?, cell?, keyAt, keyAt, paramsAt, paramsAt, table, table, h]

theorem operation?_of_inner?_eq (h : g'.inner? n = g.inner? n) : g'.operation? n = g.operation? n := by
  rw [Graph.operation?, Graph.operation?]
  rcases hd : g.data? n with _ | d
  · rcases hd' : g'.data? n with _ | d'
    · rfl
    · rw [inner?_of_data? hd', inner?, hd] at h
      cases h
  · obtain ⟨d', hd', hde, hwe⟩ := exists_data_of_inner? (h.trans (inner?_of_data? hd))
    rw [hd', Option.bind_some, Option.bind_some, hwe, show d'.compute = d.compute from congrArg Design.compute hde]

namespace Spares

variable (h : Spares D g g') (hD : ¬ D n)

include h hD

theorem references : g'.references n = g.references n := by rw [references_eq, references_eq, design?_eq, design?_eq, h.data n hD]

theorem design : g'.design? n = g.design? n := by rw [design?_eq, design?_eq, h.data n hD]

theorem wiring : g'.wiring? n = g.wiring? n := by rw [wiring?_eq, wiring?_eq, h.data n hD]

theorem chan (port : Port) (x : String) (s : Substitution) : g'.chan n port x s = g.chan n port x s :=
  chan_of_wiring?_eq (h.wiring hD) port x s

theorem operation? : g'.operation? n = g.operation? n := operation?_of_inner?_eq (h.data n hD)

theorem processOf (s : Substitution) : g'.processOf n s = g.processOf n s := by
  rw [Graph.processOf, Graph.processOf, h.operation? hD, operatorParams, operatorParams, processAt?, processAt?, h.wiring hD]

theorem mapId (q : Port) : g'.mapId n q = g.mapId n q := by rw [Graph.mapId, Graph.mapId, h.wiring hD]

theorem inSync : g'.InSync n ↔ g.InSync n := by rw [InSync, InSync, h.wiring hD]

end Spares

namespace SoundBut

variable (h : SoundBut D hands g)

include h

/-- The channels that a port of a live instance shows or is fed with are those of maps outside. -/
theorem wire_of_owned (hD : ¬ D n) {port : Port} {c : ChannelId} (hc : g.Owned n .empty port c) {o : MapId}
    {l : List (Slot Float32)} (hw : g.store.wire? c = some (o, l)) : o ≤ g.store.nextMap ∧ ¬ g.MapIn D o := by
  rcases hc with hb | ⟨o', l', m, q, hw', hm, hr⟩
  · exact absurd hb (Substitution.not_binds_empty c)
  · rw [hw] at hw'
    cases hw'
    refine ⟨h.anchored.bounded _ _ _ hm, ?_⟩
    rintro ⟨m', q', hD', hm'⟩
    obtain ⟨rfl, -⟩ := h.anchored.injective _ _ _ _ _ hm hm'
    exact h.not_mem_below hr.below hD hD'

variable (hsp : Spares D g g')

include hsp

theorem spared_below {m : NodeId} (hb : g.Below n m) (hD : ¬ D n) : g'.Below n m := by
  induction hb using Relation.ReflTransGen.head_induction_on with
  | refl => exact Leads.refl _
  | head hr _ ih =>
    refine Leads.head ?_ (ih fun hDr => hD (h.upward _ _ hr hDr))
    rw [hsp.references hD]
    exact hr

/-- An entry that no process of `D` writes keeps its type. -/
theorem spared_grounded {y : Slot Float32} (hy : g.Grounded y) (ht : g.Traced n y) (hD : ¬ D n) :
    g'.Grounded y ∧ g'.store.typeAt? y.entry = g.store.typeAt? y.entry := by
  obtain ⟨hty, hc⟩ := hy
  obtain ⟨t, hx⟩ := Option.isSome_iff_exists.1 hty
  have hout : ∀ (id : ProcessId) (p : Process), g.processes[id]? = some p → D p.owner → y.entry ∉ p.outputs.map (·.2) := by
    intro id p hp hDp hm
    rcases hcr : y.creator with _ | pid <;> rw [hcr] at hc
    · exact hc id p hp hm
    · obtain ⟨q, hq, hmq⟩ := hc
      obtain ⟨q', hq', hb⟩ := ht pid hcr
      rw [hq] at hq'
      cases hq'
      have hDq := h.not_mem_below hb hD
      refine (h.process pid q hq hDq).apart id p hp ?_ _ hmq hm
      rintro rfl
      rw [hp] at hq
      cases hq
      exact hDq hDp
  have hx' := hsp.types _ t hx hout
  refine ⟨⟨by rw [hx']; rfl, ?_⟩, hx'.trans hx.symm⟩
  rcases hcr : y.creator with _ | pid <;> rw [hcr] at hc <;> simp only at hc ⊢
  · intro id p hp hm
    obtain ⟨u, st, hu⟩ := hsp.processesOf id p hp
    exact hc id _ hu hm
  · obtain ⟨q, hq, hmq⟩ := hc
    obtain ⟨q', hq', hb⟩ := ht pid hcr
    rw [hq] at hq'
    cases hq'
    obtain ⟨st, hst⟩ := hsp.processes pid q hq (h.not_mem_below hb hD)
    exact ⟨_, hst, hmq⟩

section Instance

variable {id : InstanceId} {i : Instance} (hi : g.instances[id]? = some i) (hD : ¬ D i.owner)

include hi hD

theorem spared_feeds (port : Port) (x : String) : g'.feeds i.owner .empty x port = g.feeds i.owner .empty x port := by
  have hf := h.faithful id i hi hD
  obtain ⟨d, hd⟩ := hf.inSync.exists_design
  have hd' : g'.design? i.owner = some d := (hsp.design hD).trans hd
  cases port with
  | input =>
    rw [feeds_input _ _ hd, feeds_input _ _ hd']
    refine List.flatMap_congr fun r hr => ?_
    have hDr : ¬ D r := fun hDr => hD (h.upward _ _ (reference_of_inflow hd hr) hDr)
    rw [brought, brought, hsp.leaf r hDr, hsp.chan hDr]
  | extended =>
    rw [feeds_extended _ _ hd, feeds_extended _ _ hd', hsp.chan hD, hsp.processOf hD]
    rcases hp : g.processOf i.owner .empty with _ | pid
    · rfl
    · obtain ⟨w, hw, -⟩ := hf.inSync
      obtain ⟨co, -, hk⟩ := Option.bind_eq_some_iff.1 hp
      obtain ⟨w', hw', hk⟩ := Option.bind_eq_some_iff.1 hk
      obtain ⟨p, hp, ho, -⟩ := (h.processMemo _ w' _ pid hD hw').1 hk
      obtain ⟨st, hst⟩ := hsp.processes pid p hp (by rw [ho]; exact hD)
      rw [produced_of hp, produced_of hst]
      rfl
  | output =>
    rw [feeds_output _ _ hd, feeds_output _ _ hd']
    congr 1
    funext y
    rw [unfilteredChan, unfilteredChan, h.plain _ d hd, hsp.chan hD]

omit hi in
theorem spared_wire {port : Port} {c : ChannelId} (hc : g.Owned i.owner .empty port c) {w : MapId × List (Slot Float32)}
    (hw : g.store.wire? c = some w) : g'.store.wire? c = some w := by
  obtain ⟨o, l⟩ := w
  obtain ⟨hle, ho⟩ := h.wire_of_owned hD hc hw
  exact hsp.wires c o l hw hle ho

theorem spared_slots {port : Port} {x : String} {f : Feed} (hf : f ∈ g.feeds i.owner .empty x port) :
    g'.store.feedSlots f = g.store.feedSlots f := by
  have hb := h.built hi hD port
  rcases f with c | y
  · obtain ⟨o, l, hw, -⟩ := hb.known x _ hf
    rw [Store.feedSlots, Store.feedSlots, Store.slots_of_wire? hw,
      Store.slots_of_wire? (h.spared_wire hsp hD (hb.owned x c hf) hw)]
  · rfl

theorem spared_built (port : Port) : g'.Built i.owner .empty port := by
  have hb := h.built hi hD port
  have hfeeds := h.spared_feeds hsp hi hD port
  have hdraft : ∀ x, g'.store.draft (g.feeds i.owner .empty x port) = g.store.draft (g.feeds i.owner .empty x port) := fun x =>
    Store.draft_congr ⟨hsp.tolerance, fun f hf => h.spared_slots hsp hi hD hf, fun f hf y hy =>
      (h.spared_grounded hsp ((hb.known x f hf).grounded hy) (h.traced_feeds hi hD port x f hf y hy) hD).2⟩
  refine ⟨fun x => ?_, fun x f hf => ?_, fun x c hc => ?_⟩
  · obtain ⟨m, hm, hs⟩ := hb.shown x
    refine ⟨m, (hsp.mapId hD port).trans hm, ?_⟩
    rw [hfeeds, hsp.chan hD, hdraft]
    rcases hx : g.chan i.owner port x .empty with _ | c
    · rw [hx] at hs
      rw [hs.eq_none_iff.1 rfl]
      trivial
    · rw [hx] at hs
      obtain ⟨e, o, he, hw, hl⟩ := hs.of_some
      rw [he]
      refine ⟨o, h.spared_wire hsp hD (hb.owned_chan hx) hw, ?_⟩
      rcases hl with ⟨hl, ho⟩ | ⟨hl, ho⟩ <;> rw [hl]
      · exact ⟨rfl, ho⟩
      · exact ho
  · rw [hfeeds] at hf
    have hground : ∀ y ∈ g.store.feedSlots f, g'.Grounded y := fun y hy =>
      (h.spared_grounded hsp ((hb.known x f hf).grounded hy) (h.traced_feeds hi hD port x f hf y hy) hD).1
    rcases f with c | y
    · obtain ⟨o, l, hw, -⟩ := hb.known x _ hf
      refine ⟨o, l, h.spared_wire hsp hD (hb.owned x c hf) hw, fun y hy => hground y ?_⟩
      rw [Store.feedSlots, Store.slots_of_wire? hw]
      exact hy
    · exact hground y (List.mem_singleton_self y)
  · rw [hfeeds] at hc
    rcases hb.owned x c hc with hbind | ⟨o, l, m, q, hw, hm, hr⟩
    · exact absurd hbind (Substitution.not_binds_empty c)
    · refine .inr ⟨o, l, m, q, h.spared_wire hsp hD (hb.owned x c hc) hw, (hsp.mapId (h.not_mem_below hr.below hD) q).trans hm, ?_⟩
      rcases hr with hr | ⟨d, hd, hr⟩
      · exact .inl hr
      · refine .inr ⟨d, (hsp.design hD).trans hd, ?_⟩
        rcases hr with ⟨r, hr, hb⟩ | ⟨-, p, hp, -⟩
        · exact .inl ⟨r, hr, h.spared_below hsp hb fun hDr => hD (h.upward _ _ (reference_of_inflow hd hr) hDr)⟩
        · rw [h.plain _ d hd] at hp
          cases hp

omit hi in
theorem spared_serves {r : NodeId} {j : InstanceId} (hr : r ∈ g.references i.owner) (hj : g.Serves r .empty j) :
    g'.Serves r .empty j := by
  obtain ⟨i', hi', ho, hs⟩ := hj
  have hDr : ¬ D r := fun hDr => hD (h.upward _ _ hr hDr)
  obtain ⟨u, hu⟩ := hsp.instances j i' hi' (by rw [ho]; exact hDr)
  exact ⟨_, hu, ho, by rw [params, hsp.wiring hDr]; exact hs⟩

/-- An instance outside stays faithful. -/
theorem spared_faithfulAt (u : Nat) : g'.FaithfulAt { i with uses := u } := by
  have hf := h.faithful id i hi hD
  have hs := (h.unbound id i hi).substitution
  have hd : ∀ d, g'.design? i.owner = some d → g.design? i.owner = some d := fun d hd => (hsp.design hD).symm.trans hd
  refine ⟨(hsp.inSync hD).2 hf.inSync, hf.key, fun x c hx => ?_, fun d hd' => ?_, fun d hd' => ?_, ?_, fun c op ho => ?_, fun port => ?_⟩
  · rw [params, hsp.wiring hD, hsp.next]
    exact hf.bound x c hx
  · have hrefs := fun r (hr : r ∈ inflow d) => reference_of_inflow (hd d hd') hr
    have hleaf : (inflow d).filter (fun r => (g'.leaf? r).isNone) = (inflow d).filter fun r => (g.leaf? r).isNone :=
      List.filter_congr fun r hr => by rw [hsp.leaf r fun hDr => hD (h.upward _ _ (hrefs r hr) hDr)]
    rw [hleaf]
    have hc := hf.children d (hd d hd')
    rw [hs] at hc ⊢
    have hmem : ∀ r ∈ (inflow d).filter fun r => (g.leaf? r).isNone, r ∈ g.references i.owner :=
      fun r hr => hrefs r (List.mem_of_mem_filter hr)
    exact forall₂_of_mem hc fun r hr j hj => h.spared_serves hsp hD (hmem r hr) hj
  · have := hf.proto d (hd d hd')
    rw [h.plain _ d (hd d hd')] at this ⊢
    exact this
  · exact hf.process.trans (hsp.processOf hD _).symm
  · rw [hsp.operation? hD] at ho
    obtain ⟨pid, p, hp, hlive, hr⟩ := hf.runs c op ho
    have hDp : ¬ D p.owner := by rw [hr.owner]; exact hD
    have hwire : ∀ ch, some ch ∈ p.inputs → ∃ o l, g.store.wire? ch = some (o, l) ∧ o ≤ g.store.nextMap ∧ ¬ g.MapIn D o := by
      intro ch hch
      rw [hr.inputs, List.mem_map] at hch
      obtain ⟨x, -, hx⟩ := hch
      rw [hs] at hx
      obtain ⟨o, l, hw, -⟩ := (h.built hi hD .input).known_chan hx
      exact ⟨o, l, hw, h.wire_of_owned hD ((h.built hi hD .input).owned_chan hx) hw⟩
    obtain ⟨st, hst⟩ := hsp.processes pid p hlive hDp
    refine ⟨pid, _, hp, hst, hr.owner, ?_, ?_, ?_, fun ch hch => ?_⟩
    · rw [operatorParams, hsp.wiring hD]
      exact hr.key
    · exact hr.inputs.trans (List.map_congr_left fun x _ => (hsp.chan hD .input x _).symm)
    · refine hr.children.trans (congrArg List.eraseDups (List.flatMap_congr fun ch hch => ?_))
      obtain ⟨o, l, hw, hle, ho⟩ := hwire ch (by simpa using hch)
      rw [Store.creators, Store.creators, Store.slots_of_wire? hw, Store.slots_of_wire? (hsp.wires ch o l hw hle ho)]
    · obtain ⟨o, l, hw, hle, ho⟩ := hwire ch hch
      exact hsp.listeners ch o l pid p hw hle ho hlive hDp (hr.listens ch hch)
  · show g'.Built i.owner i.substitution port
    rw [hs]
    exact h.spared_built hsp hi hD port

end Instance

omit hsp in
/-- A process outside runs for an instance of its node. -/
theorem run {id : ProcessId} {p : Process} (hp : g.processes[id]? = some p) (hD : ¬ D p.owner) :
    ∃ (k : InstanceId) (i : Instance) (c : Compute), g.instances[k]? = some i ∧ p.owner = i.owner ∧
      g.operation? i.owner = some (c, p.operator) ∧ g.Runs i.owner .empty c p.operator id p := by
  obtain ⟨-, k, i, hi, hrun⟩ := h.runs id p hp hD
  have ho := h.runner k i id p hi hrun hp
  obtain ⟨c, hc, -⟩ := (h.process id p hp hD).operation
  rw [ho] at hD hc
  obtain ⟨pid, p', hpid, hp', hr⟩ := (h.faithful k i hi hD).runs c p.operator hc
  rw [hrun] at hpid
  cases hpid
  rw [hp] at hp'
  cases hp'
  exact ⟨k, i, c, hi, ho, hc, (h.unbound k i hi).substitution ▸ hr⟩

omit hsp in
/-- What a process reads is written by processes of nodes below. -/
theorem children_below {id : ProcessId} {p : Process} (hp : g.processes[id]? = some p) (hD : ¬ D p.owner) {j : ProcessId}
    (hj : j ∈ p.children) : ∃ q : Process, g.processes[j]? = some q ∧ g.Below p.owner q.owner := by
  obtain ⟨k, i, c, hi, ho, -, hr⟩ := h.run hp hD
  rw [ho] at hD ⊢
  rw [hr.children, List.mem_eraseDups, List.mem_flatMap] at hj
  obtain ⟨ch, hch, hj⟩ := hj
  obtain ⟨y, hy, hcr⟩ := List.mem_filterMap.1 hj
  have hch : some ch ∈ p.inputs := by simpa using hch
  rw [hr.inputs, List.mem_map] at hch
  obtain ⟨x, -, hx⟩ := hch
  exact h.traced_chan hi hD hx hy j hcr

omit hsp in
/-- What is on a channel that a process outside reads is authored, or written by a process that it follows. -/
theorem reads {id : ProcessId} {p : Process} (hp : g.processes[id]? = some p) (hD : ¬ D p.owner) {ch : ChannelId}
    (hch : some ch ∈ p.inputs) : .process id ∈ g.store.listenersOf ch ∧ (g.store.wire? ch).isSome ∧
      ∀ y ∈ g.store.slots ch, g.Grounded y ∧ ∀ j, y.creator = some j → j ∈ p.children := by
  obtain ⟨k, i, c, hi, ho, -, hr⟩ := h.run hp hD
  rw [ho] at hD
  have hin := hch
  rw [hr.inputs, List.mem_map] at hch
  obtain ⟨x, -, hx⟩ := hch
  obtain ⟨o, l, hw, hl⟩ := (h.built hi hD .input).known_chan hx
  refine ⟨hr.listens ch hin, by rw [hw]; rfl, fun y hy => ?_⟩
  have hy' := hy
  rw [Store.slots_of_wire? hw] at hy'
  refine ⟨hl y hy', fun j hj => ?_⟩
  rw [hr.children, List.mem_eraseDups, List.mem_flatMap]
  exact ⟨ch, by simpa using hin, List.mem_filterMap.2 ⟨y, hy, hj⟩⟩

/-- A process outside keeps what it owns. -/
theorem spared_processAt {id : ProcessId} {p : Process} (hp : g.processes[id]? = some p) (hD : ¬ D p.owner) (u : Nat) (st : ProcessState) :
    g'.ProcessAt id { p with uses := u, state := st } := by
  have hpa := h.process id p hp hD
  refine ⟨(hsp.inSync hD).2 hpa.inSync, ?_, hpa.distinct, ?_, fun id' p' hp' hne e he => ?_, fun j hj => ?_⟩
  · rw [hsp.operation? hD]
    exact hpa.operation
  · refine Eq.trans (List.map_congr_left fun b hb => ?_) hpa.types
    have hmem : b.2 ∈ p.outputs.map (·.2) := List.mem_map.2 ⟨b, hb, rfl⟩
    have htype : (g.store.typeAt? b.2).isSome := by
      have : g.store.typeAt? b.2 ∈ p.operator.outputs.map fun o => some o.type := by
        rw [← hpa.types]
        exact List.mem_map.2 ⟨b, hb, rfl⟩
      obtain ⟨o, -, ho⟩ := List.mem_map.1 this
      rw [← ho]
      rfl
    obtain ⟨t, ht⟩ := Option.isSome_iff_exists.1 htype
    rw [ht]
    refine hsp.types b.2 t ht fun id' p' hp' hDp' => ?_
    refine hpa.apart id' p' hp' ?_ _ hmem
    rintro rfl
    rw [hp] at hp'
    cases hp'
    exact hD hDp'
  · obtain ⟨u, st, hu⟩ := hsp.processesOf id' p' hp'
    exact hpa.apart id' _ hu hne e he
  · obtain ⟨q, hq, hb⟩ := h.children_below hp hD hj
    obtain ⟨st, hst⟩ := hsp.processes j q hq (h.not_mem_below hb hD)
    exact ⟨(hpa.children j hj).1, by rw [hst]; rfl⟩

/-- A node outside stays wired. -/
theorem spared_wired {d : DataNode} (hD : ¬ D n) (hd : g'.data? n = some d) (hs : d.wiring.outOfSync = false) : g'.WiredAt d := by
  obtain ⟨e, he, hde, hwe⟩ := exists_data_of_inner? ((hsp.data n hD).symm.trans (inner?_of_data? hd))
  have hrefs : e.references = d.references := congrArg Design.references hde
  have hw := h.wired n e hD he (by rw [hwe]; exact hs)
  have hDr : ∀ r ∈ e.references, ¬ D r := fun r hr hDr => hD (h.upward n r (by rw [references_of_data? he]; exact hr) hDr)
  refine hw.congr hsp.registry hde.symm (by rw [hwe]) (by rw [hwe]) (fun r hr => hsp.leaf r (hDr r hr)) (fun r hr => ?_) fun r hr e he => ?_
  · rw [exposed, exposed, hsp.wiring (hDr r hr)]
  · obtain ⟨b, hb, -, hwb⟩ := exists_data_of_inner? ((hsp.data r (hDr r hr)).symm.trans (inner?_of_data? ‹_›))
    rw [← hwb]
    exact hw.below r hr b hb

/-- What changes nothing but what is derived from nodes of `D` keeps a graph sound but for these. -/
theorem spared {hands' : List InstanceId} (ha : g'.Founded) (hp : g'.Plain) (hup : g'.Upward D)
    (hl : ∀ n l e, g'.leaf? n = some l → l.entry = some e → g'.Grounded { entry := e, key := l.key }) (hm : g'.store.Mirrored)
    (huses : ∀ (id : InstanceId) (i : Instance), g'.instances[id]? = some i → ¬ D i.owner →
      i.uses = g'.useCount id + hands'.count id ∧ 0 < i.uses) : SoundBut D hands' g' where
  founded := ha
  plain := hp
  upward := hup
  wired n d hD hd hs := h.spared_wired hsp hD hd hs
  leaves := hl
  anchored := ⟨hsp.bounded h.anchored.bounded, hsp.apart h.anchored.injective⟩
  instanceId id i hi := by
    obtain ⟨u, hu⟩ := hsp.instancesOf id i hi
    exact Nat.le_trans (h.instanceId id _ hu) hsp.lastId
  processId id p hp := by
    obtain ⟨u, st, hu⟩ := hsp.processesOf id p hp
    exact Nat.le_trans (h.processId id _ hu) hsp.lastId
  unbound id i hi := by
    obtain ⟨u, hu⟩ := hsp.instancesOf id i hi
    obtain ⟨hs, hk⟩ := h.unbound id _ hu
    exact ⟨hs, hk⟩
  runner id i pid p hi hr hp := by
    obtain ⟨u, hu⟩ := hsp.instancesOf id i hi
    obtain ⟨v, st, hv⟩ := hsp.processesOf pid p hp
    exact h.runner id { i with uses := u } pid { p with uses := v, state := st } hu hr hv
  memo n w k id hD hw := by
    rw [hsp.wiring hD] at hw
    rw [h.memo n w k id hD hw]
    constructor
    · rintro ⟨i, hi, rfl, rfl⟩
      obtain ⟨u, hu⟩ := hsp.instances id i hi hD
      exact ⟨_, hu, rfl, rfl⟩
    · rintro ⟨i, hi, rfl, rfl⟩
      obtain ⟨u, hu⟩ := hsp.instancesOf id i hi
      exact ⟨_, hu, rfl, rfl⟩
  processMemo n w k id hD hw := by
    rw [hsp.wiring hD] at hw
    rw [h.processMemo n w k id hD hw]
    constructor
    · rintro ⟨p, hp, rfl, rfl⟩
      obtain ⟨st, hst⟩ := hsp.processes id p hp hD
      exact ⟨_, hst, rfl, rfl⟩
    · rintro ⟨p, hp, rfl, rfl⟩
      obtain ⟨u, st, hu⟩ := hsp.processesOf id p hp
      exact ⟨_, hu, rfl, rfl⟩
  faithful id i hi hD := by
    obtain ⟨u, hu⟩ := hsp.instancesOf id i hi
    exact h.spared_faithfulAt hsp hu hD i.uses
  process id p hp hD := by
    obtain ⟨u, st, hu⟩ := hsp.processesOf id p hp
    exact h.spared_processAt hsp hu hD p.uses p.state
  uses := huses
  runs id p hp hD := by
    obtain ⟨u, st, hu⟩ := hsp.processesOf id p hp
    obtain ⟨st', this⟩ := hsp.processes id _ hu hD
    rw [hp] at this
    have he := Option.some.inj this
    obtain ⟨huses, j, i, hi, hr⟩ := h.runs id _ hu hD
    have ho := h.runner j i id _ hi hr hu
    obtain ⟨v, hv⟩ := hsp.instances j i hi (by rw [← ho]; exact hD)
    exact ⟨by rw [he]; exact huses, j, _, hv, hr⟩
  cells n port x k c hD hc := by
    rw [cell?, hsp.wiring hD] at hc
    obtain ⟨huses, hkey, ⟨id, i, hi, ho⟩, hch⟩ := h.cells n port x k c hD hc
    obtain ⟨u, hu⟩ := hsp.instances id i hi (by rw [ho]; exact hD)
    exact ⟨huses, hkey, ⟨id, _, hu, ho⟩, by rw [hsp.next]; exact hch⟩
  sole n port x k c x' k' c' ch l m hD hc hc' hch hch' hmap hw := by
    rw [cell?, hsp.wiring hD] at hc hc'
    rw [hsp.mapId hD] at hmap
    exact h.sole n port x k c x' k' c' ch l m hD hc hc' hch hch' hmap (hsp.wiresOf ch _ hw)
  mirrored := hm

end SoundBut

end Graph

end Dataflow
