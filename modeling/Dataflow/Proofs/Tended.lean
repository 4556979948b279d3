import Dataflow.Proofs.Told

/-!
# Tended graphs: what holds between calls

Between calls a graph without templates is sound, and what is in hand are the instances that its outlets hold. An outlet that does not
have to rebuild holds the instance of its node and listens to the channels that this exposes.
-/

namespace Dataflow

namespace Graph

variable {D E : NodeId → Prop} {hands : List InstanceId} {g g' g'' : Graph} {n p : NodeId} {call : Call}

/-- The instances that outlets hold, once for every outlet. -/
def held (g : Graph) : List InstanceId := g.outlets.values.filterMap (·.held)

/-- An outlet is idle, or publishes what its node exposes and listens to it. -/
structure OutletAt (g : Graph) (id : OutletId) (o : Outlet) : Prop where
  idle : o.status = .needsStructure → o.Idle
  held : o.status ≠ .needsStructure → ∃ j, o.held = some j ∧ g.Serves o.owner .empty j ∧
    ∀ x, o.channels[x]? = if o.filter.isEmpty || o.filter.contains x then g.chan o.owner .output x .empty else none
  listens : ∀ (x : String) (c : ChannelId), o.channels[x]? = some c → .outlet id ∈ g.store.listenersOf c

/-- What holds between calls. -/
structure Tended (g : Graph) : Prop where
  authored : g.Authored
  sound : SoundBut (fun _ => False) g.held g
  enrolled : g.Enrolled
  outlet : ∀ (id : OutletId) (o : Outlet), g.outlets[id]? = some o → g.OutletAt id o

theorem count_held (g : Graph) (j : InstanceId) : g.held.count j = Table.tally g.outlets fun _ o => if o.held = some j then 1 else 0 := by
  have key : ∀ l : List (Nat × Outlet), ((l.map (·.2)).filterMap (·.held)).count j =
      (l.map fun e => if e.2.held = some j then 1 else 0).sum := by
    intro l
    induction l with
    | nil => rfl
    | cons e l ih =>
      rw [List.map_cons, List.map_cons, List.sum_cons, List.filterMap_cons]
      rcases he : e.2.held with _ | k
      · simpa using ih
      · rw [← ih, List.count_cons]
        by_cases hk : k = j
        · simp [hk, Nat.add_comm]
        · simp [hk]
  rw [held, Table.values_eq]
  exact key _

/-- Two graphs hold an instance equally often if every outlet does. -/
theorem count_held_congr {j : InstanceId} (h : ∀ id : OutletId, ((g'.outlets[id]?).bind (·.held) = some j) ↔ (g.outlets[id]?).bind (·.held) = some j) :
    g'.held.count j = g.held.count j := by
  have key : ∀ o o' : Option Outlet, (o'.bind (·.held) = some j ↔ o.bind (·.held) = some j) →
      (o'.map fun o => if o.held = some j then 1 else 0).getD 0 = (o.map fun o => if o.held = some j then 1 else 0).getD 0 := by
    rintro (_ | o) (_ | o') ho <;> simp_all
  rw [count_held, count_held]
  exact Table.tally_ext fun id => key _ _ (h id)

theorem mem_held {j : InstanceId} : j ∈ g.held ↔ ∃ (id : OutletId) (o : Outlet), g.outlets[id]? = some o ∧ o.held = some j := by
  rw [held, List.mem_filterMap]
  constructor
  · rintro ⟨o, ho, hj⟩
    obtain ⟨id, hid⟩ := Table.mem_values.1 ho
    exact ⟨id, o, hid, hj⟩
  · rintro ⟨id, o, ho, hj⟩
    exact ⟨o, Table.mem_values.2 ⟨id, ho⟩, hj⟩

theorem OutletAt.of_idle {id : OutletId} {o : Outlet} (h : o.Idle) : g.OutletAt id o :=
  ⟨fun _ => h, fun hs => absurd h.status hs, fun x c hc => by rw [h.channels, Std.ExtTreeMap.getElem?_empty] at hc; cases hc⟩

/-- What an outlet holds serves its node. -/
theorem OutletAt.serves {id : OutletId} {o : Outlet} (h : g.OutletAt id o) {j : InstanceId} (hj : o.held = some j) :
    g.Serves o.owner .empty j := by
  by_cases hs : o.status = .needsStructure
  · rw [(h.idle hs).held] at hj
    cases hj
  · obtain ⟨k, hk, hserves, -⟩ := h.held hs
    rw [hj] at hk
    cases hk
    exact hserves

/-- An outlet stays as it is when what it holds stays live, exposes the same and is listened to. -/
theorem OutletAt.keep {id : OutletId} {o o' : Outlet} (h : g.OutletAt id o) (hown : o'.owner = o.owner) (hfilter : o'.filter = o.filter)
    (hheld : o'.held = o.held) (hch : o'.channels = o.channels) (hstatus : o'.status = .needsStructure ↔ o.status = .needsStructure)
    (hs : ∀ j, o.held = some j → g.Serves o.owner .empty j → g'.Serves o.owner .empty j ∧
      ∀ x, g'.chan o.owner .output x .empty = g.chan o.owner .output x .empty)
    (hl : ∀ (x : String) (c : ChannelId), o.channels[x]? = some c → .outlet id ∈ g.store.listenersOf c → .outlet id ∈ g'.store.listenersOf c) :
    g'.OutletAt id o' := by
  refine ⟨fun hn => ?_, fun hn => ?_, fun x c hc => ?_⟩
  · have hi := h.idle (hstatus.1 hn)
    exact ⟨hheld.trans hi.held, hch.trans hi.channels, hn⟩
  · obtain ⟨j, hj, hserves, hx⟩ := h.held fun hn' => hn (hstatus.2 hn')
    obtain ⟨hserves', hchan⟩ := hs j hj hserves
    refine ⟨j, hheld.trans hj, by rw [hown]; exact hserves', fun x => ?_⟩
    rw [hch, hfilter, hown, hchan]
    exact hx x
  · rw [hch] at hc
    exact hl x c hc (h.listens x c hc)

/-- A served node under no bindings has a live instance. -/
theorem Serves.exists_instance {j : InstanceId} (h : g.Serves n .empty j) : ∃ i : Instance, g.instances[j]? = some i ∧ i.owner = n := by
  obtain ⟨i, hi, ho, -⟩ := h
  exact ⟨i, hi, ho⟩

/-- What a live instance exposes is in the store. -/
theorem SoundBut.wire_of_chan (h : SoundBut D hands g) {j : InstanceId} {i : Instance} (hi : g.instances[j]? = some i) (hD : ¬ D i.owner)
    {port : Port} {x : String} {c : ChannelId} (hc : g.chan i.owner port x .empty = some c) : (g.store.wire? c).isSome := by
  obtain ⟨o, l, hw, -⟩ := (h.built hi hD port).known_chan hc
  rw [hw]
  rfl

/-- In a sound graph the memos are right. -/
theorem SoundBut.listed (h : SoundBut (fun _ => False) hands g) : g.Listed fun _ => False := by
  refine ⟨fun id i hi _ => ?_, fun id p hp _ => ?_, fun n w k id i hw hk hi => ?_, fun n w k id p hw hk hp => ?_⟩
  · obtain ⟨w, hw, -⟩ := (h.faithful id i hi not_false).inSync
    exact ⟨w, hw, (h.memo _ w _ id not_false hw).2 ⟨i, hi, rfl, rfl⟩⟩
  · obtain ⟨w, hw, -⟩ := (h.process id p hp not_false).inSync
    exact ⟨w, hw, (h.processMemo _ w _ id not_false hw).2 ⟨p, hp, rfl, rfl⟩⟩
  · obtain ⟨i', hi', ho, -⟩ := (h.memo n w k id not_false hw).1 hk
    rw [hi] at hi'
    cases hi'
    exact ho
  · obtain ⟨p', hp', ho, -⟩ := (h.processMemo n w k id not_false hw).1 hk
    rw [hp] at hp'
    cases hp'
    exact ho

namespace Enrolled

/-- Who is enrolled depends on what nodes say of their outlets, and on outlets and requests up to what they hold and show. -/
theorem congr (h : g.Enrolled) (hdata : ∀ m, (g'.data? m).map (·.outlets) = (g.data? m).map (·.outlets))
    (hout : ∀ id : OutletId, (g'.outlets[id]?).map (fun o => (o.owner, o.filter, o.requests)) =
      (g.outlets[id]?).map fun o => (o.owner, o.filter, o.requests))
    (hreq : ∀ r : RequestId, (g'.requests[r]?).map (·.outlet) = (g.requests[r]?).map (·.outlet)) (hlast : g.lastId ≤ g'.lastId) :
    g'.Enrolled := by
  have hdata' : ∀ {m d}, g'.data? m = some d → ∃ e, g.data? m = some e ∧ e.outlets = d.outlets := by
    intro m d hd
    have := hdata m
    rw [hd] at this
    exact Option.map_eq_some_iff.1 this.symm
  have hout' : ∀ {id : OutletId} {o : Outlet}, g'.outlets[id]? = some o →
      ∃ o' : Outlet, g.outlets[id]? = some o' ∧ o'.owner = o.owner ∧ o'.filter = o.filter ∧ o'.requests = o.requests := by
    intro id o ho
    have := hout id
    rw [ho] at this
    obtain ⟨o', ho', he⟩ := Option.map_eq_some_iff.1 this.symm
    simp only [Prod.mk.injEq] at he
    exact ⟨o', ho', he⟩
  have hto : ∀ {id : OutletId} {o : Outlet}, g.outlets[id]? = some o →
      ∃ o' : Outlet, g'.outlets[id]? = some o' ∧ o'.owner = o.owner ∧ o'.filter = o.filter ∧ o'.requests = o.requests := by
    intro id o ho
    have := hout id
    rw [ho] at this
    obtain ⟨o', ho', he⟩ := Option.map_eq_some_iff.1 this
    simp only [Prod.mk.injEq] at he
    exact ⟨o', ho', he⟩
  have hreq' : ∀ {r : RequestId} {q : Request}, g'.requests[r]? = some q → ∃ q' : Request, g.requests[r]? = some q' ∧ q'.outlet = q.outlet := by
    intro r q hq
    have := hreq r
    rw [hq] at this
    exact Option.map_eq_some_iff.1 this.symm
  refine ⟨fun n d k id hd hk => ?_, fun id o ho => ?_, fun id o ho => ?_, fun r q hq => ?_, fun r q hq => ?_, fun id o r ho hr => ?_⟩
  · obtain ⟨e, he, heo⟩ := hdata' hd
    obtain ⟨o, ho, hown, hkey⟩ := h.memo n e k id he (heo ▸ hk)
    obtain ⟨o', ho', hown', hf', -⟩ := hto ho
    exact ⟨o', ho', hown'.trans hown, by rw [hf']; exact hkey⟩
  · obtain ⟨o', ho', hown, hf, -⟩ := hout' ho
    obtain ⟨d, hd, hk⟩ := h.home id o' ho'
    have := hdata o'.owner
    rw [hd] at this
    obtain ⟨e, he, heo⟩ := Option.map_eq_some_iff.1 this
    exact ⟨e, by rw [← hown]; exact he, by rw [heo, ← hf]; exact hk⟩
  · obtain ⟨o', ho', -⟩ := hout' ho
    exact Nat.le_trans (h.outletId id o' ho') hlast
  · obtain ⟨q', hq', -⟩ := hreq' hq
    exact Nat.le_trans (h.requestId r q' hq') hlast
  · obtain ⟨q', hq', he⟩ := hreq' hq
    obtain ⟨o, ho, hr⟩ := h.asked r q' hq'
    obtain ⟨o', ho', -, -, hr'⟩ := hto ho
    exact ⟨o', he ▸ ho', hr' ▸ hr⟩
  · obtain ⟨o', ho', -, -, hr'⟩ := hout' ho
    obtain ⟨q, hq, hid⟩ := h.known id o' r ho' (hr' ▸ hr)
    have := hreq r
    rw [hq] at this
    obtain ⟨q', hq', he⟩ := Option.map_eq_some_iff.1 this
    exact ⟨q', hq', he.trans hid⟩

end Enrolled

namespace Touched

variable (ht : Touched call g g' p)

include ht

theorem wiring? (m : NodeId) : g'.wiring? m = g.wiring? m := by
  by_cases hm : m = p
  · subst hm
    have hsome := ht.isSome_data
    rcases hd' : g'.data? m with _ | d' <;> rcases hd : g.data? m with _ | d <;> rw [hd', hd] at hsome
    · rw [Graph.wiring?, Graph.wiring?, hd, hd']
    · cases hsome
    · cases hsome
    · obtain ⟨e, he, hw, -⟩ := ht.dataAt d' hd'
      rw [hd] at he
      cases he
      rw [wiring?_of_data? hd, wiring?_of_data? hd', hw]
  · rw [Graph.wiring?, ht.data m hm, Graph.wiring?]

theorem outlets (m : NodeId) : (g'.data? m).map (·.outlets) = (g.data? m).map (·.outlets) := by
  by_cases hm : m = p
  · subst hm
    have hsome := ht.isSome_data
    rcases hd' : g'.data? m with _ | d' <;> rcases hd : g.data? m with _ | d <;> rw [hd', hd] at hsome
    · cases hsome
    · cases hsome
    · obtain ⟨e, he, -, ho, -⟩ := ht.dataAt d' hd'
      rw [hd] at he
      cases he
      rw [Option.map_some, Option.map_some, ho]
  · rw [ht.data m hm]

/-- What refers to a node whose structure changed is the same before and after the change. -/
theorem upward : g.Upward (fun m => g'.Below m p) ∧ g'.Upward fun m => g'.Below m p := by
  refine ⟨fun m r hr hb => ?_, fun m r hr hb => Leads.head hr hb⟩
  by_cases hm : m = p
  · rw [hm]
    exact Leads.refl p
  · refine Leads.head ?_ hb
    rw [references, ht.data m hm]
    exact hr

end Touched

namespace Tended

theorem live (h : g.Tended) {j : InstanceId} (hj : j ∈ g.held) : (g.instances[j]?).isSome := by
  obtain ⟨id, o, ho, hj⟩ := mem_held.1 hj
  obtain ⟨i, hi, -⟩ := ((h.outlet id o ho).serves hj).exists_instance
  rw [hi]
  rfl

/-- A tended graph is sound, with nothing half-built. -/
theorem quiet (h : g.Tended) : g.Sound Nothing g.held [] ∧ ∀ n, g.QuietAt n := h.sound.sound h.authored fun _ => h.live

/-! ## Structure -/

/-- An edit concerns the node and everything above it. -/
theorem spares_touched {g₁ : Graph} (ht : Touched call g g₁ p) : Spares (fun m => g₁.Below m p) g g₁ := by
  have hne : ∀ {m}, ¬ g₁.Below m p → m ≠ p := by
    rintro m hm rfl
    exact hm (Leads.refl m)
  have hmap : ∀ m q, g₁.mapId m q = g.mapId m q := fun m q => by rw [mapId, ht.wiring? m, mapId]
  have hdata : ∀ m, ¬ g₁.Below m p → g₁.inner? m = g.inner? m := fun m hm => by rw [inner?, ht.data m (hne hm), inner?]
  have hleaf : ∀ m, ¬ g₁.Below m p → g₁.leaf? m = g.leaf? m := fun m hm => ht.leaf m (hne hm)
  obtain ⟨nodes, journal, rfl⟩ := ht.rest
  exact { Spares.refl _ g with
    data := hdata
    leaf := hleaf
    mapIn := fun _ _ => mapIn_of_mapId hmap
    bounded := fun h m q o ho => h m q o ((hmap m q).symm.trans ho)
    apart := fun h m q m' q' o ho ho' => h m q m' q' o ((hmap m q).symm.trans ho) ((hmap m' q').symm.trans ho') }

/-- An edit after which the graph is plain, and leaves are bound to authored entries, leaves the graph sound but for what is above. -/
theorem soundBut_touched (h : g.Tended) {g₁ : Graph} (ht : Touched call g g₁ p) (hproto : ∀ q r, call ≠ .setProto q (some r))
    (hleaf : ∀ l e, g₁.leaf? p = some l → l.entry = some e → g.Grounded { entry := e, key := l.key }) :
    SoundBut (fun m => g₁.Below m p) g.held g₁ := by
  obtain ⟨hup, hup'⟩ := ht.upward
  have hsp := spares_touched ht
  have h₀ := h.sound.weaken (fun _ hm => hm.elim) hup
  have hplain : g₁.Plain := by
    intro m d hd
    by_cases hm : m = p
    · subst hm
      obtain ⟨d', hd', rfl⟩ := Option.map_eq_some_iff.1 hd
      obtain ⟨e, he, -, -, hp⟩ := ht.dataAt d' hd'
      have hold := h.sound.plain m e.design (design?_of_data? he)
      rcases hp with hp | hp | hp
      · exact hp.trans hold
      · exact hp
      · rcases hq : d'.proto with _ | r
        · exact hq
        · exact absurd (hq ▸ hp) (hproto m r)
    · refine h.sound.plain m d ?_
      rw [design?, ← ht.data m hm]
      exact hd
  have hground : ∀ y, g.Grounded y → g₁.Grounded y := by
    obtain ⟨nodes, journal, rfl⟩ := ht.rest
    exact fun y hy => hy
  have hmirrored : g₁.store.Mirrored := by
    obtain ⟨nodes, journal, rfl⟩ := ht.rest
    exact h.sound.mirrored
  have huses : ∀ (id : InstanceId) (i : Instance), g₁.instances[id]? = some i → i.uses = g₁.useCount id + g.held.count id ∧ 0 < i.uses := by
    obtain ⟨nodes, journal, rfl⟩ := ht.rest
    exact fun id i hi => h.sound.uses id i hi not_false
  refine h₀.spared hsp ht.authored.founded hplain hup' (fun n l e hl he => hground _ ?_) hmirrored fun id i hi _ => huses id i hi
  by_cases hn : n = p
  · subst hn
    exact hleaf l e hl he
  · exact h.sound.leaves n l e ((ht.leaf n hn).symm.trans hl) he

/-- A graph is tended again after something was taken from it, if every outlet is idle or is as it was, and what that holds and listens to
stays. -/
theorem waned (h : g.Tended) (ha : g'.Authored) (hs : SoundBut (fun _ => False) hands g') (he : g'.Enrolled)
    (hheld : ∀ (j : InstanceId) (i : Instance), g'.instances[j]? = some i → g'.held.count j = hands.count j)
    (hout : ∀ (id : OutletId) (o : Outlet), g'.outlets[id]? = some o → o.Idle ∨ (g.outlets[id]? = some o ∧
      (∀ (j : InstanceId) (i : Instance), o.held = some j → g.instances[j]? = some i → i.owner = o.owner →
        (∃ u, g'.instances[j]? = some { i with uses := u }) ∧ g'.wiring? o.owner = g.wiring? o.owner) ∧
      ∀ c, .outlet id ∈ g.store.listenersOf c → (g'.store.wire? c).isSome → .outlet id ∈ g'.store.listenersOf c)) : g'.Tended := by
  refine ⟨ha, { hs with uses := fun j i hi hD => hheld j i hi ▸ hs.uses j i hi hD }, he, fun id o ho => ?_⟩
  rcases hout id o ho with hidle | ⟨ho', hkept, hlistens⟩
  · exact .of_idle hidle
  have hat := h.outlet id o ho'
  refine hat.keep rfl rfl rfl rfl Iff.rfl (fun j hj hserves => ?_) fun x c hc hl => ?_
  · obtain ⟨i, hi, hown, hsub⟩ := hserves
    obtain ⟨⟨u, hu⟩, hw⟩ := hkept j i hj hi hown
    exact ⟨⟨_, hu, hown, by rw [params, hw]; exact hsub⟩, fun x => chan_of_wiring?_eq hw .output x .empty⟩
  · refine hlistens c hl ?_
    have hstatus : o.status ≠ .needsStructure := fun hn => by
      rw [(hat.idle hn).channels, Std.ExtTreeMap.getElem?_empty] at hc
      cases hc
    obtain ⟨j, hj, ⟨i, hi, hown, -⟩, hx⟩ := hat.held hstatus
    obtain ⟨⟨u, hu⟩, hw⟩ := hkept j i hj hi hown
    rw [hx] at hc
    split at hc
    · have hc' : g'.chan i.owner .output x .empty = some c := by
        rw [hown, chan_of_wiring?_eq hw]
        exact hc
      exact hs.wire_of_chan hu not_false hc'
    · cases hc

/-- A change of structure that is told leaves the graph tended. -/
theorem told (h : g.Tended) {g₁ : Graph} (ht : Touched call g g₁ p) (hproto : ∀ q r, call ≠ .setProto q (some r))
    (hleaf : ∀ l e, g₁.leaf? p = some l → l.entry = some e → g.Grounded { entry := e, key := l.key }) :
    (g₁.structureChanged p).Tended ∧ Told (fun m => g₁.Below m p) g.held g₁ (g₁.structureChanged p) := by
  have h₁ := h.soundBut_touched ht hproto hleaf
  have hfields : g₁.outlets = g.outlets ∧ g₁.requests = g.requests ∧ g₁.lastId = g.lastId ∧ g₁.instances = g.instances ∧
      g₁.processes = g.processes ∧ g₁.store = g.store := by
    obtain ⟨nodes, journal, rfl⟩ := ht.rest
    exact ⟨rfl, rfl, rfl, rfl, rfl, rfl⟩
  obtain ⟨hout, hreq, hlast, hinst, hproc, hstore⟩ := hfields
  have he₁ : g₁.Enrolled := h.enrolled.congr ht.outlets (fun id => by rw [hout]) (fun r => by rw [hreq]) (Nat.le_of_eq hlast.symm)
  have hl₁ : g₁.Listed fun _ => False := by
    have hl := h.sound.listed
    exact ⟨fun id i hi => by rw [ht.wiring?]; exact hl.instances id i (hinst ▸ hi),
      fun id p hp => by rw [ht.wiring?]; exact hl.processes id p (hproc ▸ hp),
      fun n w k id i hw hk hi => hl.instanceOwner n w k id i ((ht.wiring? n).symm.trans hw) hk (hinst ▸ hi),
      fun n w k id p hw hk hp => hl.processOwner n w k id p ((ht.wiring? n).symm.trans hw) hk (hproc ▸ hp)⟩
  have htold := h₁.told ht.authored hl₁ he₁ fun m => Iff.rfl
  refine ⟨?_, htold⟩
  have hclean : ∀ {id : InstanceId} {i : Instance}, (g₁.structureChanged p).instances[id]? = some i → ¬ g₁.Below i.owner p :=
    fun hi hb => (htold.blank _ hb).vacant.instances _ _ hi rfl
  -- nothing is derived above the change any more
  have h₂ : SoundBut (fun _ => False) g.held (g₁.structureChanged p) :=
    htold.sound.shrink (fun _ _ _ h => h) (fun n d _ hd hs => by
      by_cases hD : g₁.Below n p
      · exact absurd ⟨d.wiring, wiring?_of_data? hd, hs⟩ (htold.blank n hD).stale
      · exact htold.sound.wired n d hD hd hs) fun n hn _ => (htold.blank n hn).vacant
  refine h.waned (htold.fades.rewired.authored ht.authored) h₂ ?_ (fun j i hi => count_held_congr fun k => ?_) fun id o ho => ?_
  · refine he₁.congr (fun m => htold.fades.rewired.outletsOf m) (fun id => ?_) (fun r => by rw [htold.rest.1])
      (Nat.le_of_eq htold.fades.lastId.symm)
    rcases htold.outlets id with hid | ⟨o, hid, -, hid'⟩
    · rw [hid]
    · rw [hid, hid']
      rfl
  · -- an outlet that gave up its instance is above the change
    rcases htold.outlets k with hk | ⟨o, hk, hD, hk'⟩
    · rw [hk, hout]
    · rw [hk']
      refine ⟨nofun, fun hn => ?_⟩
      rw [hout] at hk
      rw [hk] at hn
      obtain ⟨i', hi', ho'⟩ := ((h.outlet k o hk).serves hn).exists_instance
      obtain ⟨u, hu⟩ := htold.fades.instancesOf _ _ hi
      cases hi'.symm.trans (hinst ▸ hu)
      exact absurd (ho' ▸ hD) (hclean hi)
  · by_cases hD : g₁.Below o.owner p
    · exact .inl (htold.idle id o ho hD)
    have ho₁ : g.outlets[id]? = some o := by
      obtain ⟨o', ho', -, rfl | hD'⟩ := htold.toCleared.owner ho
      · rw [← hout]
        exact ho'
      · exact absurd hD' hD
    refine .inr ⟨ho₁, fun j i hj hi hown => ?_, fun c hl hw => htold.listens c id o (hout ▸ ho₁) hD (by rw [hstore]; exact hl) hw⟩
    obtain ⟨u, hu⟩ := htold.kept j (mem_held.2 ⟨id, o, ho₁, hj⟩) i (hinst ▸ hi) (hown ▸ hD)
    refine ⟨⟨u, hu⟩, ?_⟩
    rw [← ht.wiring?, wiring?_eq, wiring?_eq, ← hown, htold.data j _ hu (hown ▸ hD)]

end Tended

end Graph

end Dataflow
