import Dataflow.Proofs.Moves
import Dataflow.Proofs.Pulled

/-!
# Results that are up to date

Bringing the result of an outlet up to date keeps a graph consistent, and leaves what is authored and who asks for what as they were.
Afterwards the outlet is ready.
-/

namespace Dataflow

namespace Graph

variable {g g' : Graph} {n : NodeId} {id : OutletId} {o : Outlet} {j : InstanceId} {new : List String → Prop}

/-! ## Channels that an outlet publishes -/

/-- An outlet publishes what its node exposes under the names that it is for. -/
theorem get_selectOutputs (filter : List String) (n : NodeId) (s : Substitution) (x : String) :
    (selectOutputs filter (g.finalChannels n s))[x]? =
      if filter.isEmpty || filter.contains x then g.chan n .output x s else none := by
  refine get_tableOf_of_mem fun c => ?_
  rw [List.mem_filter, mem_finalChannels]
  dsimp only
  split
  · rename_i h
    exact and_iff_left h
  · rename_i h
    exact ⟨fun hc => absurd hc.2 h, nofun⟩

/-- An outlet that is changed to what it is stays. -/
theorem modifyOutlet_self {f : Outlet → Outlet} (h : ∀ o, g.outlets[id]? = some o → f o = o) : g.modifyOutlet id f = g := by
  have hout : g.outlets.modify id f = g.outlets := by
    refine Std.ExtTreeMap.ext_getElem? fun {k} => ?_
    rw [Table.get_modify]
    split
    · rename_i hk
      subst hk
      rcases ho : g.outlets[k]? with _ | o
      · rfl
      · rw [Option.map_some, h o ho]
    · rfl
  rw [Graph.modifyOutlet, hout]

/-- Graphs that differ in one outlet hold the same instances but for those that it holds. -/
theorem count_held_add (h : ∀ k : OutletId, k ≠ id → g'.outlets[k]? = g.outlets[k]?) (i : InstanceId) :
    g'.held.count i + (if (g.outlets[id]?).bind (·.held) = some i then 1 else 0) =
      g.held.count i + if (g'.outlets[id]?).bind (·.held) = some i then 1 else 0 := by
  have hrest : Table.tally (g'.outlets.erase id) (fun _ o => if o.held = some i then 1 else 0) =
      Table.tally (g.outlets.erase id) fun _ o => if o.held = some i then 1 else 0 := by
    refine Table.tally_ext fun k => ?_
    rw [Table.get_erase, Table.get_erase]
    by_cases hk : k = id
    · rw [if_pos hk, if_pos hk]
    · rw [if_neg hk, if_neg hk, h k hk]
  have hown : ∀ o : Option Outlet, (o.map fun o => if o.held = some i then 1 else 0).getD 0 = if o.bind (·.held) = some i then 1 else 0 := by
    rintro (_ | o) <;> rfl
  rw [count_held, count_held, Table.tally_eq_add_erase g'.outlets id, Table.tally_eq_add_erase g.outlets id, hrest, hown, hown]
  omega

/-! ## Listening -/

/-- More may listen. -/
theorem spares_listenAll (g : Graph) (l : Listener) (cs : List ChannelId) :
    Spares (fun _ => False) g { g with store := g.store.listenAll l cs } := by
  obtain ⟨hentries, hnext, hmap, htol⟩ := Store.listenAll_fields g.store l cs
  have hwire := Store.wire?_listenAll g.store l cs
  exact { Spares.refl _ g with
    tolerance := htol
    next := hnext
    nextMap := Nat.le_of_eq hmap.symm
    bounded := fun h n port m hm => Nat.le_trans (h n port m hm) (Nat.le_of_eq hmap.symm)
    types := fun e t ht _ => by
      rw [Store.typeAt?, Store.entryAt?_of_entries_eq hentries]
      exact ht
    wires := fun c o l hw _ _ => (hwire c).trans hw
    wiresOf := fun c w hw => (hwire c).symm.trans hw
    listeners := fun c o l id p _ _ _ _ _ hl => (Store.mem_listenersOf_listenAll ..).2 (.inl hl) }

/-- An idle outlet that gets what was acquired for it, and listens to what this exposes, is as up to date as after a change of data. -/
theorem Enlarged.attach (h : g.Consistent) (he : Enlarged [j] g g') (ho : g.outlets[id]? = some o) (hs : o.status = .needsStructure)
    (hserves : g'.Serves o.owner .empty j) :
    (g'.attach id (some j) (selectOutputs o.filter (g'.finalChannels o.owner .empty))).Current ∧
      ((g'.attach id (some j) (selectOutputs o.filter (g'.finalChannels o.owner .empty))).modifyOutlet id
        ({ · with status := .needsData })).Tended := by
  have hout' : g'.outlets = g.outlets := he.derived.outlets
  have hidle := (h.tended.outlet id o ho).idle hs
  generalize hch : selectOutputs o.filter (g'.finalChannels o.owner .empty) = channels
  have hget : ∀ k : OutletId, (g'.attach id (some j) channels).outlets[k]? =
      if k = id then some { o with held := some j, channels } else g.outlets[k]? := by
    intro k
    refine (get_outlets_modifyOutlet ..).trans ?_
    show (if k = id then (g'.outlets[k]?).map _ else g'.outlets[k]?) = _
    rw [hout']
    split
    · rename_i hk
      rw [hk, ho]
      rfl
    · rfl
  have hget' : ∀ k : OutletId, ((g'.attach id (some j) channels).modifyOutlet id ({ · with status := .needsData })).outlets[k]? =
      if k = id then some { o with held := some j, channels, status := .needsData } else g.outlets[k]? := by
    intro k
    rw [get_outlets_modifyOutlet, hget]
    split <;> rfl
  have hwire := Store.wire?_listenAll g'.store (.outlet id) channels.values
  have hsp := spares_listenAll g' (.outlet id) channels.values
  have hsound := he.sound.calm hsp rfl (Store.mirrored_listenAll he.sound.mirrored _ _)
  constructor
  · refine he.current.carry he.sound rfl rfl hsp.tolerance (fun k p hp => .inr ⟨p.uses, hp, ⟨fun c _ => ?_, fun c hc y hy => ?_⟩, fun e _ => ?_⟩)
      (fun k p p' hp hp' => congrArg Process.state (Option.some.inj (hp'.symm.trans hp))) fun k o' ho' hr => ?_
    · exact Store.slots_of_wire?_eq (hwire c)
    · exact ⟨he.sound.not_written hp hc hy, Store.entryAt?_of_entries_eq (Store.listenAll_fields ..).1 _⟩
    · exact Store.entryAt?_of_entries_eq (Store.listenAll_fields ..).1 _
    · rw [hget] at ho'
      split at ho'
      · cases ho'
        cases hs.symm.trans hr
      · exact ⟨o', hout' ▸ ho', hr, rfl, rfl, fun x c _ => Store.slots_of_wire?_eq (hwire c)⟩
  · refine ⟨{ he.authored with }, ?_, ?_, fun k o' ho' => ?_⟩
    · have haside := hsound.aside ((g'.attach id (some j) channels).modifyOutlet id ({ · with status := .needsData })).outlets g'.requests
        g'.plans g'.journal
      refine { haside with uses := fun i inst hi hD => ?_ }
      have hothers : ∀ k : OutletId, k ≠ id →
          ((g'.attach id (some j) channels).modifyOutlet id ({ · with status := .needsData })).outlets[k]? = g.outlets[k]? :=
        fun k hk => (hget' k).trans (if_neg hk)
      have hcount := count_held_add hothers i
      rw [hget', if_pos rfl, ho, Option.bind_some, Option.bind_some, hidle.held] at hcount
      have huses := haside.uses i inst hi hD
      rw [List.cons_append, List.nil_append, List.count_cons] at huses
      simp only [Option.some.injEq, reduceCtorEq, if_false, Nat.add_zero, beq_iff_eq] at hcount huses
      rw [hcount]
      exact huses
    · refine (he.enrolled h.tended.enrolled).congr (fun _ => rfl) (fun k => ?_) (fun _ => rfl) (Nat.le_refl _)
      rw [hget', hout']
      split
      · rename_i hk
        rw [hk, ho]
        rfl
      · rfl
    · rw [hget'] at ho'
      split at ho'
      · rename_i hk
        subst hk
        cases ho'
        refine ⟨(fun hst => by cases hst), fun _ => ⟨j, rfl, hserves, fun x => ?_⟩, fun x c hc => ?_⟩
        · rw [← hch]
          exact get_selectOutputs ..
        · refine (Store.mem_listenersOf_listenAll ..).2 (.inr ⟨Table.mem_values.2 ⟨x, hc⟩, rfl, ?_⟩)
          obtain ⟨i, hi, hown, -⟩ := hserves
          rw [← hch, get_selectOutputs] at hc
          split at hc
          · exact he.sound.wire_of_chan hi not_false (hown ▸ hc)
          · cases hc
      · exact (he.outletAt (h.tended.outlet k o' ho')).keep rfl rfl rfl rfl Iff.rfl (fun _ _ hs => ⟨hs, fun _ => rfl⟩)
          fun x c _ hl => (Store.mem_listenersOf_listenAll ..).2 (.inl hl)

/-! ## Pulling -/

/-- The graph in which an outlet stays without requests. -/
def pin (g : Graph) (id : OutletId) : Graph := g.modifyOutlet id ({ · with pinned := true })

/-- What bringing an outlet up to date comes to: the graph is consistent and shows what it did, requests stay, and the outlet is ready. -/
structure Resolves (g g' : Graph) (id : OutletId) (o : Outlet) : Prop where
  upholds : ∀ new, Upholds new g g'
  keeps : g.Keeps g'
  requests : g'.requests = g.requests
  outlet : ∃ o' : Outlet, g'.outlets[id]? = some o' ∧ o'.owner = o.owner ∧ o'.filter = o.filter ∧ o'.status = .ready

/-- An outlet can be refreshed: it holds and listens to what its node exposes. All that was done for that is that more was built. -/
structure Poised (g g₁ : Graph) (id : OutletId) (o o₁ : Outlet) : Prop where
  current : g₁.Current
  outlet : g₁.outlets[id]? = some o₁
  tended : (g₁.modifyOutlet id ({ · with status := .needsData })).Tended
  keeps : g.Keeps g₁
  concurs : g.Concurs g₁
  owner : o₁.owner = o.owner
  filter : o₁.filter = o.filter
  others : ∀ k : OutletId, k ≠ id → g₁.outlets[k]? = g.outlets[k]?
  requests : g₁.requests = g.requests
  lastId : g.lastId ≤ g₁.lastId

/-- An outlet that is not ready is refreshed once it is poised. -/
theorem Consistent.poised (h : g.Consistent) (ho : g.outlets[id]? = some o) (hs : o.status ≠ .ready) :
    ∃ g₁ o₁, g.resolve id = g₁.refresh id o.owner ∧ (g₁ = g ∨ g₁ = g.rebuild id o) ∧ Poised g g₁ id o o₁ := by
  have hat := h.tended.outlet id o ho
  rw [Graph.resolve, ho]
  dsimp only
  split
  · rename_i hready
    exact absurd hready hs
  · rename_i hs
    refine ⟨g, o, rfl, .inl rfl, h.current, ho, ?_, .refl g, (Wanes.refl g).concurs, rfl, rfl, fun _ _ => rfl, rfl, Nat.le_refl _⟩
    rw [modifyOutlet_self fun o' ho' => by cases ho.symm.trans ho'; rw [← hs]]
    exact h.tended
  · rename_i hs
    have hidle := hat.idle hs
    have hun : (g.unsubscribe id).releaseHeld id = g := by
      have hu : g.unsubscribe id = g := by
        rw [unsubscribe, ho]
        dsimp only
        rw [hidle.channels]
        exact modifyOutlet_self fun o' ho' => by cases ho.symm.trans ho'; rw [← hidle.channels]
      rw [hu, releaseHeld, ho, Option.bind_some, hidle.held]
    obtain ⟨d, hd, -⟩ := h.tended.enrolled.home id o ho
    obtain ⟨g₁, j, hacq, he, hserves⟩ := h.acquired (n := o.owner) (by rw [hd]; rfl)
    obtain ⟨hcur, htend⟩ := he.attach h ho hs hserves
    have hre : g.rebuild id o = g₁.attach id (some j) (selectOutputs o.filter (g₁.finalChannels o.owner .empty)) := by
      rw [rebuild, hun, hacq]
      rfl
    refine ⟨_, { o with held := some j, channels := selectOutputs o.filter (g₁.finalChannels o.owner .empty) }, rfl, .inr rfl, ?_⟩
    rw [hre]
    generalize selectOutputs o.filter (g₁.finalChannels o.owner .empty) = channels at hcur htend ⊢
    have hget : ∀ k : OutletId, (g₁.attach id (some j) channels).outlets[k]? =
        if k = id then (g.outlets[k]?).map fun o => { o with held := some j, channels } else g.outlets[k]? := by
      intro k
      rw [← he.derived.outlets]
      exact get_outlets_modifyOutlet ..
    obtain ⟨hentries, -, -, htol⟩ := Store.listenAll_fields g₁.store (.outlet id) channels.values
    have ho₁ : (g₁.attach id (some j) channels).outlets[id]? = some { o with held := some j, channels } := by
      rw [hget, if_pos rfl, ho]
      rfl
    exact ⟨hcur, ho₁, htend,
      he.keeps.trans ⟨⟨fun _ => rfl, fun _ => rfl, rfl⟩, fun _ _ e _ _ => Store.entryAt?_of_entries_eq hentries e, htol⟩,
      .of_more (fun e x hx => (Store.entryAt?_of_entries_eq hentries e).trans (he.extending.entries e x hx))
        ((he.ages.lasts he.wires).trans (Store.lasts_listenAll ..)) he.extending.processes,
      rfl, rfl, fun k hk => (hget k).trans (if_neg hk), he.derived.requests, he.derived.lastId⟩

/-- Refreshing resolves an outlet that is poised. -/
theorem Poised.refreshes {g₁ : Graph} {o₁ : Outlet} (h : Poised g g₁ id o o₁) (hreg : g.registry.WellNamed)
    (ho : g.outlets[id]? = some o) (owner : NodeId) : Resolves g (g₁.refresh id owner) id o := by
  obtain ⟨hcons, hkeeps, hreq', hlast', -, ⟨o', ho', hown', hfilter', hst⟩, hrest⟩ :=
    consistent_refresh h.current h.outlet h.tended (h.keeps.registry ▸ hreg) owner
  refine ⟨fun new => ⟨hcons, ⟨hlast'.symm ▸ h.lastId, fun r q hq => .inl ⟨q, ?_, rfl⟩, fun k p hp => .inl ?_⟩,
    (h.keeps.trans hkeeps).registry, (h.keeps.trans hkeeps).tolerance⟩, h.keeps.trans hkeeps, hreq'.trans h.requests, o', ho',
    hown'.trans h.owner, hfilter'.trans h.filter, hst⟩
  · rw [hreq', h.requests] at hq
    exact hq
  · by_cases hid : k = id
    · subst hid
      cases ho'.symm.trans hp
      exact ⟨o, ho, (hown'.trans h.owner).symm, (hfilter'.trans h.filter).symm⟩
    · rw [hrest k hid, h.others k hid] at hp
      exact ⟨p, hp, rfl, rfl⟩

theorem resolve_of_ready (ho : g.outlets[id]? = some o) (hs : o.status = .ready) : g.resolve id = g := by
  rw [Graph.resolve, ho]
  dsimp only
  rw [hs]

/-- Bringing an outlet up to date resolves it. -/
theorem Consistent.resolve (h : g.Consistent) (ho : g.outlets[id]? = some o) : Resolves g (g.resolve id) id o := by
  by_cases hs : o.status = .ready
  · rw [resolve_of_ready ho hs]
    exact ⟨fun _ => h.upholds, .refl g, rfl, o, ho, rfl, rfl, hs⟩
  · obtain ⟨g₁, o₁, he, -, hp⟩ := h.poised ho hs
    rw [he]
    exact hp.refreshes h.named ho o.owner

/-- Pulling a live request gives a result of a ready outlet, and keeps the graph consistent. -/
theorem Consistent.pull (h : g.Consistent) {r : RequestId} {q : Request} (hq : g.requests[r]? = some q) :
    ∃ o, g.outlets[q.outlet]? = some o ∧ Resolves g (g.pull r).1 q.outlet o ∧ (g.pull r).2 = (g.pull r).1.resultOf q.outlet := by
  obtain ⟨o, ho, -⟩ := h.tended.enrolled.asked r q hq
  refine ⟨o, ho, ?_⟩
  rw [Graph.pull, hq]
  exact ⟨h.resolve ho, rfl⟩

/-- A node is pulled at its outlet for the names, which is pinned and brought up to date. -/
theorem pullNode_cases (g : Graph) (n : NodeId) (names : List String) :
    (∃ e, (g.outletFor n names).2 = .error e ∧ g.pullNode n names = ((g.outletFor n names).1, none)) ∨
      ∃ id, (g.outletFor n names).2 = .ok id ∧ (g.pullNode n names).1 = ((g.outletFor n names).1.pin id).resolve id ∧
        (g.pullNode n names).2 = (g.pullNode n names).1.resultOf id := by
  rw [Graph.pullNode]
  generalize g.outletFor n names = r
  obtain ⟨g₁, e | id⟩ := r
  · exact .inl ⟨e, rfl, rfl⟩
  · exact .inr ⟨id, rfl, rfl, rfl⟩

/-- Pinning the outlet that a node has for some names keeps the graph consistent. -/
theorem Consistent.pin (h : g.Consistent) {names : List String} (hid : (g.outletFor n names).2 = .ok id) :
    Upholds (· = sortNames names) g ((g.outletFor n names).1.pin id) ∧
      ∃ o : Outlet, ((g.outletFor n names).1.pin id).outlets[id]? = some o ∧ o.owner = n ∧ outletKey o.filter = outletKey (sortNames names) := by
  obtain ⟨hup, hout⟩ := h.outletFor n names
  obtain ⟨o, ho, hown, hkey⟩ := hout id hid
  generalize (g.outletFor n names).1 = g₁ at hup ho
  have hget := get_outlets_modifyOutlet g₁ id
  have hpin : Upholds (· = sortNames names) g₁ (g₁.pin id) :=
    hup.consistent.modifyOutlet (Nat.le_refl _) (fun o => ⟨⟨rfl, rfl, rfl, rfl, Iff.rfl⟩, rfl, rfl⟩) (fun r q hq => .inl ⟨q, hq, rfl⟩)
      (hup.consistent.tended.enrolled.congr (fun _ => rfl) (fun k => ?_) (fun _ => rfl) (Nat.le_refl _))
  · refine ⟨hup.trans hpin, { o with pinned := true }, (hget id _).trans ?_, hown, hkey⟩
    rw [if_pos rfl, ho]
    rfl
  · exact (congrArg _ (hget k _)).trans (by split <;> rcases g₁.outlets[k]? with _ | p <;> rfl)

/-- Pulling a node keeps the graph consistent. -/
theorem Consistent.pullNode (h : g.Consistent) (n : NodeId) (names : List String) :
    Upholds (· = sortNames names) g (g.pullNode n names).1 := by
  rcases pullNode_cases g n names with ⟨e, -, he⟩ | ⟨id, hid, he, -⟩
  · rw [he]
    exact (h.outletFor n names).1
  · obtain ⟨hpin, o, ho, -⟩ := h.pin hid
    rw [he]
    exact hpin.trans ((hpin.consistent.resolve ho).upholds _)

end Graph

end Dataflow
