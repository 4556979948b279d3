import Dataflow.Proofs.Subscribe

/-!
# Pulling results

Bringing a result up to date acquires the instance of the outlet's node if there is none, listens to what it exposes, runs what has to
run, and publishes. Every pull of a live request gives a result, and keeps the graph consistent.
-/

namespace Dataflow

namespace Graph

variable {hands : List InstanceId} {g g' : Graph} {n : NodeId} {s : Substitution} {new : List String → Prop}

/-! ## Growing -/

/-- What the authored graph shows is the same: its design, its leaves, and what these hold. -/
structure Keeps (g g' : Graph) : Prop extends SameDesign g g' where
  values : ∀ m l e, g.leaf? m = some l → l.entry = some e → g'.entryAt? e = g.entryAt? e
  tolerance : g'.store.tolerance = g.store.tolerance

theorem Keeps.refl (g : Graph) : g.Keeps g := ⟨.refl g, fun _ _ _ _ _ => rfl, rfl⟩

theorem Keeps.trans {g'' : Graph} (h : g.Keeps g') (h' : g'.Keeps g'') : g.Keeps g'' :=
  ⟨h.toSameDesign.trans h'.toSameDesign, fun m l e hl he => (h'.values m l e ((h.leaf m).trans hl) he).trans (h.values m l e hl he),
    h'.tolerance.trans h.tolerance⟩

/-- What was built since a consistent graph: the graph is sound with some instances more in hand, and what was there is as it was. -/
structure Enlarged (more : List InstanceId) (g g' : Graph) : Prop where
  sound : SoundBut (fun _ => False) (more ++ g.held) g'
  authored : g'.Authored
  current : g'.Current
  derived : g.Derived (fun _ _ => True) g'
  keeps : g.Keeps g'
  extending : g.Extends g'
  serves : ∀ n j, g.Serves n .empty j → g'.Serves n .empty j ∧ ∀ port x, g'.chan n port x .empty = g.chan n port x .empty
  wires : ∀ c w, g.store.wire? c = some w → g'.store.wire? c = some w
  ages : g.store.Ages g'.store
  listeners : ∀ c l, l ∈ g.store.listenersOf c → l ∈ g'.store.listenersOf c

theorem Consistent.enlarged (h : g.Consistent) {more : List InstanceId} (hd : g.Derived (fun _ _ => True) g')
    (hs : g'.Sound Nothing (more ++ g.held) []) (hg : g.Grown g' n s) (hages : g.store.Ages g'.store) (hq : ∀ m, g'.QuietAt m) :
    Enlarged more g g' := by
  have hsame := hg.extending.sameDesign
  refine ⟨hs.soundBut (fun m d hd => h.tended.sound.plain m d (hsame.design m ▸ hd)) hq, hs.authored,
    h.current.extends h.tended hg.extending hg.wires hd.plans hd.outlets, hd, ⟨hsame, fun m l e hl he => ?_, hg.extending.tolerance⟩,
    hg.extending, fun m j hj => ?_, hg.wires, hages, hg.listeners⟩
  · obtain ⟨t, ht⟩ := Option.isSome_iff_exists.1 (h.tended.sound.leaves m l e hl he).1
    obtain ⟨x, hx, -⟩ := Option.map_eq_some_iff.1 ht
    exact (hg.extending.entries _ x hx).trans hx.symm
  · have hin : g.InSync m := by
      obtain ⟨i, hi, ho, -⟩ := hj
      exact ho ▸ (h.tended.sound.faithful j i hi not_false).inSync
    exact ⟨hg.extending.serves hin hj, fun port x => hg.extending.chan_of_serves hin h.tended.quiet.1.wired hs.wired hj port x⟩

/-- Outlets hold and listen to what they did. -/
theorem Enlarged.outletAt {more : List InstanceId} (h : Enlarged more g g') {id : OutletId} {o : Outlet} (ho : g.OutletAt id o) : g'.OutletAt id o :=
  ho.keep rfl rfl rfl rfl Iff.rfl (fun j _ hs => ⟨(h.serves _ j hs).1, fun x => (h.serves _ j hs).2 .output x⟩) fun _ c _ hl => h.listeners c _ hl

/-- What is built leaves what outlets see. -/
theorem Enlarged.retains {more : List InstanceId} (h : Enlarged more g g') : g.Retains g' :=
  ⟨.of_more h.extending.entries (h.ages.lasts h.wires) h.extending.processes, fun _ o ho _ =>
    ⟨o, h.derived.outlets ▸ ho, .refl o, h.keeps.toSameDesign.sameBelow o.owner⟩⟩

theorem Enlarged.enrolled {more : List InstanceId} (h : Enlarged more g g') (he : g.Enrolled) : g'.Enrolled :=
  he.congr (fun m => h.derived.rewired.outletsOf m) (fun id => by rw [h.derived.outlets]) (fun r => by rw [h.derived.requests]) h.derived.lastId

theorem held_of_outlets_eq (h : g'.outlets = g.outlets) : g'.held = g.held := by rw [held, h, held]

/-- Synchronizing a node keeps the graph consistent, and what outlets see. -/
theorem Consistent.synchronize (h : g.Consistent) (n : NodeId) : Upholds new g (g.synchronize n) ∧ g.Retains (g.synchronize n) := by
  obtain ⟨hs, hq⟩ := h.tended.quiet
  obtain ⟨hs', hg, hq'⟩ := grown_synchronize hs n .empty
  have hd := derived_synchronize g n
  have he : Enlarged [] g (g.synchronize n) := h.enlarged hd hs' hg (.of_channels (congrArg Store.channels (store_syncWithin ..))) fun m => hq' m (hq m)
  refine ⟨⟨⟨⟨hs'.authored, ?_, he.enrolled h.tended.enrolled, fun id o ho => he.outletAt (h.tended.outlet id o ?_)⟩, he.current, ?_⟩,
    ⟨hd.lastId, fun r q hr => .inl ⟨q, ?_, rfl⟩, fun id o ho => .inl ⟨o, ?_, rfl, rfl⟩⟩, hd.registry, hg.extending.tolerance⟩, he.retains⟩
  · rw [held_of_outlets_eq hd.outlets]
    exact he.sound
  · rw [← hd.outlets]
    exact ho
  · rw [hd.registry]
    exact h.named
  · rw [← hd.requests]
    exact hr
  · rw [← hd.outlets]
    exact ho

/-- Without templates there is nothing to keep in order about them. -/
theorem Plain.suited {R : Substitution → Prop} (h : g.Plain) (n : NodeId) : Suited R g n := by
  have hnone : ∀ m d p, g.design? m = some d → d.proto ≠ some p := fun m d p hd hp => nomatch (h m d hd).symm.trans hp
  exact ⟨fun m _ => ⟨fun d p hd hp => absurd hp (hnone m d p hd), fun d p hd hp => absurd hp (hnone m d p hd)⟩,
    fun m _ d p hd hp => absurd hp (hnone m d p hd)⟩

/-- Acquiring the instance of a data node under no bindings succeeds. -/
theorem Consistent.acquired (h : g.Consistent) (hn : (g.data? n).isSome) : ∃ g' j, g.acquireInstance n .empty = (g', some j) ∧
    Enlarged [j] g g' ∧ g'.Serves n .empty j := by
  obtain ⟨hs, hq⟩ := h.tended.quiet
  have hready : Ready Nothing g.held [] g n .empty := by
    refine ⟨hs, h.tended.sound.plain.suited n, hn, Substitution.restrict_empty _, ?_, fun id hid => absurd hid List.not_mem_nil, fun m _ => hq m⟩
    rw [Substitution.restrict_empty]
    exact fun c hc => absurd hc (Substitution.not_binds_empty c)
  obtain ⟨g', j, hacq, ha⟩ := acquireWithin_spec regime_nothing (g.nodes.size + 1) g.held [] g n .empty h.tended.authored.ranked
    (Nat.lt_succ_of_le (rank_le_size g n)) hready
  have hd := derived_acquireWithin (g.nodes.size + 1) g n .empty
  have hages := ages_acquireWithin (g.nodes.size + 1) g n .empty
  rw [hacq] at hd hages
  exact ⟨g', j, hacq, h.enlarged hd ha.sound ha.grown hages fun m => ha.quietAt (hq m), ha.serves⟩

/-! ## Publishing -/

/-- Something that a node shows is still loading: a texture at or below it, or one that is published. -/
def pending (g : Graph) (n : NodeId) (outputs : NameMap EntryId) : Bool :=
  g.isLoading n || (outputs.values.map g.entryAt?).any fun e => e.any (·.isLoading)

/-- Refreshing runs what writes the channels of an outlet, and publishes what they hold then, and whether that is still loading. -/
theorem refresh_spec (h : g.Current) (hs : SoundBut (fun _ => False) hands g) (hreg : g.registry.WellNamed) {id : OutletId} {o : Outlet}
    (ho : g.outlets[id]? = some o) (owner : NodeId) : ∃ g' journal, g.Ran g' ∧ g'.Current ∧
      (∀ k ∈ o.channels.values.flatMap g.store.creators, ∀ p : Process, g'.processes[k]? = some p → p.state ≠ .unprocessed) ∧
      g.refresh id owner = modifyOutlet { g' with journal } id fun o' => { o' with
        result := { outputs := g'.published o.channels, loading := g'.pending owner (g'.published o.channels), valid := true }
        status := .ready } := by
  rw [refresh, ho]
  obtain ⟨hr, hc, hran⟩ := h.runAll hs hreg (o.channels.values.flatMap g.store.creators)
  exact ⟨_, _, hr, hc, hran, rfl⟩

/-- Refreshing an outlet whose channels are those that its node exposes makes the graph consistent. -/
theorem consistent_refresh (h : g.Current) {id : OutletId} {o : Outlet} (ho : g.outlets[id]? = some o)
    (ht : (g.modifyOutlet id ({ · with status := .needsData })).Tended) (hreg : g.registry.WellNamed) (owner : NodeId) :
    (g.refresh id owner).Consistent ∧ g.Keeps (g.refresh id owner) ∧ (g.refresh id owner).requests = g.requests ∧
      (g.refresh id owner).lastId = g.lastId ∧ (g.refresh id owner).store.channels = g.store.channels ∧
      (∃ o', (g.refresh id owner).outlets[id]? = some o' ∧ o'.owner = o.owner ∧ o'.filter = o.filter ∧ o'.status = .ready) ∧
      ∀ id' : OutletId, id' ≠ id → (g.refresh id owner).outlets[id']? = g.outlets[id']? := by
  have hs : SoundBut (fun _ => False) _ g := ht.sound.aside g.outlets g.requests g.plans g.journal
  obtain ⟨g', journal, hr, hc, -, he⟩ := refresh_spec h hs hreg ho owner
  rw [he]
  clear he
  generalize g'.pending owner (g'.published o.channels) = loading
  have hout : ∀ id' : OutletId, (modifyOutlet { g' with journal } id fun o' => { o' with
      result := { outputs := g'.published o.channels, loading, valid := true }, status := .ready }).outlets[id']? =
      if id' = id then (g.outlets[id']?).map fun o' => { o' with
        result := { outputs := g'.published o.channels, loading, valid := true }, status := .ready } else g.outlets[id']? := by
    intro id'
    rw [get_outlets_modifyOutlet]
    show (if id' = id then (g'.outlets[id']?).map _ else g'.outlets[id']?) = _
    rw [hr.outlets]
  have hlike : ∀ a b : Option Outlet, b = a → ∀ f f' : Outlet → Outlet, (∀ o, Outlet.Like (f o) (f' o) ∧ (f' o).requests = (f o).requests) →
      Option.Rel (fun o' o : Outlet => o.Like o' ∧ o'.requests = o.requests) (b.map f') (a.map f) := by
    rintro (_ | o) _ rfl f f' hf
    · exact .none
    · exact .some (hf o)
  have hrest := hr.rest
  have hreq := hr.requests
  have hbase : ∀ id' : OutletId, (g.modifyOutlet id ({ · with status := .needsData })).outlets[id']? =
      if id' = id then (g.outlets[id']?).map ({ · with status := .needsData }) else g.outlets[id']? :=
    fun id' => get_outlets_modifyOutlet ..
  have hrv : Revalued (g.modifyOutlet id ({ · with status := .needsData })) (modifyOutlet { g' with journal } id fun o' => { o' with
      result := { outputs := g'.published o.channels, loading, valid := true }, status := .ready }) := by
    refine ⟨?_, hr.types, hr.mirrored, hr.processes⟩
    obtain ⟨entries, processes, outlets, requests, plans, journal', hg'⟩ := hrest
    exact ⟨entries, processes, _, requests, plans, journal, by rw [hg']; rfl⟩
  refine ⟨⟨hrv.tended ht (fun id' => ?_) fun r => ?_,
    ⟨hc.settled, hc.computed, hc.planned, fun id' o' ho' hst => ?_⟩, ?_⟩, ⟨⟨?_, ?_, hr.registry⟩, ?_, ?_⟩, ?_, ?_, ?_, ?_, ?_⟩
  · rw [hout, hbase]
    by_cases hid : id' = id
    · rw [if_pos hid, if_pos hid]
      exact hlike _ _ rfl _ _ fun o => ⟨⟨rfl, rfl, rfl, rfl, by simp⟩, rfl⟩
    · rw [if_neg hid, if_neg hid]
      exact optionRel_self (fun o => ⟨.refl o, rfl⟩) _
  · exact congrArg (fun m : IdMap Request => (m[r]?).map (·.outlet)) hreq
  · rw [hout] at ho'
    split at ho'
    · rename_i hid
      rw [hid, ho] at ho'
      cases ho'
      rfl
    · exact hc.published id' o' (hr.outlets ▸ ho') hst
  · show g'.registry.WellNamed
    rw [hr.registry]
    exact hreg
  · obtain ⟨_, _, _, _, _, _, rfl⟩ := hrest
    exact fun _ => rfl
  · obtain ⟨_, _, _, _, _, _, rfl⟩ := hrest
    exact fun _ => rfl
  · exact fun m l e hl hle => hr.authored (hs.leaves m l e hl hle).2
  · obtain ⟨_, _, _, _, _, _, rfl⟩ := hrest
    rfl
  · exact hreq
  · exact hr.lastId
  · exact hr.channels
  · exact ⟨{ o with result := { outputs := g'.published o.channels, loading, valid := true }, status := .ready },
      (hout id).trans (by rw [if_pos rfl, ho, Option.map_some]), rfl, rfl, rfl⟩
  · exact fun id' hid => (hout id').trans (if_neg hid)

end Graph

end Dataflow
