import Dataflow.Proofs.Retained
import Dataflow.Proofs.Running

/-!
# Consistent graphs: what every call keeps

Between calls a graph without templates is tended and current. What taking down leaves and what building adds to keep it so, and so does
every structural edit.
-/

namespace Dataflow

namespace Graph

variable {hands : List InstanceId} {g g' : Graph} {n p : NodeId} {call : Call} {new : List String → Prop}

/-- What holds of every graph that calls lead to, as long as no node is given a template. -/
structure Consistent (g : Graph) : Prop where
  tended : g.Tended
  current : g.Current
  named : g.registry.WellNamed

/-- Requests and outlets stay with the names that they were made for. New ones get new ids, and the names of new outlets are among
`new`. -/
structure Serving (new : List String → Prop) (g g' : Graph) : Prop where
  lastId : g.lastId ≤ g'.lastId
  requests : ∀ (r : RequestId) (q' : Request), g'.requests[r]? = some q' →
    (∃ q : Request, g.requests[r]? = some q ∧ q.outlet = q'.outlet) ∨ g.lastId < r
  outlets : ∀ (id : OutletId) (o' : Outlet), g'.outlets[id]? = some o' →
    (∃ o : Outlet, g.outlets[id]? = some o ∧ o.owner = o'.owner ∧ o.filter = o'.filter) ∨ (g.lastId < id ∧ new o'.filter)

namespace Serving

theorem refl (new : List String → Prop) (g : Graph) : Serving new g g := ⟨Nat.le_refl _, fun _ q hq => .inl ⟨q, hq, rfl⟩, fun _ o ho => .inl ⟨o, ho, rfl, rfl⟩⟩

theorem trans {g'' : Graph} (h : Serving new g g') (h' : Serving new g' g'') : Serving new g g'' := by
  refine ⟨Nat.le_trans h.lastId h'.lastId, fun r q hq => ?_, fun id o ho => ?_⟩
  · rcases h'.requests r q hq with ⟨q', hq', he⟩ | hr
    · rcases h.requests r q' hq' with ⟨q'', hq'', he'⟩ | hr
      · exact .inl ⟨q'', hq'', he'.trans he⟩
      · exact .inr hr
    · exact .inr (Nat.lt_of_le_of_lt h.lastId hr)
  · rcases h'.outlets id o ho with ⟨o', ho', he, hf⟩ | ⟨hid, hn⟩
    · rcases h.outlets id o' ho' with ⟨o'', ho'', he', hf'⟩ | ⟨hid, hn⟩
      · exact .inl ⟨o'', ho'', he'.trans he, hf'.trans hf⟩
      · exact .inr ⟨hid, hf ▸ hn⟩
    · exact .inr ⟨Nat.lt_of_le_of_lt h.lastId hid, hn⟩

theorem mono {new' : List String → Prop} (h : Serving new g g') (hn : ∀ f, new f → new' f) : Serving new' g g' :=
  ⟨h.lastId, h.requests, fun id o ho => (h.outlets id o ho).imp_right fun hid => ⟨hid.1, hn _ hid.2⟩⟩

end Serving

/-- What a call does to a consistent graph: the graph stays consistent, requests stay with what they ask for, and what was fixed when the
graph was made stays. -/
structure Upholds (new : List String → Prop) (g g' : Graph) : Prop where
  consistent : g'.Consistent
  serving : Serving new g g'
  registry : g'.registry = g.registry
  tolerance : g'.store.tolerance = g.store.tolerance

theorem Upholds.trans {g'' : Graph} (h : Upholds new g g') (h' : Upholds new g' g'') : Upholds new g g'' :=
  ⟨h'.consistent, h.serving.trans h'.serving, h'.registry.trans h.registry, h'.tolerance.trans h.tolerance⟩

theorem Consistent.upholds (h : g.Consistent) : Upholds new g g := ⟨h, .refl new g, rfl, rfl⟩

/-- What an outlet listens to is in the store. -/
theorem Tended.wire_of_outlet (h : g.Tended) {id : OutletId} {o : Outlet} (ho : g.outlets[id]? = some o) {x : String} {c : ChannelId}
    (hc : o.channels[x]? = some c) : (g.store.wire? c).isSome := by
  have hat := h.outlet id o ho
  by_cases hs : o.status = .needsStructure
  · rw [(hat.idle hs).channels, Std.ExtTreeMap.getElem?_empty] at hc
    cases hc
  · obtain ⟨j, -, ⟨i, hi, hown, -⟩, hx⟩ := hat.held hs
    rw [hx] at hc
    split at hc
    · exact h.sound.wire_of_chan hi not_false (hown ▸ hc)
    · cases hc

theorem slots_of_wire?_eq_some {s s' : Store} {c : ChannelId} (h : ∀ w, s.wire? c = some w → s'.wire? c = some w)
    (hc : (s.wire? c).isSome) : s'.slots c = s.slots c := by
  obtain ⟨w, hw⟩ := Option.isSome_iff_exists.1 hc
  exact Store.slots_of_wire?_eq ((h w hw).trans hw.symm)

/-- What is left after something was taken down is current. -/
theorem Current.wanes (h : g.Current) (hs : SoundBut (fun _ => False) hands g) (ht : g'.Tended) (hw : g.Wanes g')
    (hplans : g'.plans = g.plans) (hreg : g'.registry = g.registry)
    (hout : ∀ (id : OutletId) (o' : Outlet), g'.outlets[id]? = some o' → o'.status = .ready →
      ∃ o : Outlet, g.outlets[id]? = some o ∧ o.status = .ready ∧ o'.result = o.result ∧ o'.channels = o.channels) : g'.Current := by
  have hslots : ∀ c, (g'.store.wire? c).isSome → g'.store.slots c = g.store.slots c :=
    fun c hc => (slots_of_wire?_eq_some (hw.wiresOf c) hc).symm
  refine h.carry hs hplans hreg hw.tolerance (fun id p hp => ?_) (fun id p p' hp hp' => ?_) fun id o' ho' hr => ?_
  · obtain ⟨u, hu⟩ := hw.processesOf id p hp
    refine .inr ⟨u, hu, ⟨fun c hc => hslots c (ht.sound.reads hp not_false hc).2.1, fun c hc y hy => ?_⟩, fun e he => ?_⟩
    · have hy' : y ∈ g'.store.slots c := by
        rw [hslots c (ht.sound.reads hp not_false hc).2.1]
        exact hy
      refine ⟨ht.sound.not_written hp hc hy', ?_⟩
      obtain ⟨t, hx⟩ := Option.isSome_iff_exists.1 ((ht.sound.reads hp not_false hc).2.2 y hy').1.1
      obtain ⟨x, hx, -⟩ := Option.map_eq_some_iff.1 hx
      exact hx.trans (hw.entriesOf _ x hx).symm
    · obtain ⟨o, ho, rfl⟩ := List.mem_map.1 he
      obtain ⟨x, hx⟩ := Option.isSome_iff_exists.1 ((ht.sound.fits hp).2 o ho)
      exact hx.trans (hw.entriesOf _ x hx).symm
  · obtain ⟨u, hu⟩ := hw.processesOf id p' hp'
    rw [hp] at hu
    cases hu
    rfl
  · obtain ⟨o, ho, hst, hres, hch⟩ := hout id o' ho' hr
    exact ⟨o, ho, hst, by rw [hres], hch, fun x c hc => hslots c (ht.wire_of_outlet ho' (hch ▸ hc))⟩

/-- What is built is yet to run, and what was there stays current. -/
theorem Current.extends (h : g.Current) (ht : g.Tended) (he : g.Extends g') (hwires : ∀ c w, g.store.wire? c = some w → g'.store.wire? c = some w)
    (hplans : g'.plans = g.plans) (hout : g'.outlets = g.outlets) : g'.Current := by
  have hslots : ∀ c, (g.store.wire? c).isSome → g'.store.slots c = g.store.slots c := fun c => slots_of_wire?_eq_some (hwires c)
  refine h.carry ht.sound hplans he.registry he.tolerance (fun id p' hp' => ?_) (fun id p p' hp hp' => ?_) fun id o' ho' hr => ?_
  · rcases he.fresh id p' hp' with hold | ⟨-, hun⟩
    · obtain ⟨p, hp⟩ := Option.isSome_iff_exists.1 hold
      obtain ⟨u, hu⟩ := he.processes id p hp
      rw [hp'] at hu
      cases hu
      refine .inr ⟨p.uses, hp, ⟨fun c hc => hslots c (ht.sound.reads hp not_false hc).2.1, fun c hc y hy => ?_⟩, fun e hm => ?_⟩
      · refine ⟨ht.sound.not_written hp hc hy, ?_⟩
        obtain ⟨t, hx⟩ := Option.isSome_iff_exists.1 ((ht.sound.reads hp not_false hc).2.2 y hy).1.1
        obtain ⟨x, hx, -⟩ := Option.map_eq_some_iff.1 hx
        exact (he.entries _ x hx).trans hx.symm
      · obtain ⟨o, ho, rfl⟩ := List.mem_map.1 hm
        obtain ⟨x, hx⟩ := Option.isSome_iff_exists.1 ((ht.sound.fits hp).2 o ho)
        exact (he.entries _ x hx).trans hx.symm
    · exact .inl hun
  · obtain ⟨u, hu⟩ := he.processes id p hp
    rw [hp'] at hu
    cases hu
    rfl
  · rw [hout] at ho'
    exact ⟨o', ho', hr, rfl, rfl, fun x c hc => hslots c (ht.wire_of_outlet ho' hc)⟩

/-! ## Structure -/

/-- A change of structure that is told leaves the graph consistent, and outlets that are ready afterwards did not see it. -/
theorem Consistent.told (h : g.Consistent) {g₁ : Graph} (ht : Touched call g g₁ p) (hproto : ∀ q r, call ≠ .setProto q (some r))
    (hleaf : ∀ l e, g₁.leaf? p = some l → l.entry = some e → g.Grounded { entry := e, key := l.key }) :
    Upholds new g (g₁.structureChanged p) ∧ g.Retains (g₁.structureChanged p) := by
  obtain ⟨htended, htold⟩ := h.tended.told ht hproto hleaf
  have hsame : g.Wanes (g₁.structureChanged p) ∧ (g₁.structureChanged p).plans = g.plans ∧
      (g₁.structureChanged p).registry = g.registry ∧ g₁.outlets = g.outlets ∧ (g₁.structureChanged p).requests = g.requests := by
    have hf := htold.fades.toWanes
    have hr := htold.rest
    obtain ⟨nodes, journal, rfl⟩ := ht.rest
    exact ⟨{ hf with }, hr.2.2.2, hr.2.1, rfl, hr.1⟩
  obtain ⟨hw, hplans, hreg, hout, hreq⟩ := hsame
  have hready : ∀ (id : OutletId) (o' : Outlet), (g₁.structureChanged p).outlets[id]? = some o' →
      ∃ o : Outlet, g.outlets[id]? = some o ∧ (o' = o ∨ o' = o.stale) := by
    intro id o' ho'
    rcases htold.outlets id with hk | ⟨o, hk, -, hk'⟩
    · exact ⟨o', by rw [← hout, ← hk]; exact ho', .inl rfl⟩
    · rw [ho'] at hk'
      exact ⟨o, hout ▸ hk, .inr (Option.some.inj hk')⟩
  refine ⟨⟨⟨htended, h.current.wanes h.tended.sound htended hw hplans hreg fun id o' ho' hr => ?_, by rw [hreg]; exact h.named⟩,
    ⟨Nat.le_of_eq hw.lastId.symm, fun r q hq => .inl ⟨q, hreq ▸ hq, rfl⟩, fun id o' ho' => ?_⟩, hreg, hw.tolerance⟩,
    hw.concurs, fun id o' ho' hr => ?_⟩
  · obtain ⟨o, ho, rfl | rfl⟩ := hready id o' ho'
    · exact ⟨o', ho, hr, rfl, rfl⟩
    · cases hr
  · obtain ⟨o, ho, rfl | rfl⟩ := hready id o' ho'
    · exact .inl ⟨o', ho, rfl, rfl⟩
    · exact .inl ⟨o, ho, rfl, rfl⟩
  · obtain ⟨o, ho, rfl | rfl⟩ := hready id o' ho'
    · -- outlets of nodes above the change would have to rebuild
      have hapart : ¬ g.Below o'.owner p := fun hb => by
        have hb' : g₁.Below o'.owner p := ht.upward.1.of_below hb (Leads.refl p)
        rw [(htold.idle id o' ho' hb').status] at hr
        cases hr
      have hdesign : g₁.SameDesign (g₁.structureChanged p) := htold.fades.rewired.sameDesign htold.rest.2.1
      exact ⟨o', ho, .refl o', (sameBelow_of_apart hapart ht.data ht.leaf).trans (hdesign.sameBelow _)⟩
    · cases hr

/-- What the journal says does not matter. -/
theorem Consistent.journal (h : g.Consistent) (journal : Journal) : Upholds new g { g with journal } := by
  refine ⟨⟨Revalued.tended ⟨⟨_, _, _, _, _, _, rfl⟩, fun _ _ h => h, id, fun _ => rfl⟩ h.tended (fun _ => optionRel_self (fun o => ⟨.refl o, rfl⟩) _)
    fun _ => rfl, { h.current with }, h.named⟩, { Serving.refl new g with }, rfl, rfl⟩

theorem Consistent.settled (h : g.Consistent) : g.settled.Consistent := (h.journal {} : Upholds (fun _ => False) g g.settled).consistent

/-- The entry of a leaf comes from the call that binds it. -/
theorem entry_editLeaf (hentry : ∀ q e, call ≠ .setData q (some e)) {l : Leaf} {e : EntryId} (he : (call.editLeaf l).entry = some e) :
    l.entry = some e := by
  cases call with
  | setData q o =>
    cases o with
    | none => cases he
    | some e => exact absurd rfl (hentry q e)
  | _ => exact he

/-- What leaves are bound to after a call that leaves their entries alone was authored before. -/
theorem Consistent.grounded_of_touched (h : g.Consistent) {g₁ : Graph} (ht : Touched call g g₁ p)
    (hentry : ∀ q e, call ≠ .setData q (some e)) {l : Leaf} {e : EntryId} (hl : g₁.leaf? p = some l) (he : l.entry = some e) :
    g.Grounded { entry := e, key := l.key } := by
  rw [ht.leafAt] at hl
  obtain ⟨l', hl', rfl⟩ := Option.map_eq_some_iff.1 hl
  exact h.tended.sound.leaves _ l' e hl' (entry_editLeaf hentry he)

/-- A call that leaves templates and the entries of leaves alone keeps the graph consistent. -/
theorem Revised.upholds (hr : Revised call g g') (hproto : ∀ q r, call ≠ .setProto q (some r)) (hentry : ∀ q e, call ≠ .setData q (some e))
    (h : g.Consistent) : Upholds new g g' := by
  induction hr with
  | done journal _ => exact h.journal journal
  | @change g g₁ _ p ht _ _ ih =>
    obtain ⟨htold, -⟩ : Upholds new g (g₁.structureChanged p) ∧ _ := h.told ht hproto fun l e => h.grounded_of_touched ht hentry
    exact htold.trans (ih htold.consistent)

/-- A leaf may be bound to an entry that no process writes. -/
theorem Consistent.setData (h : g.Consistent) {e : EntryId} (he : g.Grounded { entry := e, key := 0 }) :
    Upholds new g (g.setData n (some e)).1 ∧ g.Retains (g.setData n (some e)).1 := by
  rw [Graph.setData, updateLeaf]
  rcases hl : g.leaf? n with _ | l
  · exact ⟨h.upholds, .refl g⟩
  · have ht := touched_modifyLeaf h.tended.authored (.setData n (some e)) (p := n) (by rw [hl]; rfl)
    refine h.told ht (fun _ _ hc => by cases hc) fun l' e' hl' he' => ?_
    have hat := ht.leafAt
    rw [hl] at hat
    cases hat.symm.trans hl'
    cases he'
    exact he

end Graph

end Dataflow
