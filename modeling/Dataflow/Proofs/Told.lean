import Dataflow.Proofs.Reset

/-!
# Telling of a change of structure

A node whose structure changed and everything above it are reset one after the other, and their outlets have to rebuild. Afterwards the
graph is sound, and no outlet holds or listens to anything of those nodes.
-/

namespace Dataflow

/-- An outlet that holds nothing and publishes no channels. -/
structure Outlet.Idle (o : Outlet) : Prop where
  held : o.held = none
  channels : o.channels = ∅
  status : o.status = .needsStructure

/-- Whoever stops listening, the others listen as before. -/
theorem Store.listens_unlistenAll (s : Store) {l l' : Listener} (hne : l' ≠ l) (cs : List (Option ChannelId)) {c : ChannelId}
    (h : l' ∈ s.listenersOf c) : l' ∈ (s.unlistenAll l cs).listenersOf c := by
  rw [Store.mem_listenersOf_unlistenAll]
  exact ⟨h, fun _ => hne⟩

theorem Outlet.idle_stale (o : Outlet) : o.stale.Idle := ⟨rfl, rfl, rfl⟩

namespace Graph

variable {D E : NodeId → Prop} {hands : List InstanceId} {g g' g'' : Graph} {n p : NodeId}

/-- Nodes know their outlets, outlets know their requests, and the other way round. -/
structure Enrolled (g : Graph) : Prop where
  memo : ∀ n d (k : String) (id : OutletId), g.data? n = some d → d.outlets[k]? = some id →
    ∃ o : Outlet, g.outlets[id]? = some o ∧ o.owner = n ∧ outletKey o.filter = k
  home : ∀ (id : OutletId) (o : Outlet), g.outlets[id]? = some o →
    ∃ d, g.data? o.owner = some d ∧ d.outlets[outletKey o.filter]? = some id
  outletId : ∀ (id : OutletId) (o : Outlet), g.outlets[id]? = some o → id ≤ g.lastId
  requestId : ∀ (r : RequestId) (q : Request), g.requests[r]? = some q → r ≤ g.lastId
  asked : ∀ (r : RequestId) (q : Request), g.requests[r]? = some q → ∃ o : Outlet, g.outlets[q.outlet]? = some o ∧ r ∈ o.requests
  known : ∀ (id : OutletId) (o : Outlet) (r : RequestId), g.outlets[id]? = some o → r ∈ o.requests →
    ∃ q : Request, g.requests[r]? = some q ∧ q.outlet = id

/-- Outlets, requests and plans do not count for whether a graph is sound. -/
theorem SoundBut.aside (h : SoundBut D hands g) (outlets : IdMap Outlet) (requests : IdMap Request) (plans : NameMap IterationPlan)
    (journal : Journal) : SoundBut D hands { g with outlets, requests, plans, journal } :=
  h.of_wanes { Spares.refl D g with } { Wanes.refl g with }
    (P := fun _ _ _ => True) (.of_nodes_eq rfl) h.uses

/-! ## Making outlets stale -/

/-- The graph in which one outlet has to rebuild. -/
def hush (g : Graph) (id : OutletId) : Graph :=
  (g.unsubscribe id).modifyOutlet id fun o => { o with held := none, status := .needsStructure, result := { o.result with valid := false } }

theorem staleStructure_eq (g : Graph) (n : NodeId) : g.staleStructure n = (g.outletsOf n).foldl hush g := rfl

theorem hush_eq {id : OutletId} {o : Outlet} (ho : g.outlets[id]? = some o) :
    g.hush id = { g with
      store := g.store.unlistenAll (.outlet id) (o.channels.values.map some)
      outlets := (g.outlets.modify id ({ · with channels := ∅ })).modify id fun o =>
        { o with held := none, status := .needsStructure, result := { o.result with valid := false } } } := by
  simp only [hush, unsubscribe, ho, Store.unlistenAll, List.foldl_map]
  rfl

theorem hush_none {id : OutletId} (ho : g.outlets[id]? = none) : g.hush id = g := by
  simp only [hush, unsubscribe, ho, modifyOutlet]
  have : (g.outlets.modify id fun o => { o with held := none, status := .needsStructure, result := { o.result with valid := false } }) =
      g.outlets := by
    refine Std.ExtTreeMap.ext_getElem? fun k => ?_
    rw [Table.get_modify]
    split
    · rename_i hk
      rw [hk, ho]
      rfl
    · rfl
  rw [this]

theorem outlets_hush (id id' : OutletId) : (g.hush id).outlets[id']? = if id' = id then (g.outlets[id']?).map Outlet.stale else g.outlets[id']? := by
  rcases ho : g.outlets[id]? with _ | o
  · rw [hush_none ho]
    split
    · rename_i h
      rw [h, ho]
      rfl
    · rfl
  · rw [hush_eq ho]
    show ((g.outlets.modify id _).modify id _)[id']? = _
    rw [Table.get_modify, Table.get_modify]
    split
    · rename_i h
      rw [h, ho]
      rfl
    · rfl

/-- An outlet may stop listening. -/
theorem spares_unlisten (D : NodeId → Prop) (g : Graph) (id : OutletId) (cs : List (Option ChannelId)) :
    Spares D g { g with store := g.store.unlistenAll (.outlet id) cs } := by
  obtain ⟨hentries, hnext, hmap, htol⟩ := g.store.unlistenAll_fields (.outlet id) cs
  have hwire := g.store.wire?_unlistenAll (.outlet id) cs
  exact spares_store _ htol hnext hmap (fun e t he _ => by rw [Store.typeAt?, Store.entryAt?_of_entries_eq hentries]; exact he)
    (fun c o l hw _ => (hwire c).trans hw) (fun c w hw => (hwire c).symm.trans hw)
    fun c o l id' p' _ _ _ _ hl => g.store.listens_unlistenAll (fun h => Listener.noConfusion h) cs hl

theorem fades_unlisten (g : Graph) (id : OutletId) (cs : List (Option ChannelId)) :
    g.Fades { g with store := g.store.unlistenAll (.outlet id) cs } := by
  obtain ⟨hentries, hnext, -, htol⟩ := g.store.unlistenAll_fields (.outlet id) cs
  exact { Fades.refl g with
    next := hnext
    tolerance := htol
    wiresOf := fun c w hw => (g.store.wire?_unlistenAll (.outlet id) cs c).symm.trans hw
    entriesOf := fun e x he => (Store.entryAt?_of_entries_eq hentries e).symm.trans he
    mirrored := fun hm => Store.mirrored_unlistenAll hm _ _
    rewired := .of_nodes_eq rfl }

/-- An outlet of a node of `D` is made stale. -/
theorem SoundBut.cleared_hush (h : SoundBut D hands g) (hl : g.Listed E) {id : OutletId}
    (hD : ∀ o : Outlet, g.outlets[id]? = some o → D o.owner) : Cleared D E hands g (g.hush id) := by
  rcases ho : g.outlets[id]? with _ | o
  · rw [hush_none ho]
    exact .refl h hl
  have hout := outlets_hush (g := g) id
  rw [hush_eq ho] at hout ⊢
  have hf := fades_unlisten g id (o.channels.values.map some)
  have h₀ := h.of_wanes (spares_unlisten D g id (o.channels.values.map some)) hf.toWanes hf.rewired h.uses
  refine ⟨h₀.aside _ _ _ _, { hf with rewired := .of_nodes_eq rfl }, ⟨hl.instances, hl.processes, hl.instanceOwner, hl.processOwner⟩,
    fun j _ i hi _ => ⟨i.uses, hi⟩, fun _ _ _ _ => rfl, ⟨rfl, rfl, rfl, rfl⟩, fun id' => ?_, fun c id' o' ho' hD' hl _ => ?_⟩
  · by_cases hid : id' = id
    · subst hid
      refine .inr ⟨o, ho, hD o ho, (hout id').trans ?_⟩
      rw [if_pos rfl, ho]
      rfl
    · exact .inl ((hout id').trans (if_neg hid))
  · refine g.store.listens_unlistenAll (fun he => ?_) _ hl
    cases he
    exact hD' (hD o' ho')

theorem Cleared.idle (h : Cleared D E hands g g') {id : OutletId} (hid : ∀ o : Outlet, g.outlets[id]? = some o → o.Idle) (o : Outlet)
    (ho : g'.outlets[id]? = some o) : o.Idle := by
  rcases h.outlets id with h' | ⟨o', -, -, h'⟩
  · exact hid o (h' ▸ ho)
  · rw [h'] at ho
    cases ho
    exact o'.idle_stale

theorem Cleared.outletsOf (h : Cleared D E hands g g') (n : NodeId) : g'.outletsOf n = g.outletsOf n := by
  have := h.fades.rewired.outletsOf n
  rw [Graph.outletsOf, Graph.outletsOf]
  rcases hd : g.data? n with _ | d <;> rcases hd' : g'.data? n with _ | d' <;> rw [hd, hd'] at this
  · cases this
  · cases this
  · exact congrArg (fun o => o.getD []) (congrArg (Option.map Std.ExtTreeMap.values) this)

/-- What an outlet belongs to does not change. -/
theorem Cleared.owner (h : Cleared D E hands g g') {id : OutletId} {o : Outlet} (ho : g'.outlets[id]? = some o) :
    ∃ o' : Outlet, g.outlets[id]? = some o' ∧ o'.owner = o.owner ∧ (o = o' ∨ D o.owner) := by
  rcases h.outlets id with h' | ⟨o', ho', hD, h'⟩
  · exact ⟨o, h' ▸ ho, rfl, .inl rfl⟩
  · rw [h'] at ho
    cases ho
    exact ⟨o', ho', rfl, .inr hD⟩

/-- The outlets of a node of `D` are made stale. -/
theorem SoundBut.cleared_staleStructure (h : SoundBut D hands g) (hl : g.Listed E)
    (hD : ∀ id ∈ g.outletsOf n, ∀ o : Outlet, g.outlets[id]? = some o → D o.owner) :
    Cleared D E hands g (g.staleStructure n) ∧ ∀ id ∈ g.outletsOf n, ∀ o : Outlet, (g.staleStructure n).outlets[id]? = some o → o.Idle := by
  rw [staleStructure_eq]
  refine Cleared.foldl (P := fun id g => ∀ o : Outlet, g.outlets[id]? = some o → D o.owner)
    (Q := fun id g => ∀ o : Outlet, g.outlets[id]? = some o → o.Idle) (fun id g g' hP hc o ho => ?_) (fun id g g' hQ hc => hc.idle hQ)
    (fun g id h hl hP => ⟨h.cleared_hush hl hP, fun o ho => ?_⟩) _ h hl hD
  · obtain ⟨o', ho', he, -⟩ := hc.owner ho
    rw [← he]
    exact hP o' ho'
  · rw [outlets_hush, if_pos rfl] at ho
    obtain ⟨o', -, rfl⟩ := Option.map_eq_some_iff.1 ho
    exact o'.idle_stale

/-! ## Telling everything above -/

/-- The search up from a node finds exactly what it is below. -/
theorem Authored.mem_ancestors (ha : g.Authored) {m : NodeId} : m ∈ g.ancestors p ↔ g.Below m p := by
  have hparent : ∀ {a b}, b ∈ g.parentsOf a ↔ a ∈ g.references b := by
    intro a b
    rw [← List.count_pos_iff, ha.parents, List.count_pos_iff]
  constructor
  · intro h
    obtain ⟨t, ht, hl⟩ := reachable_sound h
    obtain rfl := List.mem_singleton.1 ht
    clear h
    induction hl with
    | refl => exact Leads.refl _
    | tail _ hb ih => exact Leads.head (hparent.1 hb) ih
  · intro h
    refine reachable_complete (show [p] ⊆ p :: g.nodes.items.keys by simp) (fun i _ j hj => ?_) ?_ (List.mem_singleton_self p) ?_
    · obtain ⟨d, hd⟩ := exists_data_of_reference (hparent.1 hj)
      refine List.mem_cons_of_mem _ (Table.mem_keys.2 (Option.isSome_iff_exists.1 ?_))
      exact isSome_node?_of_data? (by rw [hd]; rfl)
    · rw [List.length_cons, Std.ExtTreeMap.length_keys]
      exact Nat.le_refl _
    · induction h using Relation.ReflTransGen.head_induction_on with
      | refl => exact Leads.refl _
      | head hr _ ih => exact Leads.tail ih (hparent.2 hr)

theorem fire_eq (g : Graph) (rs : List RequestId) (c : Change) : ∃ j, g.fire rs c = { g with journal := j } := by
  unfold fire
  refine List.foldlRecOn (motive := fun g' : Graph => ∃ j, g' = { g with journal := j }) _ _ ⟨g.journal, rfl⟩ fun g' hg' id _ => ?_
  obtain ⟨j, rfl⟩ := hg'
  dsimp only
  rcases (g.requests[id]?).bind (·.tag) with _ | tag
  · exact ⟨j, rfl⟩
  · exact ⟨_, rfl⟩

/-- The nodes that a change concerns have been reset, and their outlets are idle. -/
structure Told (D : NodeId → Prop) (hands : List InstanceId) (g g' : Graph) : Prop extends Cleared D (fun _ => False) hands g g' where
  blank : ∀ n, D n → g'.Blank n
  idle : ∀ (id : OutletId) (o : Outlet), g'.outlets[id]? = some o → D o.owner → o.Idle

/-- After a change of structure has been told, nothing is derived from the nodes that it concerns. -/
theorem SoundBut.told (h : SoundBut D hands g) (ha : g.Authored) (hl : g.Listed fun _ => False) (he : g.Enrolled) (hD : ∀ m, D m ↔ g.Below m p) :
    Told D hands g (g.structureChanged p) := by
  have hown : ∀ n, ∀ id ∈ g.outletsOf n, ∀ o : Outlet, g.outlets[id]? = some o → o.owner = n := by
    intro n id hid o ho
    rw [outletsOf] at hid
    rcases hd : g.data? n with _ | d
    · rw [hd] at hid
      cases hid
    · rw [hd] at hid
      obtain ⟨k, hk⟩ := Table.mem_values.1 hid
      obtain ⟨o', ho', hown, -⟩ := he.memo n d k id hd hk
      rw [ho] at ho'
      cases ho'
      exact hown
  obtain ⟨hc, hq⟩ := Cleared.foldl (D := D) (f := fun g id => (g.resetWiring id).staleStructure id)
    (P := fun n g => D n ∧ ∀ id ∈ g.outletsOf n, ∀ o : Outlet, g.outlets[id]? = some o → D o.owner)
    (Q := fun n g => g.Blank n ∧ ∀ id ∈ g.outletsOf n, ∀ o : Outlet, g.outlets[id]? = some o → o.Idle)
    (fun n g g' hP hc => ⟨hP.1, fun id hid o ho => by
      obtain ⟨o', ho', he, -⟩ := hc.owner ho
      rw [← he]
      exact hP.2 id (hc.outletsOf n ▸ hid) o' ho'⟩)
    (fun n g g' hQ hc => ⟨hQ.1.of_fades hc.fades, fun id hid => hc.idle (hQ.2 id (hc.outletsOf n ▸ hid))⟩)
    (fun g n h hl hP => by
      obtain ⟨hc, hb⟩ := h.cleared_resetWiring hl hP.1
      obtain ⟨hc', hi⟩ := hc.sound.cleared_staleStructure (n := n) hc.listed fun id hid o ho => by
        obtain ⟨o', ho', he, -⟩ := hc.owner ho
        rw [← he]
        exact hP.2 id (hc.outletsOf n ▸ hid) o' ho'
      refine ⟨hc.trans hc', hb.of_fades hc'.fades, fun id hid => hi id (hc'.outletsOf n ▸ hid)⟩)
    (g.ancestors p) h hl fun n hn => by
      have hDn := (hD n).2 (ha.mem_ancestors.1 hn)
      exact ⟨hDn, fun id hid o ho => by rw [hown n id hid o ho]; exact hDn⟩
  obtain ⟨j, hj⟩ := fire_eq ((g.ancestors p).foldl (fun g id => (g.resetWiring id).staleStructure id) g)
    (((g.ancestors p).flatMap g.outletsOf).flatMap g.requestsAt) .structure
  have hmem : ∀ n, D n → n ∈ g.ancestors p := fun n hn => ha.mem_ancestors.2 ((hD n).1 hn)
  rw [structureChanged, hj]
  refine ⟨⟨hc.sound.aside _ _ _ _, { hc.fades with rewired := hc.fades.rewired.chain Wiring.chains_clears (.of_nodes_eq rfl) }, { hc.listed with },
    hc.kept, hc.data, hc.rest, hc.outlets, hc.listens⟩, fun n hn => ?_, fun id o ho hDo => ?_⟩
  · obtain ⟨hv, hs⟩ := (hq n (hmem n hn)).1
    exact ⟨{ hv with }, hs⟩
  · obtain ⟨o', ho', hown', -⟩ := hc.owner ho
    obtain ⟨d, hd, hk⟩ := he.home id o' ho'
    refine (hq o.owner (hmem _ hDo)).2 id ?_ o ho
    rw [hc.outletsOf, outletsOf, ← hown', hd]
    exact Table.mem_values.2 ⟨_, hk⟩

end Graph

end Dataflow
