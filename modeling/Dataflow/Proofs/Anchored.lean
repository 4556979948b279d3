import Dataflow.Proofs.Shelved

/-!
# Maps of their own

Every port of a data node has a map under an id of its own. Ids are handed out with the node and stay with it: whatever a call does to
what a node derives, its maps are the same.
-/

namespace Dataflow

namespace Store

theorem nextMap_put (s : Store) (m : MapId) (cur : Option ChannelId) (f : Feed) : (s.put m cur f).1.nextMap = s.nextMap :=
  (later_put s m cur f).nextMap

theorem nextMap_dropProcess (s : Store) (id : ProcessId) (p : Process) : (s.dropProcess id p).nextMap = s.nextMap := by
  rw [dropProcess, (freeAll_fields ..).2.1, (unlistenAll_fields ..).2.2.1]

end Store

theorem Wiring.nextMap_releases (w : Wiring) (f : ChannelMap → List ChannelId) (ports : List Port) (s : Store) :
    (w.releases f ports s).nextMap = s.nextMap := by
  rw [releases]
  induction ports generalizing s with
  | nil => rfl
  | cons port ports ih => rw [List.foldl_cons, ih, (Store.releaseAll_fields ..).1]

namespace Port

/-- The place of the map of a port among those of its node, which get their ids together. -/
def offset : Port → Nat
  | .input => 1
  | .extended => 2
  | .output => 3

theorem offset_pos (port : Port) : 0 < port.offset := by cases port <;> decide

theorem offset_le (port : Port) : port.offset ≤ 3 := by cases port <;> decide

theorem offset_injective {port port' : Port} (h : port.offset = port'.offset) : port = port' := by
  cases port <;> cases port' <;> first | rfl | exact absurd h (by decide)

end Port

namespace Graph

variable {κ : Call} {τ τ' : Work} {g g' : Graph} {n : NodeId}

/-- Ports keep their maps, if they are still there. -/
theorem Anchored.congr (h : g.Anchored) (hid : ∀ n port m, g'.mapId n port = some m → g.mapId n port = some m)
    (hn : g'.store.nextMap = g.store.nextMap) : g'.Anchored := by
  refine ⟨fun n port m hm => ?_, fun n port n' port' m hm hm' => ?_⟩
  · rw [hn]
    exact h.bounded n port m (hid n port m hm)
  · exact h.injective n port n' port' m (hid n port m hm) (hid n' port' m hm')

theorem Anchored.of_wiring (h : g.Anchored) (hw : ∀ m, g'.wiring? m = g.wiring? m) (hn : g'.store.nextMap = g.store.nextMap) : g'.Anchored :=
  h.congr (fun n port m hm => by rw [mapId, hw] at hm; exact hm) hn

theorem Anchored.of_nodes (h : g.Anchored) (hn : g'.nodes = g.nodes) (hs : g'.store.nextMap = g.store.nextMap) : g'.Anchored :=
  h.of_wiring (fun m => by rw [wiring?, data?, node?, hn]; rfl) hs

theorem Fades.mapId (h : g.Fades g') {port : Port} {m : MapId} (hm : g'.mapId n port = some m) : g.mapId n port = some m := by
  rcases hw' : g'.wiring? n with _ | w'
  · rw [Graph.mapId, hw'] at hm
    cases hm
  · obtain ⟨w, hcl, hw⟩ := h.wiring hw'
    rw [mapId_of_wiring? hw', hcl.ids] at hm
    rwa [mapId_of_wiring? hw]

/-- The wiring of a node changes, but not the ids of its maps. -/
theorem Anchored.modifyWiring (h : g.Anchored) (n : NodeId) {f : Wiring → Wiring} (hf : ∀ w port, ((f w).map port).id = (w.map port).id) :
    (g.modifyWiring n f).Anchored := by
  refine h.congr (fun k port m hm => ?_) rfl
  rw [mapId, wiring?_modifyWiring] at hm
  split at hm
  · rcases hw : g.wiring? k with _ | w
    · rw [hw] at hm
      cases hm
    · rw [hw] at hm
      rw [mapId_of_wiring? hw, ← hf]
      exact hm
  · exact hm

/-- A data node is made, with maps of ids that were not handed out. -/
theorem Anchored.createData (h : g.Anchored) (isProto : Bool) : (g.createData isProto).Anchored := by
  have hget : ∀ m, (g.createData isProto).node? m = if m = g.nodes.next then some _ else g.node? m := node?_push rfl
  have hcase : ∀ {k port m}, (g.createData isProto).mapId k port = some m →
      (k ≠ g.nodes.next ∧ g.mapId k port = some m) ∨ (k = g.nodes.next ∧ m = g.store.nextMap + port.offset) := by
    intro k port m hm
    rw [mapId, wiring?, data?, hget] at hm
    by_cases hk : k = g.nodes.next
    · rw [if_pos hk] at hm
      refine .inr ⟨hk, ?_⟩
      cases port <;> exact (Option.some.inj hm).symm
    · rw [if_neg hk] at hm
      exact .inl ⟨hk, hm⟩
  have hfresh : ∀ {k} {port port' : Port}, g.mapId k port ≠ some (g.store.nextMap + port'.offset) := by
    intro k port port' hm
    have hpos := port'.offset_pos
    exact absurd (h.bounded k port _ hm) (Nat.not_le_of_lt (Nat.lt_add_of_pos_right hpos))
  refine ⟨fun k port m hm => ?_, fun k port k' port' m hm hm' => ?_⟩
  · rcases hcase hm with ⟨-, hm⟩ | ⟨-, rfl⟩
    · exact Nat.le_trans (h.bounded k port m hm) (Nat.le_add_right ..)
    · exact Nat.add_le_add_left port.offset_le _
  · rcases hcase hm with ⟨-, hm⟩ | ⟨rfl, rfl⟩ <;> rcases hcase hm' with ⟨-, hm'⟩ | ⟨rfl, he⟩
    · exact h.injective k port k' port' m hm hm'
    · exact absurd (he ▸ hm) hfresh
    · exact absurd hm' hfresh
    · exact ⟨rfl, Port.offset_injective (Nat.add_left_cancel he)⟩

theorem Anchored.destroyProcess (h : g.Anchored) (id : ProcessId) : (g.destroyProcess id).Anchored := by
  rcases hp : g.processes[id]? with _ | p
  · rw [Graph.destroyProcess, hp]
    exact h
  · refine h.congr (fun _ _ _ => (drops_destroyProcess g id).fades.mapId) ?_
    rw [destroyProcess_eq hp]
    exact Store.nextMap_dropProcess g.store id p

theorem Anchored.giveBack (h : g.Anchored) (p : Option ProcessId) : (g.giveBack p).Anchored := by
  rcases p with _ | id
  · exact h
  · rw [Graph.giveBack, releaseProcess]
    rcases g.processes[id]? with _ | p <;> dsimp only
    · exact h
    · split
      · exact h.destroyProcess id
      · exact h.of_nodes rfl rfl

theorem Anchored.operate (h : g.Anchored) (n : NodeId) (s : Substitution) : (g.acquireProcess n s).1.Anchored := by
  rcases acquireProcess_cases g n s with he | ⟨id, p, -, hp, he⟩ | ⟨c, op, -, -, he⟩ <;> rw [he]
  · exact h
  · exact h.of_nodes rfl rfl
  · refine (h.modifyWiring n (f := fun w => { w with processes := w.processes.insert _ (g.lastId + 1) }) fun w port => by cases port <;> rfl).of_nodes
      rfl ?_
    exact ((Store.pushEmpties_fields ..).2.1).trans (Store.listenAll_fields ..).2.2.1

theorem Anchored.unsubscribe (h : g.Anchored) (id : OutletId) : (g.unsubscribe id).Anchored := by
  refine h.of_nodes (sameNodes_unsubscribe g id).nodes ?_
  rw [Graph.unsubscribe]
  split
  · rfl
  · rename_i o ho
    have hs : o.channels.values.foldl (fun s c => s.unlisten c (.outlet id)) g.store =
        g.store.unlistenAll (.outlet id) (o.channels.values.map some) := by
      rw [Store.unlistenAll, List.foldl_map]
    rw [hs]
    exact (Store.unlistenAll_fields ..).2.2.1

theorem anchored_move (m : Move κ τ g τ' g') (hd : Tidy τ g) (h : g.Anchored) : g'.Anchored := by
  cases m with
  | restate hr =>
    obtain ⟨_, _, _, _, _, _, rfl⟩ := hr.rest
    exact h.of_nodes rfl rfl
  | reparent hn =>
    have hdn := hn.data
    obtain ⟨_, rfl⟩ := hn.rest
    exact h.of_wiring (fun n => by rw [wiring?, hdn, wiring?]) rfl
  | sync n hτ ha =>
    have hs := (synchronize_spec ha (hd.framed.wired_of_settled hτ.stale) n).1
    obtain ⟨_, _, he⟩ := hs.rest
    refine h.congr (fun k port m hm => ?_) (by rw [he])
    rcases hs.wiring k with hk | ⟨w, t, hw, -, hk⟩
    · rw [mapId, hk] at hm
      exact hm
    · rw [mapId_of_wiring? hk] at hm
      rw [mapId_of_wiring? hw]
      cases port <;> exact hm
  | reuse hτ hdn hs hk hi => exact h.of_nodes rfl rfl
  | start hτ ha hdn hs hk hnest hgrant => exact h.of_nodes rfl rfl
  | merge hj ho =>
    rename_i J jobs port fs
    have hmem : J ∈ τ.jobs := hj ▸ List.mem_cons_self
    have hJ := hd.staffed.jobs J hmem
    obtain ⟨w, hw, -⟩ := id hJ.inSync
    have hstore := store_mergeFeeds (s := J.sub) (I := fun s => s.nextMap = g.store.nextMap) hw
      (ho.mem_table hd.framed.designed (hd.staffed.wired hd.framed (List.ne_nil_of_mem hmem)) hJ hd.staffed.names)
      (fun st cur x _ hst => (Store.nextMap_put ..).trans hst) rfl
    exact h.congr (fun k q m hm => by rwa [(hd.recached_merge hj ho).mapId] at hm) hstore
  | operate hj => exact h.operate _ _
  | view hj => exact h
  | finish children proto hj ha hh hb =>
    rename_i J jobs hands busy
    refine h.congr (fun k port m hm => ?_) rfl
    rcases hw : g.wiring? k with _ | w
    · rw [mapId, wiring?_enlist_eq_none _ _ _ hw] at hm
      cases hm
    · obtain ⟨w', hw', -, hmap⟩ := map_enlist g J.id (J.made children proto) hw
      rw [mapId_of_wiring? hw', hmap] at hm
      rw [mapId_of_wiring? hw]
      split at hm <;> exact hm
  | lessen hτ hi hu => exact h.of_nodes rfl rfl
  | dismantle hτ hi hu =>
    rename_i id i
    obtain ⟨w, hw⟩ := hd.wiring_instance hi
    refine h.congr (fun k port m hm => by rwa [mapId_dismantle] at hm) ?_
    rw [dismantle_eq hw]
    exact w.nextMap_releases _ _ _
  | miss hi => exact h
  | giveBack p hτ => exact h.giveBack p
  | unwire hτ ht hw hup => exact h.modifyWiring _ fun w port => by cases port <;> rfl
  | destroy hτ ht => exact h.destroyProcess _
  | discard hτ ht hi => exact h.of_nodes rfl rfl
  | pass hτ ht hi => exact h
  | empty hτ ht =>
    obtain ⟨f, hf, -, -⟩ := hd.framed.torn _ ht
    obtain ⟨w, hw, -⟩ := Option.map_eq_some_iff.1 hf
    rw [clearPorts_eq hw]
    exact (h.modifyWiring _ (f := Wiring.emptied) fun w port => by cases port <;> rfl).of_nodes rfl (w.nextMap_releases _ _ _)
  | hush ht hc hdn hs hid => exact (h.unsubscribe _).of_nodes rfl rfl
  | told hst ht hs => exact h
  | edit hτ hj ht =>
    have hw := ht.wiring?
    obtain ⟨_, _, rfl⟩ := ht.rest
    exact h.of_wiring hw rfl
  | addLeaf hτ =>
    refine h.congr (fun k port m hm => ?_) rfl
    have hget : g.createLeaf.node? k = if k = g.nodes.next then some _ else g.node? k := node?_push rfl k
    rw [mapId, wiring?, data?, hget] at hm
    split at hm
    · cases hm
    · exact hm
  | addData b hτ => exact h.createData b
  | addEntry e => exact h.of_nodes rfl rfl
  | openOutlet hτ hc hdn hk => exact h.of_wiring (wiring?_openOutlet g _ _) rfl
  | enroll ho hb => exact h.of_nodes rfl rfl
  | pin hc hb => exact h.of_nodes rfl rfl
  | unsubscribe id => exact h.unsubscribe id
  | giveUp ho hh => exact h.of_nodes rfl rfl
  | attach ho hn hc hcl hex => exact h.of_nodes rfl (Store.listenAll_fields ..).2.2.1
  | withdraw hτ hr => exact h.of_nodes rfl rfl
  | unasked hr => exact h
  | keep hb ho => exact h
  | close hb hτ ho he hp hc => exact h.of_nodes rfl rfl
  | forget hc => exact h.of_wiring (wiring?_modifyData g _ fun _ => rfl) rfl
  | uproot hτ hj hc hrefs hs hidle =>
    rename_i n
    refine h.congr (fun k port m hm => ?_) rfl
    have hget : (g.cutOff n).node? k = if k = n then none else g.node? k := Arena.get?_erase _ n k
    rw [mapId, wiring?, data?, hget] at hm
    split at hm
    · cases hm
    · exact hm
  | disclaim hsub => exact h

theorem anchored_new (registry : Registry) (config : Config) : (new registry config).Anchored := by
  have hnone : ∀ n port, (new registry config).mapId n port = none := fun n port => by
    rw [mapId, wiring?_new]
    rfl
  refine ⟨fun n port m hm => ?_, fun n port _ _ m hm _ => ?_⟩
  all_goals
    rw [hnone] at hm
    cases hm

end Graph

end Dataflow
