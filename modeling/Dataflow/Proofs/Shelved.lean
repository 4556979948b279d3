import Dataflow.Proofs.Stored

/-!
# Cells and the channels that they keep

Every channel is kept by a cell of the map that owns it: a map that makes a channel puts it into a cell, and takes it from no cell without
freeing it. And a cell of a node in sync is used by no more than the live instances that share it; one that nobody uses belongs to an
instance that is being built. So when no instances are left, neither are cells, and neither are channels.
-/

namespace Dataflow

namespace ChannelMap

variable {m : ChannelMap} {x k : String} {s : Substitution} {c : Cell} {id : ChannelId}

theorem mem_lastUsed (hc : m.at? x (m.keyOf x s) = some c) (hu : c.uses ≤ 1) (hid : c.channel = some id) : id ∈ m.lastUsed s := by
  refine List.mem_filterMap.2 ⟨x, Std.ExtTreeMap.mem_keys.2 (mem_entries_of_at? hc), ?_⟩
  rw [cell?_eq, hc, Option.bind_some, if_pos hu, hid]

theorem mem_channels (hc : m.at? x k = some c) (hid : c.channel = some id) : id ∈ m.channels := by
  rw [at?, entryOf] at hc
  rcases he : m.entries[x]? with _ | e
  · rw [he] at hc
    exact absurd (hc.symm.trans Std.ExtTreeMap.getElem?_empty) (Option.some_ne_none c)
  · rw [he] at hc
    exact List.mem_flatMap.2 ⟨e, Table.mem_values.2 ⟨x, he⟩, List.mem_filterMap.2 ⟨c, Table.mem_values.2 ⟨k, hc⟩, hid⟩⟩

theorem at?_of_empty (h : m.entries = ∅) (x k : String) : m.at? x k = none := by
  rcases hc : m.at? x k with _ | c
  · rfl
  · exact absurd (h ▸ mem_entries_of_at? hc) Std.ExtTreeMap.not_mem_empty

/-- The cell that is left has the same channel. -/
theorem of_dropUse {o : Option Cell} (h : dropUse o = some c) : ∃ c', o = some c' ∧ 1 < c'.uses ∧ c = { c' with uses := c'.uses - 1 } := by
  rcases o with _ | c'
  · cases h
  · rw [dropUse] at h
    split at h
    · cases h
    · exact ⟨c', rfl, Nat.not_le.1 ‹_›, (Option.some.inj h).symm⟩

end ChannelMap

namespace Store

/-- A channel that is there after a merge is the one that the map has now and owns, or was there before; and the map dropped no channel that
it owns and that is still there. -/
theorem live_of_put {s : Store} {m o : MapId} {cur : Option ChannelId} {f : Feed} {c : ChannelId} {l : List (Slot Float32)}
    (h : (s.put m cur f).1.wire? c = some (o, l)) :
    (c = (s.put m cur f).2 ∧ o = m) ∨ ∃ l', s.wire? c = some (o, l') ∧ (cur = some c → o = m → c = (s.put m cur f).2) := by
  have hadd : ∀ {t : Store} {id : ChannelId} {xs : List (Slot Float32)}, (t.addSlots id xs).wire? c = some (o, l) →
      ∃ l', t.wire? c = some (o, l') := by
    intro t id xs h
    rw [wire?_addSlots] at h
    split at h
    · obtain ⟨⟨o', l'⟩, hw, he⟩ := Option.map_eq_some_iff.1 h
      obtain ⟨rfl, -⟩ := Prod.mk.inj he
      exact ⟨l', hw⟩
    · exact ⟨l, h⟩
  have hnew : ∀ {t : Store} {xs : List (Slot Float32)} {l : List (Slot Float32)}, (t.newChannel m xs).1.wire? c = some (o, l) →
      (c = t.channels.next ∧ o = m) ∨ t.wire? c = some (o, l) := by
    intro t xs l h
    rw [wire?_newChannel] at h
    split at h
    · exact .inl ⟨‹_›, (Prod.mk.inj (Option.some.inj h)).1.symm⟩
    · exact .inr h
  have htake : ∀ {c' : ChannelId} {l : List (Slot Float32)}, (s.takeOver m c').1.wire? c = some (o, l) →
      (c = (s.takeOver m c').2 ∧ o = m) ∨ ∃ l', s.wire? c = some (o, l') ∧ (c' = c → o = m → c = (s.takeOver m c').2) := by
    intro c' l h
    rw [takeOver] at h ⊢
    split at h
    · rename_i ho
      rw [if_pos ho]
      exact .inr ⟨l, h, fun he _ => he.symm⟩
    · rename_i ho
      rw [if_neg ho]
      rcases hnew h with hc | hc
      · exact .inl hc
      · refine .inr ⟨l, hc, fun he hm => absurd ?_ ho⟩
        subst he hm
        rw [any_owner, hc]
        exact decide_eq_true rfl
  have hrel : ∀ {c' : ChannelId} {l : List (Slot Float32)}, (s.release c' m).wire? c = some (o, l) →
      s.wire? c = some (o, l) ∧ (c' = c → o ≠ m) := by
    intro c' l h
    rw [wire?_release] at h
    split at h
    · cases h
    · rename_i hne
      refine ⟨h, fun he hm => hne ⟨he.symm, ?_⟩⟩
      rw [h]
      exact decide_eq_true hm
  rcases cur with _ | cur <;> rcases f with f | x
  · exact .inr ⟨l, h, fun he => by cases he⟩
  · exact (hnew h).imp_right fun h => ⟨l, h, fun he => by cases he⟩
  · rw [put] at h ⊢
    split at h
    · rename_i hcf
      rw [if_pos hcf]
      exact .inr ⟨l, h, fun he _ => (Option.some.inj he).symm⟩
    · rename_i hcf
      rw [if_neg hcf]
      split at h
      · rename_i hm
        rw [if_pos hm]
        obtain ⟨l', h⟩ := hadd h
        exact (htake h).imp_right fun hold => hold.imp fun l' h => ⟨h.1, fun he => h.2 (Option.some.inj he)⟩
      · obtain ⟨hw, hne⟩ := hrel h
        exact .inr ⟨l, hw, fun he ho => absurd ho (hne (Option.some.inj he))⟩
  · rw [put] at h ⊢
    split at h
    · rename_i hm
      rw [if_pos hm]
      obtain ⟨l', h⟩ := @hadd _ _ [x] h
      exact (htake h).imp_right fun hold => hold.imp fun l' h => ⟨h.1, fun he => h.2 (Option.some.inj he)⟩
    · rename_i hm
      rw [if_neg hm]
      rcases hnew h with hc | hc
      · exact .inl hc
      · obtain ⟨hw, hne⟩ := hrel hc
        exact .inr ⟨l, hw, fun he ho => absurd ho (hne (Option.some.inj he))⟩

end Store

/-- A channel stays unless a port lists it and its map owns it. -/
theorem Wiring.wire?_releases (w : Wiring) (f : ChannelMap → List ChannelId) (ports : List Port) (s : Store) {c : ChannelId} {m : MapId}
    {l : List (Slot Float32)} (h : (w.releases f ports s).wire? c = some (m, l)) :
    s.wire? c = some (m, l) ∧ ∀ port ∈ ports, (w.map port).id = m → c ∉ f (w.map port) := by
  induction ports generalizing s with
  | nil => exact ⟨h, nofun⟩
  | cons port ports ih =>
    obtain ⟨h₁, h₂⟩ := ih _ h
    rw [Store.wire?_releaseAll] at h₁
    split at h₁
    · cases h₁
    · rename_i hne
      refine ⟨h₁, fun q hq hm hc => ?_⟩
      rcases List.mem_cons.1 hq with rfl | hq
      · refine hne ⟨hc, ?_⟩
        rw [h₁]
        exact decide_eq_true hm.symm
      · exact h₂ q hq hm hc

namespace Graph

variable {κ : Call} {τ τ' : Work} {g g' : Graph} {n : NodeId} {id : InstanceId} {i : Instance} {J : Job}

/-- Cells of nodes in sync are in use by no more than share them, or belong to what is being built; and channels are in cells of the maps
that own them. -/
structure Shelved (τ : Work) (g : Graph) : Prop where
  uses : ∀ n port x k c, g.InSync n → g.cell? n port x k = some c → c.uses ≤ g.sharers n port x k ∧
    (c.uses = 0 → ∃ J ∈ τ.jobs, J.node = n ∧ g.keyAt n port x J.sub = k)
  owned : ∀ c m l, g.store.wire? c = some (m, l) → ∃ n port x k cell, g.mapId n port = some m ∧ g.cell? n port x k = some cell ∧
    cell.channel = some c

theorem sharers_congr (hi : ∀ id : InstanceId, (g'.instances[id]?).map (fun i => (i.owner, i.substitution)) =
      (g.instances[id]?).map fun i => (i.owner, i.substitution)) {port : Port} {x : String}
    (hk : ∀ s, g'.keyAt n port x s = g.keyAt n port x s) (k : String) : g'.sharers n port x k = g.sharers n port x k := by
  refine Table.tally_ext fun id => ?_
  have h := congrArg (Option.map fun e : NodeId × Substitution => if e.1 = n ∧ g.keyAt n port x e.2 = k then 1 else 0) (hi id)
  simp only [Option.map_map] at h
  simp only [hk]
  exact congrArg (·.getD 0) h

/-- Cells stay, and so do the nodes in sync that have any; their cells are shared by as many as before. -/
theorem Shelved.congr (h : Shelved τ g) (hcell : ∀ n port x k, g'.cell? n port x k = g.cell? n port x k)
    (hid : ∀ n port x k c, g.cell? n port x k = some c → g'.mapId n port = g.mapId n port)
    (hin : ∀ n port x k c, g'.InSync n → g.cell? n port x k = some c → g.InSync n ∧ (∀ s, g'.keyAt n port x s = g.keyAt n port x s) ∧
      g.sharers n port x k ≤ g'.sharers n port x k)
    (hjobs : ∀ J ∈ τ.jobs, ∃ K ∈ τ'.jobs, K.node = J.node ∧ K.sub = J.sub)
    (hwire : ∀ c m l, g'.store.wire? c = some (m, l) → ∃ l', g.store.wire? c = some (m, l')) : Shelved τ' g' := by
  refine ⟨fun n port x k c hn hc => ?_, fun c m l hc => ?_⟩
  · rw [hcell] at hc
    obtain ⟨hs, hk, hle⟩ := hin n port x k c hn hc
    obtain ⟨h₁, h₂⟩ := h.uses n port x k c hs hc
    refine ⟨Nat.le_trans h₁ hle, fun hu => ?_⟩
    obtain ⟨J, hJ, hnode, hkey⟩ := h₂ hu
    obtain ⟨K, hK, hKn, hKs⟩ := hjobs J hJ
    exact ⟨K, hK, hKn.trans hnode, by rw [hk, hKs, hkey]⟩
  · obtain ⟨l', hw⟩ := hwire c m l hc
    obtain ⟨n, port, x, k, cell, hm, hc, hch⟩ := h.owned c m l' hw
    exact ⟨n, port, x, k, cell, (hid n port x k cell hc).trans hm, (hcell n port x k).trans hc, hch⟩

/-- The maps of all nodes stay. -/
theorem Shelved.of_maps (h : Shelved τ g) (hmap : ∀ n port, (g'.wiring? n).map (·.map port) = (g.wiring? n).map (·.map port))
    (hin : ∀ n, g'.InSync n → g.InSync n)
    (hshare : ∀ n, g'.InSync n → (∀ port x s, g'.keyAt n port x s = g.keyAt n port x s) → ∀ port x k, g.sharers n port x k ≤ g'.sharers n port x k)
    (hjobs : ∀ J ∈ τ.jobs, ∃ K ∈ τ'.jobs, K.node = J.node ∧ K.sub = J.sub)
    (hwire : ∀ c m l, g'.store.wire? c = some (m, l) → ∃ l', g.store.wire? c = some (m, l')) : Shelved τ' g' := by
  have hkey : ∀ n port x s, g'.keyAt n port x s = g.keyAt n port x s := fun n port x s => by
    have : (g'.wiring? n).map (fun w => (w.map port).keyOf x s) = (g.wiring? n).map fun w => (w.map port).keyOf x s := by
      have := congrArg (Option.map (ChannelMap.keyOf · x s)) (hmap n port)
      rwa [Option.map_map, Option.map_map] at this
    rcases hw : g.wiring? n with _ | w <;> rcases hw' : g'.wiring? n with _ | w'
    · rw [keyAt, keyAt, paramsAt, paramsAt, table, table, hw, hw']
    · rw [hw, hw'] at this
      cases this
    · rw [hw, hw'] at this
      cases this
    · rw [hw, hw'] at this
      rw [keyAt_of_wiring? hw, keyAt_of_wiring? hw']
      exact Option.some.inj this
  refine h.congr (fun n port x k => ?_) (fun n port _ _ _ _ => ?_)
    (fun n port x k c hn _ => ⟨hin n hn, hkey n port x, hshare n hn (hkey n) port x k⟩) hjobs hwire
  · have := congrArg (Option.bind · (ChannelMap.at? · x k)) (hmap n port)
    rwa [Option.bind_map, Option.bind_map] at this
  · have := congrArg (Option.map ChannelMap.id) (hmap n port)
    rwa [Option.map_map, Option.map_map] at this

/-- Maps, instances and channels stay. -/
theorem Shelved.same (h : Shelved τ g) (hmap : ∀ n port, (g'.wiring? n).map (·.map port) = (g.wiring? n).map (·.map port))
    (hin : ∀ n, g'.InSync n → g.InSync n) (hi : ∀ id : InstanceId, (g'.instances[id]?).map (fun i => (i.owner, i.substitution)) =
      (g.instances[id]?).map fun i => (i.owner, i.substitution))
    (hjobs : ∀ J ∈ τ.jobs, ∃ K ∈ τ'.jobs, K.node = J.node ∧ K.sub = J.sub)
    (hwire : ∀ c, g'.store.wire? c = g.store.wire? c) : Shelved τ' g' :=
  h.of_maps hmap hin (fun _ _ hk _ _ _ => Nat.le_of_eq (sharers_congr hi (hk _ _) _).symm) hjobs fun c _ l hw => ⟨l, hwire c ▸ hw⟩

theorem same_jobs (h : τ'.jobs = τ.jobs) : ∀ J ∈ τ.jobs, ∃ K ∈ τ'.jobs, K.node = J.node ∧ K.sub = J.sub :=
  fun J hJ => ⟨J, h ▸ hJ, rfl, rfl⟩

/-- No node changes. -/
theorem Shelved.of_nodes (h : Shelved τ g) (hn : g'.nodes = g.nodes) (hi : ∀ id : InstanceId,
      (g'.instances[id]?).map (fun i => (i.owner, i.substitution)) = (g.instances[id]?).map fun i => (i.owner, i.substitution))
    (hjobs : ∀ J ∈ τ.jobs, ∃ K ∈ τ'.jobs, K.node = J.node ∧ K.sub = J.sub)
    (hwire : ∀ c, g'.store.wire? c = g.store.wire? c) : Shelved τ' g' := by
  have hw : ∀ n, g'.wiring? n = g.wiring? n := fun n => by rw [wiring?, data?, node?, hn, wiring?, data?, node?]
  exact h.same (fun n port => by rw [hw]) (fun n hn => hn.imp fun w h => ⟨hw n ▸ h.1, h.2⟩) hi hjobs hwire

/-- The wiring of a node changes, but not its maps, and it does not get in sync. -/
theorem Shelved.modifyWiring (h : Shelved τ g) {f : Wiring → Wiring} (hf : ∀ w port, (f w).map port = w.map port)
    (hs : ∀ w, (f w).outOfSync = false → w.outOfSync = false) (hn : ∀ m, g'.wiring? m = if m = n then (g.wiring? m).map f else g.wiring? m)
    (hi : g'.instances = g.instances) (hjobs : τ'.jobs = τ.jobs) (hwire : ∀ c, g'.store.wire? c = g.store.wire? c) : Shelved τ' g' := by
  refine h.same (fun m port => ?_) (fun m ⟨w', hw', ho⟩ => ?_) (fun id => by rw [hi]) (same_jobs hjobs) hwire
  · rw [hn]
    split
    · rw [Option.map_map]
      exact congrArg (Option.map · _) (funext fun w => hf w port)
    · rfl
  · rw [hn] at hw'
    split at hw'
    · obtain ⟨w, hw, rfl⟩ := Option.map_eq_some_iff.1 hw'
      exact ⟨w, hw, hs w ho⟩
    · exact ⟨w', hw', ho⟩

/-! ## Merging -/

theorem Shelved.mergeFeed (h : Shelved τ g) (hJ : J ∈ τ.jobs) {w : Wiring} (hw : g.wiring? J.node = some w) {port : Port} {x : String}
    (hx : x ∈ g.table J.node port) (f : Feed) :
    Shelved τ (g.mergeFeed J.node port J.sub x f) ∧ g.Recached (g.mergeFeed J.node port J.sub x f) := by
  have key : ∀ c : Cell, (g.cell? J.node port x (g.keyAt J.node port x J.sub)).getD {} = c → c.uses = 0 →
      Shelved τ (g.mergeFeed J.node port J.sub x f) ∧ g.Recached (g.mergeFeed J.node port J.sub x f) := by
    intro c hc hu
    obtain ⟨hrec, hstore, -, hcell⟩ := mergeFeed_spec hw hx hc hu f
    have hinst : (g.mergeFeed J.node port J.sub x f).instances = g.instances := by
      obtain ⟨_, _, _, he⟩ := hrec.rest
      rw [he]
    have hfr := SameFrames.of_recached hrec
    generalize g.mergeFeed J.node port J.sub x f = g' at hrec hstore hcell hinst hfr ⊢
    have hkey : ∀ m q y s, g'.keyAt m q y s = g.keyAt m q y s := fun m q y s => by
      rw [keyAt, hrec.paramsAt, keyAt]
    have hid := hrec.mapId
    refine ⟨⟨fun m q y k c' hm hc' => ?_, fun c' m l hc' => ?_⟩, hrec⟩
    · rw [sharers_congr (fun _ => by rw [hinst]) (hkey m q y)]
      simp only [hkey]
      rw [hcell] at hc'
      split at hc'
      · rename_i he
        obtain ⟨rfl, rfl, rfl, rfl⟩ := he
        obtain rfl := Option.some.inj hc'
        exact ⟨Nat.zero_le _, fun _ => ⟨J, hJ, rfl, rfl⟩⟩
      · exact h.uses m q y k c' (hfr.inSync.1 hm) hc'
    · rw [hstore] at hc'
      have hnew : g'.cell? J.node port x (g.keyAt J.node port x J.sub) = some ⟨some (g.store.put (w.map port).id c.channel f).2, 0⟩ := by
        rw [hcell, if_pos ⟨rfl, rfl, rfl, rfl⟩]
      rcases Store.live_of_put hc' with ⟨rfl, rfl⟩ | ⟨l', hl', hkeep⟩
      · exact ⟨_, _, _, _, _, (hid ..).trans (mapId_of_wiring? hw port), hnew, rfl⟩
      · obtain ⟨n', q, y, k, cell, hm, hcl, hch⟩ := h.owned c' m l' hl'
        by_cases he : n' = J.node ∧ q = port ∧ y = x ∧ k = g.keyAt J.node port x J.sub
        · obtain ⟨rfl, rfl, rfl, rfl⟩ := he
          rw [hcl] at hc
          obtain rfl : cell = c := hc
          rw [mapId_of_wiring? hw] at hm
          refine ⟨_, _, _, _, _, (hid ..).trans (mapId_of_wiring? hw q) |>.trans hm, hnew, ?_⟩
          rw [hkeep hch (Option.some.inj hm).symm]
        · exact ⟨n', q, y, k, cell, (hid ..).trans hm, by rw [hcell, if_neg he, hcl], hch⟩
  rcases hc : g.cell? J.node port x (g.keyAt J.node port x J.sub) with _ | c
  · exact key {} (by rw [hc]; rfl) rfl
  · by_cases hu : c.uses = 0
    · exact key c (by rw [hc]; rfl) hu
    · rw [mergeFeed_of_used hc hu]
      exact ⟨h, .refl g⟩

theorem Shelved.mergeFeeds (h : Shelved τ g) (hJ : J ∈ τ.jobs) {w : Wiring} (hw : g.wiring? J.node = some w) {port : Port}
    {fs : List (String × Feed)} (ht : ∀ x ∈ fs, x.1 ∈ g.table J.node port) : Shelved τ (g.mergeFeeds J.node port J.sub fs) := by
  induction fs generalizing g w with
  | nil => exact h
  | cons x fs ih =>
    obtain ⟨h₁, hrec⟩ := h.mergeFeed hJ hw (ht x (List.mem_cons_self ..)) x.2
    obtain ⟨w', -, hw'⟩ := hrec.wiring hw
    refine ih h₁ hw' fun y hy => ?_
    rw [hrec.table]
    exact ht y (List.mem_cons_of_mem _ hy)

/-! ## Instances -/

/-- An instance becomes live: its cells have one user more. -/
theorem Shelved.finish (h : Shelved τ g) (hk : Kept τ g) {jobs : List Job} {children : List InstanceId} {proto : Option InstanceId}
    (hj : τ.jobs = J :: jobs) (hjobs : τ'.jobs = jobs) : Shelved τ' (g.enlist J.id (J.made children proto)) := by
  obtain ⟨-, hnone, -⟩ := hk.job J (hj ▸ List.mem_cons_self ..)
  have hfr := sameFrames_enlist g J.id (J.made children proto)
  have hid : ∀ n port, (g.enlist J.id (J.made children proto)).mapId n port = g.mapId n port := fun n port => by
    rcases hw : g.wiring? n with _ | w
    · rw [mapId, wiring?_enlist_eq_none _ _ _ hw, mapId, hw]
    · obtain ⟨w', hw', -, hmap⟩ := map_enlist g J.id (J.made children proto) hw
      rw [mapId_of_wiring? hw', mapId_of_wiring? hw, hmap]
      split <;> rfl
  refine ⟨fun n port x k c hn hc => ?_, fun c m l hc => ?_⟩
  · rw [sharers_enlist hnone]
    simp only [keyAt_enlist]
    rw [cell?_enlist] at hc
    split at hc
    · rename_i hat
      obtain ⟨rfl, rfl⟩ := hat
      obtain ⟨c', hc', rfl⟩ := Option.map_eq_some_iff.1 hc
      have hle := (h.uses _ port x _ c' (hfr.inSync.1 hn) hc').1
      rw [if_pos ⟨rfl, rfl⟩]
      exact ⟨by simp only; omega, fun hu => absurd hu (Nat.succ_ne_zero _)⟩
    · rename_i hne
      obtain ⟨hle, hzero⟩ := h.uses n port x k c (hfr.inSync.1 hn) hc
      refine ⟨Nat.le_trans hle (Nat.le_add_left ..), fun hu => ?_⟩
      obtain ⟨K, hK, hKn, hKk⟩ := hzero hu
      rw [hj] at hK
      rcases List.mem_cons.1 hK with rfl | hK
      · exact absurd ⟨hKn.symm, by rw [← hKk, ← hKn]; rfl⟩ hne
      · exact ⟨K, hjobs ▸ hK, hKn, hKk⟩
  · obtain ⟨n, port, x, k, cell, hm, hcl, hch⟩ := h.owned c m l hc
    refine ⟨n, port, x, k, if n = J.node ∧ k = g.keyAt n port x J.sub then { cell with uses := cell.uses + 1 } else cell,
      (hid n port).trans hm, ?_, by split <;> exact hch⟩
    rw [cell?_enlist, hcl]
    change (if n = J.node ∧ k = g.keyAt n port x J.sub then _ else _) = _
    split <;> rfl

/-- The cells that a node keeps for an instance that goes have one user less. -/
theorem cell?_dismantle_eq {w : Wiring} (hw : g.wiring? i.owner = some w) (id : InstanceId) (m : NodeId) (port : Port) (x k : String) :
    (g.dismantle id i).cell? m port x k =
      if m = i.owner ∧ k = g.keyAt m port x i.substitution then ChannelMap.dropUse (g.cell? m port x k) else g.cell? m port x k := by
  rw [dismantle_eq hw, cell?, wiring?_modifyWiring]
  by_cases hm : m = i.owner
  · subst hm
    rw [if_pos rfl]
    change Option.bind (Option.map _ (g.wiring? i.owner)) _ = _
    rw [hw, Option.map_some, Option.bind_some, cell?_of_wiring? hw, keyAt_of_wiring? hw]
    simp only [true_and]
    rw [← ChannelMap.at?_markUnused]
    split <;> cases port <;> rfl
  · rw [if_neg hm, if_neg fun hc => hm hc.1]
    rfl

theorem mapId_dismantle (g : Graph) (id : InstanceId) (i : Instance) (n : NodeId) (port : Port) :
    (g.dismantle id i).mapId n port = g.mapId n port := by
  rcases hw : g.wiring? n with _ | w
  · rcases hw' : (g.dismantle id i).wiring? n with _ | w'
    · rw [mapId, mapId, hw, hw']
    · obtain ⟨w, hw₀, -⟩ := (SameFrames.of_drops (drops_dismantle g id i)).wiring hw'
      rw [hw] at hw₀
      cases hw₀
  · obtain ⟨w', hsheds, hw'⟩ := (drops_dismantle g id i).wiring_to hw
    rw [mapId_of_wiring? hw, mapId_of_wiring? hw', hsheds.ids]

theorem Shelved.dismantle (h : Shelved τ g) (hd : Tidy τ g) (hi : g.instances[id]? = some i) (hjobs : τ'.jobs = τ.jobs) :
    Shelved τ' (g.dismantle id i) := by
  obtain ⟨w, hw⟩ := hd.wiring_instance hi
  have hfr := SameFrames.of_drops (drops_dismantle g id i)
  have hkey : ∀ m q y s, (g.dismantle id i).keyAt m q y s = g.keyAt m q y s := fun m q y s => by
    rw [keyAt, paramsAt, hfr.table, keyAt, paramsAt]
  have hshare : ∀ m q y k, g.sharers m q y k =
      (if i.owner = m ∧ g.keyAt m q y i.substitution = k then 1 else 0) + (g.dismantle id i).sharers m q y k := fun m q y k => by
    rw [sharers, Table.tally_erase _ hi, sharers, instances_dismantle]
    simp only [hkey]
  have hcell := cell?_dismantle_eq hw id
  have hstore : (g.dismantle id i).store = w.releases (·.lastUsed i.substitution) [.output, .extended, .input] g.store := by
    rw [dismantle_eq hw]
    rfl
  refine ⟨fun n port x k c hn hc => ?_, fun c m l hc => ?_⟩
  · have hsh := hshare n port x k
    simp only [hkey]
    rw [hcell] at hc
    split at hc
    · rename_i hat
      obtain ⟨c', hc', hlt, rfl⟩ := ChannelMap.of_dropUse hc
      have hle := (h.uses n port x k c' (hfr.inSync.1 hn) hc').1
      rw [if_pos ⟨hat.1.symm, hat.2.symm⟩] at hsh
      exact ⟨by simp only; omega, fun hu => by simp only at hu; omega⟩
    · rename_i hne
      obtain ⟨hle, hzero⟩ := h.uses n port x k c (hfr.inSync.1 hn) hc
      rw [if_neg fun hc => hne ⟨hc.1.symm, hc.2.symm⟩, Nat.zero_add] at hsh
      exact ⟨hsh ▸ hle, fun hu => hjobs ▸ hzero hu⟩
  · rw [hstore] at hc
    obtain ⟨hl, hrel⟩ := w.wire?_releases _ _ _ hc
    obtain ⟨n, port, x, k, cell, hm, hcl, hch⟩ := h.owned c m l hl
    by_cases hat : n = i.owner ∧ k = g.keyAt n port x i.substitution
    · obtain ⟨rfl, rfl⟩ := hat
      rw [mapId_of_wiring? hw] at hm
      -- with its last user the channel would have gone
      have hlt : 1 < cell.uses := Nat.not_le.1 fun hle => by
        rw [cell?_of_wiring? hw, keyAt_of_wiring? hw] at hcl
        exact hrel port (by cases port <;> simp) (Option.some.inj hm) (ChannelMap.mem_lastUsed hcl hle hch)
      refine ⟨i.owner, port, x, g.keyAt i.owner port x i.substitution, { cell with uses := cell.uses - 1 }, (mapId_dismantle ..).trans ((mapId_of_wiring? hw port).trans hm), ?_, hch⟩
      rw [hcell, if_pos ⟨rfl, rfl⟩, hcl, ChannelMap.dropUse, if_neg (Nat.not_le.2 hlt)]
    · exact ⟨n, port, x, k, cell, (mapId_dismantle ..).trans hm, by rw [hcell, if_neg hat, hcl], hch⟩

/-! ## Nodes out of sync -/

/-- A node out of sync that is not being reset has no cells. -/
theorem Tidy.no_cells (hd : Tidy τ g) (hs : g.Unsynced n) (ht : ∀ t ∈ τ.tear, t.node ≠ n) (port : Port) (x k : String) :
    g.cell? n port x k = none := by
  rcases hw : g.wiring? n with _ | w
  · rw [cell?, hw]
    rfl
  · have hblank := hd.framed.blank n w.frame (by rw [frame?, hw]; rfl) (hs w hw) ht
    rw [cell?_of_wiring? hw]
    rcases hc : (w.map port).at? x k with _ | c
    · rfl
    · have hx := ChannelMap.mem_entries_of_at? hc
      rw [← ChannelMap.mem_table _ _, ← Wiring.table_frame, hblank] at hx
      cases port <;> exact absurd hx Std.ExtTreeMap.not_mem_empty

/-- The nodes whose wiring changes had no cells before and have none after. -/
theorem Shelved.at_blank (h : Shelved τ g)
    (hw : ∀ m, g'.wiring? m = g.wiring? m ∨ ∀ port x k, g.cell? m port x k = none ∧ g'.cell? m port x k = none)
    (hi : g'.instances = g.instances) (hjobs : τ'.jobs = τ.jobs) (hwire : ∀ c, g'.store.wire? c = g.store.wire? c) : Shelved τ' g' := by
  have hsame : ∀ {m port x k c}, g.cell? m port x k = some c → g'.wiring? m = g.wiring? m := fun {m port x k c} hc =>
    (hw m).resolve_right fun hnone => by
      rw [(hnone port x k).1] at hc
      cases hc
  refine h.congr (fun m port x k => ?_) (fun m port x k c hc => by rw [mapId, hsame hc, mapId])
    (fun m port x k c ⟨w, hwm, hs⟩ hc => ?_) (same_jobs hjobs) fun c _ l hc => ⟨l, hwire c ▸ hc⟩
  · rcases hw m with he | hnone
    · rw [cell?, he, cell?]
    · rw [(hnone port x k).1, (hnone port x k).2]
  · have hkey : ∀ s, g'.keyAt m port x s = g.keyAt m port x s := fun s => by
      rw [keyAt, paramsAt, table, hsame hc, keyAt, paramsAt, table]
    exact ⟨⟨w, hsame hc ▸ hwm, hs⟩, hkey, Nat.le_of_eq (sharers_congr (fun _ => by rw [hi]) hkey k).symm⟩

/-- A node is made, with blank ports if it is a data node. -/
theorem Shelved.push (h : Shelved τ g) {x : Node} (hnodes : g'.nodes = g.nodes.push x)
    (hx : ∀ d, x.data? = some d → ∀ port, (d.wiring.map port).entries = ∅) (hi : g'.instances = g.instances) (hjobs : τ'.jobs = τ.jobs)
    (hs : g'.store.channels = g.store.channels) : Shelved τ' g' := by
  refine h.at_blank (fun m => ?_) hi hjobs (Store.wire?_of_channels_eq hs)
  by_cases hm : m = g.nodes.next
  · refine .inr fun port y k => ⟨?_, ?_⟩
    · rw [hm, cell?, wiring?, data?, show g.node? g.nodes.next = none from Arena.get?_next _]
      rfl
    · rw [cell?, wiring?, data?, node?_push hnodes, if_pos hm]
      change (x.data?.map _).bind _ = _
      rcases hd : x.data? with _ | d
      · rfl
      · exact ChannelMap.at?_of_empty (hx d hd port) y k
  · exact .inl (by rw [wiring?, data?, node?_push hnodes, if_neg hm, wiring?, data?])

/-- The ports of a node that is being reset are emptied, and the channels of its maps go. -/
theorem Shelved.empty (h : Shelved τ g) (hd : Tidy τ g) (ht : τ.tear = some ⟨n, [], []⟩) (hjobs : τ'.jobs = τ.jobs) :
    Shelved τ' ([Port.input, .extended, .output].foldl (fun g port => g.clearPort n port) g) := by
  obtain ⟨f, hf, hs, -⟩ := hd.framed.torn _ ht
  obtain ⟨w, hw, rfl⟩ := Option.map_eq_some_iff.1 hf
  rw [clearPorts_eq hw]
  have hwiring : ∀ m, ({ g with store := w.releases ChannelMap.channels [.input, .extended, .output] g.store }.modifyWiring n
      Wiring.emptied).wiring? m = if m = n then some w.emptied else g.wiring? m := fun m => by
    rw [wiring?_modifyWiring]
    split
    · subst m
      exact congrArg (Option.map Wiring.emptied) hw
    · rfl
  generalize hg' : { g with store := w.releases ChannelMap.channels [.input, .extended, .output] g.store }.modifyWiring n
    Wiring.emptied = g' at hwiring ⊢
  have hstore : g'.store = w.releases ChannelMap.channels [.input, .extended, .output] g.store := by rw [← hg']; rfl
  have hinst : g'.instances = g.instances := by rw [← hg']; rfl
  have hne : ∀ m, m ≠ n → g'.wiring? m = g.wiring? m := fun m hm => by rw [hwiring, if_neg hm]
  refine ⟨fun m port x k c ⟨v, hv, hvs⟩ hc => ?_, fun c m l hc => ?_⟩
  · have hm : m ≠ n := fun he => by
      rw [hwiring, if_pos he] at hv
      obtain rfl := Option.some.inj hv
      rw [show w.emptied.outOfSync = true from hs] at hvs
      cases hvs
    have hkey : ∀ s, g'.keyAt m port x s = g.keyAt m port x s := fun s => by
      rw [keyAt, paramsAt, table, hne m hm, keyAt, paramsAt, table]
    rw [sharers_congr (fun _ => by rw [hinst]) hkey]
    simp only [hkey, hjobs]
    exact h.uses m port x k c ⟨v, hne m hm ▸ hv, hvs⟩ (by rwa [cell?, hne m hm] at hc)
  · rw [hstore] at hc
    obtain ⟨hl, hrel⟩ := w.wire?_releases _ _ _ hc
    obtain ⟨m', port, x, k, cell, hid, hcl, hch⟩ := h.owned c m l hl
    have hm : m' ≠ n := by
      rintro rfl
      rw [mapId_of_wiring? hw] at hid
      rw [cell?_of_wiring? hw] at hcl
      exact hrel port (by cases port <;> simp) (Option.some.inj hid) (ChannelMap.mem_channels hcl hch)
    exact ⟨m', port, x, k, cell, by rw [mapId, hne m' hm]; exact hid, by rw [cell?, hne m' hm]; exact hcl, hch⟩

/-- An instance of a node that is being reset goes: no node in sync loses a user. -/
theorem Shelved.discard (h : Shelved τ g) (hd : Tidy τ g) {is : List InstanceId} (ht : τ.tear = some ⟨n, [], id :: is⟩)
    (hi : g.instances[id]? = some i) (hjobs : τ'.jobs = τ.jobs) : Shelved τ' { g with instances := g.instances.erase id } := by
  have hleft : id ∈ τ.leftInstances n := by
    simp only [Work.leftInstances, ht, if_true]
    exact List.mem_cons_self ..
  have hown : i.owner = n := (hd.kept.instances.apart n id hleft).2 i hi
  refine h.of_maps (fun _ _ => rfl) (fun _ hm => hm) (fun m hm _ port x k => ?_) (same_jobs hjobs) fun c _ l hc => ⟨l, hc⟩
  obtain ⟨w, hw, hs⟩ := hm
  obtain ⟨f, hf, hf', -⟩ := hd.framed.torn _ ht
  have hne : ¬ (i.owner = m ∧ g.keyAt m port x i.substitution = k) := by
    rintro ⟨rfl, -⟩
    rw [← hown, frame?, show g.wiring? i.owner = some w from hw] at hf
    obtain rfl := Option.some.inj hf
    rw [show w.outOfSync = true from hf'] at hs
    cases hs
  rw [sharers, Table.tally_erase _ hi, if_neg hne, Nat.zero_add]
  exact Nat.le_refl _

/-! ## Processes -/

theorem Shelved.destroyProcess (h : Shelved τ g) (hjobs : τ'.jobs = τ.jobs) (id : ProcessId) : Shelved τ' (g.destroyProcess id) := by
  rcases hp : g.processes[id]? with _ | p
  · rw [Graph.destroyProcess, hp]
    exact h.of_nodes rfl (fun _ => rfl) (same_jobs hjobs) fun _ => rfl
  · rw [destroyProcess_eq hp]
    refine h.modifyWiring (n := p.owner) (fun w port => ?_) (fun w hs => ?_) (fun _ => wiring?_modifyWiring ..) rfl hjobs fun c => ?_
    · split <;> cases port <;> rfl
    · split at hs <;> exact hs
    · exact (Store.wire?_of_channels_eq (Store.freeAll_fields ..).1 c).trans (Store.wire?_unlistenAll ..)

theorem Shelved.giveBack (h : Shelved τ g) (hjobs : τ'.jobs = τ.jobs) (q : Option ProcessId) : Shelved τ' (g.giveBack q) := by
  have hsame : Shelved τ' g := h.of_nodes rfl (fun _ => rfl) (same_jobs hjobs) fun _ => rfl
  rcases q with _ | id
  · exact hsame
  · rw [Graph.giveBack, releaseProcess]
    split
    · exact hsame
    · split
      · exact h.destroyProcess hjobs id
      · exact h.of_nodes rfl (fun _ => rfl) (same_jobs hjobs) fun _ => rfl

theorem Shelved.operate (h : Shelved τ g) (hjobs : ∀ J ∈ τ.jobs, ∃ K ∈ τ'.jobs, K.node = J.node ∧ K.sub = J.sub) (n : NodeId)
    (s : Substitution) : Shelved τ' (g.acquireProcess n s).1 := by
  rcases acquireProcess_cases g n s with he | ⟨id, p, -, -, he⟩ | ⟨c, op, -, -, he⟩ <;> rw [he]
  · exact h.of_nodes rfl (fun _ => rfl) hjobs fun _ => rfl
  · exact h.of_nodes rfl (fun _ => rfl) hjobs fun _ => rfl
  · have hop := operated_withProcess g n s c op
    refine h.same hop.relisted.map (fun m hm => (SameFrames.of_relisted hop.relisted).inSync.1 hm) (fun _ => rfl) hjobs fun c => ?_
    exact (Store.wire?_of_channels_eq (Store.pushEmpties_fields ..).1 c).trans (Store.wire?_listenAll ..)

/-! ## Moves -/

/-- A change of what is authored of a node, or of its outlets, changes no wiring. -/
theorem wiring?_modifyData (g : Graph) (n : NodeId) {f : DataNode → DataNode} (hf : ∀ d, (f d).wiring = d.wiring) (m : NodeId) :
    (g.modifyData n f).wiring? m = g.wiring? m := by
  rw [wiring?, data?_modifyData, wiring?]
  split
  · rw [Option.map_map]
    exact congrArg (Option.map · _) (funext hf)
  · rfl

theorem wiring?_openOutlet (g : Graph) (n : NodeId) (filter : List String) (m : NodeId) : (g.openOutlet n filter).wiring? m = g.wiring? m := by
  rw [wiring?, data?_openOutlet, wiring?]
  split
  · exact Option.map_map ..
  · rfl

theorem Shelved.unsubscribe (h : Shelved τ g) (id : OutletId) : Shelved τ (g.unsubscribe id) := by
  rw [Graph.unsubscribe]
  split
  · exact h
  · rename_i o ho
    have hs : o.channels.values.foldl (fun s c => s.unlisten c (.outlet id)) g.store =
        g.store.unlistenAll (.outlet id) (o.channels.values.map some) := by
      rw [Store.unlistenAll, List.foldl_map]
    rw [hs]
    exact h.of_nodes rfl (fun _ => rfl) (same_jobs rfl) fun _ => Store.wire?_unlistenAll ..

theorem shelved_move (m : Move κ τ g τ' g') (hd : Tidy τ g) (h : Shelved τ g) : Shelved τ' g' := by
  have hsame : ∀ {g'' : Graph} {τ'' : Work}, g''.nodes = g.nodes → g''.instances = g.instances →
      (∀ c, g''.store.wire? c = g.store.wire? c) → τ''.jobs = τ.jobs → Shelved τ'' g'' := fun hn hi hw hj =>
    h.of_nodes hn (fun _ => by rw [hi]) (same_jobs hj) hw
  have hdata : ∀ {g'' : Graph} {τ'' : Work}, (∀ n, g''.wiring? n = g.wiring? n) → g''.instances = g.instances → g''.store = g.store →
      τ''.jobs = τ.jobs → Shelved τ'' g'' := fun hn hi hw hj =>
    h.same (fun _ _ => by rw [hn]) (fun m hm => hm.imp fun w h => ⟨hn m ▸ h.1, h.2⟩) (fun _ => by rw [hi]) (same_jobs hj) fun _ => by rw [hw]
  have huses : ∀ {id : InstanceId} {i i' : Instance} {τ'' : Work}, g.instances[id]? = some i → i'.owner = i.owner →
      i'.substitution = i.substitution → τ''.jobs = τ.jobs → Shelved τ'' { g with instances := g.instances.insert id i' } :=
    fun {id i i' _} hi ho hsub hj => h.of_nodes rfl (fun a => by
      rw [Table.get_insert]
      split
      · subst a
        rw [hi, Option.map_some, Option.map_some, ho, hsub]
      · rfl) (same_jobs hj) fun _ => rfl
  cases m with
  | restate hr =>
    obtain ⟨_, _, _, _, _, _, rfl⟩ := hr.rest
    exact hsame rfl rfl (fun _ => rfl) rfl
  | reparent hn =>
    have hdn := hn.data
    obtain ⟨_, rfl⟩ := hn.rest
    exact hdata (fun n => by rw [wiring?, hdn, wiring?]) rfl rfl rfl
  | sync n hτ ha =>
    have hs := (synchronize_spec ha (hd.framed.wired_of_settled hτ.stale) n).1
    obtain ⟨_, _, he⟩ := hs.rest
    refine h.at_blank (fun m => ?_) (by rw [he]) rfl fun c => by rw [he]
    rcases hs.wiring m with hm | ⟨w, t, hw, ho, hm⟩
    · exact .inl hm
    · refine .inr fun port x k => ⟨hd.no_cells (fun w' hw' => ?_) (fun t ht => by rw [hτ.tear] at ht; cases ht) port x k, ?_⟩
      · rw [hw] at hw'
        exact Option.some.inj hw' ▸ ho
      · rw [cell?_of_wiring? hm]
        cases port <;> exact ChannelMap.at?_ofTable ..
  | reuse hτ hdn hs hk hi => exact huses hi rfl rfl rfl
  | start hτ ha hdn hs hk hnest =>
    exact h.of_nodes rfl (fun _ => rfl) (fun J hJ => ⟨J, List.mem_cons_of_mem _ hJ, rfl, rfl⟩) fun _ => rfl
  | merge hj ho =>
    rename_i J jobs port fs
    have hmem : J ∈ τ.jobs := hj ▸ List.mem_cons_self ..
    have hJ := hd.staffed.jobs J hmem
    obtain ⟨w, hw, -⟩ := id hJ.inSync
    exact h.mergeFeeds hmem hw (ho.mem_table hd.framed.designed (hd.staffed.wired hd.framed (List.ne_nil_of_mem hmem)) hJ hd.staffed.names)
  | operate hj =>
    refine h.operate (fun K hK => ?_) _ _
    rw [hj] at hK
    rcases List.mem_cons.1 hK with rfl | hK
    · exact ⟨_, List.mem_cons_self .., rfl, rfl⟩
    · exact ⟨K, List.mem_cons_of_mem _ hK, rfl, rfl⟩
  | view hj =>
    refine h.of_nodes rfl (fun _ => rfl) (fun K hK => ?_) fun _ => rfl
    rw [hj] at hK
    rcases List.mem_cons.1 hK with rfl | hK
    · exact ⟨_, List.mem_cons_self .., rfl, rfl⟩
    · exact ⟨K, List.mem_cons_of_mem _ hK, rfl, rfl⟩
  | finish children proto hj ha hh hb => exact h.finish hd.kept hj rfl
  | lessen hτ hi hu => exact huses hi rfl rfl rfl
  | dismantle hτ hi hu => exact h.dismantle hd hi rfl
  | miss hi => exact hsame rfl rfl (fun _ => rfl) rfl
  | giveBack p hτ => exact h.giveBack (by rfl) p
  | unwire hτ ht hw hup =>
    rename_i n w
    exact h.modifyWiring (n := n) (fun _ port => by cases port <;> rfl) (fun _ hs => by cases hs) (fun _ => wiring?_modifyWiring ..) rfl rfl
      fun _ => rfl
  | destroy hτ ht => exact h.destroyProcess (by rfl) _
  | discard hτ ht hi => exact h.discard hd ht hi rfl
  | pass hτ ht hi => exact hsame rfl rfl (fun _ => rfl) rfl
  | empty hτ ht => exact h.empty hd ht rfl
  | hush ht hc hdn hs hid =>
    rename_i n d id
    rcases ho : g.outlets[id]? with _ | o
    · rw [hush_none ho]
      exact h
    · rw [hush_eq ho]
      exact hsame rfl rfl (fun _ => Store.wire?_unlistenAll ..) rfl
  | told hst ht hs => exact hsame rfl rfl (fun _ => rfl) rfl
  | edit hτ hj ht =>
    have hw := ht.wiring?
    obtain ⟨_, _, rfl⟩ := ht.rest
    exact hdata hw rfl rfl rfl
  | addLeaf hτ => exact h.push rfl (fun _ hd => by cases hd) rfl rfl rfl
  | addData b hτ =>
    refine h.push rfl (fun d hd port => ?_) rfl rfl rfl
    obtain rfl := Option.some.inj hd
    cases port <;> rfl
  | addEntry e => exact hsame rfl rfl (fun _ => rfl) rfl
  | openOutlet hτ hc hdn hk =>
    exact hdata (wiring?_openOutlet g _ _) rfl rfl rfl
  | enroll ho hb => exact hsame rfl rfl (fun _ => rfl) rfl
  | pin hc hb => exact hsame rfl rfl (fun _ => rfl) rfl
  | unsubscribe id => exact h.unsubscribe id
  | giveUp ho hh => exact hsame rfl rfl (fun _ => rfl) rfl
  | attach ho hn hc hcl => exact hsame rfl rfl (fun _ => Store.wire?_listenAll ..) rfl
  | withdraw hτ hr => exact hsame rfl rfl (fun _ => rfl) rfl
  | unasked hr => exact hsame rfl rfl (fun _ => rfl) rfl
  | keep hb ho => exact hsame rfl rfl (fun _ => rfl) rfl
  | close hb hτ ho he hp hc => exact hsame rfl rfl (fun _ => rfl) rfl
  | forget hc => exact hdata (wiring?_modifyData g _ fun _ => rfl) rfl rfl rfl
  | uproot hτ hj hc hrefs hs hidle =>
    rename_i n
    have hget : ∀ m, (g.cutOff n).node? m = if m = n then none else g.node? m := fun m => Arena.get?_erase _ n m
    refine h.at_blank (fun m => ?_) rfl rfl fun _ => rfl
    by_cases hm : m = n
    · subst m
      refine .inr fun port x k => ⟨hd.no_cells hs (fun t ht => by rw [hτ.tear] at ht; cases ht) port x k, ?_⟩
      rw [cell?, wiring?, data?, hget, if_pos rfl]
      rfl
    · exact .inl (by rw [wiring?, data?, hget, if_neg hm, wiring?, data?])
  | disclaim hsub => exact hsame rfl rfl (fun _ => rfl) rfl

end Graph

end Dataflow
