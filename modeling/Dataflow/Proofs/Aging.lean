import Dataflow.Proofs.Derived

/-!
# Channels get new ids

Channels come and go, but a channel that is new has an id that none had before. So a channel that is gone never comes back, whatever is
merged and acquired; and while channels come and go, who listens to those that stay does not change.
-/

namespace Dataflow

namespace Store

variable {s s' s'' : Store} {c : ChannelId} {l : Listener}

/-- Nobody listens to a channel that is not there. -/
theorem listenersOf_of_none (h : s.wire? c = none) : s.listenersOf c = [] := by
  rw [wire?, Option.map_eq_none_iff] at h
  rw [listenersOf, h]
  rfl

theorem wire?_of_next_le (h : s.channels.next ≤ c) : s.wire? c = none := by
  by_contra hne
  obtain ⟨w, hw⟩ := Option.ne_none_iff_exists'.1 hne
  exact Nat.not_lt.2 h (lt_next_of_wire? hw)

/-- Channels come under new ids: one that is there under an old id was there before. -/
structure Ages (s s' : Store) : Prop where
  next : s.channels.next ≤ s'.channels.next
  kept : ∀ c, (s'.wire? c).isSome → c < s.channels.next → (s.wire? c).isSome

theorem Ages.trans (h : s.Ages s') (h' : s'.Ages s'') : s.Ages s'' :=
  ⟨Nat.le_trans h.next h'.next, fun c hc hlt => h.kept c (h'.kept c hc (Nat.lt_of_lt_of_le hlt h.next)) hlt⟩

/-- No channel is new. -/
theorem Ages.of_wires (hn : s'.channels.next = s.channels.next) (hw : ∀ c, (s'.wire? c).isSome → (s.wire? c).isSome) : s.Ages s' :=
  ⟨Nat.le_of_eq hn.symm, fun c hc _ => hw c hc⟩

theorem Ages.of_channels (h : s'.channels = s.channels) : s.Ages s' :=
  .of_wires (by rw [h]) fun c hc => by rwa [Graph.Store.wire?_of_channels_eq h] at hc

theorem Ages.refl (s : Store) : s.Ages s := .of_channels rfl

/-- Channels come and go, but of the channels that are left the old ones have the listeners that they had, and the new ones none. -/
structure Hears (s s' : Store) : Prop extends Ages s s' where
  same : ∀ c, (s'.wire? c).isSome → s'.listenersOf c = s.listenersOf c

theorem Hears.trans (h : s.Hears s') (h' : s'.Hears s'') : s.Hears s'' := by
  refine ⟨h.toAges.trans h'.toAges, fun c hc => ?_⟩
  rw [h'.same c hc]
  by_cases hs : (s'.wire? c).isSome
  · exact h.same c hs
  · have hle : s'.channels.next ≤ c := Nat.le_of_not_lt fun hlt => hs (h'.kept c hc hlt)
    rw [listenersOf_of_none (wire?_of_next_le hle), listenersOf_of_none (wire?_of_next_le (Nat.le_trans h.next hle))]

theorem Hears.of_channels (h : s'.channels = s.channels) : s.Hears s' :=
  ⟨.of_channels h, fun c _ => Graph.Store.listenersOf_of_channels_eq h c⟩

theorem Hears.refl (s : Store) : s.Hears s := .of_channels rfl

theorem hears_addSlots (s : Store) (id : ChannelId) (l : List (Slot Float32)) : s.Hears (s.addSlots id l) := by
  refine ⟨.of_wires (next_addSlots ..) fun c hc => ?_, fun c _ => listenersOf_addSlots ..⟩
  rw [wire?_addSlots] at hc
  split at hc
  · rwa [Option.isSome_map] at hc
  · exact hc

theorem hears_newChannel (s : Store) (m : MapId) (l : List (Slot Float32)) : s.Hears (s.newChannel m l).1 := by
  refine ⟨⟨by rw [next_newChannel]; exact Nat.le_succ _, fun c hc hlt => ?_⟩, fun c _ => listenersOf_newChannel ..⟩
  rw [wire?_newChannel, if_neg (Nat.ne_of_lt hlt)] at hc
  exact hc

theorem hears_release (s : Store) (id : ChannelId) (m : MapId) : s.Hears (s.release id m) := by
  refine ⟨.of_wires (release_fields s id m).2.2.2 fun c hc => ?_, fun c hc => ?_⟩ <;> rw [wire?_release] at hc <;> split at hc
  · cases hc
  · exact hc
  · cases hc
  · rename_i hne
    rw [listenersOf, channel?_release, if_neg hne, listenersOf]

theorem hears_takeOver (s : Store) (m : MapId) (id : ChannelId) : s.Hears (s.takeOver m id).1 := by
  rw [takeOver]
  split
  · exact .refl s
  · exact hears_newChannel ..

theorem hears_put (s : Store) (m : MapId) (cur : Option ChannelId) (f : Feed) : s.Hears (s.put m cur f).1 := by
  rcases cur with _ | cur <;> rcases f with c | x
  · exact .refl s
  · exact hears_newChannel ..
  · rw [put]
    split
    · exact .refl s
    · split
      · exact (hears_takeOver s m cur).trans (hears_addSlots ..)
      · exact hears_release ..
  · rw [put]
    split
    · exact (hears_takeOver s m cur).trans (hears_addSlots _ _ [x])
    · exact (hears_release ..).trans (hears_newChannel ..)

/-- Channels come and go, but a channel that is there under an old id was there before, as it is now. -/
structure Lasts (s s' : Store) : Prop where
  next : s.channels.next ≤ s'.channels.next
  wires : ∀ c w, s'.wire? c = some w → c < s.channels.next → s.wire? c = some w

theorem Lasts.trans (h : s.Lasts s') (h' : s'.Lasts s'') : s.Lasts s'' :=
  ⟨Nat.le_trans h.next h'.next, fun c w hw hlt => h.wires c w (h'.wires c w hw (Nat.lt_of_lt_of_le hlt h.next)) hlt⟩

theorem Lasts.of_channels (h : s'.channels = s.channels) : s.Lasts s' :=
  ⟨Nat.le_of_eq (by rw [h]), fun c w hw _ => by rwa [Graph.Store.wire?_of_channels_eq h] at hw⟩

theorem lasts_listenAll (s : Store) (l : Listener) (cs : List ChannelId) : s.Lasts (s.listenAll l cs) :=
  ⟨Nat.le_of_eq (listenAll_fields s l cs).2.1.symm, fun c w hw _ => by rwa [wire?_listenAll] at hw⟩

/-- What was there stays as it was. -/
theorem Ages.lasts (h : s.Ages s') (hw : ∀ c w, s.wire? c = some w → s'.wire? c = some w) : s.Lasts s' := by
  refine ⟨h.next, fun c w hc hlt => ?_⟩
  obtain ⟨w', hw'⟩ := Option.isSome_iff_exists.1 (h.kept c (by rw [hc]; rfl) hlt)
  rw [hw', ← hc, hw c w' hw']

/-- A channel that both stores have is the same. -/
theorem Lasts.wire_eq (h : s.Lasts s') {w w' : MapId × List (Slot Float32)} (hw : s.wire? c = some w) (hw' : s'.wire? c = some w') : w' = w :=
  Option.some.inj ((h.wires c w' hw' (lt_next_of_wire? hw)).symm.trans hw)

end Store

namespace Graph

variable {g g' : Graph} {n : NodeId}

/-! ## Merging and acquiring -/

theorem hears_ownChannel (g : Graph) (m : MapId) (c : ChannelId) : g.store.Hears (g.ownChannel m c).1.store := by
  obtain ⟨j, hj⟩ := ownChannel_eq g m c
  rw [hj]
  exact Store.hears_takeOver ..

theorem hears_createChannel (g : Graph) (m : MapId) (l : List (Slot Float32)) : g.store.Hears (g.createChannel m l).1.store := by
  obtain ⟨j, hj⟩ := createChannel_eq g m l
  rw [hj]
  exact Store.hears_newChannel ..

theorem hears_addSlots (g : Graph) (id : ChannelId) (l : List (Slot Float32)) : g.store.Hears (g.addSlots id l).store := by
  obtain ⟨j, hj⟩ := addSlots_eq g id l
  rw [hj]
  exact Store.hears_addSlots ..

theorem hears_mergeFeed (g : Graph) (n : NodeId) (port : Port) (s : Substitution) (x : String) (f : Feed) :
    g.store.Hears (g.mergeFeed n port s x f).store := by
  rcases f with c | y <;> simp only [mergeFeed]
  · rw [mergeChannel]
    split
    · exact .refl _
    · dsimp only
      split
      · exact .refl _
      · split
        · exact .refl _
        · split
          · exact .refl _
          · split
            · exact (hears_ownChannel ..).trans (hears_addSlots ..)
            · exact Store.hears_release ..
  · rw [mergeSlot]
    split
    · exact .refl _
    · rename_i w _
      dsimp only
      split
      · exact .refl _
      · split
        · exact hears_createChannel ..
        · rename_i current _
          split
          · exact (hears_ownChannel ..).trans (hears_addSlots _ _ [y])
          · have hrel := Store.hears_release g.store current (w.map port).id
            exact hrel.trans (hears_createChannel { g with store := g.store.release current (w.map port).id } _ [y])

theorem hears_mergeFeeds (g : Graph) (n : NodeId) (port : Port) (s : Substitution) (fs : List (String × Feed)) :
    g.store.Hears (g.mergeFeeds n port s fs).store := by
  induction fs generalizing g with
  | nil => exact .refl _
  | cons e fs ih => exact (hears_mergeFeed ..).trans (ih _)

theorem ages_acquireProcess (g : Graph) (n : NodeId) (s : Substitution) : g.store.Ages (g.acquireProcess n s).1.store := by
  rcases acquireProcess_cases g n s with he | ⟨id, p, -, -, he⟩ | ⟨c, op, -, -, he⟩ <;> rw [he]
  · exact .refl _
  · exact .refl _
  · refine .of_wires (operated_withProcess g n s c op).next fun ch hch => ?_
    rwa [(operated_withProcess g n s c op).wires] at hch

/-- Building merges and makes processes. -/
theorem builds_ages : Builds fun g g' => g.store.Ages g'.store where
  refl g := .refl _
  trans _ _ _ h h' := h.trans h'
  channels g n port s l := by
    rw [mergeChannels_eq]
    exact (hears_mergeFeeds ..).toAges
  leaf g n s r l _ := by
    rw [mergeLeaf]
    split
    · exact (hears_mergeFeed g n .input s l.name (.channel _)).toAges
    · exact (hears_mergeFeed g n .input s l.name (.slot _)).toAges
    · exact .refl _
  process g n s := ages_acquireProcess g n s
  slots g n s p id := by
    rw [mergeSlots_eq]
    exact (hears_mergeFeeds ..).toAges
  used _ _ _ := .refl _

theorem store_syncWithin : ∀ (k : Nat) (g : Graph) (n : NodeId), (syncWithin k g n).store = g.store
  | 0, _, _ => rfl
  | k + 1, g, n => by
    have hfold : ∀ (l : List NodeId) (g : Graph), (l.foldl (syncWithin k) g).store = g.store := fun l => by
      induction l with
      | nil => exact fun _ => rfl
      | cons m l ih => exact fun g => (ih _).trans (store_syncWithin k g m)
    rw [syncWithin]
    split
    · rfl
    · split
      · rw [rewire]
        split <;> exact hfold _ g
      · rfl

/-- A channel that is gone does not come back when an instance is acquired. -/
theorem ages_acquireWithin : ∀ (k : Nat) (g : Graph) (n : NodeId) (s : Substitution), g.store.Ages (acquireWithin k g n s).1.store
  | 0, _, _, _ => .refl _
  | k + 1, g, n, s => by
    have hsync : g.store.Ages (g.synchronize n).store := .of_channels (congrArg Store.channels (store_syncWithin _ g n))
    rw [acquireWithin]
    dsimp only
    split
    · exact hsync
    · rename_i d _
      split
      · exact hsync
      · have hbuild : ∀ (g : Graph) d s key, g.store.Ages (build (acquireWithin k) g n d s key).1.store := fun g =>
          rel_build builds_ages (ages_acquireWithin k) g n
        exact hsync.trans (hbuild (g.synchronize n).drawId.1 d (s.restrict d.wiring.params) (s.restrict d.wiring.params).fullKey)

end Graph

end Dataflow
