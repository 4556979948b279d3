import Dataflow.Graph.Merge
import Dataflow.Proofs.Cells
import Dataflow.Proofs.Put

/-!
# Merging at a port

Merging a feed under a name is one step of the store and sets one cell; nothing else of the graph changes but the journal. A cell
that is in use is not merged into.
-/

namespace Dataflow

namespace Graph

/-- The graph with a feed merged under a name at a port. -/
def mergeFeed (g : Graph) (n : NodeId) (port : Port) (s : Substitution) (x : String) : Feed → Graph
  | .channel c => g.mergeChannel n port s x c
  | .slot y => g.mergeSlot n port s x y

/-- The graph with feeds merged under their names at a port, in turn. -/
def mergeFeeds (g : Graph) (n : NodeId) (port : Port) (s : Substitution) (fs : List (String × Feed)) : Graph :=
  fs.foldl (fun g e => g.mergeFeed n port s e.1 e.2) g

theorem mergeChannels_eq (g : Graph) (n : NodeId) (port : Port) (s : Substitution) (l : List (String × ChannelId)) :
    g.mergeChannels n port s l = g.mergeFeeds n port s (l.map fun e => (e.1, .channel e.2)) := by
  rw [mergeChannels, mergeFeeds, List.foldl_map]
  rfl

theorem mergeSlots_eq (g : Graph) (n : NodeId) (port : Port) (s : Substitution) (l : List (String × Slot Float32)) :
    g.mergeSlots n port s l = g.mergeFeeds n port s (l.map fun e => (e.1, .slot e.2)) := by
  rw [mergeSlots, mergeFeeds, List.foldl_map]
  rfl

theorem mergeFeeds_append (g : Graph) (n : NodeId) (port : Port) (s : Substitution) (fs fs' : List (String × Feed)) :
    g.mergeFeeds n port s (fs ++ fs') = (g.mergeFeeds n port s fs).mergeFeeds n port s fs' := List.foldl_append ..

/-! ## The store's part -/

theorem addSlot_eq (g : Graph) (id : ChannelId) (x : Slot Float32) :
    ∃ j, g.addSlot id x = { g with store := g.store.addSlot id x, journal := j } := by
  rw [addSlot]
  rcases h : g.store.channel? id with _ | ch
  · exact ⟨g.journal, by rw [Store.addSlot_of_none h]; rfl⟩
  · exact ⟨_, rfl⟩

theorem addSlots_eq (g : Graph) (id : ChannelId) (l : List (Slot Float32)) :
    ∃ j, g.addSlots id l = { g with store := g.store.addSlots id l, journal := j } := by
  induction l generalizing g with
  | nil => exact ⟨g.journal, rfl⟩
  | cons x l ih =>
    obtain ⟨j, hj⟩ := addSlot_eq g id x
    obtain ⟨j', hj'⟩ := ih (g.addSlot id x)
    refine ⟨j', ?_⟩
    rw [addSlots, List.foldl_cons, ← addSlots, hj', hj]
    rfl

theorem createChannel_eq (g : Graph) (m : MapId) (l : List (Slot Float32)) :
    ∃ j, g.createChannel m l = ({ g with store := (g.store.newChannel m l).1, journal := j }, (g.store.newChannel m l).2) := by
  obtain ⟨j, hj⟩ := addSlots_eq { g with store := g.store.pushChannel m } g.store.channels.next l
  exact ⟨j, by rw [createChannel, hj]; rfl⟩

theorem ownChannel_eq (g : Graph) (m : MapId) (c : ChannelId) :
    ∃ j, g.ownChannel m c = ({ g with store := (g.store.takeOver m c).1, journal := j }, (g.store.takeOver m c).2) := by
  unfold ownChannel Store.takeOver
  split
  · exact ⟨g.journal, rfl⟩
  · exact createChannel_eq ..

/-- A cell in use is not merged into. -/
theorem mergeFeed_of_used {g : Graph} {n : NodeId} {port : Port} {s : Substitution} {x : String} {c : Cell}
    (hc : g.cell? n port x (g.keyAt n port x s) = some c) (hu : c.uses ≠ 0) (f : Feed) :
    g.mergeFeed n port s x f = g := by
  obtain ⟨w, hw⟩ := exists_wiring_of_cell? hc
  rw [cell?_of_wiring? hw, keyAt_of_wiring? hw] at hc
  have hc' : ((w.map port).cell? x s).getD {} = c := by
    rw [ChannelMap.cell?_eq, hc]
    rfl
  rcases f with ch | y
  · simp only [mergeFeed, mergeChannel, hw, hc', if_pos hu]
  · simp only [mergeFeed, mergeSlot, hw, hc', if_pos hu]

/-- Setting a cell after a change of the store and the journal. -/
theorem setCell_spec {g : Graph} {n : NodeId} {w : Wiring} (hw : g.wiring? n = some w) {port : Port} {x : String}
    (hx : x ∈ g.table n port) (s : Substitution) (c : Cell) (st : Store) (j : Journal) (ch : ChannelId) :
    g.Recached ({ g with store := st, journal := j }.setChannel n port x s c ch) ∧
    ({ g with store := st, journal := j }.setChannel n port x s c ch).store = st ∧
    (∀ m, m ≠ n → ({ g with store := st, journal := j }.setChannel n port x s c ch).node? m = g.node? m) ∧
    ∀ m q y k, ({ g with store := st, journal := j }.setChannel n port x s c ch).cell? m q y k =
      if m = n ∧ q = port ∧ y = x ∧ k = g.keyAt n port x s then some { c with channel := some ch } else g.cell? m q y k := by
  have h1 : g.Recached { g with store := st, journal := j } := ⟨⟨g.nodes, st, j, rfl⟩, .of_nodes_eq rfl⟩
  exact ⟨h1.trans (recached_setChannel (g := { g with store := st, journal := j }) hw hx s c ch), rfl,
    fun m hm => (node?_modifyData ..).trans (if_neg hm),
    fun m q y k => cell?_setChannel (g := { g with store := st, journal := j }) hw port x s c ch m q y k⟩

/-- A cell that is not in use gets the channel that its map has after one step of the store. -/
theorem mergeFeed_spec {g : Graph} {n : NodeId} {w : Wiring} (hw : g.wiring? n = some w) {port : Port} {x : String}
    (hx : x ∈ g.table n port) {s : Substitution} {c : Cell}
    (hc : (g.cell? n port x (g.keyAt n port x s)).getD {} = c) (hu : c.uses = 0) (f : Feed) :
    g.Recached (g.mergeFeed n port s x f) ∧
    (g.mergeFeed n port s x f).store = (g.store.put (w.map port).id c.channel f).1 ∧
    (∀ m, m ≠ n → (g.mergeFeed n port s x f).node? m = g.node? m) ∧
    ∀ m q y k, (g.mergeFeed n port s x f).cell? m q y k =
      if m = n ∧ q = port ∧ y = x ∧ k = g.keyAt n port x s
      then some ⟨some (g.store.put (w.map port).id c.channel f).2, 0⟩ else g.cell? m q y k := by
  have hc' : ((w.map port).cell? x s).getD {} = c := by
    rw [cell?_of_wiring? hw, keyAt_of_wiring? hw] at hc
    exact hc
  obtain ⟨ch, uses⟩ := c
  change uses = 0 at hu
  subst hu
  have hne : ¬ ((0 : Nat) ≠ 0) := fun h => h rfl
  -- every way to merge ends in setting the cell, but for a channel that is there already
  rcases f with cf | y
  · rcases ch with _ | cur
    · have he : g.mergeFeed n port s x (.channel cf) = { g with store := g.store, journal := g.journal }.setChannel n port x s
          ⟨none, 0⟩ cf := by
        simp only [mergeFeed, mergeChannel, hw, hc', if_neg hne]
      rw [he]
      exact setCell_spec hw hx s ⟨none, 0⟩ _ _ _
    · rw [Store.put]
      by_cases hcf : cur = cf
      · have he : g.mergeFeed n port s x (.channel cf) = g.check .mergeIdentity true "add_channel" := by
          simp only [mergeFeed, mergeChannel, hw, hc', if_neg hne, if_pos hcf]
        rw [he, if_pos hcf]
        refine ⟨⟨⟨g.nodes, g.store, _, rfl⟩, .of_nodes_eq rfl⟩, rfl, fun _ _ => rfl, fun m q z k => ?_⟩
        change g.cell? m q z k = _
        split
        · rename_i h
          obtain ⟨rfl, rfl, rfl, rfl⟩ := h
          rcases hcell : g.cell? m q z (g.keyAt m q z s) with _ | c'
          · rw [hcell] at hc
            cases hc
          · rw [hcell] at hc
            exact congrArg some hc
        · rfl
      · rw [if_neg hcf]
        by_cases hm : g.store.mergesChannel cur cf = true
        · obtain ⟨j, hj⟩ := ownChannel_eq g (w.map port).id cur
          obtain ⟨j', hj'⟩ := addSlots_eq { g with store := (g.store.takeOver (w.map port).id cur).1, journal := j }
            (g.store.takeOver (w.map port).id cur).2 ((g.store.takeOver (w.map port).id cur).1.slots cf)
          have he : g.mergeFeed n port s x (.channel cf) = { g with
              store := (g.store.takeOver (w.map port).id cur).1.addSlots (g.store.takeOver (w.map port).id cur).2
                ((g.store.takeOver (w.map port).id cur).1.slots cf), journal := j' }.setChannel n port x s
              ⟨some cur, 0⟩ (g.store.takeOver (w.map port).id cur).2 := by
            simp only [mergeFeed, mergeChannel, hw, hc', if_neg hne, if_neg hcf, if_pos hm, hj, hj']
          rw [he, if_pos hm]
          exact setCell_spec hw hx s ⟨some cur, 0⟩ _ _ _
        · have he : g.mergeFeed n port s x (.channel cf) = { g with
              store := g.store.release cur (w.map port).id, journal := g.journal }.setChannel n port x s ⟨some cur, 0⟩ cf := by
            simp only [mergeFeed, mergeChannel, hw, hc', if_neg hne, if_neg hcf, if_neg hm]
          rw [he, if_neg hm]
          exact setCell_spec hw hx s ⟨some cur, 0⟩ _ _ _
  · rcases ch with _ | cur
    · obtain ⟨j, hj⟩ := createChannel_eq g (w.map port).id [y]
      have he : g.mergeFeed n port s x (.slot y) = { g with
          store := (g.store.newChannel (w.map port).id [y]).1, journal := j }.setChannel n port x s ⟨none, 0⟩
          (g.store.newChannel (w.map port).id [y]).2 := by
        simp only [mergeFeed, mergeSlot, hw, hc', if_neg hne, hj]
      rw [he]
      exact setCell_spec hw hx s ⟨none, 0⟩ _ _ _
    · rw [Store.put]
      by_cases hm : g.store.mergesSlot cur y = true
      · obtain ⟨j, hj⟩ := ownChannel_eq g (w.map port).id cur
        obtain ⟨j', hj'⟩ := addSlot_eq { g with store := (g.store.takeOver (w.map port).id cur).1, journal := j }
          (g.store.takeOver (w.map port).id cur).2 y
        have he : g.mergeFeed n port s x (.slot y) = { g with
            store := (g.store.takeOver (w.map port).id cur).1.addSlot (g.store.takeOver (w.map port).id cur).2 y,
            journal := j' }.setChannel n port x s ⟨some cur, 0⟩ (g.store.takeOver (w.map port).id cur).2 := by
          simp only [mergeFeed, mergeSlot, hw, hc', if_neg hne, if_pos hm, hj, hj']
        rw [he, if_pos hm]
        exact setCell_spec hw hx s ⟨some cur, 0⟩ _ _ _
      · obtain ⟨j, hj⟩ := createChannel_eq { g with store := g.store.release cur (w.map port).id } (w.map port).id [y]
        have he : g.mergeFeed n port s x (.slot y) = { g with
            store := ((g.store.release cur (w.map port).id).newChannel (w.map port).id [y]).1,
            journal := j }.setChannel n port x s ⟨some cur, 0⟩
            ((g.store.release cur (w.map port).id).newChannel (w.map port).id [y]).2 := by
          simp only [mergeFeed, mergeSlot, hw, hc', if_neg hne, if_neg hm, hj]
        rw [he, if_neg hm]
        exact setCell_spec hw hx s ⟨some cur, 0⟩ _ _ _

end Graph

end Dataflow
