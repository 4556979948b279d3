import Dataflow.Proofs.Extends
import Dataflow.Proofs.Merging

/-!
# Filling a port

The feeds of an instance that is being built are merged at a port one after the other. A name that another instance has in common
with it is left alone; the others show the draft of what was merged so far, in channels that no live instance sees. Once everything
is merged, the port is filled.
-/

namespace Dataflow

namespace Graph

/-- A port while feeds are merged there for a substitution: a name is in use already, or it shows the draft of its feeds so far. Its
own channels are as new as the phase, and no live instance sees them. -/
structure Filling (g : Graph) (n : NodeId) (port : Port) (s : Substitution) (base : Nat) (fs : List (String × Feed)) :
    Prop where
  cell : ∀ x, (∃ c, g.cell? n port x (g.keyAt n port x s) = some c ∧ c.uses ≠ 0) ∨
    ∃ m, g.mapId n port = some m ∧ g.store.Shows m base (g.chan n port x s) (g.store.draft (named x fs))
  feeds : ∀ e ∈ fs, g.Known e.2 ∧ ∀ m, g.mapId n port = some m → g.store.Lends m e.2
  unseen : ∀ x c ch l m, g.cell? n port x (g.keyAt n port x s) = some c → c.uses = 0 → c.channel = some ch →
    g.mapId n port = some m → g.store.wire? ch = some (m, l) → ¬ g.Seen ch
  others : ∀ x k c, g.cell? n port x k = some c → c.uses = 0 → k = g.keyAt n port x s

/-- What merging at a port leaves alone: other nodes and ports, and every channel but those that the port's map made since `base`. -/
structure Refilled (g g' : Graph) (n : NodeId) (port : Port) (base : Nat) : Prop where
  recached : g.Recached g'
  nodes : ∀ m, m ≠ n → g'.node? m = g.node? m
  cells : ∀ q, q ≠ port → ∀ x k, g'.cell? n q x k = g.cell? n q x k
  later : Store.Later g.store g'.store
  wires : ∀ c o l, g.store.wire? c = some (o, l) → (g.mapId n port = some o → c < base) → g'.store.wire? c = some (o, l)
  listeners : ∀ c o l, g.store.wire? c = some (o, l) → (g.mapId n port = some o → c < base) →
    g'.store.listenersOf c = g.store.listenersOf c

theorem Refilled.refl (g : Graph) (n : NodeId) (port : Port) (base : Nat) : g.Refilled g n port base :=
  ⟨.refl g, fun _ _ => rfl, fun _ _ _ _ => rfl, .refl _, fun _ _ _ h _ => h, fun _ _ _ _ _ => rfl⟩

theorem Refilled.trans {g g' g'' : Graph} {n : NodeId} {port : Port} {base : Nat} (h : g.Refilled g' n port base)
    (h' : g'.Refilled g'' n port base) : g.Refilled g'' n port base := by
  have hm : g'.mapId n port = g.mapId n port := h.recached.mapId n port
  refine ⟨h.recached.trans h'.recached, fun m hm => (h'.nodes m hm).trans (h.nodes m hm),
    fun q hq x k => (h'.cells q hq x k).trans (h.cells q hq x k), h.later.trans h'.later, fun c o l hw hc => ?_,
    fun c o l hw hc => ?_⟩
  · exact h'.wires c o l (h.wires c o l hw hc) (by rw [hm]; exact hc)
  · exact (h'.listeners c o l (h.wires c o l hw hc) (by rw [hm]; exact hc)).trans (h.listeners c o l hw hc)

theorem Refilled.chan {g g' : Graph} {n : NodeId} {port : Port} {base : Nat} (h : g.Refilled g' n port base) {q : Port}
    (hq : q ≠ port) (x : String) (s : Substitution) : g'.chan n q x s = g.chan n q x s := by
  rw [Graph.chan, h.cells q hq, h.recached.keyAt, Graph.chan]

theorem Recached.instances {g g' : Graph} (h : g.Recached g') : g'.instances = g.instances := by
  obtain ⟨ns, s, j, rfl⟩ := h.rest
  rfl

theorem Recached.processes {g g' : Graph} (h : g.Recached g') : g'.processes = g.processes := by
  obtain ⟨ns, s, j, rfl⟩ := h.rest
  rfl

theorem Recached.lastId {g g' : Graph} (h : g.Recached g') : g'.lastId = g.lastId := by
  obtain ⟨ns, s, j, rfl⟩ := h.rest
  rfl

theorem Recached.inSync {g g' : Graph} (h : g.Recached g') {n : NodeId} : g'.InSync n ↔ g.InSync n := by
  constructor
  · rintro ⟨w, hw, hs⟩
    obtain ⟨w', hsame, hw'⟩ := h.wiring_of hw
    exact ⟨w', hw', hsame.outOfSync.symm.trans hs⟩
  · rintro ⟨w, hw, hs⟩
    obtain ⟨w', hsame, hw'⟩ := h.wiring hw
    exact ⟨w', hw', hsame.outOfSync.trans hs⟩

theorem Recached.sharers {g g' : Graph} (h : g.Recached g') (n : NodeId) (port : Port) (x k : String) :
    g'.sharers n port x k = g.sharers n port x k := by
  rw [Graph.sharers, Graph.sharers, h.instances]
  simp only [h.keyAt]

/-- A change of cells and the store that extends a graph keeps it sound if the cells and the store stay in order. -/
theorem Sound.of_recached {R : Substitution → Prop} {hands : List InstanceId} {busy : List ProcessId} {g g' : Graph}
    (hs : g.Sound R hands busy) (hr : g.Recached g') (he : g.Extends g') (hn : g'.store.nextMap = g.store.nextMap)
    (hst : g'.Stocked) (hm : g'.store.Mirrored) : g'.Sound R hands busy := by
  have hi := hr.instances
  have hp := hr.processes
  have hw := hr.wired hs.wired
  refine ⟨hr.rewired.authored hs.authored, hw, fun n l e hl hle => he.leaves hs hl hle, ⟨fun n port m hm => ?_,
    fun n port n' port' m h h' => ?_⟩, ⟨fun id i h => ?_, fun id p h => ?_, fun n w k id hw => ?_, fun n w k id hw => ?_⟩,
    fun id i h => ?_, fun id p h => ?_, ⟨fun id i h => ?_, fun id h => ?_, fun id p h => ?_, fun id h => ?_⟩, hst, hm⟩
  · rw [hr.mapId] at hm
    rw [hn]
    exact hs.anchored.bounded n port m hm
  · rw [hr.mapId] at h h'
    exact hs.anchored.injective n port n' port' m h h'
  · rw [hi] at h
    rw [hr.lastId]
    exact hs.registered.instanceId id i h
  · rw [hp] at h
    rw [hr.lastId]
    exact hs.registered.processId id p h
  · obtain ⟨w', hsame, hw'⟩ := hr.wiring_of hw
    rw [hsame.instances, hi]
    exact hs.registered.memo n w' k id hw'
  · obtain ⟨w', hsame, hw'⟩ := hr.wiring_of hw
    rw [hsame.processes, hp]
    exact hs.registered.processMemo n w' k id hw'
  · rw [hi] at h
    exact ⟨he.faithfulAt hs hw h i.uses, (hs.faithful id i h).2⟩
  · rw [hp] at h
    exact he.processAt hs h p.uses
  · rw [hi] at h
    rw [useCount, hi]
    exact hs.counted.uses id i h
  · rw [hi]
    exact hs.counted.hands id h
  · rw [hp] at h
    rw [runCount, hi]
    exact hs.counted.runs id p h
  · rw [hp]
    exact hs.counted.busy id h

/-- What live instances see are channels that were handed out. -/
theorem Sound.lt_next_of_seen {R : Substitution → Prop} {hands : List InstanceId} {busy : List ProcessId} {g : Graph}
    (hs : g.Sound R hands busy) {c : ChannelId} (hc : g.Seen c) : c < g.store.channels.next := by
  obtain ⟨id, i, hi, ⟨x, hx⟩ | ⟨port, x, hx⟩⟩ := hc
  · exact ((hs.faithful id i hi).1.bound x c hx).2
  · obtain ⟨cell, hcell, hch⟩ := Option.bind_eq_some_iff.1 hx
    obtain ⟨ch, hch', hlt⟩ := hs.stocked.channel _ _ _ _ _ hcell
    rw [hch] at hch'
    cases hch'
    exact hlt

/-- A slot of a known feed holds an entry that was handed out. -/
theorem Known.born {g : Graph} {f : Feed} (h : g.Known f) {y : Slot Float32} (hy : y ∈ g.store.feedSlots f) :
    y.entry < g.store.entries.next := by
  obtain ⟨t, ht⟩ := Option.isSome_iff_exists.1 (h.grounded hy).1
  obtain ⟨e, he, -⟩ := Option.map_eq_some_iff.1 ht
  exact Store.lt_next_of_entryAt? he

section Step

variable {R : Substitution → Prop} {hands : List InstanceId} {busy : List ProcessId} {g : Graph} {n : NodeId} {port : Port}
  {s : Substitution} {base : Nat} {fs : List (String × Feed)} {x : String} {f : Feed}

/-- A cell with no users is no live instance's, and neither is a missing one of a name that all who share its key have. -/
theorem Sound.not_shared (hs : g.Sound R hands busy)
    (hc : ∀ c, g.cell? n port x (g.keyAt n port x s) = some c → c.uses = 0)
    (hshare : ∀ (id : InstanceId) (i : Instance), g.instances[id]? = some i → i.owner = n →
      g.keyAt n port x i.substitution = g.keyAt n port x s → g.feeds n i.substitution x port ≠ []) :
    g.sharers n port x (g.keyAt n port x s) = 0 := by
  by_contra hne
  obtain ⟨id, i, hi, ho, hk⟩ := sharers_ne_zero.1 hne
  have hb := (hs.faithful id i hi).1.built port
  rw [ho] at hb
  have hnn : g.chan n port x i.substitution ≠ none := fun h => hshare id i hi ho hk (hb.chan_eq_none_iff.1 h)
  rw [Graph.chan, hk] at hnn
  rcases hcell : g.cell? n port x (g.keyAt n port x s) with _ | c
  · rw [hcell] at hnn
    exact hnn rfl
  · have := hs.stocked.uses _ _ _ _ _ hcell
    rw [hc c hcell] at this
    exact hne this.symm

/-- What one merge of a name that is not in use does: the name gets the channel `r`, and only a channel that the port's map made in
this phase changes. -/
structure Step (g g' : Graph) (n : NodeId) (port : Port) (s : Substitution) (base : Nat) (x : String) (m : MapId)
    (r : ChannelId) : Prop where
  map : g.mapId n port = some m
  recached : g.Recached g'
  nodes : ∀ q, q ≠ n → g'.node? q = g.node? q
  cell : ∀ q p y k, g'.cell? q p y k =
    if q = n ∧ p = port ∧ y = x ∧ k = g.keyAt n port x s then some ⟨some r, 0⟩ else g.cell? q p y k
  frame : Store.PutFrame g.store g'.store m (g.chan n port x s)
  alone : g.sharers n port x (g.keyAt n port x s) = 0
  own : ∀ c l, g.chan n port x s = some c → g.store.wire? c = some (m, l) → base ≤ c ∧ ¬ g.Seen c
  origin : (∃ o l, g.store.wire? r = some (o, l) ∧ o ≠ m) ∨
    (∃ l, g.chan n port x s = some r ∧ g.store.wire? r = some (m, l)) ∨ r = g.store.channels.next
  bound : r < g'.store.channels.next
  owner : ∀ c o l, g'.store.wire? c = some (o, l) → c < g.store.channels.next → ∃ l', g.store.wire? c = some (o, l')

namespace Step

variable {g' : Graph} {m : MapId} {r : ChannelId} (h : g.Step g' n port s base x m r)

include h

theorem wires_of_seen {c : ChannelId} {w : MapId × List (Slot Float32)} (hc : g.Seen c) (hw : g.store.wire? c = some w) :
    g.chan n port x s = some c → w.1 ≠ m := by
  obtain ⟨o, l⟩ := w
  rintro hcc rfl
  exact (h.own c l hcc hw).2 hc

theorem extending : g.Extends g' := by
  have hrec := h.recached
  have hframe := h.frame
  refine ⟨hrec.registry, hrec.rewired.mono fun _ _ _ => Wiring.Same.grows, fun id i hi => ⟨i.uses, ?_⟩,
    fun id p hp => ⟨p.uses, ?_⟩, fun id p hp => .inl ?_, fun id i hi q y => ?_, hframe.later.tolerance, hframe.later.channels,
    fun e z hz => (hframe.later.entryAt? e).trans hz, fun c w hc hwc => hframe.wires c w hwc (h.wires_of_seen hc hwc),
    fun c l hc hlc => ?_⟩
  · rw [hrec.instances]
    exact hi
  · rw [hrec.processes]
    exact hp
  · rw [hrec.processes] at hp
    rw [hp]
    rfl
  · -- a live instance does not have the cell that changes
    rw [chan, chan, hrec.keyAt, h.cell, if_neg]
    rintro ⟨ho, rfl, rfl, hk⟩
    exact sharers_ne_zero.2 ⟨id, i, hi, ho, by rw [← hk, ho]⟩ h.alone
  · rcases hwc : g.store.wire? c with _ | w
    · rw [Store.listenersOf, Option.map_eq_none_iff.1 hwc] at hlc
      exact absurd hlc List.not_mem_nil
    · rw [hframe.listeners c w hwc (h.wires_of_seen hc hwc)]
      exact hlc

/-- What is seen afterwards was seen before. -/
theorem seen {c : ChannelId} (hc : g'.Seen c) : g.Seen c := by
  obtain ⟨id, i, hi, hb⟩ := hc
  rw [h.recached.instances] at hi
  refine ⟨id, i, hi, hb.imp_right ?_⟩
  rintro ⟨q, z, hz⟩
  exact ⟨q, z, (h.extending.chans id i hi q z).symm.trans hz⟩

/-- An own channel that another cell of the map holds is not the one that the name has now. -/
theorem apart (hst : g.Stocked) {y k : String} {c : Cell} {ch : ChannelId} {l : List (Slot Float32)}
    (hc : g.cell? n port y k = some c) (hch : c.channel = some ch) (hw : g'.store.wire? ch = some (m, l))
    (hne : ¬ (y = x ∧ k = g.keyAt n port x s)) : ch ≠ r := by
  rintro rfl
  obtain ⟨ch', hch', hlt⟩ := hst.channel _ _ _ _ _ hc
  rw [hch] at hch'
  cases hch'
  obtain ⟨l', hw'⟩ := h.owner ch m l hw hlt
  rcases h.origin with ⟨o, l'', hwo, ho⟩ | ⟨l'', hcc, -⟩ | hnew
  · rw [hw'] at hwo
    cases hwo
    exact ho rfl
  · obtain ⟨c', hc', hch''⟩ := Option.bind_eq_some_iff.1 hcc
    exact hne (hst.sole n port y k c x _ c' ch l' m hc hc' hch hch'' h.map hw')
  · rw [hnew] at hlt
    exact Nat.lt_irrefl _ hlt

theorem stocked (hst : g.Stocked) (hn : g.InSync n) : g'.Stocked := by
  refine ⟨fun q p y k c hc => ?_, fun q p y k c hc => ?_, fun q p y k c y' k' c' ch l o hc hc' hch hch' ho hw => ?_,
    fun q p y k hq => ?_⟩
  · rw [h.recached.sharers]
    rw [h.cell] at hc
    split at hc
    · rename_i he
      obtain ⟨rfl, rfl, rfl, rfl⟩ := he
      cases hc
      exact h.alone.symm
    · exact hst.uses q p y k c hc
  · rw [h.cell] at hc
    split at hc
    · cases hc
      exact ⟨r, rfl, h.bound⟩
    · obtain ⟨ch, hch, hlt⟩ := hst.channel q p y k c hc
      exact ⟨ch, hch, Nat.lt_of_lt_of_le hlt h.frame.later.channels⟩
  · rw [h.recached.mapId] at ho
    rw [h.cell] at hc hc'
    by_cases h1 : q = n ∧ p = port ∧ y = x ∧ k = g.keyAt n port x s <;>
      by_cases h2 : q = n ∧ p = port ∧ y' = x ∧ k' = g.keyAt n port x s
    · exact ⟨h1.2.2.1.trans h2.2.2.1.symm, h1.2.2.2.trans h2.2.2.2.symm⟩
    · rw [if_pos h1] at hc
      rw [if_neg h2] at hc'
      cases hc
      cases hch
      obtain ⟨rfl, rfl, h1⟩ := h1
      rw [h.map] at ho
      cases ho
      exact absurd rfl (h.apart hst hc' hch' hw fun he => h2 ⟨rfl, rfl, he⟩)
    · rw [if_neg h1] at hc
      rw [if_pos h2] at hc'
      cases hc'
      cases hch'
      obtain ⟨rfl, rfl, h2⟩ := h2
      rw [h.map] at ho
      cases ho
      exact absurd rfl (h.apart hst hc hch hw fun he => h1 ⟨rfl, rfl, he⟩)
    · rw [if_neg h1] at hc
      rw [if_neg h2] at hc'
      obtain ⟨ch', hch'', hlt⟩ := hst.channel _ _ _ _ _ hc
      rw [hch] at hch''
      cases hch''
      obtain ⟨l', hw'⟩ := h.owner ch o l hw hlt
      exact hst.sole q p y k c y' k' c' ch l' o hc hc' hch hch' ho hw'
  · rw [h.recached.inSync] at hq
    rw [h.cell, if_neg]
    · exact hst.blank q p y k hq
    · rintro ⟨rfl, -⟩
      exact hq hn

theorem refilled : g.Refilled g' n port base := by
  refine ⟨h.recached, h.nodes, fun q hq y k => ?_, h.frame.later, fun c o l hw hlt => ?_, fun c o l hw hlt => ?_⟩
  · rw [h.cell, if_neg fun he => hq he.2.1]
  · refine h.frame.wires c _ hw fun hcc ho => ?_
    change o = m at ho
    subst ho
    exact absurd (h.own c l hcc hw).1 (Nat.not_le.2 (hlt h.map))
  · refine h.frame.listeners c _ hw fun hcc ho => ?_
    change o = m at ho
    subst ho
    exact absurd (h.own c l hcc hw).1 (Nat.not_le.2 (hlt h.map))

/-- A feed of the phase keeps its channel. -/
theorem wires_of_lends {f : Feed} (hl : g.store.Lends m f) {c : ChannelId} {w : MapId × List (Slot Float32)} (hf : f = .channel c)
    (hw : g.store.wire? c = some w) : g'.store.wire? c = some w := by
  rw [hf] at hl
  obtain ⟨o, l, hwo, ho⟩ := hl
  rw [hw] at hwo
  cases hwo
  exact h.frame.wires c _ hw fun _ => ho

/-- The port is still being filled, with one feed more. -/
theorem filling (hs : g.Sound R hands busy) (hfill : g.Filling n port s base fs)
    (hfeeds : ∀ e ∈ fs ++ [(x, f)], g.Known e.2 ∧ ∀ m, g.mapId n port = some m → g.store.Lends m e.2)
    (hshow : g'.store.Shows m base (some r) (g.store.merge (g.store.draft (named x fs)) f)) :
    g'.Filling n port s base (fs ++ [(x, f)]) := by
  have hext := h.extending
  have hrec := h.recached
  have hwires : ∀ e ∈ fs ++ [(x, f)], ∀ c w, e.2 = .channel c → g.store.wire? c = some w → g'.store.wire? c = some w :=
    fun e he c w hec hw => h.wires_of_lends ((hfeeds e he).2 m h.map) hec hw
  have hdraft : ∀ y fs', (∀ e ∈ fs', e ∈ fs ++ [(x, f)]) → g'.store.draft (named y fs') = g.store.draft (named y fs') := by
    intro y fs' hsub
    refine hext.draft (fun f' hf' => (hfeeds _ (hsub _ (mem_named.1 hf'))).1) fun c w hc => ?_
    exact hwires _ (hsub _ (mem_named.1 hc)) c w rfl
  refine ⟨fun y => ?_, fun e he => ?_, fun y c ch l o hc hu hch ho hw hseen => ?_, fun y k c hc hu => ?_⟩
  · by_cases hy : x = y
    · subst hy
      refine .inr ⟨m, (hrec.mapId n port).trans h.map, ?_⟩
      have hc : g'.chan n port x s = some r := by
        rw [chan, hrec.keyAt, h.cell, if_pos ⟨rfl, rfl, rfl, rfl⟩]
        rfl
      rw [hc, hdraft x _ fun e he => he, named_append, named_singleton, if_pos rfl, Store.draft_append]
      exact hshow
    · have hcell : g'.cell? n port y (g.keyAt n port y s) = g.cell? n port y (g.keyAt n port y s) := by
        rw [h.cell, if_neg fun he => hy he.2.2.1.symm]
      have hchan : g'.chan n port y s = g.chan n port y s := by
        rw [chan, hrec.keyAt, hcell, chan]
      rw [named_append, named_singleton, if_neg hy, List.append_nil, hrec.keyAt, hcell, hchan,
        hdraft y _ fun e he => List.mem_append_left _ he]
      rcases hfill.cell y with hc | ⟨o, ho, hsh⟩
      · exact .inl hc
      · rw [h.map] at ho
        cases ho
        refine .inr ⟨m, (hrec.mapId n port).trans h.map, ?_⟩
        rcases hcy : g.chan n port y s with _ | c
        · rw [hcy] at hsh
          rw [hsh.eq_none_iff.1 rfl]
          trivial
        · rw [hcy] at hsh
          obtain ⟨e, o, he, hwe, hle⟩ := hsh.of_some
          -- another name's own channel is not the one that is merged into
          have hkeep : g'.store.wire? c = some (o, e.slots) := by
            refine h.frame.wires c _ hwe fun hcc ho => hy ?_
            change o = m at ho
            subst ho
            obtain ⟨c₁, hc₁, hch₁⟩ := Option.bind_eq_some_iff.1 hcc
            obtain ⟨c₂, hc₂, hch₂⟩ := Option.bind_eq_some_iff.1 hcy
            exact (hs.stocked.sole n port _ _ c₁ _ _ c₂ c _ o hc₁ hc₂ hch₁ hch₂ h.map hwe).1
          rw [he]
          refine ⟨o, hkeep, ?_⟩
          rcases hle with ⟨hle, ho⟩ | ⟨hle, ho⟩ <;> rw [hle]
          · exact ⟨rfl, ho⟩
          · exact ho
  · obtain ⟨hke, hle⟩ := hfeeds e he
    refine ⟨hext.known hke fun c w hc => hwires e he c w hc, fun o ho => ?_⟩
    rw [hrec.mapId] at ho
    have hle := hle o ho
    rcases hf : e.2 with c | z
    · rw [hf] at hle
      obtain ⟨o', l, hwo, hne⟩ := hle
      exact ⟨o', l, hwires e he c _ hf hwo, hne⟩
    · trivial
  · have hseen := h.seen hseen
    rw [hrec.mapId, h.map] at ho
    cases ho
    rw [hrec.keyAt, h.cell] at hc
    split at hc
    · cases hc
      cases hch
      rcases h.origin with ⟨o, l', hwo, ho⟩ | ⟨l', hcc, hwr⟩ | hnew
      · obtain ⟨l'', hwr⟩ := h.owner r m l hw (Store.lt_next_of_wire? hwo)
        rw [hwo] at hwr
        cases hwr
        exact ho rfl
      · exact (h.own r l' hcc hwr).2 hseen
      · have := hs.lt_next_of_seen hseen
        rw [hnew] at this
        exact Nat.lt_irrefl _ this
    · obtain ⟨l', hw'⟩ := h.owner ch m l hw (hs.lt_next_of_seen hseen)
      exact hfill.unseen y c ch l' m hc hu hch h.map hw' hseen
  · rw [h.cell] at hc
    rw [hrec.keyAt]
    split at hc
    · rename_i he
      rw [he.2.2.1]
      exact he.2.2.2
    · exact hfill.others y k c hc hu

end Step

/-- One merge of a name that is not in use is a step. -/
theorem Filling.exists_step (hs : g.Sound R hands busy) (hn : g.InSync n) (hb : base ≤ g.store.channels.next)
    (hfill : g.Filling n port s base fs) (hx : x ∈ g.table n port)
    (hl : ∀ m, g.mapId n port = some m → g.store.Lends m f)
    (hshare : ∀ (id : InstanceId) (i : Instance), g.instances[id]? = some i → i.owner = n →
      g.keyAt n port x i.substitution = g.keyAt n port x s → g.feeds n i.substitution x port ≠ [])
    (hunused : ∀ c, g.cell? n port x (g.keyAt n port x s) = some c → c.uses = 0) :
    ∃ m r, g.Step (g.mergeFeed n port s x f) n port s base x m r ∧
      (g.mergeFeed n port s x f).store = (g.store.put m (g.chan n port x s) f).1 ∧
      (g.mergeFeed n port s x f).store.Shows m base (some r) (g.store.merge (g.store.draft (named x fs)) f) := by
  obtain ⟨w, hw, -⟩ := id hn
  have hmap : g.mapId n port = some (w.map port).id := mapId_of_wiring? hw port
  generalize hm : (w.map port).id = m at hmap
  have hused : ¬ ∃ c, g.cell? n port x (g.keyAt n port x s) = some c ∧ c.uses ≠ 0 :=
    fun ⟨c, hc, hu⟩ => hu (hunused c hc)
  obtain ⟨m', hm', hshow⟩ := (hfill.cell x).resolve_left hused
  rw [hmap] at hm'
  cases hm'
  have hcur : ((g.cell? n port x (g.keyAt n port x s)).getD {}).channel = g.chan n port x s := by
    rw [chan]
    rcases g.cell? n port x (g.keyAt n port x s) with _ | c <;> rfl
  have hcu : ((g.cell? n port x (g.keyAt n port x s)).getD {}).uses = 0 := by
    rcases hc : g.cell? n port x (g.keyAt n port x s) with _ | c
    · rfl
    · exact hunused c hc
  obtain ⟨hrec, hst, hnodes, hcell⟩ := mergeFeed_spec hw hx (s := s) rfl hcu f
  rw [hm, hcur] at hst hcell
  have hlend : g.store.Lends m f := hl m hmap
  obtain ⟨hshow', hframe⟩ := Store.put_spec hshow hb hlend
  rw [← hst] at hshow' hframe
  refine ⟨m, (g.store.put m (g.chan n port x s) f).2, ⟨hmap, hrec, hnodes, hcell, hframe, hs.not_shared hunused hshare, ?_, ?_, ?_, ?_⟩,
    hst, hshow'⟩
  · intro c l hc hwc
    have h := hshow
    rw [hc] at h
    obtain ⟨e, o, -, hwe, hlend⟩ := h.of_some
    rw [hwc] at hwe
    cases hwe
    rcases hlend with ⟨-, ho⟩ | ⟨-, -, hbase⟩
    · exact absurd rfl ho
    · obtain ⟨cell, hcell, hch⟩ := Option.bind_eq_some_iff.1 hc
      exact ⟨hbase, hfill.unseen x cell c _ m hcell (hunused cell hcell) hch hmap hwc⟩
  · refine Store.put_channel hlend fun c hc => ?_
    have h := hshow
    rw [hc] at h
    obtain ⟨e, o, -, hwe, -⟩ := h.of_some
    rw [hwe]
    rfl
  · obtain ⟨e, o, -, hwe, -⟩ := hshow'.of_some
    exact Store.lt_next_of_wire? hwe
  · intro c o l hwc hlt
    rw [hst] at hwc
    exact Store.owner_put hwc hlt

/-- One merge at a port that is being filled. -/
theorem Filling.step (hs : g.Sound R hands busy) (hn : g.InSync n) (hb : base ≤ g.store.channels.next)
    (hfill : g.Filling n port s base fs) (hx : x ∈ g.table n port) (hk : g.Known f)
    (hl : ∀ m, g.mapId n port = some m → g.store.Lends m f)
    (hshare : ∀ (id : InstanceId) (i : Instance), g.instances[id]? = some i → i.owner = n →
      g.keyAt n port x i.substitution = g.keyAt n port x s → g.feeds n i.substitution x port ≠ []) :
    (g.mergeFeed n port s x f).Sound R hands busy ∧ g.Extends (g.mergeFeed n port s x f) ∧
    (g.mergeFeed n port s x f).Filling n port s base (fs ++ [(x, f)]) ∧ g.Refilled (g.mergeFeed n port s x f) n port base ∧
    ∀ c, (g.mergeFeed n port s x f).Seen c → g.Seen c := by
  have hfeeds : ∀ e ∈ fs ++ [(x, f)], g.Known e.2 ∧ ∀ m, g.mapId n port = some m → g.store.Lends m e.2 := by
    intro e he
    rcases List.mem_append.1 he with he | he
    · exact hfill.feeds e he
    · rw [List.mem_singleton.1 he]
      exact ⟨hk, hl⟩
  by_cases hused : ∃ c, g.cell? n port x (g.keyAt n port x s) = some c ∧ c.uses ≠ 0
  · -- the name is in use: nothing happens
    obtain ⟨c, hc, hu⟩ := hused
    rw [mergeFeed_of_used hc hu]
    refine ⟨hs, .refl g, ⟨fun y => ?_, hfeeds, hfill.unseen, hfill.others⟩, .refl .., fun _ h => h⟩
    by_cases hy : x = y
    · subst hy
      exact .inl ⟨c, hc, hu⟩
    · rw [named_append, named_singleton, if_neg hy, List.append_nil]
      exact hfill.cell y
  · have hunused : ∀ c, g.cell? n port x (g.keyAt n port x s) = some c → c.uses = 0 := by
      intro c hc
      by_contra hu
      exact hused ⟨c, hc, hu⟩
    obtain ⟨m, r, hstep, hst, hshow⟩ := hfill.exists_step hs hn hb hx hl hshare hunused
    have hmir : (g.mergeFeed n port s x f).store.Mirrored := by
      rw [hst]
      exact Store.mirrored_put hs.mirrored m _ fun y hy => hk.born hy
    exact ⟨hs.of_recached hstep.recached hstep.extending hstep.frame.later.nextMap (hstep.stocked hs.stocked hn) hmir, hstep.extending,
      hstep.filling hs hfill hfeeds hshow, hstep.refilled, fun _ => hstep.seen⟩

/-- At a port where every cell is in use, nothing is merged yet. -/
theorem Filling.start (hn : g.InSync n) (hq : ∀ x k c, g.cell? n port x k = some c → c.uses ≠ 0) (s : Substitution) (base : Nat) :
    g.Filling n port s base [] := by
  obtain ⟨w, hw, -⟩ := hn
  refine ⟨fun x => ?_, fun e he => absurd he List.not_mem_nil, fun x c _ _ _ hc hu => absurd hu (hq x _ c hc),
    fun x k c hc hu => absurd hu (hq x k c hc)⟩
  rcases hc : g.cell? n port x (g.keyAt n port x s) with _ | c
  · refine .inr ⟨_, mapId_of_wiring? hw port, ?_⟩
    rw [chan, hc]
    trivial
  · exact .inl ⟨c, rfl, hq x _ c hc⟩

/-- Merging feeds in turn. -/
theorem Filling.steps : ∀ (fs' : List (String × Feed)) {g : Graph} {fs : List (String × Feed)}, g.Sound R hands busy →
    g.InSync n → base ≤ g.store.channels.next → g.Filling n port s base fs → (∀ e ∈ fs', e.1 ∈ g.table n port) →
    (∀ e ∈ fs', g.Known e.2) → (∀ e ∈ fs', ∀ m, g.mapId n port = some m → g.store.Lends m e.2) →
    (∀ e ∈ fs', ∀ (id : InstanceId) (i : Instance), g.instances[id]? = some i → i.owner = n →
      g.keyAt n port e.1 i.substitution = g.keyAt n port e.1 s → g.feeds n i.substitution e.1 port ≠ []) →
    (g.mergeFeeds n port s fs').Sound R hands busy ∧ g.Extends (g.mergeFeeds n port s fs') ∧
    (g.mergeFeeds n port s fs').Filling n port s base (fs ++ fs') ∧ g.Refilled (g.mergeFeeds n port s fs') n port base ∧
    ∀ c, (g.mergeFeeds n port s fs').Seen c → g.Seen c := by
  intro fs'
  induction fs' with
  | nil =>
    intro g fs hs _ _ hfill _ _ _ _
    exact ⟨hs, .refl g, by rw [List.append_nil]; exact hfill, .refl .., fun _ h => h⟩
  | cons e fs' ih =>
    intro g fs hs hn hb hfill hx hk hl hshare
    obtain ⟨y, f⟩ := e
    obtain ⟨hs', hext, hfill', href, hseen⟩ := hfill.step hs hn hb (hx _ (List.mem_cons_self ..)) (hk _ (List.mem_cons_self ..))
      (hl _ (List.mem_cons_self ..)) (hshare _ (List.mem_cons_self ..))
    -- a feed that the port may borrow keeps its channel
    have hlw : ∀ e ∈ fs', ∀ c w, e.2 = .channel c → g.store.wire? c = some w →
        (g.mergeFeed n port s y f).store.wire? c = some w := by
      intro e he c w hec hw
      obtain ⟨w', hw', -⟩ := id hn
      have hle := hl e (List.mem_cons_of_mem _ he) _ (mapId_of_wiring? hw' port)
      rw [hec] at hle
      obtain ⟨o, l, hwo, ho⟩ := hle
      rw [hw] at hwo
      cases hwo
      refine href.wires c o l hw fun hm => ?_
      rw [mapId_of_wiring? hw' port] at hm
      cases hm
      exact absurd rfl ho
    obtain ⟨hs'', hext', hfill'', href', hseen'⟩ := ih hs' (hext.inSync hn) (Nat.le_trans hb hext.next) hfill'
      (fun e he => by rw [hext.table hn]; exact hx e (List.mem_cons_of_mem _ he))
      (fun e he => hext.known (hk e (List.mem_cons_of_mem _ he)) fun c w hc => hlw e he c w hc)
      (fun e he m hm => by
        rw [hext.mapId] at hm
        have hle := hl e (List.mem_cons_of_mem _ he) m hm
        rcases hf : e.2 with c | z
        · rw [hf] at hle
          obtain ⟨o, l, hwo, ho⟩ := hle
          exact ⟨o, l, hlw e he c _ hf hwo, ho⟩
        · trivial)
      (fun e he id i hi ho hkey => by
        rw [href.recached.instances] at hi
        rw [hext.keyAt hn, hext.keyAt hn] at hkey
        have hfe := hext.feeds_eq hs hs'.wired hi port e.1
        rw [ho] at hfe
        rw [hfe]
        exact hshare e (List.mem_cons_of_mem _ he) id i hi ho hkey)
    refine ⟨hs'', hext.trans hext', ?_, href.trans href', fun c hc => hseen c (hseen' c hc)⟩
    rw [List.append_assoc, List.singleton_append] at hfill''
    exact hfill''

/-- A port at which all feeds are merged is filled. -/
theorem Filling.built (hR : Regime R) (hs : g.Sound R hands busy) (hsub : R s) (hfill : g.Filling n port s base fs)
    (hfs : ∀ x, named x fs = g.feeds n s x port)
    (hagree : ∀ x (id : InstanceId) (i : Instance), g.instances[id]? = some i → i.owner = n →
      i.substitution.AgreeOn s (g.paramsAt n port x) → g.feeds n i.substitution x port = g.feeds n s x port)
    (howned : ∀ x c, .channel c ∈ g.feeds n s x port → g.Owned n s port c) : g.Built n s port := by
  have hshown : ∀ x, g.Shown n s port x := by
    intro x
    rcases hfill.cell x with ⟨c, hc, hu⟩ | ⟨m, hm, hsh⟩
    · -- another instance has the name in common, and is faithful
      rw [hs.stocked.uses _ _ _ _ _ hc] at hu
      obtain ⟨id, i, hi, ho, hk⟩ := sharers_ne_zero.1 hu
      obtain ⟨hf, hRi⟩ := hs.faithful id i hi
      have ha := hR.keys _ _ _ hRi hsub hk
      have hb := (hf.built port).shown x
      rw [ho, Shown, hagree x id i hi ho ha, g.chan_congr ha] at hb
      exact hb
    · rw [hfs] at hsh
      exact ⟨m, hm, hsh.mono (Nat.zero_le _)⟩
  refine ⟨hshown, fun x f hf => ?_, howned⟩
  rw [← hfs, mem_named] at hf
  exact (hfill.feeds _ hf).1

end Step

end Graph

end Dataflow
