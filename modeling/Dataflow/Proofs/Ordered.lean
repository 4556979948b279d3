import Dataflow.Proofs.Keys
import Dataflow.Proofs.Passes
import Dataflow.Proofs.Plain

/-!
# Channels stay in order

Where every leaf has a key that counts as one with itself, the keys of every channel ascend in every graph that calls lead to, and the check
of their order never fails. Where a leaf may have another key, it fails: two slots under that key are neither one nor in order. A key is
good in this sense when it is finite and the tolerance is a number that is not negative.
-/

namespace Dataflow

open KeyArith

variable {ε : Float32}

namespace Store

variable {s s' : Store}

/-- A store of some tolerance whose channels are in order, under keys each of which counts as one with itself. -/
structure Ordered (ε : Float32) (s : Store) : Prop where
  tolerance : s.tolerance = ε
  ascending : ∀ c, s.isOrdered c = true
  keys : ∀ c, ∀ x ∈ s.slots c, Sequence.near ε x.key x.key = true

theorem Ordered.trims (h : s.Ordered ε) (ht : s.Trims s') : s'.Ordered ε := by
  have hslots : ∀ c, s'.slots c = s.slots c ∨ s'.slots c = [] := fun c => by
    rcases hw : s'.wire? c with _ | w
    · exact .inr (by rw [slots_eq, hw]; rfl)
    · exact .inl (by rw [slots_eq, slots_eq, hw, ht.wires c w hw])
  refine ⟨ht.tolerance.trans h.tolerance, fun c => ?_, fun c x hx => ?_⟩
  · rcases hslots c with hc | hc <;> rw [isOrdered, hc]
    · exact h.ascending c
    · rfl
  · rcases hslots c with hc | hc <;> rw [hc] at hx
    · exact h.keys c x hx
    · cases hx

theorem Ordered.addSlot (h : s.Ordered ε) (id : ChannelId) {x : Slot Float32} (hx : Sequence.near ε x.key x.key = true) :
    (s.addSlot id x).Ordered ε := by
  have hins := Sequence.ascending_insert (Float32.apart ε) hx (h.keys id) (h.ascending id)
  rw [← h.tolerance] at hins
  refine ⟨(later_addSlot s id x).tolerance.trans h.tolerance, fun c => ?_, fun c y hy => ?_⟩
  · rw [isOrdered, slots_addSlot]
    split
    · rename_i hc
      rw [hc.1]
      exact hins
    · exact h.ascending c
  · rw [slots_addSlot] at hy
    split at hy
    · rcases Sequence.key_of_mem_insert hy with he | ⟨z, hz, he⟩ <;> rw [he]
      · exact hx
      · exact h.keys c z hz
    · exact h.keys c y hy

theorem Ordered.pushChannel (h : s.Ordered ε) (m : MapId) : (s.pushChannel m).Ordered ε := by
  refine ⟨h.tolerance, fun c => ?_, fun c x hx => h.keys c x (s.slots_pushChannel c m ▸ hx)⟩
  rw [isOrdered, slots_pushChannel]
  exact h.ascending c

end Store

namespace Graph

variable {g g' : Graph}

/-- A graph whose channels are in order and stay so: every key counts as one with itself, those of leaves and that of what processes write
among them; and no channel has been found out of order. -/
structure InOrder (ε : Float32) (g : Graph) : Prop where
  store : g.store.Ordered ε
  leaves : ∀ n l, g.leaf? n = some l → Sequence.near ε l.key l.key = true
  zero : Sequence.near ε 0 0 = true
  journal : ∀ v, g.journal.violation = some v → v.invariant ≠ .sequenceOrdered

theorem InOrder.trims (h : g.InOrder ε) (ht : Trims .sequenceOrdered g g') : g'.InOrder ε := by
  refine ⟨h.store.trims ht.store, fun n l hl => ?_, h.zero, fun v hv hi => h.journal v (ht.journal.unseen v hv hi) hi⟩
  obtain ⟨l', hl', he⟩ := ht.leaves n l hl
  rw [he]
  exact h.leaves n l' hl'

/-! ## Merging -/

theorem InOrder.setChannel (h : g.InOrder ε) (n : NodeId) (port : Port) (x : String) (s : Substitution) (cell : Cell) (c : ChannelId) :
    (g.setChannel n port x s cell c).InOrder ε := h.trims (trims_modifyWiring ..)

theorem InOrder.addSlot (h : g.InOrder ε) (id : ChannelId) {x : Slot Float32} (hx : Sequence.near ε x.key x.key = true) :
    (g.addSlot id x).InOrder ε := by
  rw [Graph.addSlot]
  split
  · exact h
  · have hs := h.store.addSlot id hx
    have hadded : InOrder ε { g with store := g.store.addSlot id x } := ⟨hs, h.leaves, h.zero, h.journal⟩
    exact hadded.trims (trims_check _ (.inr (hs.ascending id)) _)

theorem InOrder.addSlots (h : g.InOrder ε) (id : ChannelId) {l : List (Slot Float32)} (hl : ∀ x ∈ l, Sequence.near ε x.key x.key = true) :
    (g.addSlots id l).InOrder ε := by
  induction l generalizing g with
  | nil => exact h
  | cons x l ih => exact ih (h.addSlot id (hl x List.mem_cons_self)) fun y hy => hl y (List.mem_cons_of_mem x hy)

theorem InOrder.createChannel (h : g.InOrder ε) (m : MapId) {l : List (Slot Float32)}
    (hl : ∀ x ∈ l, Sequence.near ε x.key x.key = true) : (g.createChannel m l).1.InOrder ε := by
  have hpushed : InOrder ε { g with store := g.store.pushChannel m } := ⟨h.store.pushChannel m, h.leaves, h.zero, h.journal⟩
  exact hpushed.addSlots _ hl

theorem InOrder.ownChannel (h : g.InOrder ε) (m : MapId) (c : ChannelId) : (g.ownChannel m c).1.InOrder ε := by
  rw [Graph.ownChannel]
  split
  · exact h
  · exact h.createChannel m (h.store.keys c)

theorem InOrder.release (h : g.InOrder ε) (c : ChannelId) (m : MapId) : InOrder ε { g with store := g.store.release c m } :=
  h.trims (trims_store (g.store.trims_release c m))

theorem InOrder.mergeChannel (h : g.InOrder ε) (n : NodeId) (port : Port) (s : Substitution) (x : String) (c : ChannelId) :
    (g.mergeChannel n port s x c).InOrder ε := by
  rw [Graph.mergeChannel]
  split
  · exact h
  · rename_i w _
    dsimp only
    split
    · exact h
    · split
      · exact h.setChannel ..
      · rename_i current _
        split
        · exact h.trims (trims_check g (.inl (by decide)) _)
        · split
          · have howned := h.ownChannel (w.map port).id current
            exact (howned.addSlots _ (howned.store.keys c)).setChannel ..
          · exact (h.release current (w.map port).id).setChannel ..

theorem InOrder.mergeSlot (h : g.InOrder ε) (n : NodeId) (port : Port) (s : Substitution) (x : String) {y : Slot Float32}
    (hy : Sequence.near ε y.key y.key = true) : (g.mergeSlot n port s x y).InOrder ε := by
  have hone : ∀ z ∈ [y], Sequence.near ε z.key z.key = true := fun z hz => by
    rw [List.mem_singleton.1 hz]
    exact hy
  rw [Graph.mergeSlot]
  split
  · exact h
  · rename_i w _
    dsimp only
    split
    · exact h
    · split
      · exact (h.createChannel (w.map port).id hone).setChannel ..
      · rename_i current _
        split
        · exact ((h.ownChannel (w.map port).id current).addSlot _ hy).setChannel ..
        · exact ((h.release current (w.map port).id).createChannel (w.map port).id hone).setChannel ..

/-- Merging puts in slots that are there, slots of leaves, and slots that processes write, whose key is zero. -/
theorem builds_inOrder (ε : Float32) : Builds fun g g' => g.InOrder ε → g'.InOrder ε where
  refl _ h := h
  trans _ _ _ h h' hi := h' (h hi)
  channels g n port s l h := by
    induction l generalizing g with
    | nil => exact h
    | cons e l ih => exact ih _ (h.mergeChannel n port s e.1 e.2)
  leaf g n s r l hl h := by
    rw [mergeLeaf]
    split
    · exact h.mergeChannel ..
    · exact h.mergeSlot _ _ _ _ (h.leaves r l hl)
    · exact h
  process g n s h := h.trims (trims_acquireProcess ..)
  slots g n s p id h := by
    have hzero : ∀ e ∈ p.slots id, e.2.key = 0 := fun e he => by
      obtain ⟨o, -, rfl⟩ := List.mem_map.1 he
      rfl
    generalize p.slots id = l at hzero ⊢
    induction l generalizing g with
    | nil => exact h
    | cons e l ih =>
      refine ih _ (h.mergeSlot n .extended s e.1 ?_) fun e' he' => hzero e' (List.mem_cons_of_mem e he')
      rw [hzero e List.mem_cons_self]
      exact h.zero
  used g n s h := h.trims (trims_markUsed ..)

/-! ## Calls -/

theorem InOrder.resolve (h : g.InOrder ε) (id : OutletId) : (g.resolve id).InOrder ε := by
  rw [Graph.resolve]
  split
  · exact h
  · split
    · exact h
    · exact h.trims (trims_refresh rfl g id _ (by decide))
    · rename_i o _ _ _
      have hbuilt := rel_rebuild (builds_inOrder ε) (i := .sequenceOrdered) rfl (fun _ _ ht hi => hi.trims ht) g id o h
      exact hbuilt.trims (trims_refresh rfl _ id _ (by decide))

/-- A call keeps a graph in order, if a key that it gives to a leaf counts as one with itself. -/
theorem InOrder.perform (h : g.InOrder ε) (c : Call) (hc : ∀ n k, c = .setKey n k → Sequence.near ε k k = true) : (g.perform c).1.InOrder ε := by
  have hi : Invariant.late .sequenceOrdered = true := rfl
  cases c with
  | createLeaf =>
    refine ⟨h.store, fun n l hl => ?_, h.zero, h.journal⟩
    change Graph.leaf? { g with nodes := g.nodes.push { kind := .leaf {} } } n = some l at hl
    rw [leaf?, node?, Arena.get?_push] at hl
    split at hl
    · cases hl
      exact h.zero
    · exact h.leaves n l hl
  | setKey n k =>
    change (g.updateLeaf n ({ · with key := k })).1.InOrder ε
    rw [updateLeaf]
    split
    · exact h
    · have hedited : (g.modifyLeaf n ({ · with key := k })).InOrder ε := by
        refine ⟨h.store, fun m l hl => ?_, h.zero, h.journal⟩
        rw [leaf?_modifyLeaf] at hl
        split at hl
        · obtain ⟨l', -, rfl⟩ := Option.map_eq_some_iff.1 hl
          exact hc n k rfl
        · exact h.leaves m l hl
      exact hedited.trims (trims_structureChanged hi ..)
  | acquireInstance n s => exact rel_acquireInstance (builds_inOrder ε) hi (fun _ _ ht hi => hi.trims ht) g n s h
  | pull r =>
    rw [Graph.perform, pull]
    rcases g.requests[r]? with _ | q
    · exact h
    · exact h.resolve q.outlet
  | pullNode n names =>
    have houtlet := trims_outletFor (i := .sequenceOrdered) g n names
    rw [Graph.perform, pullNode]
    generalize g.outletFor n names = x at houtlet ⊢
    obtain ⟨g₁, _ | id⟩ := x
    · exact h.trims houtlet
    · have hpinned : (g₁.modifyOutlet id ({ · with pinned := true })).InOrder ε := (h.trims houtlet).trims (.aside rfl rfl rfl)
      exact hpinned.resolve id
  | _ => exact h.trims (trims_perform hi g rfl)

theorem inOrder_new (registry : Registry) (config : Config) (hzero : Sequence.near config.tolerance 0 0 = true) :
    (new registry config).InOrder config.tolerance := by
  have hnone : ∀ c, (new registry config).store.channel? c = none := fun c => Std.ExtTreeMap.getElem?_empty
  refine ⟨⟨rfl, fun c => ?_, fun c x hx => ?_⟩, fun n l hl => ?_, hzero, nofun⟩
  · rw [Store.isOrdered, Store.slots, hnone]
    rfl
  · rw [Store.slots, hnone] at hx
    cases hx
  · have hl' : (new registry config).node? n = none := Std.ExtTreeMap.getElem?_empty
    rw [leaf?, hl'] at hl
    cases hl

/-- As long as leaves get keys that count as one with themselves, every call keeps a graph in order. -/
theorem InOrder.after (h : g.InOrder ε) {calls : List Call} (hk : ∀ n k, Call.setKey n k ∈ calls → Sequence.near ε k k = true) :
    (g.after calls).InOrder ε := by
  induction calls generalizing g with
  | nil => exact h
  | cons c calls ih =>
    have hsettled : g.settled.InOrder ε := ⟨h.store, h.leaves, h.zero, nofun⟩
    refine ih (hsettled.perform c fun n k he => hk n k ?_) fun n k hm => hk n k (List.mem_cons_of_mem c hm)
    rw [he]
    exact List.mem_cons_self

/-! ## Keys that clash -/

/-- A slot that is put beside the one of a channel, and neither key is less than the other, is found out of order. -/
theorem violation_mergeSlot {n : NodeId} {w : Wiring} {port : Port} {s : Substitution} {x : String} {c : ChannelId} {ch : Channel}
    {y z : Slot Float32} (hw : g.wiring? n = some w) (hcell : (w.map port).cell? x s = some ⟨some c, 0⟩)
    (hch : g.store.channel? c = some ch) (howner : ch.owner = (w.map port).id) (hslots : ch.slots = [y])
    (htype : (g.store.entryAt? y.entry).map (·.type) = (g.store.entryAt? z.entry).map (·.type))
    (hnear : Sequence.near g.store.tolerance y.key z.key = false) (hlt : lt z.key y.key = false) (hgt : lt y.key z.key = false)
    (hv : g.journal.violation = none) : (g.mergeSlot n port s x z).journal.violation = some ⟨.sequenceOrdered, "add_slot"⟩ := by
  have hsl : g.store.slots c = [y] := by
    rw [Store.slots, hch, Option.map_some, hslots]
    rfl
  have hmerges : g.store.mergesSlot c z = true := by
    have ht : g.store.typeOf? c = (g.store.entryAt? z.entry).map (·.type) := by
      rw [Store.typeOf?, hsl]
      exact htype
    simp only [Store.mergesSlot, hch, hslots, ht, ne_eq, not_true_eq_false, if_false, hnear, Bool.not_false]
  have hown : g.ownChannel (w.map port).id c = (g, c) := by
    rw [ownChannel, hch]
    exact if_pos (decide_eq_true howner)
  have hordered : (g.store.addSlot c z).isOrdered c = false := by
    rw [Store.isOrdered, Store.slots_addSlot, if_pos ⟨rfl, by rw [hch]; rfl⟩, hsl, Sequence.insert, hnear, hlt]
    simp only [Bool.false_eq_true, if_false, Sequence.insert, Sequence.ascending, hgt, Bool.false_and]
  have hadd : (g.addSlot c z).journal.violation = some ⟨.sequenceOrdered, "add_slot"⟩ := by
    simp only [addSlot, hch, hordered, Option.isNone_some, Bool.false_eq_true, if_false, check, Journal.check, hv, Option.isSome_none]
  simp only [mergeSlot, hw, hcell, Option.getD_some, ne_eq, not_true_eq_false, if_false, hmerges, if_true, hown]
  exact hadd

/-- What was found violated when the two leaves of a node were merged stands when its instance has been made. -/
theorem violation_acquireInstance {n a b : NodeId} {d : DataNode} {s : Substitution} {la lb : Leaf} {v : Violation}
    (hd : (g.synchronize n).data? n = some d) (hi : d.wiring.instances[(s.restrict d.wiring.params).fullKey]? = none)
    (hs : d.source = none) (hc : d.children = [a, b]) (ha : (g.synchronize n).leaf? a = some la) (hb : (g.synchronize n).leaf? b = some lb)
    (hv : (mergeLeaf n (s.restrict d.wiring.params) (mergeLeaf n (s.restrict d.wiring.params) (g.synchronize n).drawId.1 la)
      lb).journal.violation = some v) : (g.acquireInstance n s).1.journal.violation = some v := by
  have ha' : (g.synchronize n).drawId.1.leaf? a = some la := ha
  generalize hsub : s.restrict d.wiring.params = t at hi hv
  have hb' : (mergeLeaf n t (g.synchronize n).drawId.1 la).leaf? b = some lb := ((derives_mergeLeaf ..).derived.rewired.leaf? b).trans hb
  have hmerged : ∀ acquire, mergeInputs acquire n t (g.synchronize n).drawId.1 d =
      (mergeLeaf n t (mergeLeaf n t (g.synchronize n).drawId.1 la) lb, []) := by
    intro acquire
    rw [mergeInputs, hs, hc]
    simp only [List.foldl_cons, List.foldl_nil, ha', hb']
  rw [acquireInstance, acquireWithin]
  simp only [hd, hsub, hi, Option.bind_none, build, hmerged]
  -- from here on the violation is kept
  have hprocess := (builds_passes.process (mergeLeaf n t (mergeLeaf n t (g.synchronize n).drawId.1 la) lb) n t).kept v hv
  refine (trims_remember (i := .resultResolved) ..).journal.kept v ((builds_passes.used ..).kept v ((builds_passes.channels ..).kept v ?_))
  exact (rel_acquireTemplate builds_passes (passes_acquireWithin _) ..).kept v ((rel_mergeExtended builds_passes ..).kept v hprocess)

/-- Two leaves with one entry under one node, and the key that both get, if they do. -/
def clashingCalls (key : Option Float32) : List Call :=
  [.createData false, .createLeaf, .createLeaf, .createPayload .float (.floats [1]), .setData 1 (some 0), .setData 2 (some 0)] ++
    (key.toList.flatMap fun k => [.setKey 1 k, .setKey 2 k]) ++ [.appendChild 0 1, .appendChild 0 2]

/-- Leaves get no other key than that one. -/
theorem eq_of_setKey_mem {key : Option Float32} {n : NodeId} {k : Float32} (h : Call.setKey n k ∈ clashingCalls key) : key = some k := by
  rcases key with _ | k'
  · simp [clashingCalls] at h
  · rw [clashingCalls] at h
    simp only [Option.toList_some, List.flatMap_cons, List.flatMap_nil, List.append_nil, List.cons_append, List.nil_append, List.mem_cons,
      reduceCtorEq, Call.setKey.injEq, List.not_mem_nil, false_or, or_false] at h
    rcases h with ⟨-, rfl⟩ | ⟨-, rfl⟩ <;> rfl

section Clash

variable (registry : Registry) (config : Config) (key : Option Float32)

/-- The graph of the two leaves, about to be merged. -/
def poisedGraph : Graph := ((new registry config).after (clashingCalls key)).settled.synchronize 0

/-- The graph in which the first leaf is merged. -/
def halfMergedGraph : Graph := mergeLeaf 0 .empty (poisedGraph registry config key).drawId.1 { key := key.getD 0, entry := some 0 }

theorem poisedGraph_nodes :
    ((poisedGraph registry config key).data? 0).map (fun d =>
      (d.source, d.children, d.wiring.instances[(Substitution.empty.restrict d.wiring.params).fullKey]?)) = some (none, [1, 2], none) ∧
    (poisedGraph registry config key).leaf? 1 = some { key := key.getD 0, entry := some 0 } ∧
    (poisedGraph registry config key).leaf? 2 = some { key := key.getD 0, entry := some 0 } := by
  rcases key with _ | k
  · exact ⟨by cbv, by cbv, by cbv⟩
  · exact ⟨by cbv, by cbv, by cbv⟩

theorem halfMergedGraph_store :
    (halfMergedGraph registry config key).journal.violation = none ∧
    (halfMergedGraph registry config key).store.tolerance = config.tolerance ∧
    (halfMergedGraph registry config key).store.channel? 0 = some { owner := 1, slots := [{ entry := 0, key := key.getD 0 }] } ∧
    ((halfMergedGraph registry config key).wiring? 0).map (fun w => (w.input.id, w.input.cell? "" .empty)) = some (1, some ⟨some 0, 0⟩) := by
  rcases key with _ | k
  · exact ⟨by cbv, by cbv, by cbv, by cbv⟩
  · exact ⟨by cbv, by cbv, by cbv, by cbv⟩

/-- Two slots under a key that does not count as one with itself are found out of order. -/
theorem violation_clashingCalls (hk : Sequence.near config.tolerance (key.getD 0) (key.getD 0) = false) :
    ((new registry config).after (clashingCalls key ++ [.acquireInstance 0 .empty])).journal.violation =
      some ⟨.sequenceOrdered, "add_slot"⟩ := by
  obtain ⟨hd, ha, hb⟩ := poisedGraph_nodes registry config key
  obtain ⟨hv, ht, hch, hw⟩ := halfMergedGraph_store registry config key
  obtain ⟨d, hd, he⟩ := Option.map_eq_some_iff.1 hd
  obtain ⟨hs, hc, hi⟩ : d.source = none ∧ d.children = [1, 2] ∧
    d.wiring.instances[(Substitution.empty.restrict d.wiring.params).fullKey]? = none := by simpa using he
  obtain ⟨w, hw, he⟩ := Option.map_eq_some_iff.1 hw
  obtain ⟨hid, hcell⟩ := Prod.mk.inj he
  rw [after_append, after_cons, after_nil]
  refine violation_acquireInstance (g := ((new registry config).after (clashingCalls key)).settled) hd hi hs hc ha hb ?_
  rw [Substitution.restrict_empty]
  exact violation_mergeSlot (g := halfMergedGraph registry config key) (w := w) hw (hcell : (w.map .input).cell? "" .empty = _) hch hid.symm rfl rfl (ht ▸ hk)
    (Float32.lt_irrefl _) (Float32.lt_irrefl _) hv

end Clash

/-- Channels stay in order, and no check of their order fails, exactly when every key that leaves get is finite and the tolerance is a number
that is not negative. -/
theorem sequences_stay_in_order_iff (config : Config) (keys : Float32 → Prop) :
    (∀ registry calls, (∀ n k, Call.setKey n k ∈ calls → keys k) →
      (∀ c, ((new registry config).after calls).store.isOrdered c = true) ∧
      ∀ v, ((new registry config).after calls).journal.violation = some v → v.invariant ≠ .sequenceOrdered) ↔
    0 ≤ config.tolerance ∧ ∀ k, keys k → k.isFinite = true := by
  constructor
  · intro h
    have hgood : ∀ key : Option Float32, (∀ k, key = some k → keys k) → Sequence.near config.tolerance (key.getD 0) (key.getD 0) = true := by
      intro key hkey
      by_contra hbad
      have hkeys : ∀ n k, Call.setKey n k ∈ clashingCalls key ++ [.acquireInstance 0 .empty] → keys k := fun n k hm => by
        rcases List.mem_append.1 hm with hm | hm
        · exact hkey k (eq_of_setKey_mem hm)
        · cases List.mem_singleton.1 hm
      have hclash := violation_clashingCalls Registry.empty config key (Bool.eq_false_iff.2 hbad)
      exact (h Registry.empty _ hkeys).2 ⟨.sequenceOrdered, "add_slot"⟩ hclash rfl
    refine ⟨(Float32.near_self_iff.1 (hgood none nofun)).2, fun k hk => ?_⟩
    exact (Float32.near_self_iff.1 (hgood (some k) fun k' h' => Option.some.inj h' ▸ hk)).1
  · rintro ⟨hε, hfinite⟩ registry calls hcalls
    have hin := (inOrder_new registry config (Float32.near_self_iff.2 ⟨rfl, hε⟩)).after fun n k hk =>
      Float32.near_self_iff.2 ⟨hfinite k (hcalls n k hk), hε⟩
    exact ⟨hin.store.ascending, hin.journal⟩

/-- Two leaves under a key that is not a number: pulling what they feed finds their channel out of order. -/
theorem nan_keys_break_order :
    ((new Registry.empty {}).after (clashingCalls (some .nan) ++ [.createRequest 0 [], .pull 2])).journal.violation =
      some ⟨.sequenceOrdered, "add_slot"⟩ ∧
    ((new Registry.empty {}).after (clashingCalls (some .nan) ++ [.createRequest 0 [], .pull 2])).store.isOrdered 0 = false := by
  decide +kernel

end Graph

end Dataflow
