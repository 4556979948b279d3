import Dataflow.Proofs.Acquire
import Dataflow.Proofs.Derived
import Dataflow.Proofs.Merging
import Dataflow.Proofs.Staffed

/-!
# Channels that are lent on

A channel that is merged at a port under a name that has none there is not copied: the name takes it over. So a node that only passes one
node on, with no computation and no template, makes no channel of its own when an instance of it is built. What comes in is taken over at
the input, what came in at the extended port, and what the filter passes on of that at the output, as long as it passes on one name at
most under each.
-/

namespace Dataflow

/-- The filter passes on at most one name under each. -/
def Filter.Single (f : Filter) : Prop := ∀ x, (sources (some f) x).length ≤ 1

namespace Graph

variable {g g' : Graph} {n c : NodeId} {port : Port} {s : Substitution} {f : Filter} {x : String} {ch : ChannelId}

/-! ## Merging channels under names that have none -/

/-- Channels were merged at a port under names that had none there, and nothing else has changed: each such name has the channel that was
merged under it. -/
structure Lent (g g' : Graph) (n : NodeId) (port : Port) (s : Substitution) (l : List (String × ChannelId)) : Prop where
  rest : ∃ nodes, g' = { g with nodes }
  derives : g.Derives g'
  node : ∀ m, m ≠ n → g'.node? m = g.node? m
  params : ∀ q x, g'.paramsAt n q x = g.paramsAt n q x
  cells : ∀ q x k cell, g'.cell? n q x k = some cell ↔ g.cell? n q x k = some cell ∨
    (q = port ∧ k = g.keyAt n port x s ∧ g.cell? n q x k = none ∧ ∃ c, (x, c) ∈ l ∧ cell = ⟨some c, 0⟩)

theorem wiring?_setChannel {w : Wiring} (hw : g.wiring? n = some w) (cell : Cell) :
    (g.setChannel n port x s cell ch).wiring? n =
      some (w.setMap port ((w.map port).setCell x s { cell with channel := some ch })) := by
  rw [setChannel, wiring?_modifyWiring, if_pos rfl, hw]
  rfl

/-- Setting a channel leaves the parameters of all names. -/
theorem paramsAt_setChannel {w : Wiring} (hw : g.wiring? n = some w) (cell : Cell) (q : Port) (y : String) :
    (g.setChannel n port x s cell ch).paramsAt n q y = g.paramsAt n q y := by
  rw [paramsAt_of_wiring? (wiring?_setChannel hw cell), paramsAt_of_wiring? hw, Wiring.map_setMap]
  by_cases hq : q = port
  · rw [if_pos hq, hq, ChannelMap.params_setCell]
  · rw [if_neg hq]

theorem Lent.keyAt {l : List (String × ChannelId)} (h : g.Lent g' n port s l) (q : Port) (x : String) :
    g'.keyAt n q x s = g.keyAt n q x s := by
  rw [Graph.keyAt, h.params, Graph.keyAt]

theorem Lent.isSome_wiring? {l : List (String × ChannelId)} (h : g.Lent g' n port s l) (m : NodeId) :
    (g'.wiring? m).isSome = (g.wiring? m).isSome := by
  rw [wiring?, Option.isSome_map, h.derives.derived.rewired.isSome_data?, wiring?, Option.isSome_map]

/-- Merging under one name whose cell is in use, if there is one. -/
theorem lent_mergeChannel (hw : (g.wiring? n).isSome)
    (hused : ∀ cell, g.cell? n port x (g.keyAt n port x s) = some cell → cell.uses ≠ 0) :
    g.Lent (g.mergeChannel n port s x ch) n port s [(x, ch)] := by
  obtain ⟨w, hw⟩ := Option.isSome_iff_exists.1 hw
  rcases hcell : g.cell? n port x (g.keyAt n port x s) with _ | cell
  · have hmerge : g.mergeChannel n port s x ch = g.setChannel n port x s {} ch := by
      rw [cell?_of_wiring? hw, keyAt_of_wiring? hw, ← ChannelMap.cell?_eq] at hcell
      simp only [mergeChannel, hw, hcell]
      rfl
    rw [hmerge]
    refine ⟨⟨_, rfl⟩, derives_setChannel .., fun m hm => (node?_modifyData ..).trans (if_neg hm), paramsAt_setChannel hw {}, fun q y k cell => ?_⟩
    rw [cell?_setChannel hw]
    by_cases hat : q = port ∧ y = x ∧ k = g.keyAt n port x s
    · obtain ⟨rfl, rfl, rfl⟩ := hat
      simp [hcell, eq_comm]
    · have hone : ¬ (n = n ∧ q = port ∧ y = x ∧ k = g.keyAt n port x s) := fun h => hat h.2
      rw [if_neg hone]
      refine ⟨Or.inl, fun h => h.resolve_right ?_⟩
      rintro ⟨hq, hk, -, c, hc, -⟩
      obtain ⟨rfl, -⟩ := Prod.mk.inj (List.mem_singleton.1 hc)
      exact hat ⟨hq, rfl, hk⟩
  · have hmerge : g.mergeChannel n port s x ch = g := mergeFeed_of_used hcell (hused cell hcell) (.channel ch)
    rw [hmerge]
    refine ⟨⟨g.nodes, rfl⟩, .refl g, fun _ _ => rfl, fun _ _ => rfl, fun q y k cell' => ⟨Or.inl, fun h => h.resolve_right ?_⟩⟩
    rintro ⟨rfl, rfl, hnone, c, hc, -⟩
    obtain ⟨rfl, -⟩ := Prod.mk.inj (List.mem_singleton.1 hc)
    rw [hcell] at hnone
    cases hnone

/-- Merging under some names and then under others. -/
theorem Lent.trans {g₁ g₂ : Graph} {l₁ l₂ : List (String × ChannelId)} (h : g.Lent g₁ n port s l₁) (h' : g₁.Lent g₂ n port s l₂)
    (hl : ∀ x c c', (x, c) ∈ l₁ → (x, c') ∉ l₂) : g.Lent g₂ n port s (l₁ ++ l₂) := by
  refine ⟨?_, h.derives.trans h'.derives, fun m hm => (h'.node m hm).trans (h.node m hm),
    fun q x => (h'.params q x).trans (h.params q x), fun q x k cell => ?_⟩
  · obtain ⟨nodes, rfl⟩ := h.rest
    obtain ⟨nodes', he⟩ := h'.rest
    exact ⟨nodes', he⟩
  rw [h'.cells, h.cells, h.keyAt]
  constructor
  · rintro ((hc | ⟨hq, hk, hnone, c, hc, he⟩) | ⟨hq, hk, hnone, c, hc, he⟩)
    · exact Or.inl hc
    · exact Or.inr ⟨hq, hk, hnone, c, List.mem_append_left _ hc, he⟩
    · refine Or.inr ⟨hq, hk, ?_, c, List.mem_append_right _ hc, he⟩
      rcases hold : g.cell? n q x k with _ | cell'
      · rfl
      · rw [(h.cells q x k cell').2 (Or.inl hold)] at hnone
        cases hnone
  · rintro (hc | ⟨hq, hk, hnone, c, hc, he⟩)
    · exact Or.inl (Or.inl hc)
    · rcases List.mem_append.1 hc with hc | hc
      · exact Or.inl (Or.inr ⟨hq, hk, hnone, c, hc, he⟩)
      · refine Or.inr ⟨hq, hk, ?_, c, hc, he⟩
        rcases hnew : g₁.cell? n q x k with _ | cell'
        · rfl
        · rcases (h.cells q x k cell').1 hnew with hold | ⟨-, -, -, c', hc', -⟩
          · rw [hnone] at hold
            cases hold
          · exact absurd hc (hl x c' c hc')

/-- Merging a channel under each of some names whose cells at the port are in use, if there are any. -/
theorem lent_mergeChannels {l : List (String × ChannelId)} (hl : (l.map (·.1)).Nodup) (hw : (g.wiring? n).isSome)
    (hused : ∀ x ∈ l.map (·.1), ∀ cell, g.cell? n port x (g.keyAt n port x s) = some cell → cell.uses ≠ 0) :
    g.Lent (g.mergeChannels n port s l) n port s l := by
  induction l generalizing g with
  | nil => exact ⟨⟨g.nodes, rfl⟩, .refl g, fun _ _ => rfl, fun _ _ => rfl, fun q x k cell => by simp [mergeChannels]⟩
  | cons e l ih =>
    obtain ⟨y, c⟩ := e
    obtain ⟨hy, hl⟩ := List.nodup_cons.1 hl
    have hfirst : g.Lent (g.mergeChannel n port s y c) n port s [(y, c)] := lent_mergeChannel hw (hused y (List.mem_cons_self ..))
    have hsome : ((g.mergeChannel n port s y c).wiring? n).isSome := by
      rw [hfirst.isSome_wiring?]
      exact hw
    refine hfirst.trans (ih hl hsome fun x hx cell hcell => ?_) fun x c' c'' hc hc' => ?_
    · rw [hfirst.keyAt, hfirst.cells] at hcell
      rcases hcell with hcell | ⟨-, -, -, c', hc', -⟩
      · exact hused x (List.mem_cons_of_mem _ hx) cell hcell
      · obtain ⟨rfl, -⟩ := Prod.mk.inj (List.mem_singleton.1 hc')
        exact absurd hx hy
    · obtain ⟨rfl, -⟩ := Prod.mk.inj (List.mem_singleton.1 hc)
      exact hy (List.mem_map.2 ⟨_, hc', rfl⟩)

/-- The other ports keep their cells. -/
theorem Lent.cell?_of_ne {l : List (String × ChannelId)} (h : g.Lent g' n port s l) {q : Port} (hq : q ≠ port) (x k : String) :
    g'.cell? n q x k = g.cell? n q x k := by
  refine Option.ext fun cell => ?_
  rw [h.cells]
  exact ⟨fun hc => hc.resolve_right fun hc => hq hc.1, Or.inl⟩

/-- Where there were no cells, names have the channels that were merged under them. -/
theorem Lent.chan_iff {l : List (String × ChannelId)} (h : g.Lent g' n port s l) (hblank : ∀ x k, g.cell? n port x k = none) :
    g'.chan n port x s = some ch ↔ (x, ch) ∈ l := by
  rw [chan, h.keyAt, Option.bind_eq_some_iff]
  constructor
  · rintro ⟨cell, hcell, hch⟩
    rcases (h.cells port x _ cell).1 hcell with hold | ⟨-, -, -, c, hc, rfl⟩
    · rw [hblank] at hold
      cases hold
    · cases hch
      exact hc
  · intro hc
    exact ⟨⟨some ch, 0⟩, (h.cells port x _ _).2 (Or.inr ⟨rfl, rfl, hblank x _, ch, hc, rfl⟩), rfl⟩

/-! ## What building leaves to the other nodes -/

/-- Another node than `n` keeps its channels if it is in sync, and its instances in any case; nothing is created, and the designs stay. -/
structure Apart (g g' : Graph) (n : NodeId) : Prop where
  store : g'.store = g.store
  processes : g'.processes = g.processes
  design : ∀ m, g'.design? m = g.design? m
  wiring : ∀ m, m ≠ n → g.InSync m → g'.wiring? m = g.wiring? m
  memo : ∀ m, m ≠ n → ∀ k, g'.instanceAt? m k = g.instanceAt? m k

theorem Apart.trans {g₁ g₂ : Graph} (h : g.Apart g₁ n) (h' : g₁.Apart g₂ n) : g.Apart g₂ n := by
  refine ⟨h'.store.trans h.store, h'.processes.trans h.processes, fun m => (h'.design m).trans (h.design m), fun m hm hs => ?_,
    fun m hm k => (h'.memo m hm k).trans (h.memo m hm k)⟩
  have hw := h.wiring m hm hs
  have hs₁ : g₁.InSync m := by
    rw [InSync, hw]
    exact hs
  exact (h'.wiring m hm hs₁).trans hw

/-- The other nodes are the same. -/
theorem apart_of_node (hstore : g'.store = g.store) (hp : g'.processes = g.processes) (hd : ∀ m, g'.design? m = g.design? m)
    (hn : ∀ m, m ≠ n → g'.node? m = g.node? m) : g.Apart g' n := by
  have hw : ∀ m, m ≠ n → g'.wiring? m = g.wiring? m := fun m hm => by rw [wiring?, data?, hn m hm, wiring?, data?]
  exact ⟨hstore, hp, hd, fun m hm _ => hw m hm, fun m hm k => by rw [instanceAt?, hw m hm, instanceAt?]⟩

theorem Lent.apart {l : List (String × ChannelId)} (h : g.Lent g' n port s l) : g.Apart g' n := by
  have hdesign := h.derives.derived.rewired.design?
  obtain ⟨nodes, rfl⟩ := h.rest
  exact apart_of_node rfl rfl hdesign h.node

/-! ## Building a relay -/

theorem operation?_of_compute {d : Design} (hd : g.design? n = some d) (hc : d.compute = none) : g.operation? n = none := by
  obtain ⟨e, he, rfl⟩ := Option.map_eq_some_iff.1 hd
  have hnone : e.compute = none := hc
  rw [operation?, he, Option.bind_some, hnone]

/-- A filter that passes on at most one name under each selects a name at most once. -/
theorem nodup_selectChannels (hf : f.Single) (channels : NameMap ChannelId) :
    ((selectChannels (some f) channels).map (·.1)).Nodup := by
  refine List.nodup_iff_count_le_one.2 fun x => ?_
  have hnamed := congrArg List.length (named_selected (some f) channels x)
  have hle := List.length_filterMap_le (fun y => (channels[y]?).map Feed.channel) (Filter.sources (some f) x)
  rw [← hnamed, named, List.length_map, List.filter_map, List.length_map, ← List.countP_eq_length_filter] at hle
  rw [List.count_eq_countP, List.countP_map]
  exact Nat.le_trans hle (hf x)

theorem mem_selectChannels_iff {f : Option Filter} {channels : NameMap ChannelId} :
    (x, ch) ∈ selectChannels f channels ↔ ∃ y ∈ Filter.sources f x, channels[y]? = some ch := by
  refine ⟨mem_selectChannels, fun ⟨y, hy, hc⟩ => ?_⟩
  have hnamed : Feed.channel ch ∈ named x ((selectChannels f channels).map fun e => (e.1, .channel e.2)) := by
    rw [named_selected, List.mem_filterMap]
    exact ⟨y, hy, by rw [hc]; rfl⟩
  obtain ⟨⟨z, c⟩, hmem, he⟩ := List.mem_map.1 (mem_named.1 hnamed)
  cases he
  exact hmem

/-- What flows into a relay is what the node below it exposes. -/
theorem mergeInputs_relay {acquire : Acquire} {d : DataNode} {g₁ : Graph} {j : InstanceId} (hd : inflow d.design = [c])
    (hleaf : g.leaf? c = none) (hacq : acquire g c s = (g₁, some j)) :
    mergeInputs acquire n s g d = (g₁.mergeChannels n .input s (g₁.finalChannels c s), [j]) := by
  have hout : mergeOutputs acquire n s g c = (g₁.mergeChannels n .input s (g₁.finalChannels c s), [j]) := by
    rw [mergeOutputs, hacq]
  rw [inflow] at hd
  rw [mergeInputs]
  rcases hsource : d.source with _ | r
  · have hchildren : d.children = [c] := by
      rw [show d.design.source = none from hsource] at hd
      exact hd
    simp only [hchildren, List.foldl_cons, List.foldl_nil, hleaf, hout, List.nil_append]
  · rw [show d.design.source = some r from hsource] at hd
    obtain rfl : r = c := (List.cons.inj hd).1
    exact hout

/-- Widening a relay creates nothing. If it had no cells, its extended port shows what the node below it exposes. -/
theorem widen_relay {acquire : Acquire} {d : DataNode} {j : InstanceId} {instances : IdMap Instance} {journal : Journal}
    (hd : g.data? n = some d) (hin : inflow d.design = [c]) (hcompute : d.compute = none) (hleaf : g.leaf? c = none)
    (hacq : acquire g c s = ({ g with instances, journal }, some j))
    (hused : ∀ port x k cell, g.cell? n port x k = some cell → cell.uses ≠ 0) :
    ∃ g' : Graph, widen acquire g n d s = (g', [j], none) ∧ g.Apart g' n ∧ (g'.wiring? n).isSome ∧
      (∀ x k, g'.cell? n .output x k = g.cell? n .output x k) ∧
      ((∀ port x k, g.cell? n port x k = none) → ∀ y ch, g'.chan n .extended y s = some ch ↔ g.chan c .output y s = some ch) := by
  -- what comes in
  obtain ⟨g₁, hg₁⟩ : ∃ g₁ : Graph, g₁ = { g with instances, journal } := ⟨_, rfl⟩
  have hapart₁ : g.Apart g₁ n := by
    rw [hg₁]
    exact apart_of_node rfl rfl (fun _ => rfl) fun _ _ => rfl
  have hcell₁ : ∀ port x k, g₁.cell? n port x k = g.cell? n port x k := fun port x k => by rw [hg₁]; rfl
  have hsome₁ : (g₁.wiring? n).isSome := by
    rw [hg₁]
    exact Option.isSome_iff_exists.2 ⟨_, wiring?_of_data? hd⟩
  have hinput := mergeInputs_relay (n := n) (s := s) hin hleaf hacq
  rw [← hg₁] at hinput
  have hlent₂ : g₁.Lent (g₁.mergeChannels n .input s (g₁.finalChannels c s)) n .input s (g₁.finalChannels c s) :=
    lent_mergeChannels (nodup_finalChannels s) hsome₁ fun x _ cell hc => hused .input x _ cell (hcell₁ .. ▸ hc)
  generalize g₁.mergeChannels n .input s (g₁.finalChannels c s) = g₂ at hinput hlent₂
  have hcell₂ : ∀ port, port ≠ .input → ∀ x k, g₂.cell? n port x k = g.cell? n port x k := fun port hp x k =>
    (hlent₂.cell?_of_ne hp x k).trans (hcell₁ ..)
  have hsome₂ : (g₂.wiring? n).isSome := hlent₂.isSome_wiring? n ▸ hsome₁
  -- there is no process, so what it extends is what came in
  have hprocess : g₂.acquireProcess n s = (g₂, none) :=
    acquireProcess_none (operation?_of_compute (((hapart₁.trans hlent₂.apart).design n).trans (design?_of_data? hd)) hcompute)
  have hextended : g₂.mergeExtended n s none = g₂.mergeChannels n .extended s (((g₂.wiring? n).map (·.input.resolve s)).getD []) := rfl
  have hlent₃ : g₂.Lent (g₂.mergeExtended n s none) n .extended s (((g₂.wiring? n).map (·.input.resolve s)).getD []) := by
    rw [hextended]
    refine lent_mergeChannels (nodup_resolve_of g₂ n .input s) hsome₂ fun x _ cell hc => ?_
    exact hused .extended x _ cell (hcell₂ .extended (by decide) x _ ▸ hc)
  refine ⟨g₂.mergeExtended n s none, ?_, (hapart₁.trans hlent₂.apart).trans hlent₃.apart, hlent₃.isSome_wiring? n ▸ hsome₂, fun x k => ?_,
    fun hblank y ch => ?_⟩
  · rw [widen]
    simp only [hinput, hprocess]
  · exact (hlent₃.cell?_of_ne (show Port.output ≠ .extended by decide) x k).trans (hcell₂ .output (by decide) x k)
  · have hresolved : (y, ch) ∈ ((g₂.wiring? n).map (·.input.resolve s)).getD [] ↔ g₂.chan n .input y s = some ch :=
      @mem_resolve_of g₂ n s .input y ch
    rw [hlent₃.chan_iff fun x k => (hcell₂ .extended (by decide) x k).trans (hblank ..), hresolved,
      hlent₂.chan_iff fun x k => (hcell₁ ..).trans (hblank ..), mem_finalChannels, hg₁]
    rfl

/-- Building a relay creates nothing. If it had no cells, it exposes what its filter passes on of what the node below it exposes. -/
theorem build_relay {acquire : Acquire} {d : DataNode} {j : InstanceId} {instances : IdMap Instance} {journal : Journal} (hf : f.Single)
    (hd : g.data? n = some d) (hin : inflow d.design = [c]) (hproto : d.proto = none) (hcompute : d.compute = none)
    (hfilter : d.filter = some f) (hleaf : g.leaf? c = none) (hacq : acquire g c s = ({ g with instances, journal }, some j))
    (hused : ∀ port x k cell, g.cell? n port x k = some cell → cell.uses ≠ 0) :
    ∃ g' : Graph, build acquire g n d s s.fullKey = (g'.markUsed n s, assembled n s [j] none none) ∧ g.Apart g' n ∧
      ((∀ port x k, g.cell? n port x k = none) →
        ∀ x ch, g'.chan n .output x s = some ch ↔ ∃ y ∈ Filter.sources (some f) x, g.chan c .output y s = some ch) := by
  obtain ⟨g₁, hwiden, hapart, hsome, hcell, hextended⟩ := widen_relay hd hin hcompute hleaf hacq hused
  have htemplate : acquireTemplate acquire g₁ d (g₁.derived n s) = (g₁, none, []) := by
    rw [acquireTemplate, hproto]
  -- the filter selects
  obtain ⟨channels, hchannels⟩ : ∃ channels : NameMap ChannelId, channels =
      Dataflow.tableOf ((((g₁.wiring? n).map (·.extended.resolve s)).getD []) ++ []) := ⟨_, rfl⟩
  have hlent : g₁.Lent (g₁.mergeChannels n .output s (selectChannels (some f) channels)) n .output s (selectChannels (some f) channels) :=
    lent_mergeChannels (nodup_selectChannels hf channels) hsome fun x _ cell hc => hused .output x _ cell (hcell x _ ▸ hc)
  refine ⟨_, ?_, hapart.trans hlent.apart, fun hblank x ch => ?_⟩
  · rw [build_eq acquire g n d s hwiden htemplate, ← hchannels, hfilter]
  · rw [hlent.chan_iff fun x k => (hcell x k).trans (hblank ..), mem_selectChannels_iff]
    refine exists_congr fun y => and_congr_right fun _ => ?_
    have hshown : channels[y]? = g₁.chan n .extended y s := by
      rw [hchannels, List.append_nil]
      exact get?_derived g₁ n s y
    rw [hshown]
    exact hextended hblank y ch

end Graph

end Dataflow
