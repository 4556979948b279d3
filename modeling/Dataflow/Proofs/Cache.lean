import Dataflow.Proofs.Posted

/-!
# The structural cache

What a data node caches of its structure are tables that a recursion over the authored graph gives: the tables of a node are made of its
design, its leaves and the tables of the data nodes that it refers to. Whatever calls led to a graph, a data node in sync has these
tables, and all below it are in sync; and a data node out of sync has nothing cached, and all above it are out of sync.
-/

namespace Dataflow

/-- The table of what comes into a node of a design, given the leaves and what the data nodes expose. -/
def Design.inputTable (D : Design) (leaf? : NodeId → Option Leaf) (exposed : NodeId → ParamTable) : ParamTable :=
  match D.source with
  | some r => ParamTable.merge ∅ (exposed r)
  | none => D.children.foldl
    (fun t c => match leaf? c with
      | some l => l.addTo t
      | none => t.merge (exposed c)) ∅

theorem Design.inputTable_congr {D : Design} {leaf? leaf?' : NodeId → Option Leaf} {f f' : NodeId → ParamTable}
    (hl : ∀ r ∈ Graph.inflow D, leaf?' r = leaf? r) (h : ∀ r ∈ Graph.inflow D, f' r = f r) : D.inputTable leaf?' f' = D.inputTable leaf? f := by
  rw [inputTable, inputTable]
  rcases hs : D.source with _ | r
  · rw [Graph.inflow, hs] at hl h
    dsimp only at hl h ⊢
    generalize (∅ : ParamTable) = t
    revert hl h t
    induction D.children with
    | nil => exact fun _ _ _ => rfl
    | cons a l ih =>
      intro hl h t
      rw [List.foldl_cons, List.foldl_cons, hl a (List.mem_cons_self ..), h a (List.mem_cons_self ..)]
      exact ih (fun r hr => hl r (List.mem_cons_of_mem _ hr)) (fun r hr => h r (List.mem_cons_of_mem _ hr)) _
  · rw [Graph.inflow, hs] at h
    dsimp only
    rw [h r (List.mem_singleton_self r)]

namespace Graph

variable {g g' : Graph} {n m : NodeId}

/-- The tables of a data node as its design, its leaves and the tables of the data nodes that it refers to make them, down to `k` nodes
below one another. Nothing that is cached counts for them. -/
def tablesWithin : Nat → Graph → NodeId → Tables
  | 0, _, _ => .blank
  | k + 1, g, n =>
    match g.data? n with
    | none => .blank
    | some d => d.tables (g.operatorOf d) (d.design.inputTable g.leaf? fun r => (tablesWithin k g r).output)
      (d.proto.map fun p => (tablesWithin k g p).output)

/-- The tables of a data node that the authored graph gives. No node is below itself, so no more can be below one another than there are. -/
def authoredTables (g : Graph) (n : NodeId) : Tables := tablesWithin (g.nodes.size + 1) g n

/-- The recursion step: equal tables below make equal tables. -/
theorem tables_step_congr {d : DataNode} {leaf? leaf?' : NodeId → Option Leaf} {op : Option Operator} {f f' : NodeId → ParamTable}
    (hl : ∀ r ∈ d.references, leaf?' r = leaf? r) (h : ∀ r ∈ d.references, f' r = f r) :
    d.tables op (d.design.inputTable leaf?' f') (d.proto.map f') = d.tables op (d.design.inputTable leaf? f) (d.proto.map f) := by
  have hin : d.design.inputTable leaf?' f' = d.design.inputTable leaf? f :=
    Design.inputTable_congr (fun r hr => hl r (mem_references_of_mem_inflow hr)) fun r hr => h r (mem_references_of_mem_inflow hr)
  have hproto : d.proto.map f' = d.proto.map f := by
    rcases hp : d.proto with _ | p
    · rfl
    · rw [Option.map_some, Option.map_some, h p (mem_references_of_proto (d := d.design) hp)]
  rw [hin, hproto]

/-- Once there is room for all nodes below, more room makes no difference. -/
theorem tablesWithin_eq {ρ : NodeId → Nat} (hρ : g.Ranked ρ) : ∀ (k k' : Nat) (n : NodeId), ρ n < k → ρ n < k' →
    tablesWithin k g n = tablesWithin k' g n := by
  intro k
  induction k with
  | zero => exact fun _ _ h => absurd h (Nat.not_lt_zero _)
  | succ k ih =>
    intro k' n hk hk'
    obtain _ | k' := k'
    · exact absurd hk' (Nat.not_lt_zero _)
    · rw [tablesWithin, tablesWithin]
      rcases hd : g.data? n with _ | d
      · rfl
      · refine tables_step_congr (fun _ _ => rfl) fun r hr => ?_
        have hlt := hρ n r (references_of_data? hd ▸ hr)
        rw [ih k' r (by omega) (by omega)]

/-- The recursion: the authored tables of a data node are made of its design, its leaves and the authored tables of the data nodes that it
refers to. -/
theorem authoredTables_eq (ha : g.Authored) {d : DataNode} (hd : g.data? n = some d) :
    g.authoredTables n = d.tables (g.operatorOf d) (d.design.inputTable g.leaf? fun r => (g.authoredTables r).output)
      (d.proto.map fun p => (g.authoredTables p).output) := by
  have hle := g.rank_le_size n
  rw [authoredTables, tablesWithin]
  simp only [hd]
  refine tables_step_congr (fun _ _ => rfl) fun r hr => ?_
  have hlt := ha.ranked n r (references_of_data? hd ▸ hr)
  rw [authoredTables, tablesWithin_eq ha.ranked g.nodes.size (g.nodes.size + 1) r (by omega) (by omega)]

theorem authoredTables_of_none (h : g.data? n = none) : g.authoredTables n = .blank := by
  rw [authoredTables, tablesWithin]
  simp only [h]

theorem SameDesign.tablesWithin_eq (h : g.SameDesign g') : ∀ (k : Nat) (n : NodeId), tablesWithin k g' n = tablesWithin k g n := by
  intro k
  induction k with
  | zero => exact fun _ => rfl
  | succ k ih =>
    intro n
    have hdes := h.design n
    rw [tablesWithin, tablesWithin]
    rcases hd : g.data? n with _ | d
    · rw [design?, design?, hd] at hdes
      rw [Option.map_eq_none_iff.1 hdes]
    · rw [design?, design?, hd] at hdes
      obtain ⟨d', hd', hde⟩ := Option.map_eq_some_iff.1 hdes
      rw [hd']
      have hop : g'.operatorOf d' = g.operatorOf d := by
        rw [operatorOf, operatorOf, h.registry, show d'.compute = d.compute from congrArg Design.compute hde]
      dsimp only
      rw [tables_congr hde, hop, hde, show d'.proto = d.proto from congrArg Design.proto hde]
      refine tables_step_congr (fun r _ => h.leaf r) fun r _ => ?_
      rw [ih]

/-- Two graphs that are authored alike have the same authored tables, whatever they cache. -/
theorem SameDesign.authoredTables_eq (h : g.SameDesign g') (ha : g.Authored) (ha' : g'.Authored) (n : NodeId) :
    g'.authoredTables n = g.authoredTables n := by
  have hle := g.rank_le_size n
  have hle' := g'.rank_le_size n
  rw [authoredTables, authoredTables, Graph.tablesWithin_eq ha.ranked _ (g.nodes.size + g'.nodes.size + 1) n (by omega) (by omega),
    Graph.tablesWithin_eq ha'.ranked _ (g.nodes.size + g'.nodes.size + 1) n (by omega) (by omega), h.tablesWithin_eq]

/-- A wired graph caches the authored tables at its nodes in sync. -/
theorem Wired.tables_eq_authored (hw : g.Wired) (ha : g.Authored) : ∀ (k : Nat) (n : NodeId) (d : DataNode), g.rank n < k → g.data? n = some d →
    d.wiring.outOfSync = false → d.wiring.tables = g.authoredTables n := by
  intro k
  induction k with
  | zero => exact fun _ _ h => absurd h (Nat.not_lt_zero _)
  | succ k ih =>
    intro n d hk hd hs
    have hwd := hw n d hd hs
    rw [hwd.tables, authoredTables_eq ha hd]
    have hexp : ∀ r ∈ d.references, g.exposed r = (g.authoredTables r).output := fun r hr => ?_
    · exact tables_step_congr (fun _ _ => rfl) hexp
    rcases he : g.data? r with _ | e
    · rw [authoredTables_of_none he, exposed, wiring?, he]
      rfl
    · have hlt := ha.ranked n r (references_of_data? hd ▸ hr)
      rw [exposed, wiring?_of_data? he, ← ih r e (by omega) he (hwd.below r hr e he)]
      rfl

/-! ## The cache of a reachable graph -/

/-- A data node in sync: all below it are in sync, and it has the tables, the operator and the parameters that the authored graph gives. -/
structure Cached (g : Graph) (n : NodeId) (w : Wiring) : Prop where
  below : ∀ m, g.Below n m → ∀ v, g.wiring? m = some v → v.outOfSync = false
  tables : w.tables = g.authoredTables n
  params : w.params = (g.authoredTables n).input.all

/-- A data node out of sync: all above it are out of sync, its ports are empty, and there are no instances and no processes of it. -/
structure Uncached (g : Graph) (n : NodeId) (w : Wiring) : Prop where
  above : ∀ m, g.Below m n → ∀ v, g.wiring? m = some v → v.outOfSync = true
  ports : ∀ port, (w.map port).entries = ∅
  memos : w.instances = ∅ ∧ w.processes = ∅
  instances : ∀ (id : InstanceId) (i : Instance), g.instances[id]? = some i → i.owner ≠ n
  processes : ∀ (id : ProcessId) (p : Process), g.processes[id]? = some p → p.owner ≠ n

theorem Wired.outOfSync_of_below (hw : g.Wired) {w : Wiring} (hn : g.wiring? n = some w) (hs : w.outOfSync = false) (h : g.Below n m)
    {v : Wiring} (hm : g.wiring? m = some v) : v.outOfSync = false := by
  induction h using Relation.ReflTransGen.head_induction_on generalizing w with
  | refl =>
    rw [hn] at hm
    exact Option.some.inj hm ▸ hs
  | head hr hb ih =>
    obtain ⟨d, hd, rfl⟩ := exists_data_of_wiring? hn
    have hwd := hw _ d hd hs
    rcases hb.cases_head with rfl | ⟨k, hk, -⟩
    · obtain ⟨e, he, rfl⟩ := exists_data_of_wiring? hm
      exact hwd.below _ (references_of_data? hd ▸ hr) e he
    · obtain ⟨e, he⟩ := exists_data_of_reference hk
      exact ih (wiring?_of_data? he) (hwd.below _ (references_of_data? hd ▸ hr) e he)

theorem entries_eq_empty {m : ChannelMap} (h : m.table = ∅) : m.entries = ∅ := by
  refine Std.ExtTreeMap.ext_getElem? fun x => ?_
  rw [Std.ExtTreeMap.getElem?_empty]
  refine Std.ExtTreeMap.getElem?_eq_none fun hx => ?_
  rw [← ChannelMap.mem_table, h] at hx
  exact Std.ExtTreeMap.not_mem_empty hx

/-- The cache is sound in every graph that calls lead to, whichever calls these are: a data node in sync has what the recursion over the
authored graph gives, and one out of sync has nothing. -/
theorem structural_cache_sound (h : g.Reachable) {w : Wiring} (hn : g.wiring? n = some w) :
    (w.outOfSync = false → g.Cached n w) ∧ (w.outOfSync = true → g.Uncached n w) := by
  obtain ⟨a, ho⟩ := h.orderly
  have hf := ho.tidy.framed
  have hw := hf.wired_of_settled (τ := a.work) rfl
  obtain ⟨d, hd, rfl⟩ := exists_data_of_wiring? hn
  refine ⟨fun hs => ?_, fun hs => ?_⟩
  · have ht := hw.tables_eq_authored ho.authored (g.rank n + 1) n d (Nat.lt_succ_self _) hd hs
    refine ⟨fun m hb v hv => hw.outOfSync_of_below hn hs hb hv, ht, ?_⟩
    rw [(hw n d hd hs).params, ← ht]
    rfl
  · obtain ⟨hi, hp⟩ := ho.tidy.kept.stale n _ (frame?_of_data? hd) hs
    have hblank := hf.blank n _ (frame?_of_data? hd) hs nofun
    have htables : d.wiring.tables = .blank := congrArg Frame.tables hblank
    refine ⟨fun m hb v hv => Bool.eq_true_of_not_eq_false fun hv' => ?_, fun port => entries_eq_empty ?_, ⟨?_, ?_⟩, fun id i hid ho' => ?_,
      fun id p hid ho' => ?_⟩
    · have := hw.outOfSync_of_below hv hv' hb hn
      rw [hs] at this
      cases this
    · cases port with
      | input => exact congrArg Tables.input htables
      | extended => exact congrArg Tables.extended htables
      | output => exact congrArg Tables.output htables
    · refine Std.ExtTreeMap.ext_getElem? fun k => ?_
      rw [← instanceAt?_of_wiring? hn, hi, Std.ExtTreeMap.getElem?_empty]
    · refine Std.ExtTreeMap.ext_getElem? fun k => ?_
      rw [← processAt?_of_wiring? hn, hp, Std.ExtTreeMap.getElem?_empty]
    · obtain ⟨w, hw', hin⟩ := ho.tidy.kept.inSync_instance rfl hid
      rw [ho', hn] at hw'
      cases hw'
      rw [hs] at hin
      cases hin
    · obtain ⟨w, hw', hin⟩ := ho.tidy.kept.inSync_process rfl hid
      rw [ho', hn] at hw'
      cases hw'
      rw [hs] at hin
      cases hin

/-- A node above a placeholder gets in sync, and then another node is made. -/
def syncCalls : List Call :=
  [.createData false, .createLeaf, .setName 1 "x", .setParam 1 true, .appendChild 0 1, .synchronize 0, .createData false]

/-- After these calls one node is in sync, with a name of its own, and one is not. -/
theorem structural_cache_sound_after : ∃ w v, ((new Registry.empty {}).after syncCalls).wiring? 0 = some w ∧
    w.outOfSync = false ∧ "x" ∈ w.output.table ∧ Cached ((new Registry.empty {}).after syncCalls) 0 w ∧
    ((new Registry.empty {}).after syncCalls).wiring? 2 = some v ∧ v.outOfSync = true ∧ Uncached ((new Registry.empty {}).after syncCalls) 2 v := by
  have hr : ((new Registry.empty {}).after syncCalls).Reachable := ⟨_, _, _, rfl⟩
  have h₁ : (((new Registry.empty {}).after syncCalls).wiring? 0).map (fun w => (w.outOfSync, w.output.table.contains "x")) =
      some (false, true) := by decide +kernel
  have h₂ : (((new Registry.empty {}).after syncCalls).wiring? 2).map (·.outOfSync) = some true := by decide +kernel
  obtain ⟨w, hw, hs⟩ := Option.map_eq_some_iff.1 h₁
  obtain ⟨v, hv, ho⟩ := Option.map_eq_some_iff.1 h₂
  have hin : w.outOfSync = false := congrArg Prod.fst hs
  exact ⟨w, v, hw, hin, Std.ExtTreeMap.mem_iff_contains.2 (congrArg Prod.snd hs), (structural_cache_sound hr hw).1 hin, hv, ho,
    (structural_cache_sound hr hv).2 ho⟩

end Graph

end Dataflow
