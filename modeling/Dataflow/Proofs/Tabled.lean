import Dataflow.Proofs.Sync

/-!
# Tables once in sync

The tables of a data node in sync are a function of what is authored: two wired graphs of the same design agree on every node that
is in sync in both. So a graph, in sync or not, determines the tables that its nodes have once they are. Conditions on how names
and parameters flow are stated on these.
-/

namespace Dataflow

namespace Graph

/-- What is authored of the nodes of two graphs is the same. -/
structure SameDesign (g g' : Graph) : Prop where
  design : ∀ n, g'.design? n = g.design? n
  leaf : ∀ n, g'.leaf? n = g.leaf? n
  registry : g'.registry = g.registry

theorem SameDesign.refl (g : Graph) : g.SameDesign g := ⟨fun _ => rfl, fun _ => rfl, rfl⟩

theorem SameDesign.symm {g g' : Graph} (h : g.SameDesign g') : g'.SameDesign g :=
  ⟨fun n => (h.design n).symm, fun n => (h.leaf n).symm, h.registry.symm⟩

theorem SameDesign.trans {g g' g'' : Graph} (h : g.SameDesign g') (h' : g'.SameDesign g'') : g.SameDesign g'' :=
  ⟨fun n => (h'.design n).trans (h.design n), fun n => (h'.leaf n).trans (h.leaf n), h'.registry.trans h.registry⟩

theorem SameDesign.references {g g' : Graph} (h : g.SameDesign g') (n : NodeId) : g'.references n = g.references n := by
  rw [references_eq, references_eq, h.design]

theorem SameDesign.below {g g' : Graph} (h : g.SameDesign g') {n m : NodeId} : g'.Below n m ↔ g.Below n m := by
  have : g'.references = g.references := funext h.references
  rw [Below, Below, this]

theorem Rewired.sameDesign {P : NodeId → Wiring → Wiring → Prop} {g g' : Graph} (h : Rewired P g g')
    (hr : g'.registry = g.registry) : g.SameDesign g' := ⟨h.design?, h.leaf?, hr⟩

theorem Synced.sameDesign {g g' : Graph} (h : g.Synced g') : g.SameDesign g' := h.rewired.sameDesign h.registry

/-- Synchronizing a node of an authored graph. -/
theorem synchronize_spec {g : Graph} (ha : g.Authored) (hw : g.Wired) (n : NodeId) :
    g.Synced (g.synchronize n) ∧ (g.synchronize n).Wired ∧
    (∀ d, (g.synchronize n).data? n = some d → d.wiring.outOfSync = false) ∧
    ∀ m, ¬ g.Below n m → (g.synchronize n).node? m = g.node? m :=
  syncWithin_spec _ g n ha.ranked hw (Nat.lt_succ_of_le (g.rank_le_size n))

/-- Whether a node is a data node in sync. -/
def InSync (g : Graph) (n : NodeId) : Prop := ∃ w, g.wiring? n = some w ∧ w.outOfSync = false

/-- Two wired graphs of the same design have the same tables where both are in sync. -/
theorem SameDesign.tables_eq {g g' : Graph} {ρ : NodeId → Nat} (h : g.SameDesign g') (hρ : g.Ranked ρ) (hw : g.Wired)
    (hw' : g'.Wired) : ∀ (k : Nat) n d d', ρ n ≤ k → g.data? n = some d → g'.data? n = some d' → d.wiring.outOfSync = false →
      d'.wiring.outOfSync = false → d'.wiring.tables = d.wiring.tables := by
  intro k
  induction k using Nat.strong_induction_on with
  | _ k ih =>
  intro n d d' hn hd hd' hs hs'
  have hde : d'.design = d.design := by
    have := h.design n
    rw [design?_of_data? hd, design?_of_data? hd'] at this
    exact Option.some.inj this
  have hwd := hw n d hd hs
  have hwd' := hw' n d' hd' hs'
  -- what the nodes below expose is the same
  have hexp : ∀ r ∈ d.references, g'.exposed r = g.exposed r := by
    intro r hr
    have hlt := hρ n r (references_of_data? hd ▸ hr)
    rcases he : g.data? r with _ | e
    · have he' : g'.data? r = none := by
        have := h.design r
        rw [design?, design?, he] at this
        exact Option.map_eq_none_iff.1 this
      rw [exposed, exposed, wiring?, wiring?, he, he']
    · obtain ⟨e', he', -⟩ : ∃ e', g'.data? r = some e' ∧ e'.design = e.design := by
        have := h.design r
        rw [design?, design?, he] at this
        obtain ⟨e', he', hee⟩ := Option.map_eq_some_iff.1 this
        exact ⟨e', he', hee⟩
      have hr' : r ∈ d'.references := by
        rw [← DataNode.references_design, hde, DataNode.references_design]
        exact hr
      have ht := ih (ρ r) (Nat.lt_of_lt_of_le hlt hn) r e e' (Nat.le_refl _) he he' (hwd.below r hr e he)
        (hwd'.below r hr' e' he')
      rw [exposed_eq, exposed_eq, table_of_wiring? (wiring?_of_data? he), table_of_wiring? (wiring?_of_data? he')]
      exact congrArg Tables.output ht
  have hin : g'.inputTable d' = g.inputTable d := inputTable_congr hde (fun r _ => h.leaf r) hexp
  have hop : g'.operatorOf d' = g.operatorOf d := by
    rw [operatorOf, operatorOf, h.registry, show d'.compute = d.compute from congrArg Design.compute hde]
  have hpr : d'.proto.map g'.exposed = d.proto.map g.exposed := by
    rw [show d'.proto = d.proto from congrArg Design.proto hde]
    rcases hp : d.proto with _ | p
    · rfl
    · rw [Option.map_some, Option.map_some, hexp p]
      exact List.mem_append_right _ (by rw [hp]; exact List.mem_singleton_self _)
  rw [hwd'.tables, hwd.tables, hin, hop, hpr, tables_congr hde]

/-! ## The tables that nodes have once in sync -/

/-- The table of a port of a data node, once it is in sync. -/
def tableOf (g : Graph) (n : NodeId) (port : Port) : ParamTable := (g.synchronize n).table n port

/-- A node in sync has its tables already. -/
theorem tableOf_of_inSync {g : Graph} (ha : g.Authored) (hw : g.Wired) {n : NodeId} (hn : g.InSync n) (port : Port) :
    g.tableOf n port = g.table n port := by
  obtain ⟨w, hw', hs⟩ := hn
  obtain ⟨d, hd, rfl⟩ := exists_data_of_wiring? hw'
  have := (synchronize_spec ha hw n).1.data?_of_inSync hd hs
  rw [tableOf, table_of_wiring? (wiring?_of_data? this), table_of_wiring? hw']

/-- The tables depend on the design only. -/
theorem SameDesign.tableOf_eq {g g' : Graph} (h : g.SameDesign g') (ha : g.Authored) (hw : g.Wired) (ha' : g'.Authored)
    (hw' : g'.Wired) (n : NodeId) (port : Port) : g'.tableOf n port = g.tableOf n port := by
  obtain ⟨hs, hws, hin, -⟩ := synchronize_spec ha hw n
  obtain ⟨hs', hws', hin', -⟩ := synchronize_spec ha' hw' n
  have hd := (hs.sameDesign.symm.trans h).trans hs'.sameDesign
  rw [tableOf, tableOf]
  rcases he : (g.synchronize n).data? n with _ | d
  · have he' : (g'.synchronize n).data? n = none := by
      have := hd.design n
      rw [design?, design?, he] at this
      exact Option.map_eq_none_iff.1 this
    rw [table, table, wiring?, wiring?, he, he']
  · obtain ⟨d', he', -⟩ : ∃ d', (g'.synchronize n).data? n = some d' ∧ d'.design = d.design := by
      have := hd.design n
      rw [design?, design?, he] at this
      obtain ⟨d', hd', hde⟩ := Option.map_eq_some_iff.1 this
      exact ⟨d', hd', hde⟩
    have ht := hd.tables_eq (hs.rewired.ranked ha.ranked) hws hws' _ n d d' (Nat.le_refl _) he he' (hin d he) (hin' d' he')
    rw [table_of_wiring? (wiring?_of_data? he), table_of_wiring? (wiring?_of_data? he')]
    cases port with
    | input => exact congrArg Tables.input ht
    | extended => exact congrArg Tables.extended ht
    | output => exact congrArg Tables.output ht

/-! ## Conditions on templates -/

/-- Whether a node depends on a parameter. -/
def Varies (g : Graph) (n : NodeId) : Prop := ∃ q, q ∈ (g.tableOf n .input).all

/-- No node that depends on a parameter is below the template of a node and also below what flows into it. -/
def SecludedAt (g : Graph) (n : NodeId) : Prop :=
  ∀ d p, g.design? n = some d → d.proto = some p → ∀ k, g.Below p k → ∀ r ∈ inflow d, g.Below r k → ¬ g.Varies k

/-- Where the template of a node exposes a name that the node has too, the name depends in the node on nothing that what the
template's parameters are bound to does not depend on. -/
def ShadowedAt (g : Graph) (n : NodeId) : Prop :=
  ∀ d p, g.design? n = some d → d.proto = some p → ∀ y ∈ g.tableOf p .output, ∀ q ∈ (g.tableOf n .extended).paramsOf y,
    ∃ z ∈ (g.tableOf p .output).paramsOf y, q ∈ (g.tableOf n .extended).paramsOf z

/-- What the use of a template at a node has to promise. -/
structure OrderlyAt (g : Graph) (n : NodeId) : Prop where
  secluded : g.SecludedAt n
  shadowed : g.ShadowedAt n

theorem SameDesign.varies_iff {g g' : Graph} (h : g.SameDesign g') (ha : g.Authored) (hw : g.Wired) (ha' : g'.Authored)
    (hw' : g'.Wired) {n : NodeId} : g'.Varies n ↔ g.Varies n := by
  rw [Varies, Varies, h.tableOf_eq ha hw ha' hw']

theorem SameDesign.orderlyAt {g g' : Graph} (h : g.SameDesign g') (ha : g.Authored) (hw : g.Wired) (ha' : g'.Authored)
    (hw' : g'.Wired) {n : NodeId} (ho : g.OrderlyAt n) : g'.OrderlyAt n := by
  refine ⟨fun d p hd hp k hk r hr hk' hv => ?_, fun d p hd hp y hy q hq => ?_⟩
  · rw [h.design] at hd
    exact ho.secluded d p hd hp k (h.below.1 hk) r hr (h.below.1 hk') ((h.varies_iff ha hw ha' hw').1 hv)
  · rw [h.design] at hd
    rw [h.tableOf_eq ha hw ha' hw'] at hy hq
    obtain ⟨z, hz, hqz⟩ := ho.shadowed d p hd hp y hy q hq
    exact ⟨z, by rw [h.tableOf_eq ha hw ha' hw']; exact hz, by rw [h.tableOf_eq ha hw ha' hw']; exact hqz⟩

end Graph

end Dataflow
