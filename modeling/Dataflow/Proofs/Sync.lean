import Dataflow.Proofs.Rewire
import Dataflow.Proofs.Wired

/-!
# Synchronizing

Synchronizing a node puts it and all below it in sync, leaves every other node alone, and keeps a wired graph wired. Only the
wiring of nodes that were out of sync changes, and the journal.
-/

namespace Dataflow

@[simp] theorem Wiring.tables_ofTables (w : Wiring) (t : Tables) : (w.ofTables t).tables = t := by
  rcases t with ⟨i, e, o, op, ps⟩
  simp [Wiring.tables, Wiring.ofTables]

namespace Graph

/-! ## Nodes that agree -/

theorem inputTable_congr {g g' : Graph} {d d' : DataNode} (hd : d'.design = d.design)
    (hl : ∀ r ∈ d.references, g'.leaf? r = g.leaf? r) (he : ∀ r ∈ d.references, g'.exposed r = g.exposed r) :
    g'.inputTable d' = g.inputTable d := by
  have hs : d'.source = d.source := congrArg Design.source hd
  have hc : d'.children = d.children := congrArg Design.children hd
  rcases h : d.source with _ | r
  · rw [inputTable_of_children h, inputTable_of_children (hs.trans h), hc]
    have hsub : ∀ r ∈ d.children, r ∈ d.references := fun r hr => List.mem_append_left _ (List.mem_append_left _ hr)
    generalize (∅ : ParamTable) = t
    revert hsub t
    induction d.children with
    | nil => exact fun _ _ => rfl
    | cons a l ih =>
      intro hsub t
      rw [List.foldl_cons, List.foldl_cons]
      have ha : g'.addChild t a = g.addChild t a := by
        rw [addChild, addChild, hl a (hsub a (List.mem_cons_self ..)), he a (hsub a (List.mem_cons_self ..))]
      rw [ha]
      exact ih (fun r hr => hsub r (List.mem_cons_of_mem _ hr)) _
  · rw [inputTable_of_source h, inputTable_of_source (hs.trans h), he r]
    exact List.mem_append_left _ (List.mem_append_right _ (by rw [h]; exact List.mem_singleton_self _))

theorem tables_congr {d d' : DataNode} (hd : d'.design = d.design) (operator : Option Operator) (input : ParamTable)
    (template : Option ParamTable) : d'.tables operator input template = d.tables operator input template := by
  have hc : d'.compute = d.compute := congrArg Design.compute hd
  have hf : d'.filter = d.filter := congrArg Design.filter hd
  rw [DataNode.tables.eq_def, DataNode.tables.eq_def, hc, hf]

/-- Being wired depends on the design of a node, its tables, and what the nodes that it refers to expose. -/
theorem WiredAt.congr {g g' : Graph} {d d' : DataNode} (h : g.WiredAt d) (hreg : g'.registry = g.registry)
    (hd : d'.design = d.design) (ht : d'.wiring.tables = d.wiring.tables) (hp : d'.wiring.params = d.wiring.params)
    (hl : ∀ r ∈ d.references, g'.leaf? r = g.leaf? r) (he : ∀ r ∈ d.references, g'.exposed r = g.exposed r)
    (hs : ∀ r ∈ d.references, ∀ e, g'.data? r = some e → e.wiring.outOfSync = false) : g'.WiredAt d' := by
  have hpr : d'.proto = d.proto := congrArg Design.proto hd
  refine ⟨?_, ?_, ?_⟩
  · have ho : g'.operatorOf d' = g.operatorOf d := by
      rw [operatorOf, operatorOf, hreg, show d'.compute = d.compute from congrArg Design.compute hd]
    have hpe : d'.proto.map g'.exposed = d.proto.map g.exposed := by
      rw [hpr]
      rcases hq : d.proto with _ | p
      · rfl
      · rw [Option.map_some, Option.map_some, he p]
        exact List.mem_append_right _ (by rw [hq]; exact List.mem_singleton_self _)
    rw [ht, h.tables, ho, inputTable_congr hd hl he, hpe, tables_congr hd]
  · have hi : d'.wiring.input.table = d.wiring.input.table := congrArg Tables.input ht
    rw [hp, h.params, hi]
  · intro r hr
    rw [← DataNode.references_design, hd, DataNode.references_design] at hr
    exact hs r hr

/-! ## What synchronizing changes -/

/-- `g'` is `g` with some nodes in sync that were not. -/
structure Synced (g g' : Graph) : Prop where
  rest : ∃ nodes journal, g' = { g with nodes, journal }
  rewired : Rewired (fun _ w w' => w.outOfSync = true ∧ ∃ t, w' = w.ofTables t) g g'

theorem Synced.refl (g : Graph) : g.Synced g := ⟨⟨g.nodes, g.journal, rfl⟩, .refl g⟩

theorem Synced.trans {g₁ g₂ g₃ : Graph} (h : g₁.Synced g₂) (h' : g₂.Synced g₃) : g₁.Synced g₃ := by
  refine ⟨?_, h.rewired.trans h'.rewired (fun _ _ _ h => h) (fun _ _ _ h => h) ?_⟩
  · obtain ⟨n₂, j₂, rfl⟩ := h.rest
    obtain ⟨n₃, j₃, rfl⟩ := h'.rest
    exact ⟨n₃, j₃, rfl⟩
  · rintro m w w' w'' ⟨-, t, rfl⟩ ⟨ho, -⟩
    cases ho

section Synced

variable {g g' : Graph}

theorem Synced.registry (h : g.Synced g') : g'.registry = g.registry := by
  obtain ⟨ns, j, rfl⟩ := h.rest
  rfl

theorem Synced.data?_of_inSync (h : g.Synced g') {m : NodeId} {d : DataNode} (hd : g.data? m = some d)
    (hs : d.wiring.outOfSync = false) : g'.data? m = some d := by
  rcases h.rewired.data? m with hm | ⟨e, w, he, ⟨ho, -⟩, hm⟩
  · rw [hm, hd]
  · rw [he] at hd
    cases hd
    rw [hs] at ho
    cases ho

theorem Synced.inSync (h : g.Synced g') {m : NodeId} (hm : ∀ d, g.data? m = some d → d.wiring.outOfSync = false) :
    ∀ d, g'.data? m = some d → d.wiring.outOfSync = false := by
  intro d hd
  rcases h.rewired.data? m with hm' | ⟨e, w, he, ⟨ho, t, rfl⟩, hm'⟩
  · exact hm d (hm' ▸ hd)
  · rw [hm'] at hd
    cases hd
    rfl

end Synced

/-! ## Synchronizing -/

/-- The tables that a data node gets from the nodes below it. -/
def tablesFor (g : Graph) (d : DataNode) : Tables := d.tables (g.operatorOf d) (g.inputTable d) (d.proto.map g.exposed)

theorem rewire_eq (g : Graph) (n : NodeId) (d : DataNode) :
    ∃ j, g.rewire n d = { (g.modifyWiring n fun w => w.ofTables (g.tablesFor d)) with journal := j } := by
  unfold rewire tablesFor
  rcases d.compute with _ | c <;> rcases g.operatorOf d with _ | op <;> exact ⟨_, rfl⟩

theorem node?_rewire (g : Graph) (n m : NodeId) (d : DataNode) :
    (g.rewire n d).node? m = (g.modifyWiring n fun w => w.ofTables (g.tablesFor d)).node? m := by
  obtain ⟨j, hj⟩ := rewire_eq g n d
  rw [hj]
  rfl

theorem data?_rewire (g : Graph) (n m : NodeId) (d : DataNode) :
    (g.rewire n d).data? m =
      if m = n then (g.data? m).map fun e => { e with wiring := e.wiring.ofTables (g.tablesFor d) } else g.data? m := by
  rw [data?, node?_rewire]
  exact data?_modifyWiring ..

/-- Putting one node in sync changes nothing else. -/
theorem synced_rewire {g : Graph} {n : NodeId} {d e : DataNode} (he : g.data? n = some e) (ho : e.wiring.outOfSync = true) :
    g.Synced (g.rewire n d) ∧ ∀ m, m ≠ n → (g.rewire n d).node? m = g.node? m := by
  obtain ⟨j, hj⟩ := rewire_eq g n d
  have hw := rewired_modifyWiring g n fun w => w.ofTables (g.tablesFor d)
  refine ⟨⟨⟨_, j, hj⟩, ⟨?_, ?_, fun m => ?_⟩⟩, fun m hm => ?_⟩
  · rw [hj]
    exact hw.size
  · rw [hj]
    exact hw.next
  · rw [node?_rewire]
    rcases hw.node m with hm | ⟨x, d', w, hx, hk, ⟨hm, hw'⟩, hm'⟩
    · exact .inl hm
    · have hd' : g.data? m = some d' := by
        rw [data?, hx, Option.bind_some, Node.data?, hk]
      rw [hm, he] at hd'
      cases hd'
      exact .inr ⟨x, e, w, hx, hk, ⟨ho, _, hw'⟩, hm'⟩
  · rw [node?_rewire]
    exact (node?_modifyData ..).trans (if_neg hm)

/-- A node whose references are in sync gets in sync with them, and all others stay wired. -/
theorem wired_rewire {g : Graph} {ρ : NodeId → Nat} (hρ : g.Ranked ρ) (hw : g.Wired) {n : NodeId} {d : DataNode}
    (hd : g.data? n = some d) (ho : d.wiring.outOfSync = true)
    (hs : ∀ r ∈ d.references, ∀ d', g.data? r = some d' → d'.wiring.outOfSync = false) :
    (g.rewire n d).Wired ∧ ∀ d', (g.rewire n d).data? n = some d' → d'.wiring.outOfSync = false := by
  have hsync := (synced_rewire (d := d) hd ho).1
  have hexp : ∀ m, m ≠ n → (g.rewire n d).exposed m = g.exposed m := by
    intro m hm
    rw [exposed, wiring?, data?_rewire, if_neg hm]
    rfl
  have hself : ∀ r ∈ d.references, r ≠ n := by
    intro r hr hrn
    have := hρ n r (references_of_data? hd ▸ hr)
    rw [hrn] at this
    omega
  refine ⟨fun m d' hd' hin => ?_, fun d' hd' => ?_⟩
  · rw [data?_rewire] at hd'
    by_cases hm : m = n
    · rw [if_pos hm, hm, hd] at hd'
      cases hd'
      refine ⟨?_, congrArg ParamTable.all (ChannelMap.table_ofTable ..).symm, fun r hr d'' hd'' => ?_⟩
      · have hi : (g.rewire n d).inputTable { d with wiring := d.wiring.ofTables (g.tablesFor d) } = g.inputTable d :=
          inputTable_congr rfl (fun r _ => hsync.rewired.leaf? r) fun r hr => hexp r (hself r hr)
        have hop : (g.rewire n d).operatorOf { d with wiring := d.wiring.ofTables (g.tablesFor d) } = g.operatorOf d := by
          rw [operatorOf, operatorOf, hsync.registry]
        have hpr : d.proto.map (g.rewire n d).exposed = d.proto.map g.exposed := by
          rcases hp : d.proto with _ | p
          · rfl
          · rw [Option.map_some, Option.map_some, hexp p (hself p _)]
            exact List.mem_append_right _ (by rw [hp]; exact List.mem_singleton_self _)
        rw [Wiring.tables_ofTables, hi, hop, hpr]
        rfl
      · rw [data?_rewire, if_neg (hself r hr)] at hd''
        exact hs r hr d'' hd''
    · rw [if_neg hm] at hd'
      have hwm := hw m d' hd' hin
      -- no node in sync refers to `n`, which is not
      have hne : ∀ r ∈ d'.references, r ≠ n := by
        rintro r hr rfl
        rw [hwm.below r hr d hd] at ho
        cases ho
      refine hwm.congr hsync.registry rfl rfl rfl (fun r _ => hsync.rewired.leaf? r) (fun r hr => hexp r (hne r hr)) ?_
      intro r hr d'' hd''
      rw [data?_rewire, if_neg (hne r hr)] at hd''
      exact hwm.below r hr d'' hd''
  · rw [data?_rewire, if_pos rfl, hd] at hd'
    cases hd'
    rfl

theorem sync_fold {ρ : NodeId → Nat} {k : Nat}
    (ih : ∀ (g : Graph) n, g.Ranked ρ → g.Wired → ρ n < k →
      g.Synced (syncWithin k g n) ∧ (syncWithin k g n).Wired ∧
      (∀ d, (syncWithin k g n).data? n = some d → d.wiring.outOfSync = false) ∧
      ∀ m, ¬ g.Below n m → (syncWithin k g n).node? m = g.node? m) :
    ∀ (l : List NodeId) (g : Graph), g.Ranked ρ → g.Wired → (∀ r ∈ l, ρ r < k) →
      g.Synced (l.foldl (syncWithin k) g) ∧ (l.foldl (syncWithin k) g).Wired ∧
      (∀ r ∈ l, ∀ d, (l.foldl (syncWithin k) g).data? r = some d → d.wiring.outOfSync = false) ∧
      ∀ m, (∀ r ∈ l, ¬ g.Below r m) → (l.foldl (syncWithin k) g).node? m = g.node? m := by
  intro l
  induction l with
  | nil => exact fun g _ hw _ => ⟨.refl g, hw, fun r hr => absurd hr List.not_mem_nil, fun _ _ => rfl⟩
  | cons a l ihl =>
    intro g hρ hw hl
    obtain ⟨hs, hw', hin, hfr⟩ := ih g a hρ hw (hl a (List.mem_cons_self ..))
    obtain ⟨hs', hw'', hin', hfr'⟩ := ihl (syncWithin k g a) (hs.rewired.ranked hρ) hw' fun r hr => hl r (List.mem_cons_of_mem _ hr)
    refine ⟨hs.trans hs', hw'', fun r hr => ?_, fun m hm => ?_⟩
    · rcases List.mem_cons.1 hr with rfl | hr
      · exact hs'.inSync hin
      · exact hin' r hr
    · rw [List.foldl_cons, hfr' m, hfr m (hm a (List.mem_cons_self ..))]
      intro r hr hb
      exact hm r (List.mem_cons_of_mem _ hr) (hb.congr fun i _ => (hs.rewired.references i).symm)

/-- Synchronizing within enough steps. -/
theorem syncWithin_spec {ρ : NodeId → Nat} : ∀ (k : Nat) (g : Graph) n, g.Ranked ρ → g.Wired → ρ n < k →
    g.Synced (syncWithin k g n) ∧ (syncWithin k g n).Wired ∧
    (∀ d, (syncWithin k g n).data? n = some d → d.wiring.outOfSync = false) ∧
    ∀ m, ¬ g.Below n m → (syncWithin k g n).node? m = g.node? m := by
  intro k
  induction k with
  | zero => exact fun g n _ _ h => absurd h (Nat.not_lt_zero _)
  | succ k ih =>
    intro g n hρ hw hn
    rw [syncWithin]
    rcases hd : g.data? n with _ | d
    · exact ⟨.refl g, hw, fun d hd' => by simp [hd] at hd', fun _ _ => rfl⟩
    · simp only
      by_cases ho : d.wiring.outOfSync = true
      · rw [if_pos ho]
        have hlt : ∀ r ∈ d.references, ρ r < k := by
          intro r hr
          have := hρ n r (references_of_data? hd ▸ hr)
          omega
        obtain ⟨hs, hw', hin, hfr⟩ := sync_fold ih d.references g hρ hw hlt
        have hself : (d.references.foldl (syncWithin k) g).node? n = g.node? n :=
          hfr n fun r hr => not_below_of_reference hρ (references_of_data? hd ▸ hr)
        have hd' : (d.references.foldl (syncWithin k) g).data? n = some d := by
          rw [data?, hself]
          exact hd
        obtain ⟨hs', hfr'⟩ := synced_rewire (d := d) hd' ho
        obtain ⟨hw'', hin'⟩ := wired_rewire (hs.rewired.ranked hρ) hw' hd' ho hin
        refine ⟨hs.trans hs', hw'', hin', fun m hm => ?_⟩
        rw [hfr' m, hfr m]
        · intro r hr hb
          exact hm (.head (references_of_data? hd ▸ hr) hb)
        · rintro rfl
          exact hm (.refl m)
      · rw [if_neg ho]
        refine ⟨.refl g, hw, fun d' hd' => ?_, fun _ _ => rfl⟩
        rw [hd] at hd'
        cases hd'
        simpa using ho

end Graph

end Dataflow
