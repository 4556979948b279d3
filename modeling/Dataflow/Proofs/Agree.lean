import Dataflow.Proofs.Extends

/-!
# Substitutions that agree

What is merged under a name depends on the bindings of the parameters that the name's table lists, and on no others. Two instances
that agree on these have the same feeds, so a cell that one of them filled is right for the other.
-/

namespace Dataflow

namespace Graph

variable {g : Graph} {n : NodeId} {s t : Substitution} {x : String}

theorem InSync.wiredAt (h : g.InSync n) (hw : g.Wired) : ∃ d, g.data? n = some d ∧ g.WiredAt d := by
  obtain ⟨d, hd, hs⟩ := h.exists_data
  exact ⟨d, hd, hw n d hd hs⟩

theorem operation?_of_data? {d : DataNode} (hd : g.data? n = some d) {c : Compute} {op : Operator} :
    g.operation? n = some (c, op) ↔ d.compute = some c ∧ d.wiring.operator = some op := by
  rw [operation?, hd, Option.bind_some]
  rcases d.compute with _ | c' <;> rcases d.wiring.operator with _ | op' <;> simp

/-- The operator of a node that is wired is the registered one. -/
theorem WiredAt.registered {d : DataNode} (h : g.WiredAt d) (hd : g.data? n = some d) {c : Compute} {op : Operator}
    (ho : g.operation? n = some (c, op)) : g.registry.get? c.operator = some op := by
  obtain ⟨hc, hw⟩ := (operation?_of_data? hd).1 ho
  rw [h.operator_eq, operatorOf, hc, Option.bind_some] at hw
  exact hw

theorem operatorParams_of_data? {d : DataNode} (hd : g.data? n = some d) : g.operatorParams n = d.wiring.operatorParams := by
  rw [operatorParams, wiring?_of_data? hd]
  rfl

/-- The template of a node in sync is in sync. -/
theorem InSync.proto (hn : g.InSync n) (ha : g.Authored) (hw : g.Wired) {D : Design} (hD : g.design? n = some D) {p : NodeId}
    (hp : D.proto = some p) : g.InSync p := by
  obtain ⟨d, hd, hwd⟩ := hn.wiredAt hw
  obtain ⟨e, he⟩ := Option.isSome_iff_exists.1 (ha.dataRefs n D hD p (.inr hp))
  rw [design?_of_data? hd] at hD
  cases hD
  exact .of_data? he (hwd.below p (mem_references_of_proto hp) e he)

/-- A node that flows into one in sync, and is no leaf, is in sync. -/
theorem InSync.inflow (hn : g.InSync n) (ha : g.Authored) (hw : g.Wired) {D : Design} (hD : g.design? n = some D) {r : NodeId}
    (hr : r ∈ inflow D) (hl : g.leaf? r = none) : g.InSync r := by
  obtain ⟨d, hd, hwd⟩ := hn.wiredAt hw
  rw [design?_of_data? hd] at hD
  cases hD
  have hr := mem_references_of_mem_inflow hr
  obtain ⟨e, he⟩ := exists_data_of_leaf?_eq_none (ha.live n r (references_of_data? hd ▸ hr)) hl
  exact .of_data? he (hwd.below r hr e he)

/-- What a node below brings depends on the parameters of the name at the input. -/
theorem brought_agree (ha : g.Authored) (hw : g.Wired) (hn : g.InSync n) {D : Design} (hD : g.design? n = some D) {r : NodeId}
    (hr : r ∈ inflow D) (h : s.AgreeOn t (g.paramsAt n .input x)) : g.brought s x r = g.brought t x r := by
  obtain ⟨d, hd, hwd⟩ := hn.wiredAt hw
  rw [design?_of_data? hd] at hD
  cases hD
  have hparam : ∀ q, g.BringsParam r x q → q ∈ g.paramsAt n .input x := by
    intro q hq
    rw [paramsAt, hwd.input_eq hd]
    exact (mem_paramsOf_inputTable fun _ => ha.leaf?_source hd).2 ⟨r, hr, hq⟩
  rw [brought, brought]
  rcases hl : g.leaf? r with _ | l
  · simp only
    have hr : s.AgreeOn t (g.paramsAt r .output x) := by
      refine fun q hq => h q (hparam q ?_)
      rw [BringsParam, hl]
      exact hq
    rw [g.chan_congr hr]
  · simp only
    by_cases hx : l.name = x
    · rw [if_pos hx, if_pos hx]
      refine congrArg Option.toList (Leaf.feed?_congr fun hp => ?_)
      rw [hx]
      refine h x (hparam x ?_)
      rw [BringsParam, hl]
      exact ⟨hp, hx, rfl⟩
    · rw [if_neg hx, if_neg hx]

theorem feeds_input_agree (ha : g.Authored) (hw : g.Wired) (hn : g.InSync n) (h : s.AgreeOn t (g.paramsAt n .input x)) :
    g.feeds n s x .input = g.feeds n t x .input := by
  obtain ⟨D, hD⟩ := hn.exists_design
  rw [feeds_input _ _ hD, feeds_input _ _ hD]
  exact List.flatMap_congr fun r hr => brought_agree ha hw hn hD hr h

section Process

variable {R : Substitution → Prop} {hands : List InstanceId} {busy : List ProcessId}

/-- A process brings the names of its operator's outputs only. -/
theorem Sound.produced_eq_nil (hs : g.Sound R hands busy)
    (hx : ∀ c op, g.operation? n = some (c, op) → x ∉ DataNode.outputNames c op) : g.produced x (g.processOf n s) = [] := by
  refine List.eq_nil_iff_forall_not_mem.2 fun f hf => ?_
  obtain ⟨id, q, e, hid, hq, he, -⟩ := mem_produced.1 hf
  obtain ⟨co, ho, hk⟩ := Option.bind_eq_some_iff.1 hid
  obtain ⟨w, hw, hk⟩ := Option.bind_eq_some_iff.1 hk
  obtain ⟨q', hq', howner, -⟩ := (hs.registered.processMemo n w _ id hw).1 hk
  rw [hq] at hq'
  cases hq'
  obtain ⟨c, hc, hnames⟩ := (hs.process id q hq).operation
  rw [howner] at hc
  refine hx c _ hc ?_
  rw [← hnames]
  exact List.mem_map.2 ⟨(x, e), he, rfl⟩

theorem feeds_extended_agree (hs : g.Sound R hands busy) (hn : g.InSync n) (h : s.AgreeOn t (g.paramsAt n .extended x)) :
    g.feeds n s x .extended = g.feeds n t x .extended := by
  obtain ⟨d, hd, hwd⟩ := hn.wiredAt hs.wired
  have hD := design?_of_data? hd
  have hin : s.AgreeOn t (g.paramsAt n .input x) := fun q hq => h q (hwd.paramsAt_extended hd hq)
  have hprod : g.produced x (g.processOf n s) = g.produced x (g.processOf n t) := by
    by_cases hx : ∃ c op, g.operation? n = some (c, op) ∧ x ∈ DataNode.outputNames c op
    · -- a name that the operator writes depends on all that the operator reads
      obtain ⟨c, op, ho, hxo⟩ := hx
      obtain ⟨hc, hop⟩ := (operation?_of_data? hd).1 ho
      have hkey : s.keyOf (g.operatorParams n) = t.keyOf (g.operatorParams n) := by
        refine Substitution.AgreeOn.keyOf_eq fun q hq => h q ?_
        rw [operatorParams_of_data? hd] at hq
        exact hwd.paramsAt_extended_output hd (hwd.operator_eq.symm.trans hop) hc hxo hq
      rw [processOf, processOf, hkey]
    · have hx : ∀ c op, g.operation? n = some (c, op) → x ∉ DataNode.outputNames c op :=
        fun c op ho hm => hx ⟨c, op, ho, hm⟩
      rw [hs.produced_eq_nil hx, hs.produced_eq_nil hx]
  rw [feeds_extended _ _ hD, feeds_extended _ _ hD, g.chan_congr hin, hprod]

theorem feeds_output_agree (ha : g.Authored) (hw : g.Wired) (hn : g.InSync n) (ho : g.OrderlyAt n)
    (h : s.AgreeOn t (g.paramsAt n .output x)) : g.feeds n s x .output = g.feeds n t x .output := by
  obtain ⟨d, hd, hwd⟩ := hn.wiredAt hw
  have hD := design?_of_data? hd
  rw [feeds_output _ _ hD, feeds_output _ _ hD]
  refine List.filterMap_congr fun y hy => ?_
  have hq : ∀ q ∈ (g.unfiltered n d.design).paramsOf y, q ∈ g.paramsAt n .output x := fun q hq => hwd.paramsAt_output hd hy hq
  congr 1
  rw [unfilteredChan, unfilteredChan]
  rw [unfiltered] at hq
  rcases hp : d.design.proto with _ | p <;> rw [hp] at hq
  · exact g.chan_congr fun q hqm => h q (hq q hqm)
  · simp only at hq ⊢
    by_cases hm : y ∈ g.exposed p
    · have hpn := hn.proto ha hw hD hp
      have hz : ∀ z ∈ g.paramsAt p .output y, ∀ q ∈ g.paramsAt n .extended z, q ∈ g.paramsAt n .output x :=
        fun z hzm q hqm => hq q ((DataNode.mem_paramsOf_addTemplate hm).2 ⟨z, hzm, hqm⟩)
      have h1 : g.chan p .output y (g.derived n s) = g.chan p .output y (g.derived n t) :=
        chan_eq_of_derived fun z hzm => g.chan_congr fun q hqm => h q (hz z hzm q hqm)
      have h2 : g.chan n .extended y s = g.chan n .extended y t := by
        refine g.chan_congr fun q hqm => ?_
        have hsh := ho.shadowed d.design p hD hp y (by rw [tableOf_of_inSync ha hw hpn]; exact hm) q
          (by rw [tableOf_of_inSync ha hw hn]; exact hqm)
        obtain ⟨z, hzm, hqz⟩ := hsh
        rw [tableOf_of_inSync ha hw hpn] at hzm
        rw [tableOf_of_inSync ha hw hn] at hqz
        exact h q (hz z hzm q hqz)
      rw [h1, h2]
    · have hnone : ∀ u, g.chan p .output y u = none := by
        intro u
        rcases hc : g.chan p .output y u with _ | c
        · rfl
        · exact absurd (mem_table_of_chan hc) hm
      have h2 : g.chan n .extended y s = g.chan n .extended y t := by
        refine g.chan_congr fun q hqm => h q (hq q ?_)
        rw [DataNode.paramsOf_addTemplate_of_not_mem hm]
        exact hqm
      rw [hnone, hnone, h2]

/-- Instances that agree on the parameters of a name at a port have the same feeds of it. -/
theorem feeds_agree (hs : g.Sound R hands busy) (hn : g.InSync n) (ho : g.OrderlyAt n) {port : Port}
    (h : s.AgreeOn t (g.paramsAt n port x)) : g.feeds n s x port = g.feeds n t x port := by
  cases port with
  | input => exact feeds_input_agree hs.authored hs.wired hn h
  | extended => exact feeds_extended_agree hs hn h
  | output => exact feeds_output_agree hs.authored hs.wired hn ho h

end Process

end Graph

end Dataflow
