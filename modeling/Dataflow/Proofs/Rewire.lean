import Dataflow.Proofs.Authored

/-!
# Rewiring: changes of what is derived from nodes

Most operations change a graph's nodes in the wiring of data nodes only. Whatever they do to a wiring, the design, the leaves and
the references of the graph stay, and with them all that is authored.
-/

namespace Dataflow

namespace Graph

/-- The nodes of two graphs differ in the wirings of data nodes at most, and there as `P` says. -/
structure Rewired (P : NodeId → Wiring → Wiring → Prop) (g g' : Graph) : Prop where
  size : g'.nodes.size = g.nodes.size
  next : g'.nodes.next = g.nodes.next
  node : ∀ m, g'.node? m = g.node? m ∨ ∃ x d w, g.node? m = some x ∧ x.kind = .data d ∧ P m d.wiring w ∧
    g'.node? m = some { x with kind := .data { d with wiring := w } }

/-- What is authored are the nodes that there are, their designs and their parents. -/
theorem Authored.congr {g g' : Graph} (ha : g.Authored) (hnode : ∀ m, (g'.node? m).isSome = (g.node? m).isSome)
    (hdesign : ∀ m, g'.design? m = g.design? m) (hparents : ∀ m, g'.parentsOf m = g.parentsOf m) : g'.Authored := by
  have hr : g'.references = g.references := funext fun m => by rw [references_eq, references_eq, hdesign]
  refine ⟨fun n r hnr => ?_, fun p c => ?_, fun n hn => ?_, fun n d hd r hr => ?_, fun n d hd => ha.single n d (hdesign n ▸ hd)⟩
  · rw [hnode]
    exact ha.live n r (hr ▸ hnr)
  · rw [hparents, hr]
    exact ha.parents p c
  · rw [StrictlyBelow, hr] at hn
    exact ha.acyclic n hn
  · have hsome : (g'.data? r).isSome = (g.data? r).isSome := by
      have := congrArg Option.isSome (hdesign r)
      rwa [design?, design?, Option.isSome_map, Option.isSome_map] at this
    rw [hsome]
    exact ha.dataRefs n d (hdesign n ▸ hd) r hr

namespace Rewired

variable {P Q R : NodeId → Wiring → Wiring → Prop} {g g' g'' : Graph}

theorem of_nodes_eq (h : g'.nodes = g.nodes) : Rewired P g g' :=
  ⟨by rw [h], by rw [h], fun m => .inl (by rw [node?, h, node?])⟩

theorem refl (g : Graph) : Rewired P g g := of_nodes_eq rfl

theorem mono (h : Rewired P g g') (hPQ : ∀ m w w', P m w w' → Q m w w') : Rewired Q g g' := by
  refine ⟨h.size, h.next, fun m => ?_⟩
  rcases h.node m with hm | ⟨x, d, w, hx, hk, hP, hm⟩
  · exact .inl hm
  · exact .inr ⟨x, d, w, hx, hk, hPQ m _ _ hP, hm⟩

theorem trans (h : Rewired P g g') (h' : Rewired Q g' g'') (hP : ∀ m w w', P m w w' → R m w w')
    (hQ : ∀ m w w', Q m w w' → R m w w') (hPQ : ∀ m w w' w'', P m w w' → Q m w' w'' → R m w w'') : Rewired R g g'' := by
  refine ⟨h'.size.trans h.size, h'.next.trans h.next, fun m => ?_⟩
  rcases h.node m with hm | ⟨x, d, w, hx, hk, hw, hm⟩ <;> rcases h'.node m with hm' | ⟨y, e, w', hy, hk', hw', hm'⟩
  · exact .inl (hm'.trans hm)
  · exact .inr ⟨y, e, w', hm ▸ hy, hk', hQ m _ _ hw', hm'⟩
  · exact .inr ⟨x, d, w, hx, hk, hP m _ _ hw, hm'.trans hm⟩
  · rw [hm] at hy
    cases hy
    cases hk'
    exact .inr ⟨x, d, w', hx, hk, hPQ m _ _ _ hw hw', hm'⟩

theorem leaf? (h : Rewired P g g') (m : NodeId) : g'.leaf? m = g.leaf? m := by
  rw [Graph.leaf?, Graph.leaf?]
  rcases h.node m with hm | ⟨x, d, w, hx, hk, -, hm⟩
  · rw [hm]
  · rw [hm, hx, Option.bind_some, Option.bind_some, Node.leaf?, Node.leaf?, hk]

theorem data? (h : Rewired P g g') (m : NodeId) : g'.data? m = g.data? m ∨
    ∃ d w, g.data? m = some d ∧ P m d.wiring w ∧ g'.data? m = some { d with wiring := w } := by
  rw [Graph.data?, Graph.data?]
  rcases h.node m with hm | ⟨x, d, w, hx, hk, hw, hm⟩
  · rw [hm]
    exact .inl rfl
  · refine .inr ⟨d, w, ?_, hw, ?_⟩
    · rw [hx, Option.bind_some, Node.data?, hk]
    · rw [hm]
      rfl

/-- A data node keeps all but its wiring. -/
theorem exists_data (h : Rewired P g g') (hP : ∀ m w, P m w w) {m : NodeId} {d : DataNode} (hd : g.data? m = some d) :
    ∃ w, P m d.wiring w ∧ g'.data? m = some { d with wiring := w } := by
  rcases h.data? m with hm | ⟨e, w, he, hw, hm⟩
  · exact ⟨d.wiring, hP m _, by rw [hm, hd]⟩
  · rw [hd] at he
    cases he
    exact ⟨w, hw, hm⟩

theorem exists_data_of (h : Rewired P g g') (hP : ∀ m w, P m w w) {m : NodeId} {d : DataNode} (hd : g'.data? m = some d) :
    ∃ e, g.data? m = some e ∧ P m e.wiring d.wiring ∧ d = { e with wiring := d.wiring } := by
  rcases h.data? m with hm | ⟨e, w, he, hw, hm⟩
  · exact ⟨d, hm ▸ hd, hP m _, rfl⟩
  · rw [hm] at hd
    cases hd
    exact ⟨e, he, hw, rfl⟩

theorem exists_wiring (h : Rewired P g g') (hP : ∀ m w, P m w w) {m : NodeId} {w : Wiring} (hw : g.wiring? m = some w) :
    ∃ w', P m w w' ∧ g'.wiring? m = some w' := by
  obtain ⟨d, hd, rfl⟩ := exists_data_of_wiring? hw
  obtain ⟨w', hw', hd'⟩ := h.exists_data hP hd
  exact ⟨w', hw', wiring?_of_data? hd'⟩

theorem exists_wiring_of (h : Rewired P g g') (hP : ∀ m w, P m w w) {m : NodeId} {w : Wiring} (hw : g'.wiring? m = some w) :
    ∃ w', P m w' w ∧ g.wiring? m = some w' := by
  obtain ⟨d, hd, rfl⟩ := exists_data_of_wiring? hw
  obtain ⟨e, he, hw', -⟩ := h.exists_data_of hP hd
  exact ⟨e.wiring, hw', wiring?_of_data? he⟩

theorem design? (h : Rewired P g g') (m : NodeId) : g'.design? m = g.design? m := by
  rw [Graph.design?, Graph.design?]
  rcases h.data? m with hm | ⟨d, w, hd, -, hm⟩
  · rw [hm]
  · rw [hm, hd]
    rfl

theorem isSome_data? (h : Rewired P g g') (m : NodeId) : (g'.data? m).isSome = (g.data? m).isSome := by
  rcases h.data? m with hm | ⟨d, w, hd, -, hm⟩
  · rw [hm]
  · rw [hm, hd]
    rfl

theorem references (h : Rewired P g g') (m : NodeId) : g'.references m = g.references m := by
  rw [references_eq, references_eq, h.design?]

theorem parentsOf (h : Rewired P g g') (m : NodeId) : g'.parentsOf m = g.parentsOf m := by
  rw [Graph.parentsOf, Graph.parentsOf]
  rcases h.node m with hm | ⟨x, d, w, hx, hk, -, hm⟩
  · rw [hm]
  · rw [hm, hx]
    rfl

theorem isSome_node? (h : Rewired P g g') (m : NodeId) : (g'.node? m).isSome = (g.node? m).isSome := by
  rcases h.node m with hm | ⟨x, d, w, hx, hk, -, hm⟩
  · rw [hm]
  · rw [hm, hx]
    rfl

theorem outletsOf (h : Rewired P g g') (m : NodeId) : (g'.data? m).map (·.outlets) = (g.data? m).map (·.outlets) := by
  rcases h.data? m with hm | ⟨d, w, hd, -, hm⟩
  · rw [hm]
  · rw [hm, hd]
    rfl

theorem ranked (h : Rewired P g g') {ρ : NodeId → Nat} (hρ : g.Ranked ρ) : g'.Ranked ρ := by
  intro n r hr
  rw [h.references] at hr
  exact hρ n r hr

theorem below_iff (h : Rewired P g g') {n m : NodeId} : g'.Below n m ↔ g.Below n m := by
  have : g'.references = g.references := funext h.references
  rw [Below, Below, this]

/-- Rewiring changes nothing that is authored. -/
theorem authored (h : Rewired P g g') (ha : g.Authored) : g'.Authored := ha.congr h.isSome_node? h.design? h.parentsOf

theorem founded (h : Rewired P g g') (hf : g.Founded) : g'.Founded := by
  have hr : g'.references = g.references := funext h.references
  refine ⟨fun n r hnr => ?_, fun n hn => ?_, fun n d hd => hf.single n d (h.design? n ▸ hd)⟩
  · rw [h.isSome_node?]
    exact hf.live n r (hr ▸ hnr)
  · rw [StrictlyBelow, hr] at hn
    exact hf.acyclic n hn

end Rewired

/-- Changing the wiring of one data node. -/
theorem rewired_modifyWiring (g : Graph) (n : NodeId) (f : Wiring → Wiring) :
    Rewired (fun m w w' => m = n ∧ w' = f w) g (g.modifyWiring n f) := by
  refine ⟨Std.ExtTreeMap.size_modify, rfl, fun m => ?_⟩
  rw [modifyWiring, node?_modifyData]
  by_cases hm : m = n
  · rw [if_pos hm]
    rcases hx : g.node? m with _ | ⟨ps, l | d⟩
    · exact .inl rfl
    · exact .inl rfl
    · exact .inr ⟨_, d, _, rfl, rfl, ⟨hm, rfl⟩, rfl⟩
  · rw [if_neg hm]
    exact .inl rfl

end Graph

end Dataflow
