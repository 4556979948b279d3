import Dataflow.Proofs.Derived

/-!
# Notifications: what telling of a change leaves alone

A change of structure drops derived parts and makes outlets stale; a change of data makes processes and outlets stale. Neither changes
what is authored, nor which outlets and requests there are.
-/

namespace Dataflow

namespace Graph

/-- A graph with other outlets, entries, listeners and journal, and the same nodes. -/
structure SameNodes (g g' : Graph) : Prop where
  nodes : g'.nodes = g.nodes
  registry : g'.registry = g.registry
  config : g'.config = g.config

theorem SameNodes.refl (g : Graph) : g.SameNodes g := ⟨rfl, rfl, rfl⟩

theorem SameNodes.trans {g g' g'' : Graph} (h : g.SameNodes g') (h' : g'.SameNodes g'') : g.SameNodes g'' :=
  ⟨h'.nodes.trans h.nodes, h'.registry.trans h.registry, h'.config.trans h.config⟩

theorem SameNodes.foldl {α : Type} {f : Graph → α → Graph} (hf : ∀ (g : Graph) a, g.SameNodes (f g a)) :
    ∀ (l : List α) (g : Graph), g.SameNodes (l.foldl f g)
  | [], g => .refl g
  | a :: l, g => (hf g a).trans (foldl hf l (f g a))

theorem SameNodes.rewired {P : NodeId → Wiring → Wiring → Prop} {g g' : Graph} (h : g.SameNodes g') : Rewired P g g' :=
  .of_nodes_eq h.nodes

theorem sameNodes_unsubscribe (g : Graph) (id : OutletId) : g.SameNodes (g.unsubscribe id) := by
  rw [unsubscribe]
  split <;> exact ⟨rfl, rfl, rfl⟩

theorem sameNodes_staleStructure (g : Graph) (n : NodeId) : g.SameNodes (g.staleStructure n) := by
  refine .foldl (fun g id => ?_) _ _
  exact (sameNodes_unsubscribe g id).trans ⟨rfl, rfl, rfl⟩

theorem sameNodes_fire (g : Graph) (rs : List RequestId) (c : Change) : g.SameNodes (g.fire rs c) := by
  refine .foldl (fun g id => ?_) _ _
  split <;> exact ⟨rfl, rfl, rfl⟩

/-- A change of structure changes the nodes in their wirings, which forget. -/
theorem rewired_structureChanged (g : Graph) (n : NodeId) : Rewired (fun _ => Wiring.Forgets) g (g.structureChanged n) := by
  have key : ∀ (l : List NodeId) (g : Graph),
      Rewired (fun _ => Wiring.Forgets) g (l.foldl (fun g id => (g.resetWiring id).staleStructure id) g) := by
    intro l
    induction l with
    | nil => exact fun g => .refl g
    | cons m l ih =>
      intro g
      exact ((derived_resetWiring g m).rewired.chain Wiring.chains_forgets (sameNodes_staleStructure _ m).rewired).chain
        Wiring.chains_forgets (ih _)
  exact (key (g.ancestors n) g).chain Wiring.chains_forgets (sameNodes_fire ..).rewired

end Graph

end Dataflow
