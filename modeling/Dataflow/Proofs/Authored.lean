import Dataflow.Proofs.Access
import Dataflow.Proofs.Reach

/-!
# The authored graph: references that close no cycle

Nodes refer to others as children, source or template. In every graph that calls can build these references lead to live nodes,
every node knows who refers to it, and no node is below itself. A rank, the number of nodes below, then decreases along every
reference and is bounded by the number of nodes, which is what the searches down a graph count on.
-/

namespace Dataflow

namespace Graph

/-- A numbering of nodes that decreases along every reference. -/
def Ranked (g : Graph) (ρ : NodeId → Nat) : Prop := ∀ n, ∀ r ∈ g.references n, ρ r < ρ n

/-- `m` is below `n`, or `n` itself. -/
def Below (g : Graph) (n m : NodeId) : Prop := Leads g.references n m

/-- `m` is properly below `n`. -/
def StrictlyBelow (g : Graph) (n m : NodeId) : Prop := Relation.TransGen (fun a b => b ∈ g.references a) n m

theorem Below.rank_le {g : Graph} {ρ : NodeId → Nat} (hρ : g.Ranked ρ) {n m : NodeId} (h : g.Below n m) : ρ m ≤ ρ n := by
  induction h with
  | refl => exact Nat.le_refl _
  | tail _ hm ih => exact Nat.le_trans (Nat.le_of_lt (hρ _ _ hm)) ih

/-- Nothing above a node is below one of its references. -/
theorem not_below_of_reference {g : Graph} {ρ : NodeId → Nat} (hρ : g.Ranked ρ) {n r : NodeId} (hr : r ∈ g.references n) :
    ¬ g.Below r n := by
  intro h
  have := h.rank_le hρ
  have := hρ n r hr
  omega

/-- What calls build: references lead to live nodes, are known to the nodes that they lead to, and close no cycle; sources and
templates are data nodes, and what has a source has no children. -/
structure Authored (g : Graph) : Prop where
  live : ∀ n, ∀ r ∈ g.references n, (g.node? r).isSome
  parents : ∀ p c, (g.parentsOf c).count p = (g.references p).count c
  acyclic : ∀ n, ¬ g.StrictlyBelow n n
  dataRefs : ∀ n d, g.design? n = some d → ∀ r, d.source = some r ∨ d.proto = some r → (g.data? r).isSome
  single : ∀ n d, g.design? n = some d → ∀ r, d.source = some r → d.children = []

/-- References lead to live nodes and close no cycle, and what has a source has no children. -/
structure Founded (g : Graph) : Prop where
  live : ∀ n, ∀ r ∈ g.references n, (g.node? r).isSome
  acyclic : ∀ n, ¬ g.StrictlyBelow n n
  single : ∀ n d, g.design? n = some d → ∀ r, d.source = some r → d.children = []

theorem Authored.founded {g : Graph} (h : g.Authored) : g.Founded := ⟨h.live, h.acyclic, h.single⟩

open Classical in
/-- The number of nodes properly below a node. -/
noncomputable def rank (g : Graph) (n : NodeId) : Nat :=
  (g.nodes.items.keys.filter fun m => decide (g.StrictlyBelow n m)).length

theorem rank_le_size (g : Graph) (n : NodeId) : g.rank n ≤ g.nodes.size := by
  rw [rank]
  refine Nat.le_trans (List.length_filter_le _ _) ?_
  rw [Std.ExtTreeMap.length_keys]
  exact Nat.le_refl _

/-- The rank decreases along references. -/
theorem Founded.ranked {g : Graph} (h : g.Founded) : g.Ranked g.rank := by
  classical
  intro n r hr
  have hrn : g.StrictlyBelow n r := Relation.TransGen.single hr
  have hmem : r ∈ g.nodes.items.keys := by
    obtain ⟨x, hx⟩ := Option.isSome_iff_exists.1 (h.live n r hr)
    exact Table.mem_keys.2 ⟨x, hx⟩
  rw [rank, rank]
  have hsub : (g.nodes.items.keys.filter fun m => decide (g.StrictlyBelow r m)).Sublist
      ((g.nodes.items.keys.filter fun m => decide (g.StrictlyBelow n m)).filter fun m => decide (m ≠ r)) := by
    rw [List.filter_filter]
    refine List.monotone_filter_right _ fun m hm => ?_
    have hm := of_decide_eq_true hm
    rw [Bool.and_eq_true, decide_eq_true_eq, decide_eq_true_eq]
    refine ⟨?_, Relation.TransGen.head hr hm⟩
    rintro rfl
    exact h.acyclic _ hm
  refine Nat.lt_of_le_of_lt hsub.length_le ?_
  refine List.length_filter_lt_length_iff_exists.2 ⟨r, ?_, by simp⟩
  exact List.mem_filter.2 ⟨hmem, by simpa using hrn⟩

theorem Authored.ranked {g : Graph} (h : g.Authored) : g.Ranked g.rank := h.founded.ranked

theorem isSome_node?_of_data? {g : Graph} {n : NodeId} (h : (g.data? n).isSome) : (g.node? n).isSome := by
  rw [data?] at h
  rcases hn : g.node? n with _ | x
  · rw [hn] at h
    cases h
  · rfl

theorem StrictlyBelow.of_references {g g' : Graph} (h : ∀ n, ∀ r ∈ g'.references n, r ∈ g.references n) {n m : NodeId}
    (hb : g'.StrictlyBelow n m) : g.StrictlyBelow n m := Relation.TransGen.mono h _ _ hb

/-- A node that refers to others is a data node. -/
theorem exists_data_of_reference {g : Graph} {n r : NodeId} (h : r ∈ g.references n) : ∃ d, g.data? n = some d := by
  rw [references] at h
  rcases hd : g.data? n with _ | d
  · rw [hd] at h
    cases h
  · exact ⟨d, rfl⟩

theorem references_of_data? {g : Graph} {n : NodeId} {d : DataNode} (h : g.data? n = some d) : g.references n = d.references := by
  rw [references, h]
  rfl

theorem leaf?_eq_none_of_data? {g : Graph} {n : NodeId} {d : DataNode} (h : g.data? n = some d) : g.leaf? n = none := by
  rw [data?] at h
  rw [leaf?]
  rcases hn : g.node? n with _ | ⟨ps, l | d'⟩
  · rfl
  · rw [hn] at h
    cases h
  · rfl

theorem exists_data_of_leaf?_eq_none {g : Graph} {n : NodeId} (hn : (g.node? n).isSome) (h : g.leaf? n = none) :
    ∃ d, g.data? n = some d := by
  rw [leaf?] at h
  rw [data?]
  rcases hx : g.node? n with _ | ⟨ps, l | d⟩
  · rw [hx] at hn
    cases hn
  · rw [hx] at h
    cases h
  · exact ⟨d, rfl⟩

theorem design?_of_data? {g : Graph} {n : NodeId} {d : DataNode} (h : g.data? n = some d) : g.design? n = some d.design := by
  rw [design?, h]
  rfl

theorem wiring?_of_data? {g : Graph} {n : NodeId} {d : DataNode} (h : g.data? n = some d) : g.wiring? n = some d.wiring := by
  rw [wiring?, h]
  rfl

theorem exists_data_of_wiring? {g : Graph} {n : NodeId} {w : Wiring} (h : g.wiring? n = some w) :
    ∃ d, g.data? n = some d ∧ d.wiring = w := Option.map_eq_some_iff.1 h

end Graph

end Dataflow
