import Dataflow.Proofs.Posted

/-!
# Parents and references

A node keeps a list of the nodes that refer to it, so that a change can be told upwards. The list is a multiset kept by hand: every
call that adds or drops a reference adds or drops one occurrence, and the same node may refer to another many times, as a child and as
the template besides. Here it is read off the authored graph (`Authored`) occurrence by occurrence.
-/

namespace Dataflow

namespace DataNode

/-- How often a data node refers to a node: once for every place among its children, once as its source and once as its template. -/
def timesReferring (d : DataNode) (c : NodeId) : Nat :=
  d.children.count c + (if d.source = some c then 1 else 0) + (if d.proto = some c then 1 else 0)

theorem count_toList (o : Option NodeId) (c : NodeId) : o.toList.count c = if o = some c then 1 else 0 := by
  rcases o with _ | x
  · simp
  · simp [List.count_cons]

theorem count_references (d : DataNode) (c : NodeId) : d.references.count c = d.timesReferring c := by
  unfold references timesReferring
  simp only [List.count_append, count_toList]

/-- A node is referred to at least once if it is one of the references. -/
theorem mem_references {d : DataNode} {c : NodeId} : c ∈ d.references ↔ c ∈ d.children ∨ d.source = some c ∨ d.proto = some c := by
  unfold references
  simp

end DataNode

namespace Graph

variable {g : Graph}

/-- How often a node refers to another. A leaf refers to none. -/
def timesReferring (g : Graph) (p c : NodeId) : Nat := ((g.data? p).map (·.timesReferring c)).getD 0

theorem count_references (g : Graph) (p c : NodeId) : (g.references p).count c = g.timesReferring p c := by
  unfold references timesReferring
  rcases g.data? p with _ | d
  · rfl
  · exact d.count_references c

/-- Between live nodes the parent lists count the references; references lead to live nodes, sources and templates to data nodes; and
what has a source has no children. -/
structure Interlinked (g : Graph) : Prop where
  parents : ∀ p c, (g.node? p).isSome → (g.node? c).isSome → (g.parentsOf c).count p = g.timesReferring p c
  children : ∀ p d, g.data? p = some d → ∀ c ∈ d.children, (g.node? c).isSome
  source : ∀ p d, g.data? p = some d → ∀ c, d.source = some c → (g.data? c).isSome
  proto : ∀ p d, g.data? p = some d → ∀ c, d.proto = some c → (g.data? c).isSome
  exclusive : ∀ p d, g.data? p = some d → d.source = none ∨ d.children = []

/-- A dead node is nobody's parent and has none: parent lists count the references between any two ids. -/
theorem Authored.count_parentsOf (ha : g.Authored) (p c : NodeId) : (g.parentsOf c).count p = g.timesReferring p c := by
  rw [ha.parents, count_references]

theorem Authored.interlinked (ha : g.Authored) : g.Interlinked where
  parents := by
    intro p c _ _
    exact ha.count_parentsOf p c
  children := by
    intro p d hd c hc
    refine ha.live p c ?_
    rw [references_of_data? hd]
    exact DataNode.mem_references.2 (Or.inl hc)
  source := by
    intro p d hd c hc
    exact ha.dataRefs p _ (design?_of_data? hd) c (Or.inl hc)
  proto := by
    intro p d hd c hc
    exact ha.dataRefs p _ (design?_of_data? hd) c (Or.inr hc)
  exclusive := by
    intro p d hd
    rcases hs : d.source with _ | s
    · exact Or.inl rfl
    · exact Or.inr (ha.single p _ (design?_of_data? hd) s hs)

/-- In every graph that calls lead to, parent lists mirror the references, occurrence by occurrence. -/
theorem parents_mirror_references (h : g.Reachable) : g.Interlinked := by
  obtain ⟨_, ho⟩ := h.orderly
  exact ho.authored.interlinked

/-- A node that has another as a child twice and as its template, between other nodes that are detached and taken away. -/
def kinCalls : List Call :=
  [.createData true, .createData false, .createLeaf, .createData false, .appendChild 1 0, .appendChild 1 2, .insertBefore 1 0 2,
    .setProto 1 (some 0), .appendChild 3 0, .setSource 3 (some 0), .clearChildren 3, .setSource 3 (some 0), .remove 2]

def kinGraph : Graph := (new Registry.empty {}).after kinCalls

/-- The first node has its parent three times, and the node with a source once; the leaf that was taken away is referred to no more. -/
theorem parents_mirror_references_kin :
    kinGraph.Reachable ∧ kinGraph.Interlinked ∧ kinGraph.parentsOf 0 = [1, 1, 1, 3] ∧ kinGraph.timesReferring 1 0 = 3 ∧
      kinGraph.timesReferring 3 0 = 1 ∧ kinGraph.timesReferring 1 2 = 0 := by
  have h : kinGraph.Reachable := ⟨_, _, _, rfl⟩
  refine ⟨h, parents_mirror_references h, ?_⟩
  decide +kernel

end Graph

end Dataflow
