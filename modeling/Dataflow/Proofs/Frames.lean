import Dataflow.Proofs.Moves

/-!
# Frames: the tables of nodes, and what nodes remember

Most steps of a call leave the frame of every node as it is: whether it is in sync, its tables and its parameters. They fill ports,
count users, or change which instances and processes a node remembers. What is said of a graph in terms of frames and designs holds
after them as before.
-/

namespace Dataflow

/-- Whether a node is in sync, its tables and its parameters. -/
structure Frame where
  outOfSync : Bool
  tables : Tables
  params : NameSet

/-- The frame of a wiring. -/
def Wiring.frame (w : Wiring) : Frame := ⟨w.outOfSync, w.tables, w.params⟩

/-- The table of a port. -/
def Frame.table (f : Frame) : Port → ParamTable
  | .input => f.tables.input
  | .extended => f.tables.extended
  | .output => f.tables.output

theorem Wiring.table_frame (w : Wiring) (port : Port) : w.frame.table port = (w.map port).table := by cases port <;> rfl

theorem Wiring.Same.frame {w w' : Wiring} (h : w.Same w') : w'.frame = w.frame := by
  rw [Wiring.frame, h.outOfSync, h.tables, h.params, Wiring.frame]

theorem Wiring.Sheds.frame {w w' : Wiring} (h : w.Sheds w') : w'.frame = w.frame := by
  rw [Wiring.frame, h.outOfSync, h.tables, h.params, Wiring.frame]

namespace Graph

variable {g g' g'' : Graph} {n m : NodeId}

/-- The frame of a data node. -/
def frame? (g : Graph) (n : NodeId) : Option Frame := (g.wiring? n).map Wiring.frame

/-- The instance that a data node remembers under a key. -/
def instanceAt? (g : Graph) (n : NodeId) (k : String) : Option InstanceId := (g.wiring? n).bind (·.instances[k]?)

/-- The outlet that a data node keeps under a key. -/
def outletAt? (g : Graph) (n : NodeId) (k : String) : Option OutletId := (g.data? n).bind (·.outlets[k]?)

theorem frame?_of_data? {d : DataNode} (hd : g.data? n = some d) : g.frame? n = some d.wiring.frame := by
  rw [frame?, wiring?_of_data? hd]
  rfl

theorem exists_data_of_frame? {f : Frame} (hf : g.frame? n = some f) : ∃ d, g.data? n = some d ∧ d.wiring.frame = f := by
  obtain ⟨w, hw, rfl⟩ := Option.map_eq_some_iff.1 hf
  obtain ⟨d, hd, rfl⟩ := exists_data_of_wiring? hw
  exact ⟨d, hd, rfl⟩

theorem table_eq_frame (g : Graph) (n : NodeId) (port : Port) : g.table n port = ((g.frame? n).map (·.table port)).getD ∅ := by
  rw [table, frame?, Option.map_map]
  exact congrArg (Option.getD · ∅) (congrArg (Option.map · _) (funext fun w => (w.table_frame port).symm))

theorem unsynced_iff : g.Unsynced n ↔ ∀ f, g.frame? n = some f → f.outOfSync = true := by
  refine ⟨fun h f hf => ?_, fun h w hw => h w.frame (by rw [frame?, hw]; rfl)⟩
  obtain ⟨w, hw, rfl⟩ := Option.map_eq_some_iff.1 hf
  exact h w hw

theorem inSync_iff : g.InSync n ↔ ∃ f, g.frame? n = some f ∧ f.outOfSync = false := by
  refine ⟨fun ⟨w, hw, hs⟩ => ⟨w.frame, by rw [frame?, hw]; rfl, hs⟩, fun ⟨f, hf, hs⟩ => ?_⟩
  obtain ⟨w, hw, rfl⟩ := Option.map_eq_some_iff.1 hf
  exact ⟨w, hw, hs⟩

/-! ## Steps that keep frames -/

/-- The nodes of two graphs are designed and framed alike. -/
structure SameFrames (g g' : Graph) : Prop where
  node : ∀ n, (g'.node? n).isSome = (g.node? n).isSome
  design : ∀ n, g'.design? n = g.design? n
  leaf : ∀ n, g'.leaf? n = g.leaf? n
  frame : ∀ n, g'.frame? n = g.frame? n
  registry : g'.registry = g.registry

namespace SameFrames

theorem refl (g : Graph) : g.SameFrames g := ⟨fun _ => rfl, fun _ => rfl, fun _ => rfl, fun _ => rfl, rfl⟩

theorem symm (h : g.SameFrames g') : g'.SameFrames g :=
  ⟨fun n => (h.node n).symm, fun n => (h.design n).symm, fun n => (h.leaf n).symm, fun n => (h.frame n).symm, h.registry.symm⟩

theorem trans (h : g.SameFrames g') (h' : g'.SameFrames g'') : g.SameFrames g'' :=
  ⟨fun n => (h'.node n).trans (h.node n), fun n => (h'.design n).trans (h.design n), fun n => (h'.leaf n).trans (h.leaf n),
    fun n => (h'.frame n).trans (h.frame n), h'.registry.trans h.registry⟩

theorem of_nodes_eq (h : g'.nodes = g.nodes) (hr : g'.registry = g.registry) : g.SameFrames g' := by
  have hn : ∀ n, g'.node? n = g.node? n := fun n => by rw [node?, h, node?]
  have hd : ∀ n, g'.data? n = g.data? n := fun n => by rw [data?, hn, data?]
  exact ⟨fun n => by rw [hn], fun n => by rw [design?, hd, design?], fun n => by rw [leaf?, hn, leaf?],
    fun n => by rw [frame?, wiring?, hd, frame?, wiring?], hr⟩

theorem of_rewired {P : NodeId → Wiring → Wiring → Prop} (h : Rewired P g g') (hP : ∀ m w w', P m w w' → w'.frame = w.frame)
    (hr : g'.registry = g.registry) : g.SameFrames g' := by
  refine ⟨h.isSome_node?, h.design?, h.leaf?, fun n => ?_, hr⟩
  rcases h.data? n with hn | ⟨d, w, hd, hw, hn⟩
  · rw [frame?, wiring?, hn, frame?, wiring?]
  · rw [frame?_of_data? hd, frame?_of_data? hn]
    exact congrArg some (hP n _ _ hw)

theorem of_recached (h : g.Recached g') : g.SameFrames g' := of_rewired h.rewired (fun _ _ _ => Wiring.Same.frame) h.registry

theorem of_relisted (h : g.Relisted g') : g.SameFrames g' :=
  of_rewired h.rewired (fun _ _ _ ⟨_, _, hw⟩ => hw ▸ rfl) h.registry

theorem of_drops (h : g.Drops g') : g.SameFrames g' := of_rewired h.derived.rewired (fun _ _ _ => Wiring.Sheds.frame) h.derived.registry

/-- Only parents, outlets or what is not a node change. -/
theorem of_data (hnode : ∀ n, (g'.node? n).isSome = (g.node? n).isSome) (hleaf : ∀ n, g'.leaf? n = g.leaf? n)
    (hinner : ∀ n, g'.inner? n = g.inner? n) (hr : g'.registry = g.registry) : g.SameFrames g' :=
  ⟨hnode, fun n => by rw [design?_eq, hinner, design?_eq], hleaf, fun n => by rw [frame?, wiring?_eq, hinner, frame?, wiring?_eq], hr⟩

section Kept

variable (h : g.SameFrames g')

include h

theorem references (n : NodeId) : g'.references n = g.references n := by
  rw [references_eq, h.design, references_eq]

theorem table (n : NodeId) (port : Port) : g'.table n port = g.table n port := by
  rw [table_eq_frame, h.frame, table_eq_frame]

theorem exposed (n : NodeId) : g'.exposed n = g.exposed n := h.table n .output

theorem unsynced : g'.Unsynced n ↔ g.Unsynced n := by
  rw [unsynced_iff, h.frame, unsynced_iff]

theorem inSync : g'.InSync n ↔ g.InSync n := by
  rw [inSync_iff, h.frame, inSync_iff]

/-- A data node stays one, of the same design and frame. -/
theorem data {d' : DataNode} (hd' : g'.data? n = some d') :
    ∃ d, g.data? n = some d ∧ d'.design = d.design ∧ d'.wiring.frame = d.wiring.frame := by
  have hf := h.frame n
  rw [frame?_of_data? hd'] at hf
  obtain ⟨d, hd, hfr⟩ := exists_data_of_frame? hf.symm
  have hdes := h.design n
  rw [design?_of_data? hd', design?_of_data? hd] at hdes
  exact ⟨d, hd, Option.some.inj hdes, hfr.symm⟩

theorem wiring {w' : Wiring} (hw' : g'.wiring? n = some w') : ∃ w, g.wiring? n = some w ∧ w'.frame = w.frame := by
  obtain ⟨d', hd', rfl⟩ := exists_data_of_wiring? hw'
  obtain ⟨d, hd, -, hf⟩ := h.data hd'
  exact ⟨d.wiring, wiring?_of_data? hd, hf⟩

theorem outOfSync {w' : Wiring} (hw' : g'.wiring? n = some w') : ∃ w, g.wiring? n = some w ∧ w'.outOfSync = w.outOfSync := by
  obtain ⟨w, hw, hf⟩ := h.wiring hw'
  exact ⟨w, hw, congrArg Frame.outOfSync hf⟩

theorem wiredAt {d d' : DataNode} (hd : g.WiredAt d) (hdes : d'.design = d.design) (hf : d'.wiring.frame = d.wiring.frame) :
    g'.WiredAt d' := by
  refine hd.congr h.registry hdes (congrArg Frame.tables hf) (congrArg Frame.params hf) (fun r _ => h.leaf r) (fun r _ => h.exposed r)
    fun r hr e he => ?_
  obtain ⟨e', he', -, hfr⟩ := h.data he
  exact (congrArg Frame.outOfSync hfr).trans (hd.below r hr e' he')

end Kept

end SameFrames

/-- Finishing an instance keeps frames. -/
theorem sameFrames_enlist (g : Graph) (id : InstanceId) (i : Instance) : g.SameFrames (g.enlist id i) :=
  (SameFrames.of_recached (recached_markUsed g i.owner i.substitution)).trans (.of_relisted (relisted_remember _ id i))

end Graph

end Dataflow
