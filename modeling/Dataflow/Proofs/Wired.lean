import Dataflow.Proofs.Authored
import Dataflow.Proofs.Flow

/-!
# Wired graphs: the tables of nodes in sync fit together

A data node that is in sync has the tables that its design and the tables of the nodes below it make, and these are in sync too.
What the tables of a node promise of the names and parameters that flow into it follows, port by port.
-/

namespace Dataflow

/-- The tables that a wiring has. -/
def Wiring.tables (w : Wiring) : Tables := ⟨w.input.table, w.extended.table, w.output.table, w.operator, w.operatorParams⟩

namespace Graph

/-- The table of a port of a data node. -/
def table (g : Graph) (n : NodeId) (port : Port) : ParamTable := ((g.wiring? n).map fun w => (w.map port).table).getD ∅

/-- The parameters that a name depends on at a port of a data node. -/
def paramsAt (g : Graph) (n : NodeId) (port : Port) (x : String) : NameSet := (g.table n port).paramsOf x

/-- The parameters of a data node. -/
def params (g : Graph) (n : NodeId) : NameSet := ((g.wiring? n).map (·.params)).getD ∅

/-- The table of what a data node exposes before its filter. -/
def unfiltered (g : Graph) (n : NodeId) (d : Design) : ParamTable :=
  match d.proto with
  | some p => DataNode.addTemplate (g.table n .extended) (g.exposed p)
  | none => g.table n .extended

theorem exposed_eq (g : Graph) (n : NodeId) : g.exposed n = g.table n .output := rfl

theorem table_of_wiring? {g : Graph} {n : NodeId} {w : Wiring} (h : g.wiring? n = some w) (port : Port) :
    g.table n port = (w.map port).table := by
  rw [table, h]
  rfl

theorem paramsAt_of_wiring? {g : Graph} {n : NodeId} {w : Wiring} (h : g.wiring? n = some w) (port : Port) (x : String) :
    g.paramsAt n port x = ((w.map port).entryOf x).params := by
  rw [paramsAt, table_of_wiring? h, ChannelMap.paramsOf_table]

theorem params_of_wiring? {g : Graph} {n : NodeId} {w : Wiring} (h : g.wiring? n = some w) : g.params n = w.params := by
  rw [params, h]
  rfl

/-- A data node in sync has the tables that its design makes of the tables below it, where all is in sync. -/
structure WiredAt (g : Graph) (d : DataNode) : Prop where
  tables : d.wiring.tables = d.tables (g.operatorOf d) (g.inputTable d) (d.proto.map g.exposed)
  params : d.wiring.params = d.wiring.input.table.all
  below : ∀ r ∈ d.references, ∀ d', g.data? r = some d' → d'.wiring.outOfSync = false

/-- Every data node in sync is wired. -/
def Wired (g : Graph) : Prop := ∀ n d, g.data? n = some d → d.wiring.outOfSync = false → g.WiredAt d

/-! ## The input table -/

/-- Which names a child brings. -/
def Brings (g : Graph) (child : NodeId) (x : String) : Prop :=
  match g.leaf? child with
  | some l => l.name = x
  | none => x ∈ g.exposed child

/-- Which parameters a child's name depends on. -/
def BringsParam (g : Graph) (child : NodeId) (x q : String) : Prop :=
  match g.leaf? child with
  | some l => l.param = true ∧ l.name = x ∧ q = x
  | none => q ∈ (g.exposed child).paramsOf x

/-- The table after one more child. -/
def addChild (g : Graph) (t : ParamTable) (child : NodeId) : ParamTable :=
  match g.leaf? child with
  | some l => l.addTo t
  | none => t.merge (g.exposed child)

theorem mem_addChild {g : Graph} {t : ParamTable} {child : NodeId} {x : String} :
    x ∈ g.addChild t child ↔ x ∈ t ∨ g.Brings child x := by
  rw [addChild, Brings]
  rcases g.leaf? child with _ | l
  · exact ParamTable.mem_merge
  · change x ∈ t.add l.name _ ↔ x ∈ t ∨ l.name = x
    rw [ParamTable.mem_add, or_comm, eq_comm]

theorem mem_paramsOf_addChild {g : Graph} {t : ParamTable} {child : NodeId} {x q : String} :
    q ∈ (g.addChild t child).paramsOf x ↔ q ∈ t.paramsOf x ∨ g.BringsParam child x q := by
  rw [addChild, BringsParam]
  rcases g.leaf? child with _ | l
  · exact ParamTable.mem_paramsOf_merge
  · change q ∈ (t.add l.name (if l.param then ({l.name} : NameSet) else ∅)).paramsOf x ↔
      q ∈ t.paramsOf x ∨ l.param = true ∧ l.name = x ∧ q = x
    have hs : q ∈ (if l.param then ({l.name} : NameSet) else ∅) ↔ l.param = true ∧ q = l.name := by
      split
      · rename_i hp
        rw [Std.ExtTreeSet.singleton_eq_insert, Std.ExtTreeSet.mem_insert, Std.LawfulEqCmp.compare_eq_iff_eq]
        simp [hp, eq_comm]
      · rename_i hp
        simp [hp]
    rw [ParamTable.mem_paramsOf_add, hs]
    constructor
    · rintro (h | ⟨rfl, hp, rfl⟩)
      · exact .inl h
      · exact .inr ⟨hp, rfl, rfl⟩
    · rintro (h | ⟨hp, rfl, rfl⟩)
      · exact .inl h
      · exact .inr ⟨rfl, hp, rfl⟩

theorem inputTable_of_source {g : Graph} {d : DataNode} {r : NodeId} (h : d.source = some r) :
    g.inputTable d = ParamTable.merge ∅ (g.exposed r) := by
  rw [inputTable, h]

theorem inputTable_of_children {g : Graph} {d : DataNode} (h : d.source = none) :
    g.inputTable d = d.children.foldl g.addChild ∅ := by
  rw [inputTable, h]
  rfl

theorem mem_foldl_addChild {g : Graph} {l : List NodeId} {t : ParamTable} {x : String} :
    x ∈ l.foldl g.addChild t ↔ x ∈ t ∨ ∃ child ∈ l, g.Brings child x := by
  induction l generalizing t with
  | nil => simp
  | cons a l ih => rw [List.foldl_cons, ih, mem_addChild]; simp [or_assoc]

theorem mem_paramsOf_foldl_addChild {g : Graph} {l : List NodeId} {t : ParamTable} {x q : String} :
    q ∈ (l.foldl g.addChild t).paramsOf x ↔ q ∈ t.paramsOf x ∨ ∃ child ∈ l, g.BringsParam child x q := by
  induction l generalizing t with
  | nil => simp
  | cons a l ih => rw [List.foldl_cons, ih, mem_paramsOf_addChild]; simp [or_assoc]

/-- The nodes whose names come in: the source, or the children. -/
def inflow (d : Design) : List NodeId :=
  match d.source with
  | some r => [r]
  | none => d.children

theorem mem_references_of_mem_inflow {d : Design} {r : NodeId} (h : r ∈ inflow d) : r ∈ d.references := by
  rw [inflow] at h
  rw [Design.references]
  rcases hs : d.source with _ | s
  · rw [hs] at h
    exact List.mem_append_left _ (List.mem_append_left _ h)
  · rw [hs] at h
    rw [List.mem_singleton.1 h]
    exact List.mem_append_left _ (List.mem_append_right _ (List.mem_singleton_self _))

theorem mem_references_of_proto {d : Design} {p : NodeId} (h : d.proto = some p) : p ∈ d.references := by
  rw [Design.references, h]
  exact List.mem_append_right _ (List.mem_singleton_self _)

/-- A source that is a leaf would bring nothing. -/
theorem mem_inputTable {g : Graph} {d : DataNode} (hd : ∀ r, d.source = some r → g.leaf? r = none) {x : String} :
    x ∈ g.inputTable d ↔ ∃ child ∈ inflow d.design, g.Brings child x := by
  rcases hs : d.source with _ | r
  · rw [inputTable_of_children hs, mem_foldl_addChild, show inflow d.design = d.children by rw [inflow, DataNode.design, hs]]
    simp
  · rw [inputTable_of_source hs, ParamTable.mem_merge, show inflow d.design = [r] by rw [inflow, DataNode.design, hs]]
    simp [Brings, hd r hs]

theorem mem_paramsOf_inputTable {g : Graph} {d : DataNode} (hd : ∀ r, d.source = some r → g.leaf? r = none) {x q : String} :
    q ∈ (g.inputTable d).paramsOf x ↔ ∃ child ∈ inflow d.design, g.BringsParam child x q := by
  rcases hs : d.source with _ | r
  · rw [inputTable_of_children hs, mem_paramsOf_foldl_addChild,
      show inflow d.design = d.children by rw [inflow, DataNode.design, hs]]
    simp [ParamTable.paramsOf]
  · rw [inputTable_of_source hs, ParamTable.mem_paramsOf_merge,
      show inflow d.design = [r] by rw [inflow, DataNode.design, hs]]
    simp [BringsParam, hd r hs, ParamTable.paramsOf]

theorem Authored.leaf?_source {g : Graph} (h : g.Authored) {n : NodeId} {d : DataNode} (hd : g.data? n = some d) {r : NodeId}
    (hr : d.source = some r) : g.leaf? r = none := by
  obtain ⟨d', hd'⟩ := Option.isSome_iff_exists.1 (h.dataRefs n d.design (design?_of_data? hd) r (.inl hr))
  exact leaf?_eq_none_of_data? hd'

/-! ## What the tables promise -/

namespace WiredAt

variable {g : Graph} {n : NodeId} {d : DataNode}

theorem input_eq (h : g.WiredAt d) (hd : g.data? n = some d) : g.table n .input = g.inputTable d := by
  rw [table_of_wiring? (wiring?_of_data? hd)]
  exact (congrArg Tables.input h.tables).trans (DataNode.tables_input ..)

theorem operator_eq (h : g.WiredAt d) : d.wiring.operator = g.operatorOf d :=
  (congrArg Tables.operator h.tables).trans (DataNode.tables_operator ..)

theorem extended_eq (h : g.WiredAt d) (hd : g.data? n = some d) :
    g.table n .extended = d.extendedTable (g.operatorOf d) (g.inputTable d) := by
  rw [table_of_wiring? (wiring?_of_data? hd)]
  exact (congrArg Tables.extended h.tables).trans (DataNode.tables_extended ..)

theorem operatorParams_eq (h : g.WiredAt d) {op : Operator} {c : Compute} (ho : g.operatorOf d = some op)
    (hc : d.compute = some c) : d.wiring.operatorParams = DataNode.paramsOf (g.inputTable d) c op := by
  have := congrArg Tables.operatorParams h.tables
  rw [ho] at this
  exact this.trans (DataNode.tables_operatorParams hc ..)

theorem output_eq (h : g.WiredAt d) (hd : g.data? n = some d) :
    g.table n .output = DataNode.selectNames d.filter (g.unfiltered n d.design) := by
  rw [table_of_wiring? (wiring?_of_data? hd)]
  refine ((congrArg Tables.output h.tables).trans (DataNode.tables_output ..)).trans (congrArg _ ?_)
  rw [unfiltered, h.extended_eq hd, DataNode.design]
  rcases d.proto with _ | p <;> rfl

theorem params_eq (h : g.WiredAt d) (hd : g.data? n = some d) : g.params n = (g.table n .input).all := by
  rw [params_of_wiring? (wiring?_of_data? hd), h.params, table_of_wiring? (wiring?_of_data? hd)]
  rfl

/-- A node depends on the parameters of every name that comes in. -/
theorem mem_params (h : g.WiredAt d) (hd : g.data? n = some d) {x q : String} (hq : q ∈ g.paramsAt n .input x) :
    q ∈ g.params n := by
  rw [h.params_eq hd]
  exact ParamTable.mem_all.2 ⟨x, hq⟩

theorem mem_extended (h : g.WiredAt d) (hd : g.data? n = some d) {x : String} (hx : x ∈ g.table n .input) :
    x ∈ g.table n .extended := by
  rw [h.extended_eq hd]
  rw [h.input_eq hd] at hx
  unfold DataNode.extendedTable
  split
  · exact DataNode.mem_addOutputs.2 (.inl hx)
  · exact hx

theorem paramsAt_extended (h : g.WiredAt d) (hd : g.data? n = some d) {x q : String} (hq : q ∈ g.paramsAt n .input x) :
    q ∈ g.paramsAt n .extended x := by
  rw [paramsAt, h.extended_eq hd]
  rw [paramsAt, h.input_eq hd] at hq
  unfold DataNode.extendedTable
  split
  · exact DataNode.mem_paramsOf_addOutputs.2 (.inl hq)
  · exact hq

theorem mem_extended_output (h : g.WiredAt d) (hd : g.data? n = some d) {op : Operator} {c : Compute}
    (ho : g.operatorOf d = some op) (hc : d.compute = some c) {x : String} (hx : x ∈ DataNode.outputNames c op) :
    x ∈ g.table n .extended := by
  rw [h.extended_eq hd, ho, DataNode.extendedTable_some hc]
  exact DataNode.mem_addOutputs.2 (.inr hx)

theorem paramsAt_extended_output (h : g.WiredAt d) (hd : g.data? n = some d) {op : Operator} {c : Compute}
    (ho : g.operatorOf d = some op) (hc : d.compute = some c) {x q : String} (hx : x ∈ DataNode.outputNames c op)
    (hq : q ∈ d.wiring.operatorParams) : q ∈ g.paramsAt n .extended x := by
  rw [h.operatorParams_eq ho hc] at hq
  rw [paramsAt, h.extended_eq hd, ho, DataNode.extendedTable_some hc]
  exact DataNode.mem_paramsOf_addOutputs.2 (.inr ⟨hx, hq⟩)

theorem mem_operatorParams (h : g.WiredAt d) (hd : g.data? n = some d) {op : Operator} {c : Compute}
    (ho : g.operatorOf d = some op) (hc : d.compute = some c) {x q : String} (hx : x ∈ DataNode.inputNames c op)
    (hq : q ∈ g.paramsAt n .input x) : q ∈ d.wiring.operatorParams := by
  rw [paramsAt, h.input_eq hd] at hq
  rw [h.operatorParams_eq ho hc]
  exact DataNode.mem_operatorParams.2 ⟨x, hx, hq⟩

theorem mem_output (h : g.WiredAt d) (hd : g.data? n = some d) {x y : String} (hy : y ∈ Filter.sources d.filter x)
    (ht : y ∈ g.unfiltered n d.design) : x ∈ g.table n .output := by
  rw [h.output_eq hd]
  exact DataNode.mem_selectNames.2 ⟨y, hy, ht⟩

theorem paramsAt_output (h : g.WiredAt d) (hd : g.data? n = some d) {x y q : String} (hy : y ∈ Filter.sources d.filter x)
    (hq : q ∈ (g.unfiltered n d.design).paramsOf y) : q ∈ g.paramsAt n .output x := by
  rw [paramsAt, h.output_eq hd]
  exact DataNode.mem_paramsOf_selectNames.2 ⟨y, hy, hq⟩

end WiredAt

end Graph

end Dataflow
