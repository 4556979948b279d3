import Dataflow.Graph.Call
import Dataflow.Proofs.Tables

/-!
# Access: what the parts of a graph are after a change of one of them

Laws of the accessors of graphs, channel maps and stores. What is authored of a data node, its design, is told apart from what
is derived from it, so that changes of the derived part are seen to keep the design.
-/

namespace Dataflow

/-- What is authored of a data node. -/
structure Design where
  children : List NodeId
  source : Option NodeId
  proto : Option NodeId
  filter : Option Filter
  compute : Option Compute
  deriving DecidableEq

/-- What is authored of a data node, apart from what is derived. -/
def DataNode.design (d : DataNode) : Design := ⟨d.children, d.source, d.proto, d.filter, d.compute⟩

/-- The nodes that a design refers to. -/
def Design.references (d : Design) : List NodeId := d.children ++ d.source.toList ++ d.proto.toList

theorem DataNode.references_design (d : DataNode) : d.design.references = d.references := rfl

namespace Graph

/-- The design of the data node under an id. -/
def design? (g : Graph) (id : NodeId) : Option Design := (g.data? id).map DataNode.design

/-- The design and the wiring of the data node under an id. -/
def inner? (g : Graph) (id : NodeId) : Option (Design × Wiring) := (g.data? id).map fun d => (d.design, d.wiring)

theorem design?_eq (g : Graph) (n : NodeId) : g.design? n = (g.inner? n).map (·.1) := by
  rw [design?, inner?]
  rcases g.data? n with _ | d <;> rfl

theorem wiring?_eq (g : Graph) (n : NodeId) : g.wiring? n = (g.inner? n).map (·.2) := by
  rw [wiring?, inner?]
  rcases g.data? n with _ | d <;> rfl

theorem exists_data_of_inner? {g : Graph} {n : NodeId} {a : Design} {w : Wiring} (h : g.inner? n = some (a, w)) :
    ∃ d, g.data? n = some d ∧ d.design = a ∧ d.wiring = w := by
  obtain ⟨d, hd, he⟩ := Option.map_eq_some_iff.1 h
  exact ⟨d, hd, (Prod.mk.inj he).1, (Prod.mk.inj he).2⟩

theorem inner?_of_data? {g : Graph} {n : NodeId} {d : DataNode} (h : g.data? n = some d) : g.inner? n = some (d.design, d.wiring) := by
  rw [inner?, h]
  rfl

theorem references_eq (g : Graph) (n : NodeId) : g.references n = ((g.design? n).map Design.references).getD [] := by
  rw [references, design?]
  rcases g.data? n with _ | d <;> rfl

/-! ## Nodes -/

variable (g : Graph) (n m : NodeId)

theorem node?_modifyData (f : DataNode → DataNode) :
    (g.modifyData n f).node? m = if m = n then (g.node? m).map fun x =>
      match x.kind with
      | .leaf _ => x
      | .data d => { x with kind := .data (f d) } else g.node? m := Arena.get?_modify ..

@[simp] theorem data?_modifyData (f : DataNode → DataNode) :
    (g.modifyData n f).data? m = if m = n then (g.data? m).map f else g.data? m := by
  rw [data?, node?_modifyData, data?]
  split
  · rcases g.node? m with _ | ⟨ps, l | d⟩ <;> rfl
  · rfl

@[simp] theorem leaf?_modifyData (f : DataNode → DataNode) : (g.modifyData n f).leaf? m = g.leaf? m := by
  rw [leaf?, node?_modifyData, leaf?]
  split
  · rcases g.node? m with _ | ⟨ps, l | d⟩ <;> rfl
  · rfl

@[simp] theorem parentsOf_modifyData (f : DataNode → DataNode) : (g.modifyData n f).parentsOf m = g.parentsOf m := by
  rw [parentsOf, node?_modifyData, parentsOf]
  split
  · rcases g.node? m with _ | ⟨ps, l | d⟩ <;> rfl
  · rfl

theorem isSome_node?_modifyData (f : DataNode → DataNode) :
    ((g.modifyData n f).node? m).isSome = (g.node? m).isSome := by
  rw [node?_modifyData]
  split
  · rcases g.node? m with _ | ⟨ps, l | d⟩ <;> rfl
  · rfl

@[simp] theorem data?_modifyWiring (f : Wiring → Wiring) :
    (g.modifyWiring n f).data? m = if m = n then (g.data? m).map fun d => { d with wiring := f d.wiring } else g.data? m :=
  data?_modifyData ..

@[simp] theorem leaf?_modifyWiring (f : Wiring → Wiring) : (g.modifyWiring n f).leaf? m = g.leaf? m := leaf?_modifyData ..

@[simp] theorem parentsOf_modifyWiring (f : Wiring → Wiring) : (g.modifyWiring n f).parentsOf m = g.parentsOf m :=
  parentsOf_modifyData ..

@[simp] theorem wiring?_modifyWiring (f : Wiring → Wiring) :
    (g.modifyWiring n f).wiring? m = if m = n then (g.wiring? m).map f else g.wiring? m := by
  rw [wiring?, data?_modifyWiring, wiring?]
  split
  · rcases g.data? m with _ | d <;> rfl
  · rfl

@[simp] theorem design?_modifyWiring (f : Wiring → Wiring) : (g.modifyWiring n f).design? m = g.design? m := by
  rw [design?, data?_modifyWiring, design?]
  split
  · rcases g.data? m with _ | d <;> rfl
  · rfl

theorem node?_modifyLeaf (f : Leaf → Leaf) :
    (g.modifyLeaf n f).node? m = if m = n then (g.node? m).map fun x =>
      match x.kind with
      | .leaf l => { x with kind := .leaf (f l) }
      | .data _ => x else g.node? m := Arena.get?_modify ..

@[simp] theorem leaf?_modifyLeaf (f : Leaf → Leaf) :
    (g.modifyLeaf n f).leaf? m = if m = n then (g.leaf? m).map f else g.leaf? m := by
  rw [leaf?, node?_modifyLeaf, leaf?]
  split
  · rcases g.node? m with _ | ⟨ps, l | d⟩ <;> rfl
  · rfl

@[simp] theorem data?_modifyLeaf (f : Leaf → Leaf) : (g.modifyLeaf n f).data? m = g.data? m := by
  rw [data?, node?_modifyLeaf, data?]
  split
  · rcases g.node? m with _ | ⟨ps, l | d⟩ <;> rfl
  · rfl

@[simp] theorem parentsOf_modifyLeaf (f : Leaf → Leaf) : (g.modifyLeaf n f).parentsOf m = g.parentsOf m := by
  rw [parentsOf, node?_modifyLeaf, parentsOf]
  split
  · rcases g.node? m with _ | ⟨ps, l | d⟩ <;> rfl
  · rfl

theorem isSome_node?_modifyLeaf (f : Leaf → Leaf) : ((g.modifyLeaf n f).node? m).isSome = (g.node? m).isSome := by
  rw [node?_modifyLeaf]
  split
  · rcases g.node? m with _ | ⟨ps, l | d⟩ <;> rfl
  · rfl

theorem node?_modifyParents (f : List NodeId → List NodeId) :
    (g.modifyParents n f).node? m =
      if m = n then (g.node? m).map fun x => { x with parents := f x.parents } else g.node? m := Arena.get?_modify ..

@[simp] theorem data?_modifyParents (f : List NodeId → List NodeId) : (g.modifyParents n f).data? m = g.data? m := by
  rw [data?, node?_modifyParents, data?]
  split
  · rcases g.node? m with _ | x <;> rfl
  · rfl

@[simp] theorem leaf?_modifyParents (f : List NodeId → List NodeId) : (g.modifyParents n f).leaf? m = g.leaf? m := by
  rw [leaf?, node?_modifyParents, leaf?]
  split
  · rcases g.node? m with _ | x <;> rfl
  · rfl

theorem parentsOf_modifyParents (f : List NodeId → List NodeId) :
    (g.modifyParents n f).parentsOf m =
      if m = n ∧ (g.node? m).isSome then f (g.parentsOf m) else g.parentsOf m := by
  rw [parentsOf, node?_modifyParents, parentsOf]
  by_cases h : m = n
  · rw [if_pos h]
    rcases g.node? m with _ | x <;> simp [h]
  · rw [if_neg h, if_neg fun h' => h h'.1]

theorem isSome_node?_modifyParents (f : List NodeId → List NodeId) :
    ((g.modifyParents n f).node? m).isSome = (g.node? m).isSome := by
  rw [node?_modifyParents]
  split
  · rcases g.node? m with _ | x <;> rfl
  · rfl

end Graph

/-! ## Channel maps -/

namespace ChannelMap

variable (m : ChannelMap) (x y : String) (s : Substitution)

/-- What is cached for a name under a key. -/
def at? (m : ChannelMap) (x key : String) : Option Cell := (m.entryOf x).cells[key]?

theorem cell?_eq : m.cell? x s = m.at? x (m.keyOf x s) := rfl

theorem entryOf_setCell (c : Cell) :
    (m.setCell x s c).entryOf y =
      if y = x then { m.entryOf x with cells := (m.entryOf x).cells.insert (m.keyOf x s) c } else m.entryOf y := by
  rw [entryOf, setCell, Table.get_insert, entryOf]
  split <;> rfl

theorem at?_setCell (c : Cell) (k : String) :
    (m.setCell x s c).at? y k = if y = x ∧ k = m.keyOf x s then some c else m.at? y k := by
  rw [at?, entryOf_setCell]
  by_cases h : y = x
  · subst h
    rw [if_pos rfl, Table.get_insert]
    by_cases hk : k = m.keyOf y s <;> simp [hk, at?]
  · rw [if_neg h, if_neg fun h' => h h'.1, at?]

@[simp] theorem params_setCell (c : Cell) : ((m.setCell x s c).entryOf y).params = (m.entryOf y).params := by
  rw [entryOf_setCell]
  split
  · rename_i h
    rw [h]
  · rfl

theorem entryOf_map (f : String → MapEntry → MapEntry) (h : f x {} = {}) :
    entryOf { m with entries := m.entries.map f } x = f x (m.entryOf x) := by
  rw [entryOf, entryOf, Std.ExtTreeMap.getElem?_map]
  rcases m.entries[x]? with _ | e
  · exact h.symm
  · rfl

theorem entryOf_markUsed :
    (m.markUsed s).entryOf x =
      { m.entryOf x with cells := (m.entryOf x).cells.modify (m.keyOf x s) fun c => { c with uses := c.uses + 1 } } := by
  rw [markUsed, entryOf_map]
  · rfl
  · exact congrArg (MapEntry.mk ∅) (Std.ExtTreeMap.ext_getElem? fun {a} => by rw [Table.get_modify]; simp)

theorem at?_markUsed (k : String) :
    (m.markUsed s).at? x k =
      if k = m.keyOf x s then (m.at? x k).map fun c => { c with uses := c.uses + 1 } else m.at? x k := by
  rw [at?, entryOf_markUsed, Table.get_modify, at?]

@[simp] theorem params_markUsed : ((m.markUsed s).entryOf x).params = (m.entryOf x).params := by rw [entryOf_markUsed]

/-- A cell after one of its users left. -/
def dropUse : Option Cell → Option Cell
  | none => none
  | some c => if c.uses ≤ 1 then none else some { c with uses := c.uses - 1 }

theorem entryOf_markUnused :
    (m.markUnused s).entryOf x =
      { m.entryOf x with cells := (m.entryOf x).cells.alter (m.keyOf x s) dropUse } := by
  rw [markUnused, entryOf_map]
  · rfl
  · exact congrArg (MapEntry.mk ∅) (Std.ExtTreeMap.ext_getElem? fun {a} => by rw [Table.get_alter]; simp)

theorem at?_markUnused (k : String) :
    (m.markUnused s).at? x k = if k = m.keyOf x s then dropUse (m.at? x k) else m.at? x k := by
  rw [at?, entryOf_markUnused, Table.get_alter, at?]

@[simp] theorem params_markUnused : ((m.markUnused s).entryOf x).params = (m.entryOf x).params := by rw [entryOf_markUnused]

theorem paramsOf_table : m.table.paramsOf x = (m.entryOf x).params := by
  rw [ParamTable.paramsOf, table, Std.ExtTreeMap.getElem?_map, entryOf]
  rcases m.entries[x]? with _ | e <;> rfl

theorem mem_table : x ∈ m.table ↔ x ∈ m.entries := by
  rw [table, Std.ExtTreeMap.mem_iff_isSome_getElem?, Std.ExtTreeMap.mem_iff_isSome_getElem?, Std.ExtTreeMap.getElem?_map,
    Option.isSome_map]

/-- Setting a cell of a name that the map has keeps the table. -/
theorem table_setCell {m : ChannelMap} {x : String} (h : x ∈ m.entries) (s : Substitution) (c : Cell) :
    (m.setCell x s c).table = m.table := by
  refine Std.ExtTreeMap.ext_getElem? fun {y} => ?_
  rw [table, table, Std.ExtTreeMap.getElem?_map, Std.ExtTreeMap.getElem?_map, setCell, Table.get_insert]
  split
  · rename_i hy
    obtain ⟨e, he⟩ := Option.isSome_iff_exists.1 (Std.ExtTreeMap.mem_iff_isSome_getElem?.1 h)
    rw [hy, he, entryOf, he]
    rfl
  · rfl

@[simp] theorem table_markUsed : (m.markUsed s).table = m.table := by
  refine Std.ExtTreeMap.ext_getElem? fun {y} => ?_
  rw [table, table, markUsed, Std.ExtTreeMap.getElem?_map, Std.ExtTreeMap.getElem?_map, Std.ExtTreeMap.getElem?_map,
    Option.map_map]
  rfl

@[simp] theorem table_markUnused : (m.markUnused s).table = m.table := by
  refine Std.ExtTreeMap.ext_getElem? fun {y} => ?_
  rw [table, table, markUnused, Std.ExtTreeMap.getElem?_map, Std.ExtTreeMap.getElem?_map, Std.ExtTreeMap.getElem?_map,
    Option.map_map]
  rfl

@[simp] theorem table_ofTable (id : MapId) (t : ParamTable) : (ofTable id t).table = t := by
  refine Std.ExtTreeMap.ext_getElem? fun {y} => ?_
  rw [table, ofTable, Std.ExtTreeMap.getElem?_map, Std.ExtTreeMap.getElem?_map, Option.map_map]
  rcases t[y]? with _ | ps <;> rfl

theorem at?_ofTable (id : MapId) (t : ParamTable) (k : String) : (ofTable id t).at? x k = none := by
  rw [at?, entryOf, ofTable, Std.ExtTreeMap.getElem?_map]
  rcases t[x]? with _ | ps <;> exact Std.ExtTreeMap.getElem?_empty

/-- A name without a record has no cells. -/
theorem mem_entries_of_at? {m : ChannelMap} {x k : String} {c : Cell} (h : m.at? x k = some c) : x ∈ m.entries := by
  rw [at?, entryOf] at h
  rcases he : m.entries[x]? with _ | e
  · rw [he] at h
    exact absurd (h.symm.trans Std.ExtTreeMap.getElem?_empty) (by simp)
  · exact Std.ExtTreeMap.mem_iff_isSome_getElem?.2 (by rw [he]; rfl)

/-- The channels that a substitution resolves to, by name. -/
theorem mem_resolve {m : ChannelMap} {s : Substitution} {x : String} {c : ChannelId} :
    (x, c) ∈ m.resolve s ↔ m.channel? x s = some c := by
  rw [resolve, List.mem_filterMap]
  constructor
  · rintro ⟨y, -, hy⟩
    obtain ⟨c', hc, he⟩ := Option.map_eq_some_iff.1 hy
    obtain ⟨rfl, rfl⟩ := Prod.mk.inj he
    exact hc
  · intro h
    refine ⟨x, ?_, by rw [h]; rfl⟩
    obtain ⟨cell, hcell, -⟩ := Option.bind_eq_some_iff.1 h
    exact Std.ExtTreeMap.mem_keys.2 (mem_entries_of_at? hcell)

/-- No name resolves twice. -/
theorem nodup_resolve : ((m.resolve s).map (·.1)).Nodup := by
  have h : (m.resolve s).map (·.1) = m.names.filter fun x => (m.channel? x s).isSome := by
    rw [resolve]
    induction m.names with
    | nil => rfl
    | cons x l ih =>
      rcases hx : m.channel? x s with _ | c
      · rw [List.filterMap_cons_none (by rw [hx]; rfl), List.filter_cons_of_neg (by rw [hx]; simp), ih]
      · rw [List.filterMap_cons_some (by rw [hx]; rfl), List.filter_cons_of_pos (by rw [hx]; rfl), List.map_cons, ih]
  rw [h]
  exact Std.ExtTreeMap.nodup_keys.filter _

/-- The table of what resolves gives every name its channel. -/
theorem get_tableOf_resolve : (tableOf (m.resolve s))[x]? = m.channel? x s :=
  get_tableOf_of_mem fun _ => mem_resolve

end ChannelMap

namespace Wiring

theorem map_setMap (w : Wiring) (p q : Port) (m : ChannelMap) : (w.setMap p m).map q = if q = p then m else w.map q := by
  cases p <;> cases q <;> rfl

end Wiring

end Dataflow
