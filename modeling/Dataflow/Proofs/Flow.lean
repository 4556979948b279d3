import Dataflow.Graph.Structure
import Dataflow.Proofs.Access

/-!
# Flow of names: what the tables of a data node hold

Which names a table has and which parameters a name depends on, for each of the steps by which the tables of a data node are made:
its input, the outputs of its operator, its template, and its filter.
-/

namespace Dataflow

/-! ## Filters -/

namespace Filter

/-- The names that a filter passes on as `x`, in the order in which they are merged, as far as they are available. -/
def sources (f : Option Filter) (x : String) : List String :=
  match f with
  | none => [x]
  | some ⟨kind, .order names⟩ =>
    if match kind with
      | .rename => true
      | .keep => names.contains x
      | .remove => !names.contains x then [x] else []
  | some ⟨kind, .table pairs⟩ =>
    (if !(kind = .keep || pairs.any (·.2 = x)) then [x] else []) ++
      if kind = .remove then [] else (pairs.filter (·.1 == x)).map (·.2)

/-- Of the available names under themselves, at most one is `x`. -/
theorem filter_map_same {avail : List String} (hn : avail.Nodup) (p : String → Bool) (x : String) :
    (((avail.filter p).map Mapping.same).filter (·.1 == x)).map (·.2) = if p x && avail.contains x then [x] else [] := by
  have hcomp : ∀ l : List String, ((l.map Mapping.same).filter (·.1 == x)).map (·.2) = l.filter (· == x) := by
    intro l
    induction l with
    | nil => rfl
    | cons a l ih =>
      rw [List.map_cons, List.filter_cons, List.filter_cons]
      by_cases h : a = x <;> simp_all [Mapping.same]
  rw [hcomp, List.filter_filter]
  clear hcomp
  induction avail with
  | nil => simp
  | cons a l ih =>
    have ⟨ha, hl⟩ := List.nodup_cons.1 hn
    rw [List.filter_cons, ih hl, List.contains_cons]
    by_cases h : a = x
    · subst h
      by_cases hp : p a = true <;> simp [hp, ha]
    · have hx : (x == a) = false := by simpa using Ne.symm h
      simp [h, hx]

/-- The one name of a list that may be empty, as far as it is available. -/
theorem filter_single (avail : List String) (b : Bool) (x : String) :
    (if b then [x] else []).filter (avail.contains ·) = if b && avail.contains x then [x] else [] := by
  cases b
  · rfl
  · by_cases hx : avail.contains x = true
    · rw [if_pos rfl, List.filter_cons_of_pos hx, hx]
      rfl
    · rw [if_pos rfl, List.filter_cons_of_neg hx, if_neg (by simpa using hx)]
      rfl

/-- What a filter passes on as `x`: those of the sources of `x` that are available. -/
theorem select_sources (f : Option Filter) {avail : List String} (hn : avail.Nodup) (x : String) :
    ((selectFrom f avail).filter (·.1 == x)).map (·.2) = (sources f x).filter (avail.contains ·) := by
  rcases f with _ | ⟨kind, names | pairs⟩
  · have h := filter_map_same hn (fun _ => true) x
    rw [List.filter_true] at h
    exact h.trans (filter_single avail true x).symm
  · cases kind <;> exact (filter_map_same hn _ x).trans (filter_single avail _ x).symm
  · have hren : ((pairs.filter fun pair => avail.contains pair.2).filter (·.1 == x)).map (·.2) =
        ((pairs.filter (·.1 == x)).map (·.2)).filter (avail.contains ·) := by
      rw [List.filter_map, List.filter_filter, List.filter_filter]
      congr 1
      exact List.filter_congr fun a _ => Bool.and_comm ..
    have hoth := filter_map_same hn (fun name => !pairs.any (·.2 = name)) x
    simp only [selectFrom, select, Mapping.select, sources, List.filter_append, List.map_append]
    congr 1
    · by_cases hk : kind = .keep
      · rw [if_pos hk, hk]
        rfl
      · rw [if_neg hk, hoth, filter_single, decide_eq_false hk, Bool.false_or]
    · by_cases hk : kind = .remove
      · rw [if_pos hk, if_pos hk]
        rfl
      · rw [if_neg hk, if_neg hk, hren]

theorem mem_selectFrom (f : Option Filter) {avail : List String} (hn : avail.Nodup) {x y : String} :
    (x, y) ∈ selectFrom f avail ↔ y ∈ sources f x ∧ y ∈ avail := by
  have h := select_sources f hn x
  have h1 : (x, y) ∈ selectFrom f avail ↔ y ∈ ((selectFrom f avail).filter (·.1 == x)).map (·.2) := by
    rw [List.mem_map]
    constructor
    · intro hm
      exact ⟨(x, y), List.mem_filter.2 ⟨hm, by simp⟩, rfl⟩
    · rintro ⟨⟨a, b⟩, hm, rfl⟩
      obtain ⟨hm, ha⟩ := List.mem_filter.1 hm
      have ha : a = x := by simpa using ha
      rwa [ha] at hm
  rw [h1, h, List.mem_filter]
  simp

end Filter

/-! ## The steps of a data node -/

namespace DataNode

/-- Notes the parameters of every name of a list under another name. -/
theorem selectNames_eq (f : Option Filter) (t : ParamTable) :
    selectNames f t = ((Filter.selectFrom f t.keys).filterMap fun e => (t[e.2]?).map (e.1, ·)).foldl
      (fun t (name, ps) => ParamTable.add t name ps) ∅ := by
  rw [selectNames, List.foldl_filterMap]
  congr 1
  funext out e
  obtain ⟨d, y⟩ := e
  rcases h : t[y]? with _ | ps <;> simp only [h] <;> rfl

theorem mem_selected {f : Option Filter} {t : ParamTable} {x : String} {ps : NameSet} :
    (x, ps) ∈ ((Filter.selectFrom f t.keys).filterMap fun e => (t[e.2]?).map (e.1, ·)) ↔
      ∃ y ∈ Filter.sources f x, t[y]? = some ps := by
  rw [List.mem_filterMap]
  constructor
  · rintro ⟨⟨d, y⟩, hm, he⟩
    obtain ⟨ps', hps, he⟩ := Option.map_eq_some_iff.1 he
    obtain ⟨rfl, rfl⟩ := Prod.mk.inj he
    exact ⟨y, ((Filter.mem_selectFrom f Std.ExtTreeMap.nodup_keys).1 hm).1, hps⟩
  · rintro ⟨y, hy, hps⟩
    exact ⟨(x, y), (Filter.mem_selectFrom f Std.ExtTreeMap.nodup_keys).2 ⟨hy, Table.mem_keys.2 ⟨ps, hps⟩⟩, by rw [hps]; rfl⟩

/-- The names that a filter lets through: those that an available source stands for. -/
theorem mem_selectNames {f : Option Filter} {t : ParamTable} {x : String} :
    x ∈ selectNames f t ↔ ∃ y ∈ Filter.sources f x, y ∈ t := by
  rw [selectNames_eq, ParamTable.mem_foldl_add]
  simp only [mem_selected]
  constructor
  · rintro (h | ⟨ps, y, hy, hps⟩)
    · exact absurd h Std.ExtTreeMap.not_mem_empty
    · exact ⟨y, hy, Std.ExtTreeMap.mem_iff_isSome_getElem?.2 (by rw [hps]; rfl)⟩
  · rintro ⟨y, hy, ht⟩
    obtain ⟨ps, hps⟩ := Option.isSome_iff_exists.1 (Std.ExtTreeMap.mem_iff_isSome_getElem?.1 ht)
    exact .inr ⟨ps, y, hy, hps⟩

theorem mem_paramsOf_selectNames {f : Option Filter} {t : ParamTable} {x q : String} :
    q ∈ (selectNames f t).paramsOf x ↔ ∃ y ∈ Filter.sources f x, q ∈ t.paramsOf y := by
  rw [selectNames_eq, ParamTable.mem_paramsOf_foldl_add]
  simp only [mem_selected]
  constructor
  · rintro (h | ⟨ps, ⟨y, hy, hps⟩, hq⟩)
    · rw [ParamTable.paramsOf, Std.ExtTreeMap.getElem?_empty] at h
      exact absurd h (by simp)
    · exact ⟨y, hy, by rwa [ParamTable.paramsOf_eq hps]⟩
  · rintro ⟨y, hy, hq⟩
    rcases hps : t[y]? with _ | ps
    · rw [ParamTable.paramsOf, hps] at hq
      exact absurd hq (by simp)
    · exact .inr ⟨ps, ⟨y, hy, hps⟩, by rwa [ParamTable.paramsOf_eq hps] at hq⟩

/-- The names under which the outputs of an operator flow on. -/
def outputNames (c : Compute) (op : Operator) : List String := op.outputs.mapIdx fun i o => c.outputs.outputName i o.name

/-- The names that feed the inputs of an operator. -/
def inputNames (c : Compute) (op : Operator) : List String := op.params.mapIdx fun i p => c.inputs.inputName i p.source

theorem mem_foldl_addOutputs {params : NameSet} {names : List String} {t : ParamTable} {x : String} :
    x ∈ names.foldl (fun t name => ParamTable.add t name params) t ↔ x ∈ t ∨ x ∈ names := by
  induction names generalizing t with
  | nil => simp
  | cons a l ih => rw [List.foldl_cons, ih, ParamTable.mem_add, List.mem_cons]; tauto

theorem mem_paramsOf_foldl_addOutputs {params : NameSet} {names : List String} {t : ParamTable} {x q : String} :
    q ∈ (names.foldl (fun t name => ParamTable.add t name params) t).paramsOf x ↔
      q ∈ t.paramsOf x ∨ x ∈ names ∧ q ∈ params := by
  induction names generalizing t with
  | nil => simp
  | cons a l ih => rw [List.foldl_cons, ih, ParamTable.mem_paramsOf_add, List.mem_cons]; tauto

theorem mem_addOutputs {t : ParamTable} {c : Compute} {op : Operator} {params : NameSet} {x : String} :
    x ∈ addOutputs t c op params ↔ x ∈ t ∨ x ∈ outputNames c op := mem_foldl_addOutputs

theorem mem_paramsOf_addOutputs {t : ParamTable} {c : Compute} {op : Operator} {params : NameSet} {x q : String} :
    q ∈ (addOutputs t c op params).paramsOf x ↔ q ∈ t.paramsOf x ∨ x ∈ outputNames c op ∧ q ∈ params :=
  mem_paramsOf_foldl_addOutputs

/-- The parameters that an operator depends on are those of the names that feed it. -/
theorem mem_operatorParams {t : ParamTable} {c : Compute} {op : Operator} {q : String} :
    q ∈ paramsOf t c op ↔ ∃ x ∈ inputNames c op, q ∈ t.paramsOf x := by
  rw [paramsOf, mem_unionAll]
  simp only [inputNames, List.mem_mapIdx]
  constructor
  · rintro ⟨b, ⟨i, hi, rfl⟩, hq⟩
    exact ⟨_, ⟨i, hi, rfl⟩, hq⟩
  · rintro ⟨x, ⟨i, hi, rfl⟩, hq⟩
    exact ⟨_, ⟨i, hi, rfl⟩, hq⟩

/-- The table of a data node once its operator, if it has one, added its outputs. -/
def extendedTable (d : DataNode) (operator : Option Operator) (input : ParamTable) : ParamTable :=
  match operator, d.compute with
  | some op, some c => addOutputs input c op (paramsOf input c op)
  | _, _ => input

theorem extendedTable_some {d : DataNode} {c : Compute} (hc : d.compute = some c) (op : Operator) (input : ParamTable) :
    d.extendedTable (some op) input = addOutputs input c op (paramsOf input c op) := by
  simp only [extendedTable, hc]

theorem tables_input (d : DataNode) (operator : Option Operator) (input : ParamTable) (template : Option ParamTable) :
    (d.tables operator input template).input = input := by
  unfold tables
  split
  rfl

theorem tables_operator (d : DataNode) (operator : Option Operator) (input : ParamTable) (template : Option ParamTable) :
    (d.tables operator input template).operator = operator := by
  unfold tables
  split
  rfl

theorem tables_extended (d : DataNode) (operator : Option Operator) (input : ParamTable) (template : Option ParamTable) :
    (d.tables operator input template).extended = d.extendedTable operator input := by
  unfold extendedTable tables
  rcases operator with _ | op <;> rcases d.compute with _ | c <;> rfl

theorem tables_operatorParams {d : DataNode} {c : Compute} (hc : d.compute = some c) (op : Operator) (input : ParamTable)
    (template : Option ParamTable) : (d.tables (some op) input template).operatorParams = paramsOf input c op := by
  simp only [tables, hc]

theorem tables_output (d : DataNode) (operator : Option Operator) (input : ParamTable) (template : Option ParamTable) :
    (d.tables operator input template).output = selectNames d.filter (match template with
      | some t => addTemplate (d.extendedTable operator input) t
      | none => d.extendedTable operator input) := by
  unfold extendedTable tables
  rcases operator with _ | op <;> rcases d.compute with _ | c <;> rcases template with _ | t <;> rfl

/-- A name of a template depends on what the template's parameters are bound to; the other names keep what they depend on. -/
theorem get_addTemplate (extended template : ParamTable) (x : String) :
    (addTemplate extended template)[x]? =
      ((template[x]?).map fun ps => unionAll (ps.toList.filterMap (extended[·]?))).or extended[x]? := by
  have hmap : template.toList.foldl
      (fun t (name, params) => t.insert name (unionAll (params.toList.filterMap (extended[·]?)))) extended =
      (template.toList.map fun e => (e.1, unionAll (e.2.toList.filterMap (extended[·]?)))).foldl
        (fun t (name, v) => t.insert name v) extended := by
    rw [List.foldl_map]
  rw [addTemplate, hmap, get_foldl_insert]
  congr 1
  rcases ht : template[x]? with _ | ps
  · rw [Option.map_none, Option.map_eq_none_iff, List.find?_eq_none]
    rintro ⟨y, v⟩ hm
    obtain ⟨⟨z, ps⟩, hz, he⟩ := List.mem_map.1 (List.mem_reverse.1 hm)
    obtain ⟨rfl, rfl⟩ := Prod.mk.inj he
    simp only [beq_iff_eq]
    rintro rfl
    rw [Std.ExtTreeMap.mem_toList_iff_getElem?_eq_some.1 hz] at ht
    cases ht
  · have hm : (x, unionAll (ps.toList.filterMap (extended[·]?))) ∈
        (template.toList.map fun e => (e.1, unionAll (e.2.toList.filterMap (extended[·]?)))).reverse :=
      List.mem_reverse.2 (List.mem_map.2 ⟨(x, ps), Std.ExtTreeMap.mem_toList_iff_getElem?_eq_some.2 ht, rfl⟩)
    rcases hf : (template.toList.map fun e => (e.1, unionAll (e.2.toList.filterMap (extended[·]?)))).reverse.find?
        (fun e => e.1 == x) with _ | ⟨y, v⟩
    · have := List.find?_eq_none.1 hf _ hm
      simp at this
    · have hy : y = x := by simpa using List.find?_some hf
      obtain ⟨⟨z, ps'⟩, hz, he⟩ := List.mem_map.1 (List.mem_reverse.1 (List.mem_of_find?_eq_some hf))
      obtain ⟨rfl, rfl⟩ := Prod.mk.inj he
      have hz := Std.ExtTreeMap.mem_toList_iff_getElem?_eq_some.1 hz
      change z = x at hy
      change template[z]? = some ps' at hz
      rw [hy, ht] at hz
      cases hz
      rw [hf]
      rfl

theorem mem_addTemplate {extended template : ParamTable} {x : String} :
    x ∈ addTemplate extended template ↔ x ∈ template ∨ x ∈ extended := by
  simp only [Std.ExtTreeMap.mem_iff_isSome_getElem?, get_addTemplate]
  rcases template[x]? with _ | ps <;> simp

theorem paramsOf_addTemplate_of_not_mem {extended template : ParamTable} {x : String} (h : x ∉ template) :
    (addTemplate extended template).paramsOf x = extended.paramsOf x := by
  have h : template[x]? = none := Std.ExtTreeMap.getElem?_eq_none h
  rw [ParamTable.paramsOf, get_addTemplate, h, Option.map_none, Option.none_or, ParamTable.paramsOf]

theorem mem_paramsOf_addTemplate {extended template : ParamTable} {x q : String} (h : x ∈ template) :
    q ∈ (addTemplate extended template).paramsOf x ↔ ∃ p ∈ template.paramsOf x, q ∈ extended.paramsOf p := by
  obtain ⟨ps, hps⟩ := Option.isSome_iff_exists.1 (Std.ExtTreeMap.mem_iff_isSome_getElem?.1 h)
  rw [ParamTable.paramsOf, get_addTemplate, hps, Option.map_some, Option.some_or, Option.getD_some, mem_unionAll,
    ParamTable.paramsOf_eq hps]
  simp only [List.mem_filterMap, Std.ExtTreeSet.mem_toList]
  constructor
  · rintro ⟨b, ⟨p, hp, hb⟩, hq⟩
    exact ⟨p, hp, by rwa [ParamTable.paramsOf_eq hb]⟩
  · rintro ⟨p, hp, hq⟩
    rcases he : extended[p]? with _ | b
    · rw [ParamTable.paramsOf, he] at hq
      exact absurd hq (by simp)
    · exact ⟨b, ⟨p, hp, he⟩, by rwa [ParamTable.paramsOf_eq he] at hq⟩

end DataNode

end Dataflow
