import Dataflow.Proofs.Draft
import Dataflow.Proofs.Tabled
import Dataflow.Proofs.Cells

/-!
# Feeds: what is merged under a name at a port

What is merged for an instance under a name can be read off the graph: the channels of the nodes below it, the channels that its
substitution binds, its leaves, and the process that it runs. An instance is built well when every channel of its ports is the draft
of the feeds that can be read off.
-/

namespace Dataflow

/-- The feed of a leaf under a substitution: the channel that a placeholder is bound to, or the leaf's entry. -/
def Leaf.feed? (l : Leaf) (s : Substitution) : Option Feed :=
  match (if l.param then s.get? l.name else none), l.entry with
  | some c, _ => some (.channel c)
  | none, some entry => some (.slot { entry, key := l.key })
  | none, none => none

/-- The feeds of a name among the feeds of many. -/
def named (x : String) (fs : List (String × Feed)) : List Feed := (fs.filter fun e => e.1 == x).map (·.2)

theorem named_append (x : String) (fs fs' : List (String × Feed)) : named x (fs ++ fs') = named x fs ++ named x fs' := by
  rw [named, named, named, List.filter_append, List.map_append]

theorem named_singleton (x y : String) (f : Feed) : named x [(y, f)] = if y = x then [f] else [] := by
  rw [named]
  by_cases h : y = x <;> simp [h]

theorem mem_named {x : String} {fs : List (String × Feed)} {f : Feed} : f ∈ named x fs ↔ (x, f) ∈ fs := by
  rw [named, List.mem_map]
  constructor
  · rintro ⟨⟨y, f'⟩, hm, rfl⟩
    rw [List.mem_filter, beq_iff_eq] at hm
    rw [← hm.2]
    exact hm.1
  · intro h
    exact ⟨(x, f), List.mem_filter.2 ⟨h, by simp⟩, rfl⟩

/-- A list that has every name once at most brings a name its one channel. -/
theorem named_channels {l : List (String × ChannelId)} (hn : (l.map (·.1)).Nodup) (x : String) {o : Option ChannelId}
    (ho : ∀ c, (x, c) ∈ l ↔ o = some c) :
    named x (l.map fun e => (e.1, .channel e.2)) = o.toList.map Feed.channel := by
  have key : ∀ (l : List (String × ChannelId)), (l.map (·.1)).Nodup → ∀ c, (x, c) ∈ l →
      named x (l.map fun e => (e.1, .channel e.2)) = [Feed.channel c] := by
    intro l
    induction l with
    | nil => exact fun _ c hc => absurd hc List.not_mem_nil
    | cons a l ih =>
      intro hn c hc
      rw [List.map_cons, List.nodup_cons] at hn
      have hcons : named x ((a :: l).map fun e => (e.1, .channel e.2)) =
          named x [(a.1, Feed.channel a.2)] ++ named x (l.map fun e => (e.1, .channel e.2)) := named_append x [_] _
      rw [hcons, named_singleton]
      rcases List.mem_cons.1 hc with rfl | hc
      · rw [if_pos rfl]
        have hnil : named x (l.map fun e => (e.1, Feed.channel e.2)) = [] := by
          refine List.eq_nil_iff_forall_not_mem.2 fun f hf => hn.1 ?_
          obtain ⟨e, he, hef⟩ := List.mem_map.1 (mem_named.1 hf)
          exact List.mem_map.2 ⟨e, he, (Prod.mk.inj hef).1⟩
        rw [hnil, List.append_nil]
      · have ha : a.1 ≠ x := by
          rintro rfl
          exact hn.1 (List.mem_map.2 ⟨_, hc, rfl⟩)
        rw [if_neg ha, ih hn.2 c hc, List.nil_append]
  rcases o with _ | c
  · refine List.eq_nil_iff_forall_not_mem.2 fun f hf => ?_
    obtain ⟨⟨y, c⟩, he, hef⟩ := List.mem_map.1 (mem_named.1 hf)
    obtain ⟨rfl, -⟩ := Prod.mk.inj hef
    cases (ho c).1 he
  · exact key l hn c ((ho c).2 rfl)

namespace Graph

variable (g : Graph) (n : NodeId) (s : Substitution) (x : String)

/-- The substitution under which a node instantiates its template: every name that it has is bound to its channel. -/
def derived : Substitution := .ofList (((g.wiring? n).map (·.extended.resolve s)).getD [])

theorem get?_derived : (g.derived n s).get? x = g.chan n .extended x s := by
  rw [derived, Substitution.get?_ofList]
  rcases hw : g.wiring? n with _ | w
  · rw [chan, cell?, hw]
    exact Std.ExtTreeMap.getElem?_empty
  · rw [chan_of_wiring? hw]
    exact ChannelMap.get_tableOf_resolve ..

/-- The computation of a data node and the operator that it is bound to. -/
def operation? : Option (Compute × Operator) :=
  (g.data? n).bind fun d => match d.compute, d.wiring.operator with
    | some c, some op => some (c, op)
    | _, _ => none

/-- The parameters that the inputs of a data node's operator depend on. -/
def operatorParams : NameSet := ((g.wiring? n).map (·.operatorParams)).getD ∅

/-- The process that a data node has under a key. -/
def processAt? (key : String) : Option ProcessId := (g.wiring? n).bind (·.processes[key]?)

/-- The process that a data node runs under a substitution. -/
def processOf : Option ProcessId := (g.operation? n).bind fun _ => g.processAt? n (s.keyOf (g.operatorParams n))

/-- What a node that flows into another brings under a name. -/
def brought (r : NodeId) : List Feed :=
  match g.leaf? r with
  | some l => if l.name = x then (l.feed? s).toList else []
  | none => (g.chan r .output x s).toList.map .channel

/-- What a process brings under a name. -/
def produced (p : Option ProcessId) : List Feed :=
  match p with
  | some id => named x ((((g.processes[id]?).map (·.slots id)).getD []).map fun e => (e.1, .slot e.2))
  | none => []

/-- The channel of a name before the filter: the template's, or the node's own. -/
def unfilteredChan (d : Design) : Option ChannelId :=
  match d.proto with
  | some p => (g.chan p .output x (g.derived n s)).or (g.chan n .extended x s)
  | none => g.chan n .extended x s

/-- What is merged under a name at a port. -/
def feeds (port : Port) : List Feed :=
  match g.design? n with
  | none => []
  | some d => match port with
    | .input => (inflow d).flatMap fun r => g.brought s x r
    | .extended => (g.chan n .input x s).toList.map .channel ++ g.produced x (g.processOf n s)
    | .output => (Filter.sources d.filter x).filterMap fun y => (g.unfilteredChan n s y d).map .channel

section Lookup

variable {g n} {d : Design} (hd : g.design? n = some d)

include hd

theorem feeds_input : g.feeds n s x .input = (inflow d).flatMap fun r => g.brought s x r := by
  rw [feeds, hd]

theorem feeds_extended :
    g.feeds n s x .extended = (g.chan n .input x s).toList.map .channel ++ g.produced x (g.processOf n s) := by
  rw [feeds, hd]

theorem feeds_output :
    g.feeds n s x .output =
      (Filter.sources d.filter x).filterMap fun y => (g.unfilteredChan n s y d).map .channel := by
  rw [feeds, hd]

end Lookup

theorem mem_brought {g : Graph} {s : Substitution} {x : String} {r : NodeId} {f : Feed} :
    f ∈ g.brought s x r ↔ (∃ l, g.leaf? r = some l ∧ l.name = x ∧ l.feed? s = some f) ∨
      (g.leaf? r = none ∧ ∃ c, g.chan r .output x s = some c ∧ f = .channel c) := by
  rw [brought]
  rcases g.leaf? r with _ | l
  · simp [eq_comm]
  · by_cases hx : l.name = x <;> simp [hx]

theorem produced_of {g : Graph} {x : String} {id : ProcessId} {p : Process} (h : g.processes[id]? = some p) :
    g.produced x (some id) = named x ((p.slots id).map fun e => (e.1, .slot e.2)) := by
  rw [produced, h]
  rfl

theorem produced_none {g : Graph} {x : String} : g.produced x none = [] := rfl

theorem mem_produced {g : Graph} {x : String} {p : Option ProcessId} {f : Feed} :
    f ∈ g.produced x p ↔ ∃ id q e, p = some id ∧ g.processes[id]? = some q ∧ (x, e) ∈ q.outputs ∧
      f = .slot { entry := e, key := 0, creator := some id } := by
  rcases p with _ | id
  · simp [produced_none]
  · rcases h : g.processes[id]? with _ | q
    · rw [produced, h]
      simp [named, h]
    · rw [produced_of h, mem_named, Process.slots, List.map_map, List.mem_map]
      constructor
      · rintro ⟨⟨y, e⟩, he, hf⟩
        obtain ⟨rfl, rfl⟩ := Prod.mk.inj hf
        exact ⟨id, q, e, rfl, h, he, rfl⟩
      · rintro ⟨_, q', e, ⟨⟩, hq, he, rfl⟩
        rw [h] at hq
        cases hq
        exact ⟨(x, e), he, rfl⟩

/-! ## Feeds under two substitutions, or in two graphs -/

/-- A leaf brings what its own name binds. -/
theorem Leaf.feed?_congr {l : Leaf} {s t : Substitution} (h : l.param = true → s.get? l.name = t.get? l.name) :
    l.feed? s = l.feed? t := by
  rw [Leaf.feed?, Leaf.feed?]
  by_cases hp : l.param = true
  · rw [h hp]
  · rw [if_neg hp, if_neg hp]

theorem chan_eq_of_derived {g : Graph} {n p : NodeId} {s t : Substitution} {y : String}
    (h : ∀ z ∈ g.paramsAt p .output y, g.chan n .extended z s = g.chan n .extended z t) :
    g.chan p .output y (g.derived n s) = g.chan p .output y (g.derived n t) := by
  refine g.chan_congr fun z hz => ?_
  rw [get?_derived, get?_derived, h z hz]

end Graph

end Dataflow
