import Dataflow.Proofs.Cache

/-!
# Lookups after an acquisition

An instance is built under what a substitution binds of its node's parameters, but whoever acquired it looks its channels up under the
whole substitution. Both find the same, because what a node in sync has noted for a name, at whichever port, are parameters of the
node; and nothing is exposed under a name that the structure of the node does not list.
-/

namespace Dataflow

namespace Graph

variable {g : Graph} {n : NodeId} {d : DataNode} {s : Substitution}

/-- What the nodes in sync have noted for their names are parameters of theirs. -/
def Enclosed (g : Graph) : Prop :=
  ∀ m w, g.wiring? m = some w → w.outOfSync = false → ∀ port x q, q ∈ ((w.map port).entryOf x).params → q ∈ w.params

theorem Wired.enclosed (h : g.Wired) : g.Enclosed := by
  intro m w hm hs port x q hq
  obtain ⟨d, hd, rfl⟩ := exists_data_of_wiring? hm
  have hin : q ∈ g.paramsAt m port x := by
    rw [paramsAt_of_wiring? hm]
    exact hq
  have := (h m d hd hs).paramsAt_subset hd hin
  rwa [params_of_wiring? hm] at this

/-- What is noted for a name being parameters of the node, the rest of a substitution makes no difference to a lookup. -/
theorem Enclosed.channel?_restrict (h : g.Enclosed) {w : Wiring} (hn : g.wiring? n = some w) (hs : w.outOfSync = false) (port : Port)
    (x : String) (s : Substitution) : (w.map port).channel? x (s.restrict w.params) = (w.map port).channel? x s := by
  have hkey : (w.map port).keyOf x (s.restrict w.params) = (w.map port).keyOf x s :=
    Substitution.AgreeOn.keyOf_eq fun q hq => by rw [Substitution.get?_restrict, if_pos (h n w hn hs port x q hq)]
  rw [ChannelMap.channel?, ChannelMap.cell?, hkey, ChannelMap.channel?, ChannelMap.cell?]

/-! ## What an acquisition leaves -/

/-- An instance is remembered by its owner under its key. -/
theorem instanceAt?_remember {id : InstanceId} {i : Instance} (h : (g.data? i.owner).isSome) :
    (g.remember id i).instanceAt? i.owner i.key = some id := by
  obtain ⟨d, hd⟩ := Option.isSome_iff_exists.1 h
  have hw : Graph.wiring? { g with instances := g.instances.insert id i } i.owner = some d.wiring := wiring?_of_data? hd
  rw [remember, instanceAt?_modifyWiring, if_pos rfl, hw, Option.bind_some, Table.get_insert, if_pos rfl]

/-- A data node remembers what was acquired of it under what the substitution binds of the parameters that the node has when in sync. -/
theorem instanceAt?_acquireInstance (hd : g.data? n = some d) (s : Substitution) :
    ∃ e id, (g.synchronize n).data? n = some e ∧ (g.acquireInstance n s).1.instanceAt? n (s.restrict e.wiring.params).fullKey = some id ∧
      (g.acquireInstance n s).2 = some id := by
  have hsome : ((g.synchronize n).data? n).isSome := by
    rw [(derived_synchronize g n).rewired.isSome_data?, hd]
    rfl
  obtain ⟨e, he⟩ := Option.isSome_iff_exists.1 hsome
  have hw := wiring?_of_data? he
  rw [acquireInstance, acquireWithin]
  simp only [he]
  rcases hmemo : (e.wiring.instances[(s.restrict e.wiring.params).fullKey]?).bind fun id => ((g.synchronize n).instances[id]?).map (id, ·) with
    _ | ⟨id, i⟩ <;> dsimp only
  · -- a new instance is remembered under its key
    refine ⟨e, _, rfl, ?_, rfl⟩
    have hder := rel_build builds_derived (derived_acquireWithin g.nodes.size) ((g.synchronize n).drawId).1 n e
      (s.restrict e.wiring.params) (s.restrict e.wiring.params).fullKey
    refine instanceAt?_remember (i := (build _ _ n e _ _).2) ?_
    exact (hder.rewired.isSome_data? n).trans hsome
  · obtain ⟨id', hk, hi⟩ := Option.bind_eq_some_iff.1 hmemo
    obtain ⟨i', -, he'⟩ := Option.map_eq_some_iff.1 hi
    obtain ⟨rfl, rfl⟩ := Prod.mk.inj he'
    exact ⟨e, _, rfl, (instanceAt?_of_wiring? hw).trans hk, rfl⟩

/-- The names under which a data node exposes channels are those that the structure lists for it. -/
theorem Wired.mem_authoredTables (hw : g.Wired) (ha : g.Authored) (hin : g.InSync n) {x : String} {c : ChannelId}
    (hc : (x, c) ∈ g.finalChannels n s) : x ∈ (g.authoredTables n).output := by
  obtain ⟨w, hn, hs⟩ := hin
  obtain ⟨d, hd, rfl⟩ := exists_data_of_wiring? hn
  rw [← hw.tables_eq_authored ha (g.rank n + 1) n d (Nat.lt_succ_self _) hd hs]
  have := mem_table_of_chan (mem_finalChannels.1 hc)
  rwa [table_of_wiring? hn] at this

/-- After an instance of a data node was acquired under a substitution, the node is in sync; every name, at whichever port, has the same
channel under the substitution and under its restriction to the node's parameters; and the node exposes names only that its structure, as
it was authored before, lists. -/
theorem lookups_acquireInstance (h : g.Reachable) (hd : g.data? n = some d) (s : Substitution) :
    g.Enclosed ∧ (g.step (.acquireInstance n s)).Enclosed ∧
    (∃ w, (g.step (.acquireInstance n s)).wiring? n = some w ∧ w.outOfSync = false ∧
      ∀ port x, (w.map port).channel? x s = (w.map port).channel? x (s.restrict w.params)) ∧
    ∀ x c, (x, c) ∈ (g.step (.acquireInstance n s)).finalChannels n s → x ∈ (g.authoredTables n).output := by
  have h' : (g.step (.acquireInstance n s)).Reachable := h.after [.acquireInstance n s]
  obtain ⟨a, ho⟩ := h.orderly
  obtain ⟨a', ho'⟩ := h'.orderly
  have hw := ho.tidy.framed.wired_of_settled (τ := a.work) rfl
  have hw' := ho'.tidy.framed.wired_of_settled (τ := a'.work) rfl
  have hin : (g.step (.acquireInstance n s)).InSync n := by
    obtain ⟨e, id, -, hk, -⟩ := instanceAt?_acquireInstance (g := g.settled) hd s
    exact ho'.tidy.kept.inSync_of_instanceAt? hk
  obtain ⟨w, hn, hs⟩ := hin
  refine ⟨hw.enclosed, hw'.enclosed, ⟨w, hn, hs, fun port x => (hw'.enclosed.channel?_restrict hn hs port x s).symm⟩, fun x c hc => ?_⟩
  have hder := derived_acquireWithin (g.nodes.size + 1) g.settled n s
  have hsame : g.SameDesign (g.step (.acquireInstance n s)) :=
    (SameDesign.mk (fun _ => rfl) (fun _ => rfl) rfl : g.SameDesign g.settled).trans (hder.rewired.sameDesign hder.registry)
  rw [← hsame.authoredTables_eq ho.authored ho'.authored n]
  exact hw'.mem_authoredTables ho'.authored ⟨w, hn, hs⟩ hc

/-- A node over an entry is built, which makes a channel, and a node over a placeholder is there. -/
def placeholderCalls : List Call :=
  [.createData false, .createEntry (.empty .float), .createLeaf, .setName 1 "a", .setData 1 (some 0), .appendChild 0 1,
    .acquireInstance 0 .empty, .createData false, .createLeaf, .setName 3 "x", .setParam 3 true, .appendChild 2 3]

/-- Under a substitution that binds the placeholder, and a name that the node does not know of. -/
def placeholderBinding : Substitution := .ofList [("x", 0), ("z", 0)]

theorem lookups_acquireInstance_placeholder :
    ∃ w, (((new Registry.empty {}).after placeholderCalls).step (.acquireInstance 2 placeholderBinding)).wiring? 2 = some w ∧
      w.output.channel? "x" placeholderBinding = some 0 ∧
      (∀ port x, (w.map port).channel? x placeholderBinding = (w.map port).channel? x (placeholderBinding.restrict w.params)) ∧
      ("x", 0) ∈ (((new Registry.empty {}).after placeholderCalls).step (.acquireInstance 2 placeholderBinding)).finalChannels 2 placeholderBinding ∧
      "x" ∈ (((new Registry.empty {}).after placeholderCalls).authoredTables 2).output := by
  have hr : ((new Registry.empty {}).after placeholderCalls).Reachable := ⟨_, _, _, rfl⟩
  obtain ⟨d, hd⟩ : ∃ d, ((new Registry.empty {}).after placeholderCalls).data? 2 = some d := by
    refine Option.isSome_iff_exists.1 ?_
    decide +kernel
  have hx : ("x", 0) ∈ (((new Registry.empty {}).after placeholderCalls).step (.acquireInstance 2 placeholderBinding)).finalChannels 2
      placeholderBinding := by decide +kernel
  obtain ⟨-, -, ⟨w, hn, -, hlook⟩, hnames⟩ := lookups_acquireInstance hr hd placeholderBinding
  refine ⟨w, hn, ?_, hlook, hx, hnames "x" 0 hx⟩
  have := mem_finalChannels.1 hx
  rwa [chan_of_wiring? hn] at this

end Graph

end Dataflow
