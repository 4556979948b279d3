import Dataflow.Proofs.Framed
import Dataflow.Proofs.Memo

/-!
# Jobs, and the names that they merge

While an instance is built its node is in sync, and whatever is merged at one of its ports has a name of the port's table. So building
fills the ports and changes no table.
-/

namespace Dataflow

namespace Graph

variable {κ : Call} {τ τ' : Work} {g g' : Graph} {n : NodeId} {J : Job}

/-- A job is for a node in sync, of the design that it goes by; what it was shown has names of the extended port; and its process is the
node's. -/
structure Mans (g : Graph) (J : Job) : Prop where
  design : g.design? J.node = some J.data.design
  inSync : g.InSync J.node
  shown : ∀ e ∈ J.shown, e.1 ∈ g.table J.node .extended
  process : ∀ p ∈ J.process, ∃ q : Process, g.processes[p]? = some q ∧ q.owner = J.node

/-- In the middle of a call: every job is in order and for a node that the next one refers to, no change of structure is under way while
there are jobs, and the outputs of processes have names of the extended ports of their nodes. -/
structure Staffed (τ : Work) (g : Graph) : Prop where
  jobs : ∀ J ∈ τ.jobs, g.Mans J
  chain : τ.jobs.IsChain fun a b => a.node ∈ b.data.references
  settled : τ.jobs ≠ [] → τ.Settled
  names : ∀ (id : ProcessId) (p : Process), g.processes[id]? = some p → g.InSync p.owner → ∀ e ∈ p.outputs, e.1 ∈ g.table p.owner .extended

theorem Mans.exists_data (hJ : g.Mans J) : ∃ d, g.data? J.node = some d ∧ d.design = J.data.design ∧ d.wiring.outOfSync = false := by
  obtain ⟨d, hd, hs⟩ := hJ.inSync.exists_data
  have := hJ.design
  rw [design?_of_data? hd] at this
  exact ⟨d, hd, Option.some.inj this, hs⟩

theorem Mans.references (hJ : g.Mans J) : g.references J.node = J.data.references := by
  rw [references_eq, hJ.design]
  rfl

theorem Staffed.wired (h : Staffed τ g) (hf : Framed τ g) (hj : τ.jobs ≠ []) : g.Wired := hf.wired_of_settled (h.settled hj).stale

/-- The node of the innermost job is properly below those of the others. -/
theorem Staffed.below_head {jobs : List Job} (h : Staffed τ g) (hj : τ.jobs = J :: jobs) {J' : Job} (hJ' : J' ∈ jobs) :
    g.StrictlyBelow J'.node J.node := by
  have hc := h.chain
  have hm := h.jobs
  rw [hj] at hc hm
  clear hj
  induction jobs generalizing J with
  | nil => cases hJ'
  | cons K jobs ih =>
    rw [List.isChain_cons_cons] at hc
    have hK : J.node ∈ g.references K.node := (hm K (List.mem_cons_of_mem _ (List.mem_cons_self ..))).references ▸ hc.1
    rcases List.mem_cons.1 hJ' with rfl | hJ'
    · exact .single hK
    · exact (ih hJ' hc.2 fun L hL => hm L (List.mem_cons_of_mem _ hL)).tail hK

theorem Staffed.node_ne {jobs : List Job} (h : Staffed τ g) (hf : Framed τ g) (hj : τ.jobs = J :: jobs) {J' : Job} (hJ' : J' ∈ jobs) :
    J'.node ≠ J.node := fun he => hf.designed.acyclic J.node (he ▸ h.below_head hj hJ')

/-! ## Names that are merged -/

theorem mem_table_of_inflow {d : DataNode} (hd : g.data? n = some d) (hdes : g.Designed) (hw : g.WiredAt d) {r : NodeId}
    (hr : r ∈ inflow d.design) {x : String} (hb : g.Brings r x) : x ∈ g.table n .input := by
  rw [hw.input_eq hd]
  exact (mem_inputTable fun r hr => hdes.leaf?_source hd hr).2 ⟨r, hr, hb⟩

/-- The names that a filter selects come from names that there are. -/
theorem mem_selectChannels {f : Option Filter} {channels : NameMap ChannelId} {x : String} {c : ChannelId}
    (h : (x, c) ∈ selectChannels f channels) : ∃ y ∈ Filter.sources f x, channels[y]? = some c := by
  have hm : Feed.channel c ∈ named x ((selectChannels f channels).map fun e => (e.1, .channel e.2)) :=
    mem_named.2 (List.mem_map.2 ⟨_, h, rfl⟩)
  rw [named_selected, List.mem_filterMap] at hm
  obtain ⟨y, hy, hc⟩ := hm
  obtain ⟨c', hc', he⟩ := Option.map_eq_some_iff.1 hc
  cases he
  exact ⟨y, hy, hc'⟩

/-- What is merged for a job has names of the table of the port. -/
theorem Offers.mem_table {port : Port} {fs : List (String × Feed)} (ho : g.Offers J port fs) (hdes : g.Designed) (hw : g.Wired) (hJ : g.Mans J)
    (hn : ∀ (id : ProcessId) (p : Process), g.processes[id]? = some p → g.InSync p.owner → ∀ e ∈ p.outputs, e.1 ∈ g.table p.owner .extended) :
    ∀ e ∈ fs, e.1 ∈ g.table J.node port := by
  obtain ⟨d, hd, hdd, hs⟩ := hJ.exists_data
  have hwd := hw J.node d hd hs
  cases ho with
  | exposed hr hl =>
    intro e he
    obtain ⟨⟨x, c⟩, hx, rfl⟩ := List.mem_map.1 he
    refine mem_table_of_inflow hd hdes hwd (hdd ▸ hr) ?_
    rw [Brings, hl]
    exact mem_table_of_chan (mem_finalChannels.1 hx)
  | bound hr hl _ =>
    intro e he
    rw [List.mem_singleton.1 he]
    refine mem_table_of_inflow hd hdes hwd (hdd ▸ hr) ?_
    rw [Brings, hl]
  | leaf hr hl _ =>
    intro e he
    rw [List.mem_singleton.1 he]
    refine mem_table_of_inflow hd hdes hwd (hdd ▸ hr) ?_
    rw [Brings, hl]
  | extended =>
    intro e he
    rcases List.mem_append.1 he with he | he
    · obtain ⟨⟨x, c⟩, hx, rfl⟩ := List.mem_map.1 he
      exact hwd.mem_extended hd (mem_table_of_chan (mem_resolve_of.1 hx))
    · rcases hp : J.process with _ | p
      · rw [hp] at he
        cases he
      · obtain ⟨q, hq, hown⟩ := hJ.process p hp
        rw [hp, writes, hq] at he
        obtain ⟨⟨x, y⟩, hx, rfl⟩ := List.mem_map.1 he
        obtain ⟨⟨x', y'⟩, hx', hxe⟩ := List.mem_map.1 hx
        cases hxe
        have hin := hJ.inSync
        rw [← hown] at hin ⊢
        exact hn p q hq hin _ hx'
  | output ht =>
    intro e he
    obtain ⟨⟨x, c⟩, hx, rfl⟩ := List.mem_map.1 he
    obtain ⟨y, hy, hc⟩ := mem_selectChannels hx
    have hfilter : J.data.filter = d.filter := (congrArg Design.filter hdd).symm
    refine hwd.mem_output hd (hfilter ▸ hy) ?_
    have hmem := mem_of_get_tableOf hc
    rw [unfiltered]
    rcases List.mem_append.1 hmem with hm | hm
    · have := hJ.shown _ hm
      split
      · exact DataNode.mem_addTemplate.2 (.inr this)
      · exact this
    · rcases ht with rfl | ⟨p, s, hp, rfl⟩
      · cases hm
      · have hproto : d.design.proto = some p := (congrArg Design.proto hdd).trans hp
        rw [hproto]
        exact DataNode.mem_addTemplate.2 (.inl (mem_table_of_chan (mem_finalChannels.1 hm)))

/-- Merging under names of the port's table fills the port. -/
theorem recached_mergeFeeds {port : Port} {s : Substitution} {w : Wiring} (hw : g.wiring? n = some w) {fs : List (String × Feed)}
    (ht : ∀ e ∈ fs, e.1 ∈ g.table n port) : g.Recached (g.mergeFeeds n port s fs) := by
  induction fs generalizing g w with
  | nil => exact .refl g
  | cons e fs ih =>
    have hx := ht e (List.mem_cons_self ..)
    have hstep : g.Recached (g.mergeFeed n port s e.1 e.2) := by
      rcases hc : g.cell? n port e.1 (g.keyAt n port e.1 s) with _ | c
      · exact (mergeFeed_spec hw hx (c := {}) (by rw [hc]; rfl) rfl e.2).1
      · by_cases hu : c.uses = 0
        · exact (mergeFeed_spec hw hx (c := c) (by rw [hc]; rfl) hu e.2).1
        · rw [mergeFeed_of_used hc hu]
          exact .refl g
    obtain ⟨w', -, hw'⟩ := hstep.wiring hw
    refine hstep.trans (ih hw' fun e' he' => ?_)
    rw [hstep.table]
    exact ht e' (List.mem_cons_of_mem _ he')

end Graph

end Dataflow
