import Dataflow.Proofs.Calls
import Dataflow.Proofs.Staffed

/-!
# Tidy graphs: what every move keeps of tables and memos

In the middle of a call tables are framed, memos are kept and jobs are in order. Most moves are quiet: they change nothing that these speak
of. Each of the others is told by what it does to them.
-/

namespace Dataflow

namespace Graph

variable {κ : Call} {τ τ' : Work} {g g' g'' : Graph} {n : NodeId} {J : Job}

/-- In the middle of a call: tables, memos and jobs are as they should be. -/
structure Tidy (τ : Work) (g : Graph) : Prop where
  framed : Framed τ g
  kept : Kept τ g
  staffed : Staffed τ g

/-! ## Quiet steps -/

/-- Frames, memos, and what there is of instances and processes are the same. -/
structure Quiet (g g' : Graph) : Prop where
  frames : g.SameFrames g'
  memos : g.SameMemos g'
  instances : ∀ id : InstanceId, (g'.instances[id]?).map Instance.place = (g.instances[id]?).map Instance.place
  processes : ∀ id : ProcessId, (g'.processes[id]?).map (fun p => (p.place, p.outputs)) = (g.processes[id]?).map fun p => (p.place, p.outputs)
  lastId : g.lastId ≤ g'.lastId

namespace Quiet

theorem refl (g : Graph) : g.Quiet g := ⟨.refl g, .refl g, fun _ => rfl, fun _ => rfl, Nat.le_refl _⟩

theorem trans (h : g.Quiet g') (h' : g'.Quiet g'') : g.Quiet g'' :=
  ⟨h.frames.trans h'.frames, h.memos.trans h'.memos, fun id => (h'.instances id).trans (h.instances id),
    fun id => (h'.processes id).trans (h.processes id), Nat.le_trans h.lastId h'.lastId⟩

/-- Nothing but the store, the outlets, the requests, the plans and the journal changes. -/
theorem of_aside (h : ∃ store outlets requests plans lastId journal, g' = { g with store, outlets, requests, plans, lastId, journal })
    (hid : g.lastId ≤ g'.lastId) : g.Quiet g' := by
  obtain ⟨_, _, _, _, _, _, rfl⟩ := h
  exact ⟨.of_nodes_eq rfl rfl, .of_nodes_eq rfl, fun _ => rfl, fun _ => rfl, hid⟩

theorem of_use {id : InstanceId} {i i' : Instance} (hi : g.instances[id]? = some i) (hp : i'.place = i.place) :
    g.Quiet { g with instances := g.instances.insert id i' } := by
  refine ⟨.of_nodes_eq rfl rfl, .of_nodes_eq rfl, fun j => ?_, fun _ => rfl, Nat.le_refl _⟩
  show ((g.instances.insert id i')[j]?).map _ = _
  rw [Table.get_insert]
  split
  · rename_i hj
    rw [hj, hi, Option.map_some, Option.map_some, hp]
  · rfl

theorem of_processUse {id : ProcessId} {p p' : Process} (hp : g.processes[id]? = some p) (h : p'.place = p.place ∧ p'.outputs = p.outputs) :
    g.Quiet { g with processes := g.processes.insert id p' } := by
  refine ⟨.of_nodes_eq rfl rfl, .of_nodes_eq rfl, fun _ => rfl, fun j => ?_, Nat.le_refl _⟩
  show ((g.processes.insert id p')[j]?).map _ = _
  rw [Table.get_insert]
  split
  · rename_i hj
    rw [hj, hp, Option.map_some, Option.map_some, h.1, h.2]
  · rfl

theorem of_restated (h : g.Restated g') : g.Quiet g' := by
  have hp := h.processes
  obtain ⟨_, _, _, _, _, _, rfl⟩ := h.rest
  refine ⟨.of_nodes_eq rfl rfl, .of_nodes_eq rfl, fun _ => rfl, fun id => ?_, Nat.le_refl _⟩
  have hf : ∀ o : Option Process, o.map (fun p => (p.place, p.outputs)) = (o.map Process.unrun).map fun p => (p.place, p.outputs) := fun o => by
    rw [Option.map_map]
    rfl
  rw [hf, hp, ← hf]

theorem of_recached (h : g.Recached g') : g.Quiet g' := by
  have hr : g'.instances = g.instances ∧ g'.processes = g.processes ∧ g'.lastId = g.lastId := by
    obtain ⟨_, _, _, rfl⟩ := h.rest
    exact ⟨rfl, rfl, rfl⟩
  exact ⟨.of_recached h, .of_recached h, fun _ => by rw [hr.1], fun _ => by rw [hr.2.1], Nat.le_of_eq hr.2.2.symm⟩

/-- Only the outlets that nodes keep change in the nodes. -/
theorem of_modifyOutlets (g : Graph) (n : NodeId) (f : NameMap OutletId → NameMap OutletId) :
    g.Quiet (g.modifyData n fun d => { d with outlets := f d.outlets }) := by
  refine ⟨.of_data (fun m => isSome_node?_modifyData ..) (fun m => leaf?_modifyData ..) (fun m => ?_) rfl, .of_data fun m => ?_, fun _ => rfl,
    fun _ => rfl, Nat.le_refl _⟩
  · rw [inner?, data?_modifyData, inner?]
    split
    · rw [Option.map_map]
      rfl
    · rfl
  · rw [data?_modifyData]
    split
    · rw [Option.map_map]
      rfl
    · rfl

theorem of_noted (h : g.Noted g') : g.Quiet g' := by
  have hd := h.data
  have hn := h.node
  have hl := h.leaf
  obtain ⟨_, rfl⟩ := h.rest
  exact ⟨.of_data hn hl (fun m => by rw [inner?, hd, inner?]) rfl, .of_data fun m => by rw [hd], fun _ => rfl, fun _ => rfl, Nat.le_refl _⟩

variable (h : g.Quiet g')

include h

theorem instance_of {id : InstanceId} {i' : Instance} (hi' : g'.instances[id]? = some i') :
    ∃ i, g.instances[id]? = some i ∧ i.place = i'.place := by
  have := h.instances id
  rw [hi', Option.map_some, eq_comm] at this
  exact Option.map_eq_some_iff.1 this

theorem instance_none {id : InstanceId} (hi : g.instances[id]? = none) : g'.instances[id]? = none := by
  have := h.instances id
  rwa [hi, Option.map_none, Option.map_eq_none_iff] at this

theorem process_of {id : ProcessId} {p' : Process} (hp' : g'.processes[id]? = some p') :
    ∃ p, g.processes[id]? = some p ∧ p.place = p'.place ∧ p.outputs = p'.outputs := by
  have := h.processes id
  rw [hp', Option.map_some, eq_comm] at this
  obtain ⟨p, hp, he⟩ := Option.map_eq_some_iff.1 this
  exact ⟨p, hp, congrArg Prod.fst he, congrArg Prod.snd he⟩

theorem process_to {id : ProcessId} {p : Process} (hp : g.processes[id]? = some p) :
    ∃ p', g'.processes[id]? = some p' ∧ p'.place = p.place := by
  have := h.processes id
  rw [hp, Option.map_some] at this
  obtain ⟨p', hp', he⟩ := Option.map_eq_some_iff.1 this
  exact ⟨p', hp', congrArg Prod.fst he⟩

theorem kept (hk : Kept τ g) (hj : τ'.jobs = τ.jobs) (ht : τ'.tear = τ.tear) : Kept τ' g' := by
  have hplace : ∀ o : Option Process, o.map Process.place = (o.map fun p => (p.place, p.outputs)).map (·.1) := fun o => by
    rw [Option.map_map]
    rfl
  refine ⟨hk.instances.congr h.instances h.memos.instances fun n => by rw [Work.leftInstances, ht, Work.leftInstances],
    hk.processes.congr (fun id => by rw [hplace, h.processes, ← hplace]) h.memos.processes
      fun n => by rw [Work.leftProcesses, ht, Work.leftProcesses],
    fun n f hf ho => ?_, fun id i' hi' => ?_, fun id p' hp' => ?_, fun J hJ => ?_, by rw [hj]; exact hk.apart⟩
  · rw [h.frames.frame] at hf
    obtain ⟨h₁, h₂⟩ := hk.stale n f hf ho
    exact ⟨fun k => (h.memos.instances n k).trans (h₁ k), fun k => (h.memos.processes n k).trans (h₂ k)⟩
  · obtain ⟨i, hi, -⟩ := h.instance_of hi'
    exact Nat.le_trans (hk.instanceId id i hi) h.lastId
  · obtain ⟨p, hp, -⟩ := h.process_of hp'
    exact Nat.le_trans (hk.processId id p hp) h.lastId
  · rw [hj] at hJ
    obtain ⟨h₁, h₂, h₃⟩ := hk.job J hJ
    exact ⟨Nat.le_trans h₁ h.lastId, h.instance_none h₂, (h.memos.instances ..).trans h₃⟩

theorem mans (hJ : g.Mans J) : g'.Mans J := by
  refine ⟨(h.frames.design _).trans hJ.design, h.frames.inSync.2 hJ.inSync, fun e he => ?_, fun p hp => ?_⟩
  · rw [h.frames.table]
    exact hJ.shown e he
  · obtain ⟨q, hq, hown⟩ := hJ.process p hp
    obtain ⟨q', hq', hplace⟩ := h.process_to hq
    exact ⟨q', hq', (congrArg Prod.fst hplace).trans hown⟩

theorem names (hn : ∀ (id : ProcessId) (p : Process), g.processes[id]? = some p → g.InSync p.owner → ∀ e ∈ p.outputs, e.1 ∈ g.table p.owner .extended) :
    ∀ (id : ProcessId) (p : Process), g'.processes[id]? = some p → g'.InSync p.owner → ∀ e ∈ p.outputs, e.1 ∈ g'.table p.owner .extended := by
  intro id p' hp' hin e he
  obtain ⟨p, hp, hplace, hout⟩ := h.process_of hp'
  have hown : p.owner = p'.owner := congrArg Prod.fst hplace
  rw [← hown] at hin ⊢
  rw [h.frames.table]
  exact hn id p hp (h.frames.inSync.1 hin) e (hout ▸ he)

theorem staffed (hs : Staffed τ g) (hj : τ'.jobs = τ.jobs) (hst : τ'.stale = τ.stale) (ht : τ'.tear = τ.tear) : Staffed τ' g' :=
  ⟨fun J hJ => h.mans (hs.jobs J (hj ▸ hJ)), by rw [hj]; exact hs.chain,
    fun hne => ⟨hst.trans (hs.settled (hj ▸ hne)).stale, ht.trans (hs.settled (hj ▸ hne)).tear⟩, h.names hs.names⟩

/-- A quiet step keeps a graph tidy. -/
theorem tidy (ht : Tidy τ g) (hj : τ'.jobs = τ.jobs) (hst : τ'.stale = τ.stale) (hte : τ'.tear = τ.tear) : Tidy τ' g' :=
  ⟨ht.framed.congr h.frames hst (by rw [hte]), h.kept ht.kept hj hte, h.staffed ht.staffed hj hst hte⟩

end Quiet

/-! ## Getting in sync -/

theorem Tidy.sync (h : Tidy τ g) (hτ : τ.Settled) (ha : g.Authored) (n : NodeId) : Tidy τ (g.synchronize n) := by
  obtain ⟨hs, -, -, -⟩ := synchronize_spec ha (h.framed.wired_of_settled hτ.stale) n
  have hrest : ∃ nodes journal, g.synchronize n = { g with nodes, journal } := hs.rest
  have hinst : (g.synchronize n).instances = g.instances := by
    obtain ⟨_, _, he⟩ := hrest
    rw [he]
  have hproc : (g.synchronize n).processes = g.processes := by
    obtain ⟨_, _, he⟩ := hrest
    rw [he]
  have hlast : (g.synchronize n).lastId = g.lastId := by
    obtain ⟨_, _, he⟩ := hrest
    rw [he]
  have hmemo : g.SameMemos (g.synchronize n) := .of_rewired hs.rewired fun _ _ _ ⟨_, _, hw⟩ => hw ▸ ⟨rfl, rfl⟩
  -- a node that was in sync is as it was
  have hsame : ∀ m, g.InSync m → (g.synchronize n).InSync m ∧ ∀ port, (g.synchronize n).table m port = g.table m port := by
    intro m hm
    obtain ⟨d, hd, ho⟩ := hm.exists_data
    have hd' := hs.data?_of_inSync hd ho
    exact ⟨.of_data? hd' ho, fun port => by rw [table, wiring?, hd', table, wiring?, hd]⟩
  refine ⟨h.framed.sync hτ ha n, ⟨?_, ?_, fun m f hf ho => ?_, ?_, ?_, fun J hJ => ?_, h.kept.apart⟩,
    fun J hJ => ?_, h.staffed.chain, h.staffed.settled, fun id p hp hin e he => ?_⟩
  · exact h.kept.instances.congr (fun _ => by rw [hinst]) hmemo.instances fun _ => rfl
  · exact h.kept.processes.congr (fun _ => by rw [hproc]) hmemo.processes fun _ => rfl
  · have hf' : g.frame? m = some f := by
      obtain ⟨d, hd, rfl⟩ := exists_data_of_frame? hf
      rcases hs.rewired.data? m with hm | ⟨d', w, -, ⟨-, t, rfl⟩, hm⟩
      · rwa [frame?, wiring?, hm] at hf
      · rw [hm] at hd
        cases hd
        cases ho
    obtain ⟨h₁, h₂⟩ := h.kept.stale m f hf' ho
    exact ⟨fun k => (hmemo.instances m k).trans (h₁ k), fun k => (hmemo.processes m k).trans (h₂ k)⟩
  · intro id i hi
    rw [hlast]
    exact h.kept.instanceId id i (hinst ▸ hi)
  · intro id p hp
    rw [hlast]
    exact h.kept.processId id p (hproc ▸ hp)
  · obtain ⟨h₁, h₂, h₃⟩ := h.kept.job J hJ
    exact ⟨hlast ▸ h₁, hinst ▸ h₂, (hmemo.instances ..).trans h₃⟩
  · have hJ := h.staffed.jobs J hJ
    obtain ⟨hin, htab⟩ := hsame J.node hJ.inSync
    exact ⟨(hs.sameDesign.design _).trans hJ.design, hin, fun e he => by rw [htab]; exact hJ.shown e he, fun p hp => hproc ▸ hJ.process p hp⟩
  · rw [hproc] at hp
    have hin := h.kept.inSync_process hτ.tear hp
    rw [(hsame _ hin).2]
    exact h.staffed.names id p hp hin e he

/-! ## Jobs -/

theorem Tidy.start (h : Tidy τ g) (hτ : τ.Settled) {d : DataNode} {s : Substitution} (hd : g.data? n = some d)
    (hs : d.wiring.outOfSync = false)
    (hk : ∀ id, d.wiring.instances[(s.restrict d.wiring.params).fullKey]? = some id → g.instances[id]? = none)
    (hnest : ∀ J ∈ τ.jobs.head?, n ∈ J.data.references) :
    Tidy (τ.doing ({ id := g.lastId + 1, node := n, data := d, sub := s.restrict d.wiring.params } :: τ.jobs)) (g.drawId).1 := by
  have hq : g.Quiet (g.drawId).1 := .of_aside ⟨_, _, _, _, _, _, rfl⟩ (Nat.le_succ _)
  have ht : Tidy τ (g.drawId).1 := hq.tidy h rfl rfl rfl
  have hfree : g.instanceAt? n (s.restrict d.wiring.params).fullKey = none := by
    rcases hid : g.instanceAt? n (s.restrict d.wiring.params).fullKey with _ | id
    · rfl
    · obtain ⟨i, hi, -⟩ := h.kept.instances.sound _ _ _ hid
      rw [instanceAt?_of_wiring? (wiring?_of_data? hd)] at hid
      rw [hk id hid] at hi
      cases hi
  have hnew : g.instances[g.lastId + 1]? = none := by
    rcases hi : g.instances[g.lastId + 1]? with _ | i
    · rfl
    · exact absurd (h.kept.instanceId _ i hi) (Nat.not_succ_le_self _)
  refine ⟨ht.framed.congr (.refl _) rfl rfl, { ht.kept with job := ?_, apart := ?_ }, { ht.staffed with jobs := ?_, chain := ?_, settled := ?_ }⟩
  · intro J hJ
    rcases List.mem_cons.1 hJ with rfl | hJ
    · exact ⟨Nat.le_refl _, hnew, hfree⟩
    · exact ht.kept.job J hJ
  · refine List.nodup_cons.2 ⟨fun hm => ?_, h.kept.apart⟩
    obtain ⟨J, hJ, he⟩ := List.mem_map.1 hm
    have hle := (h.kept.job J hJ).1
    rw [he] at hle
    exact Nat.not_succ_le_self _ hle
  · intro J hJ
    rcases List.mem_cons.1 hJ with rfl | hJ
    · exact ⟨design?_of_data? hd, .of_data? hd hs, fun e he => absurd he List.not_mem_nil, fun p hp => absurd hp (Option.not_mem_none p)⟩
    · exact ht.staffed.jobs J hJ
  · exact List.isChain_cons.2 ⟨hnest, h.staffed.chain⟩
  · exact fun _ => ⟨hτ.stale, hτ.tear⟩

/-- The innermost job goes on. -/
theorem Tidy.job (h : Tidy τ g) {jobs : List Job} (hj : τ.jobs = J :: jobs) {J' : Job} (hJ' : g.Mans J')
    (hid : J'.id = J.id) (hnode : J'.node = J.node) (hsub : J'.sub = J.sub) (hdata : J'.data = J.data) : Tidy (τ.doing (J' :: jobs)) g := by
  have hset := h.staffed.settled (by rw [hj]; exact List.cons_ne_nil _ _)
  have hc := h.staffed.chain
  have hap := h.kept.apart
  rw [hj] at hc hap
  refine ⟨h.framed.congr (.refl _) rfl rfl, { h.kept with job := ?_, apart := ?_ }, { h.staffed with jobs := ?_, chain := ?_, settled := ?_ }⟩
  · intro K hK
    rcases List.mem_cons.1 hK with rfl | hK
    · rw [hid, hnode, hsub]
      exact h.kept.job J (by rw [hj]; exact List.mem_cons_self ..)
    · exact h.kept.job K (by rw [hj]; exact List.mem_cons_of_mem _ hK)
  · rw [show (τ.doing (J' :: jobs)).jobs = J' :: jobs from rfl, List.map_cons, hid]
    exact hap
  · intro K hK
    rcases List.mem_cons.1 hK with rfl | hK
    · exact hJ'
    · exact h.staffed.jobs K (by rw [hj]; exact List.mem_cons_of_mem _ hK)
  · rw [show (τ.doing (J' :: jobs)).jobs = J' :: jobs from rfl, List.isChain_cons]
    rw [List.isChain_cons] at hc
    exact ⟨fun K hK => hnode ▸ hc.1 K hK, hc.2⟩
  · exact fun _ => ⟨hset.stale, hset.tear⟩

theorem Tidy.view (h : Tidy τ g) {jobs : List Job} (hj : τ.jobs = J :: jobs) :
    Tidy (τ.doing ({ J with shown := ((g.wiring? J.node).map (·.extended.resolve J.sub)).getD [] } :: jobs)) g := by
  have hJ := h.staffed.jobs J (by rw [hj]; exact List.mem_cons_self ..)
  have hshown : ∀ e ∈ ((g.wiring? J.node).map (·.extended.resolve J.sub)).getD [], g.chan J.node .extended e.1 J.sub = some e.2 :=
    fun e he => mem_resolve_of.1 he
  exact h.job hj { hJ with shown := fun e he => mem_table_of_chan (hshown e he) } rfl rfl rfl rfl

/-- A process is made for a node in sync and remembered there. -/
theorem Tidy.withProcess (h : Tidy τ g) (ht : τ.tear = none) (hw : g.Wired) (hin : g.InSync n) {s : Substitution} {c : Compute} {op : Operator}
    (hop : g.operation? n = some (c, op)) (hnone : g.processAt? n (s.keyOf (g.operatorParams n)) = none) :
    Tidy τ (g.withProcess n s c op) := by
  have hrel := (operated_withProcess g n s c op).relisted
  have hfr := SameFrames.of_relisted hrel
  have hinst : ∀ m k, (g.withProcess n s c op).instanceAt? m k = g.instanceAt? m k := fun m k => by
    refine (instanceAt?_modifyWiring ..).trans ?_
    split
    · rfl
    · rfl
  have hproc : ∀ m k, (g.withProcess n s c op).processAt? m k =
      if m = n ∧ k = s.keyOf (g.operatorParams n) then some (g.lastId + 1) else g.processAt? m k := fun m k => by
    refine (processAt?_modifyWiring ..).trans ?_
    by_cases hm : m = n
    · obtain ⟨w, hw, -⟩ := id hin
      have hw' : g.wiring? m = some w := hm ▸ hw
      rw [if_pos hm, processAt?_of_wiring? hw']
      show (g.wiring? m).bind _ = _
      rw [hw', Option.bind_some, Table.get_insert]
      simp only [hm, true_and]
    · rw [if_neg hm, if_neg fun hc => hm hc.1]
      rfl
  have hnew : g.processes[g.lastId + 1]? = none := by
    rcases hp : g.processes[g.lastId + 1]? with _ | p
    · rfl
    · exact absurd (h.kept.processId _ p hp) (Nat.not_succ_le_self _)
  refine ⟨h.framed.congr hfr rfl rfl, ⟨?_, ?_, fun m f hf ho => ?_, fun id i hi => ?_, fun id p hp => ?_, fun J hJ => ?_, h.kept.apart⟩,
    ⟨fun J hJ => ?_, h.staffed.chain, h.staffed.settled, fun id p hp hpin e he => ?_⟩⟩
  · exact h.kept.instances.congr (fun _ => rfl) hinst fun _ => rfl
  · exact h.kept.processes.insert (a := g.newProcess n s c op) hnew hnone hproc (Work.leftProcesses_of_none ht)
  · rw [hfr.frame] at hf
    obtain ⟨h₁, h₂⟩ := h.kept.stale m f hf ho
    refine ⟨fun k => (hinst m k).trans (h₁ k), fun k => ?_⟩
    rw [hproc, if_neg]
    · exact h₂ k
    · rintro ⟨rfl, -⟩
      obtain ⟨f', hf', hs⟩ := inSync_iff.1 hin
      rw [hf] at hf'
      cases hf'
      rw [ho] at hs
      cases hs
  · exact Nat.le_succ_of_le (h.kept.instanceId id i hi)
  · rw [processes_withProcess] at hp
    split at hp
    · rename_i hid
      exact Nat.le_of_eq hid
    · exact Nat.le_succ_of_le (h.kept.processId id p hp)
  · obtain ⟨h₁, h₂, h₃⟩ := h.kept.job J hJ
    exact ⟨Nat.le_succ_of_le h₁, h₂, (hinst ..).trans h₃⟩
  · have hJ := h.staffed.jobs J hJ
    refine ⟨(hfr.design _).trans hJ.design, hfr.inSync.2 hJ.inSync, fun e he => by rw [hfr.table]; exact hJ.shown e he, fun p hp => ?_⟩
    obtain ⟨q, hq, hown⟩ := hJ.process p hp
    exact ⟨q, (processes_withProcess ..).trans ((if_neg fun hid => by rw [hid, hnew] at hq; cases hq).trans hq), hown⟩
  · rw [processes_withProcess] at hp
    split at hp
    · cases hp
      obtain ⟨d, hd, hs⟩ := hin.exists_data
      obtain ⟨hc, ho⟩ := (operation?_of_data? hd).1 hop
      have hwd := hw n d hd hs
      rw [hfr.table]
      refine hwd.mem_extended_output hd (hwd.operator_eq.symm.trans ho) hc ?_
      rw [← map_fst_newOutputs g c op]
      exact List.mem_map.2 ⟨e, he, rfl⟩
    · rw [hfr.table]
      exact h.staffed.names id p hp (hfr.inSync.1 hpin) e he

/-- A process of the node of the innermost job is acquired. -/
theorem Tidy.operate (h : Tidy τ g) {jobs : List Job} (hj : τ.jobs = J :: jobs) :
    Tidy (τ.doing ({ J with process := (g.acquireProcess J.node J.sub).2 } :: jobs)) (g.acquireProcess J.node J.sub).1 := by
  have hne : τ.jobs ≠ [] := by
    rw [hj]
    exact List.cons_ne_nil _ _
  have hset := h.staffed.settled hne
  have hJ := h.staffed.jobs J (by rw [hj]; exact List.mem_cons_self ..)
  rcases acquireProcess_cases g J.node J.sub with he | ⟨id, p, hk, hp, he⟩ | ⟨c, op, hop, hk, he⟩ <;> rw [he]
  · exact h.job hj { hJ with process := fun p hp => absurd hp (Option.not_mem_none p) } rfl rfl rfl rfl
  · have hq : g.Quiet { g with processes := g.processes.insert id { p with uses := p.uses + 1 } } := .of_processUse hp ⟨rfl, rfl⟩
    have hown : p.owner = J.node := by
      obtain ⟨p', hp', hplace⟩ := h.kept.processes.sound _ _ _ hk
      rw [hp] at hp'
      cases hp'
      exact congrArg Prod.fst hplace
    have ht : Tidy τ _ := hq.tidy h rfl rfl rfl
    refine ht.job hj { hq.mans hJ with process := fun q hq' => ?_ } rfl rfl rfl rfl
    obtain rfl := Option.some.inj hq'
    exact ⟨_, (Table.get_insert ..).trans (if_pos rfl), hown⟩
  · have hnone : g.processAt? J.node (J.sub.keyOf (g.operatorParams J.node)) = none := by
      rcases hid : g.processAt? J.node (J.sub.keyOf (g.operatorParams J.node)) with _ | id
      · rfl
      · obtain ⟨p, hp, -⟩ := h.kept.processes.sound _ _ _ hid
        rw [hk id hid] at hp
        cases hp
    have ht := h.withProcess hset.tear (h.staffed.wired h.framed hne) hJ.inSync hop hnone
    have hJ' := ht.staffed.jobs J (by rw [hj]; exact List.mem_cons_self ..)
    refine ht.job hj { hJ' with process := fun q hq' => ?_ } rfl rfl rfl rfl
    obtain rfl := Option.some.inj hq'
    exact ⟨_, (processes_withProcess ..).trans (if_pos rfl), rfl⟩

/-- The innermost job is done. -/
theorem Tidy.finish (h : Tidy τ g) {jobs : List Job} (hj : τ.jobs = J :: jobs) (children : List InstanceId) (proto : Option InstanceId)
    (hjobs : τ'.jobs = jobs) (hst : τ'.stale = τ.stale) (hte : τ'.tear = τ.tear) : Tidy τ' (g.enlist J.id (J.made children proto)) := by
  have hset := h.staffed.settled (by rw [hj]; exact List.cons_ne_nil _ _)
  have hJ := h.staffed.jobs J (by rw [hj]; exact List.mem_cons_self ..)
  obtain ⟨hle, hdead, hfree⟩ := h.kept.job J (by rw [hj]; exact List.mem_cons_self ..)
  have hfr := sameFrames_enlist g J.id (J.made children proto)
  obtain ⟨w, hw, hs⟩ := id hJ.inSync
  have hinst : ∀ m k, (g.enlist J.id (J.made children proto)).instanceAt? m k =
      if m = J.node ∧ k = J.sub.fullKey then some J.id else g.instanceAt? m k := fun m k => by
    rw [instanceAt?, wiring?_enlist]
    change Option.bind (if m = J.node then _ else _) _ = _
    by_cases hm : m = J.node
    · subst hm
      rw [if_pos rfl, hw, Option.map_some, Option.bind_some, instanceAt?_of_wiring? hw]
      refine (Table.get_insert ..).trans ?_
      simp only [true_and]
      rfl
    · rw [if_neg hm, if_neg fun hc => hm hc.1]
      rfl
  have hproc : ∀ m k, (g.enlist J.id (J.made children proto)).processAt? m k = g.processAt? m k := fun m k => by
    rw [processAt?, wiring?_enlist]
    split
    · rw [Option.bind_map]
      rfl
    · rfl
  have hsub : ∀ K ∈ τ'.jobs, K ∈ τ.jobs ∧ K.node ≠ J.node ∧ K.id ≠ J.id := fun K hK => by
    rw [hjobs] at hK
    refine ⟨hj ▸ List.mem_cons_of_mem _ hK, h.staffed.node_ne h.framed hj hK, fun he => ?_⟩
    have hap := h.kept.apart
    rw [hj, List.map_cons, List.nodup_cons] at hap
    exact hap.1 (he ▸ List.mem_map.2 ⟨K, hK, rfl⟩)
  refine ⟨h.framed.congr hfr hst (by rw [hte]), ⟨?_, ?_, fun m f hf ho => ?_, fun id i hi => ?_, h.kept.processId, fun K hK => ?_, ?_⟩,
    ⟨fun K hK => ?_, ?_, fun _ => ⟨hst.trans hset.stale, hte.trans hset.tear⟩, fun id p hp hpin e he => ?_⟩⟩
  · exact (h.kept.instances.insert (a := J.made children proto) hdead hfree hinst (Work.leftInstances_of_none hset.tear)).congr
      (fun _ => rfl) (fun _ _ => rfl) fun m => by rw [Work.leftInstances, hte, Work.leftInstances]
  · exact h.kept.processes.congr (fun _ => rfl) hproc fun m => by rw [Work.leftProcesses, hte, Work.leftProcesses]
  · rw [hfr.frame] at hf
    obtain ⟨h₁, h₂⟩ := h.kept.stale m f hf ho
    refine ⟨fun k => ?_, fun k => (hproc m k).trans (h₂ k)⟩
    rw [hinst, if_neg]
    · exact h₁ k
    · rintro ⟨rfl, -⟩
      rw [frame?, hw] at hf
      cases hf
      rw [Wiring.frame, hs] at ho
      cases ho
  · rw [instances_enlist] at hi
    split at hi
    · rename_i hid
      exact hid ▸ hle
    · exact h.kept.instanceId id i hi
  · obtain ⟨hK, hnode, hid⟩ := hsub K hK
    obtain ⟨h₁, h₂, h₃⟩ := h.kept.job K hK
    refine ⟨h₁, ?_, ?_⟩
    · rw [instances_enlist, if_neg hid]
      exact h₂
    · rw [hinst, if_neg fun hc => hnode hc.1]
      exact h₃
  · have hap := h.kept.apart
    rw [hj, List.map_cons, List.nodup_cons] at hap
    rw [hjobs]
    exact hap.2
  · have hK := h.staffed.jobs K (hsub K hK).1
    exact ⟨(hfr.design _).trans hK.design, hfr.inSync.2 hK.inSync, fun e he => by rw [hfr.table]; exact hK.shown e he, hK.process⟩
  · have hc := h.staffed.chain
    rw [hj, List.isChain_cons] at hc
    rw [hjobs]
    exact hc.2
  · rw [hfr.table]
    exact h.staffed.names id p hp (hfr.inSync.1 hpin) e he

end Graph

end Dataflow
