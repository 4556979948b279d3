import Dataflow.Proofs.Strides

/-!
# Processes can be ordered, and own their outputs

Slots come to a channel with the processes that write them, and these were there before. So a process, which reads from the creators of the
slots that it found when it was made, reads from processes of smaller ids alone, and there is a schedule for any of them. It keeps the
entries that were made for its outputs, which are of the declared types and no other process's, for as long as it lives: between calls, and
in the middle of a call whenever a process has its turn.
-/

namespace Dataflow

namespace Store

variable {s : Store} {P : Option ProcessId → Prop}

/-- The creators of all slots are of a kind. -/
def Credits (P : Option ProcessId → Prop) (s : Store) : Prop := ∀ c, ∀ y ∈ s.slots c, P y.creator

theorem credits_addSlot (h : s.Credits P) (id : ChannelId) {x : Slot Float32} (hx : P x.creator) : (s.addSlot id x).Credits P := by
  intro c y hy
  rw [slots_addSlot] at hy
  split at hy
  · rcases Sequence.of_mem_insert hy with hy | ⟨-, he⟩
    · exact h c y hy
    · rw [he]
      exact hx
  · exact h c y hy

theorem credits_addSlots (h : s.Credits P) (id : ChannelId) {l : List (Slot Float32)} (hl : ∀ x ∈ l, P x.creator) :
    (s.addSlots id l).Credits P := by
  induction l generalizing s with
  | nil => exact h
  | cons x l ih => exact ih (credits_addSlot h id (hl x List.mem_cons_self)) fun y hy => hl y (List.mem_cons_of_mem _ hy)

theorem credits_newChannel (h : s.Credits P) (m : MapId) {l : List (Slot Float32)} (hl : ∀ x ∈ l, P x.creator) :
    (s.newChannel m l).1.Credits P :=
  credits_addSlots (fun c y hy => h c y (slots_pushChannel (s := s) (c := c) m ▸ hy)) _ hl

theorem credits_takeOver (h : s.Credits P) (m : MapId) (c : ChannelId) : (s.takeOver m c).1.Credits P := by
  rw [takeOver]
  split
  · exact h
  · exact credits_newChannel h m (h c)

theorem credits_release (h : s.Credits P) (c : ChannelId) (m : MapId) : (s.release c m).Credits P := by
  intro c' y hy
  rw [release] at hy
  split at hy
  · rw [slots_freeChannel] at hy
    split at hy
    · cases hy
    · exact h c' y hy
  · exact h c' y hy

theorem credits_put (h : s.Credits P) (m : MapId) (cur : Option ChannelId) {f : Feed} (hf : ∀ x ∈ s.feedSlots f, P x.creator) :
    (s.put m cur f).1.Credits P := by
  rcases cur with _ | cur <;> rcases f with c | x
  · exact h
  · exact credits_newChannel h m hf
  · rw [put]
    split
    · exact h
    · split
      · exact credits_addSlots (credits_takeOver h m cur) _ (credits_takeOver h m cur c)
      · exact credits_release h cur m
  · rw [put]
    split
    · exact credits_addSlot (credits_takeOver h m cur) _ (hf x List.mem_cons_self)
    · exact credits_newChannel (credits_release h cur m) m hf

end Store

namespace Graph

variable {κ : Call} {a : Account} {τ τ' : Work} {g g' : Graph}

/-- What is merged for a job comes without creators, from live processes, or from channels. -/
theorem Offers.creator {J : Job} {port : Port} {fs : List (String × Feed)} (ho : g.Offers J port fs) {x : String} {y : Slot Float32}
    (hy : (x, .slot y) ∈ fs) : ∀ k ∈ y.creator, ∃ p : Process, g.processes[k]? = some p := by
  cases ho with
  | exposed hr hl =>
    obtain ⟨e, -, he⟩ := List.mem_map.1 hy
    cases he
  | bound hr hl hc => cases List.mem_singleton.1 hy
  | leaf hr hl he =>
    cases List.mem_singleton.1 hy
    exact nofun
  | extended =>
    rcases List.mem_append.1 hy with hy | hy
    · obtain ⟨e, -, he⟩ := List.mem_map.1 hy
      cases he
    · rcases hJ : J.process with _ | p <;> rw [hJ] at hy
      · cases hy
      · rw [writes] at hy
        rcases hq : g.processes[p]? with _ | q <;> rw [hq] at hy
        · cases hy
        · obtain ⟨_, ha, he⟩ := List.mem_map.1 hy
          obtain ⟨_, -, rfl⟩ := List.mem_map.1 ha
          cases he
          rintro k hk
          cases hk
          exact ⟨q, hq⟩
  | output ht =>
    obtain ⟨e, -, he⟩ := List.mem_map.1 hy
    cases he

/-- Slots were brought by processes that have been drawn, processes read from those of smaller ids, and their outputs are entries of the types
that their operators declare. -/
structure Ranged (g : Graph) : Prop where
  creators : g.store.Credits fun o => ∀ k ∈ o, k ≤ g.lastId
  children : ∀ (id : ProcessId) (p : Process), g.processes[id]? = some p → ∀ j ∈ p.children, j < id
  types : ∀ (id : ProcessId) (p : Process), g.processes[id]? = some p →
    p.outputs.map (fun o => g.store.typeAt? o.2) = p.operator.outputs.map fun o => some o.type

theorem Ranged.of_types (h : g.Ranged) {id : ProcessId} {p : Process} (hp : g.processes[id]? = some p)
    (ht : ∀ e ∈ p.writes, g'.store.typeAt? e = g.store.typeAt? e) :
    p.outputs.map (fun o => g'.store.typeAt? o.2) = p.operator.outputs.map fun o => some o.type := by
  rw [← h.types id p hp]
  exact List.map_congr_left fun o ho => ht o.2 (List.mem_map.2 ⟨o, ho, rfl⟩)

theorem Ranged.thins (h : g.Ranged) (ht : g.Thins g') : g'.Ranged := by
  refine ⟨fun c y hy k hk => Nat.le_trans (h.creators c y (ht.slots c y hy) k hk) ht.lastId, fun id q hq => ?_, fun id q hq => ?_⟩ <;>
    obtain ⟨p, hp, he⟩ := ht.processes id q hq
  · rw [he]
    exact h.children id p hp
  · have hout := h.of_types hp fun e hx => ht.types e ⟨id, q, hq, by rwa [he]⟩
    rw [he]
    exact hout

theorem Ranged.merge (h : g.Ranged) (hd : Tidy τ g) {J : Job} {jobs : List Job} (hj : τ.jobs = J :: jobs) {port : Port}
    {fs : List (String × Feed)} (ho : g.Offers J port fs) : (g.mergeFeeds J.node port J.sub fs).Ranged := by
  have hmem : J ∈ τ.jobs := hj ▸ List.mem_cons_self
  have hJ := hd.staffed.jobs J hmem
  obtain ⟨w, hw, -⟩ := id hJ.inSync
  obtain ⟨hcred, hlater⟩ := store_mergeFeeds (s := J.sub) (I := fun st => (st.Credits fun o => ∀ k ∈ o, k ≤ g.lastId) ∧ g.store.Later st) hw
    (ho.mem_table hd.framed.designed (hd.staffed.wired hd.framed (List.ne_nil_of_mem hmem)) hJ hd.staffed.names)
    (fun st cur x hx ⟨h₁, h₂⟩ => ⟨Store.credits_put h₁ _ _ fun y hy => by
      rcases x with ⟨x, c | z⟩
      · exact h₁ c y hy
      · obtain rfl := List.mem_singleton.1 hy
        intro k hk
        obtain ⟨p, hp⟩ := ho.creator hx k hk
        exact hd.kept.processId k p hp, h₂.trans (Store.later_put ..)⟩) ⟨h.creators, .refl _⟩
  have htypes : ∀ e, (g.mergeFeeds J.node port J.sub fs).store.typeAt? e = g.store.typeAt? e := fun e => by
    rw [Store.typeAt?, Store.typeAt?, hlater.entryAt?]
  obtain ⟨hproc, hlast⟩ : (g.mergeFeeds J.node port J.sub fs).processes = g.processes ∧
      (g.mergeFeeds J.node port J.sub fs).lastId = g.lastId := by
    obtain ⟨_, _, _, he⟩ := (hd.recached_merge hj ho).rest
    rw [he]
    exact ⟨rfl, rfl⟩
  refine ⟨?_, fun id p hp => h.children id p (hproc ▸ hp), fun id p hp => h.of_types (hproc ▸ hp) fun e _ => htypes e⟩
  rw [hlast]
  exact hcred

theorem Ranged.withProcess (h : g.Ranged) {exact : Prop} (hs : Stored exact κ τ g) (n : NodeId) (s : Substitution) (c : Compute)
    (op : Operator) : (g.withProcess n s c op).Ranged := by
  have hslots : ∀ ch, (g.withProcess n s c op).store.slots ch = g.store.slots ch := fun ch => by
    refine Store.slots_of_wire?_eq ((Store.wire?_of_channels_eq (Store.pushEmpties_fields _ _).1 ch).trans (Store.wire?_listenAll ..))
  have hlast : (g.withProcess n s c op).lastId = g.lastId + 1 := rfl
  refine ⟨fun ch y hy k hk => ?_, fun id p hp => ?_, fun id p hp => ?_⟩
  · rw [hslots] at hy
    exact Nat.le_succ_of_le (h.creators ch y hy k hk)
  · rw [processes_withProcess] at hp
    split at hp
    · rename_i hid
      cases hp
      intro j hj
      obtain ⟨ch, -, hj⟩ := List.mem_flatMap.1 (List.mem_eraseDups.1 hj)
      obtain ⟨y, hy, hk⟩ := List.mem_filterMap.1 hj
      rw [hid]
      exact Nat.lt_succ_of_le (h.creators ch y hy j hk)
    · exact h.children id p hp
  · rw [processes_withProcess] at hp
    split at hp
    · cases hp
      exact types_withProcess g n s c op
    · refine h.of_types hp fun e he => ?_
      obtain ⟨x, hx⟩ := Option.isSome_iff_exists.1 (hs.outputs e ⟨id, p, hp, he⟩)
      rw [Store.typeAt?, Store.typeAt?, entryAt?_withProcess g n s c op hx, hx]

theorem ranged_move (m : Move κ τ g τ' g') (hd : Tidy τ g) {exact : Prop} (hs : Stored exact κ τ g) (h : g.Ranged) : g'.Ranged := by
  cases m.stride hd hs with
  | merges hj ho => exact h.merge hd hj ho
  | makes hj ho => exact h.withProcess hs ..
  | thins ht => exact h.thins ht

theorem ranged_new (registry : Registry) (config : Config) : (new registry config).Ranged := by
  have hproc : ∀ (id : ProcessId) p, (new registry config).processes[id]? ≠ some p := fun id p hp =>
    Option.some_ne_none _ (hp.symm.trans Std.ExtTreeMap.getElem?_empty)
  refine ⟨fun c y hy => ?_, fun id p hp => absurd hp (hproc id p), fun id p hp => absurd hp (hproc id p)⟩
  rw [Store.slots, Store.channel?, show (new registry config).store.channels.get? c = none from Std.ExtTreeMap.getElem?_empty] at hy
  cases hy

/-- Processes read from those of smaller ids alone; and what they write are live entries, each of one output of one process, of the type that
the operator declares for it and stored in this type's class. -/
structure Arranged (g : Graph) : Prop where
  children : ∀ (id : ProcessId) (p : Process), g.processes[id]? = some p → ∀ j ∈ p.children, j < id
  outputs : ∀ (id : ProcessId) (p : Process), g.processes[id]? = some p → List.Forall₂ (fun (o : String × EntryId) (decl : OutputDecl) =>
    ∃ e, g.entryAt? o.2 = some e ∧ e.type = decl.type ∧ e.payload.storage = decl.type.storage) p.outputs p.operator.outputs
  distinct : ∀ (id : ProcessId) (p : Process), g.processes[id]? = some p → p.writes.Nodup
  apart : ∀ (id id' : ProcessId) (p p' : Process), g.processes[id]? = some p → g.processes[id']? = some p' →
    ∀ e ∈ p.writes, e ∈ p'.writes → id = id'

theorem Arranged.output (h : g.Arranged) {id : ProcessId} {p : Process} (hp : g.processes[id]? = some p) {k : Nat} {o : String × EntryId}
    (ho : p.outputs[k]? = some o) : ∃ decl e, p.operator.outputs[k]? = some decl ∧ g.entryAt? o.2 = some e ∧ e.type = decl.type := by
  obtain ⟨hlen, hall⟩ := List.forall₂_iff_get.1 (h.outputs id p hp)
  obtain ⟨hk, rfl⟩ := List.getElem?_eq_some_iff.1 ho
  obtain ⟨e, he, ht, -⟩ := hall k hk (hlen ▸ hk)
  exact ⟨_, e, List.getElem?_eq_getElem (hlen ▸ hk), he, ht⟩

theorem Ranged.arranged (h : g.Ranged) {exact : Prop} (hs : Stored exact κ τ g) (hf : g.Fitted) : g.Arranged := by
  refine ⟨h.children, fun id p hp => ?_, fun id p hp => (hf id p hp).distinct, hs.apart⟩
  have hty := h.types id p hp
  rw [← List.forall₂_eq_eq_eq, List.forall₂_map_left_iff, List.forall₂_map_right_iff] at hty
  refine hty.imp fun o decl ho => ?_
  obtain ⟨e, he, ht⟩ := Option.map_eq_some_iff.1 ho
  exact ⟨e, he, ht, ht ▸ e.storage_eq⟩

theorem Reachable.ranged (h : g.Reachable) : g.Ranged := h.held ranged_new fun _ _ _ _ _ m hd _ hs hr => ranged_move m hd hs hr

theorem Reachable.fitted_runs (h : g.Reachable) {g₀ : Graph} {roots : List ProcessId} (hrun : g.settled.running κ = some (g₀, roots))
    (ids : List ProcessId) : (ids.foldl runProcess g₀).Fitted :=
  h.held_runs hrun ids fitted_new fun _ _ _ _ _ m hd _ _ hf => fitted_move m hd hf

/-- In the middle of a call, while the processes of its schedule run, all processes are arranged. -/
theorem Reachable.arranged_runs (h : g.Reachable) {g₀ : Graph} {roots : List ProcessId} (hrun : g.settled.running κ = some (g₀, roots))
    (ids : List ProcessId) : (ids.foldl runProcess g₀).Arranged := by
  obtain ⟨a, ha⟩ := h.sustained
  obtain ⟨hm, hauth⟩ := moves_runs (a := a) ha.orderly.authored hrun ids
  have hr := h.held_runs hrun ids ranged_new fun _ _ _ _ _ m hd _ hs hr => ranged_move m hd hs hr
  exact hr.arranged ((ha.moves hm hauth).stored κ) (h.fitted_runs hrun ids)

/-- Whatever calls led to a graph, its processes are arranged, and there is a schedule for any of them. So it is in the middle of every call
that has processes run: the call gets a schedule, and the processes are arranged whenever one of them has its turn. -/
theorem processes_arranged (h : g.Reachable) :
    (g.Arranged ∧ ∀ roots, ∃ order, g.scheduleOf roots = .ok order) ∧
    (∀ c g₀ roots, g.settled.running c = some (g₀, roots) → ∃ order, g₀.scheduleOf roots = .ok order) ∧
    ∀ c g' id, g.Turn c g' id → g'.Arranged := by
  obtain ⟨a, ha⟩ := h.sustained
  have harr := h.ranged.arranged (ha.stored .createLeaf) h.fitted
  refine ⟨⟨harr, exists_schedule harr.children⟩, fun c g₀ roots hrun => ?_, fun c g' id hturn => ?_⟩
  · exact exists_schedule (h.arranged_runs hrun []).children roots
  · cases hturn with
    | mk hrun hschedule => exact h.arranged_runs hrun _

/-- To pull the result of the cascade makes two processes, of which the second reads from the first. It has its turn after that one, and
the processes are arranged. -/
theorem processes_arranged_cascade :
    cascadeGraph.Reachable ∧ ∃ g', cascadeGraph.Turn (.pull 2) g' 6 ∧ g'.Arranged ∧
      g'.processes.toList.map (fun e => (e.1, e.2.children, e.2.writes)) = [(5, [], [1]), (6, [5], [2])] := by
  have hrun : (cascadeGraph.settled.running (.pull 2)).map (fun x => (x.2, ([5].foldl runProcess x.1).processes.toList.map
      fun e => (e.1, e.2.children, e.2.writes))) = some ([6], [(5, [], [1]), (6, [5], [2])]) := by decide +kernel
  have hreached : (cascadeGraph.settled.running (.pull 2)).map (fun x => reachable
      (x.2.length + (x.1.processes.map fun _ p => p.children).values.flatten.length)
      (Schedule.depsOf (x.1.processes.map fun _ p => p.children)) x.2) = some [6, 5] := by decide +kernel
  have hdeps : (cascadeGraph.settled.running (.pull 2)).map (fun x =>
      Schedule.extend (x.1.processes.map fun _ p => p.children) [5, 6] 2 []
        ([5, 6].filter fun i => (Schedule.depsOf (x.1.processes.map fun _ p => p.children) i).isEmpty)) = some [5, 6] := by decide +kernel
  obtain ⟨⟨g₀, roots⟩, hg, hx⟩ := Option.map_eq_some_iff.1 hrun
  rw [hg, Option.map_some, Option.some_inj] at hreached hdeps
  obtain ⟨rfl, hprocs⟩ := Prod.mk.inj hx
  have hinvolved : Schedule.involved (g₀.processes.map fun _ p => p.children) [6] = [5, 6] := by
    exact (congrArg (List.mergeSort · (· ≤ ·)) hreached).trans
      (show [6, 5].mergeSort (fun i j : Nat => i ≤ j) = [5, 6] by simp [List.mergeSort])
  have horder : g₀.scheduleOf [6] = .ok ([5] ++ 6 :: []) := by
    rw [scheduleOf, Schedule.compile, hinvolved]
    exact (congrArg (fun order => if order.length = 2 then Except.ok order else _) hdeps).trans rfl
  have hturn : cascadeGraph.Turn (.pull 2) ([5].foldl runProcess g₀) 6 := .mk hg horder
  exact ⟨reachable_cascadeGraph, _, hturn, (processes_arranged reachable_cascadeGraph).2.2 _ _ _ hturn, hprocs⟩

end Graph

end Dataflow
