import Dataflow.Proofs.Drops

/-!
# Releasing an instance

An instance that is used by nobody any more is taken down, and so is all that its node derives; then what it used is released in turn.
Nothing that is still live refers to it, so the graph stays sound. While it goes, its node and everything above count among those for
which nothing is promised.
-/

namespace Dataflow

namespace Graph

variable {D D' : NodeId → Prop} {hands : List InstanceId} {g g' g'' : Graph} {n : NodeId} {id : InstanceId} {i : Instance}

/-- A graph that is sound but for some nodes is so but for more. -/
theorem SoundBut.weaken (h : SoundBut D hands g) (hsub : ∀ m, D m → D' m) (hup : g.Upward D') : SoundBut D' hands g := by
  have hn : ∀ {m}, ¬ D' m → ¬ D m := fun hm hD => hm (hsub _ hD)
  exact
    { h with
      upward := hup
      wired := fun n d hD => h.wired n d (hn hD)
      memo := fun n w k id hD => h.memo n w k id (hn hD)
      processMemo := fun n w k id hD => h.processMemo n w k id (hn hD)
      faithful := fun id i hi hD => h.faithful id i hi (hn hD)
      process := fun id p hp hD => h.process id p hp (hn hD)
      uses := fun id i hi hD => h.uses id i hi (hn hD)
      runs := fun id p hp hD => h.runs id p hp (hn hD)
      cells := fun n port x k c hD => h.cells n port x k c (hn hD)
      sole := fun n port x k c x' k' c' ch l m hD => h.sole n port x k c x' k' c' ch l m (hn hD) }

/-- Nothing is derived from the node. -/
structure Vacant (g : Graph) (n : NodeId) : Prop where
  instances : ∀ (id : InstanceId) (i : Instance), g.instances[id]? = some i → i.owner ≠ n
  processes : ∀ (id : ProcessId) (p : Process), g.processes[id]? = some p → p.owner ≠ n
  cells : ∀ port x k, g.cell? n port x k = none
  memo : ∀ w (k : String), g.wiring? n = some w → w.instances[k]? = none ∧ w.processes[k]? = none

/-- Taking away keeps a node vacant. -/
theorem Vacant.of_fades (h : g.Vacant n) (hd : g.Fades g') : g'.Vacant n := by
  refine ⟨fun id i hi => ?_, fun id p hp => ?_, fun port x k => hd.cell?_eq_none (h.cells port x k), fun w k hw => ?_⟩
  · obtain ⟨u, hu⟩ := hd.instancesOf id i hi
    exact h.instances id { i with uses := u } hu
  · obtain ⟨u, hu⟩ := hd.processesOf id p hp
    exact h.processes id { p with uses := u } hu
  · obtain ⟨w', hs, hw'⟩ := hd.wiring hw
    obtain ⟨hi, hp⟩ := h.memo w' k hw'
    refine ⟨?_, ?_⟩
    · rcases hk : w.instances[k]? with _ | j
      · rfl
      · rw [hs.instances k j hk] at hi
        cases hi
    · rcases hk : w.processes[k]? with _ | j
      · rfl
      · rw [hs.processes k j hk] at hp
        cases hp

/-- A graph that is sound but for some nodes is so but for fewer, if the rest is wired and nothing is derived from it. -/
theorem SoundBut.shrink (h : SoundBut D' hands g) (hup : g.Upward D)
    (hwired : ∀ n d, ¬ D n → g.data? n = some d → d.wiring.outOfSync = false → g.WiredAt d)
    (hvacant : ∀ n, D' n → ¬ D n → g.Vacant n) : SoundBut D hands g := by
  have hinst : ∀ {id : InstanceId} {i : Instance}, g.instances[id]? = some i → ¬ D i.owner → ¬ D' i.owner :=
    fun hi hD hD' => (hvacant _ hD' hD).instances _ _ hi rfl
  have hproc : ∀ {id : ProcessId} {p : Process}, g.processes[id]? = some p → ¬ D p.owner → ¬ D' p.owner :=
    fun hp hD hD' => (hvacant _ hD' hD).processes _ _ hp rfl
  have hcell : ∀ {n port x k c}, g.cell? n port x k = some c → ¬ D n → ¬ D' n := by
    intro n port x k c hc hD hD'
    rw [(hvacant n hD' hD).cells] at hc
    cases hc
  exact
    { h with
      upward := hup
      wired := hwired
      memo := fun n w k id hD hw => by
        by_cases hD' : D' n
        · rw [((hvacant n hD' hD).memo w k hw).1]
          refine ⟨nofun, ?_⟩
          rintro ⟨i, hi, ho, -⟩
          exact absurd ho ((hvacant n hD' hD).instances id i hi)
        · exact h.memo n w k id hD' hw
      processMemo := fun n w k id hD hw => by
        by_cases hD' : D' n
        · rw [((hvacant n hD' hD).memo w k hw).2]
          refine ⟨nofun, ?_⟩
          rintro ⟨p, hp, ho, -⟩
          exact absurd ho ((hvacant n hD' hD).processes id p hp)
        · exact h.processMemo n w k id hD' hw
      faithful := fun id i hi hD => h.faithful id i hi (hinst hi hD)
      process := fun id p hp hD => h.process id p hp (hproc hp hD)
      uses := fun id i hi hD => h.uses id i hi (hinst hi hD)
      runs := fun id p hp hD => h.runs id p hp (hproc hp hD)
      cells := fun n port x k c hD hc => h.cells n port x k c (hcell hc hD) hc
      sole := fun n port x k c x' k' c' ch l m hD hc => h.sole n port x k c x' k' c' ch l m (hcell hc hD) hc }

/-- What takes away among the nodes of `D` keeps a graph sound but for these. -/
theorem SoundBut.of_wanes {hands' : List InstanceId} {P : NodeId → Wiring → Wiring → Prop} (h : SoundBut D hands g) (hsp : Spares D g g')
    (hd : g.Wanes g') (hr : Rewired P g g')
    (huses : ∀ (id : InstanceId) (i : Instance), g'.instances[id]? = some i → ¬ D i.owner →
      i.uses = g'.useCount id + hands'.count id ∧ 0 < i.uses) : SoundBut D hands' g' := by
  refine h.spared hsp (hr.founded h.founded) (fun n d hd' => h.plain n d ((hr.design? n).symm.trans hd'))
    (fun n r hnr hD => h.upward n r (hr.references n ▸ hnr) hD) (fun m l e hl he => ?_) (hd.mirrored h.mirrored) huses
  obtain ⟨ht, hc⟩ := h.leaves m l e ((hr.leaf? m).symm.trans hl) he
  obtain ⟨t, hx⟩ := Option.isSome_iff_exists.1 ht
  refine ⟨by rw [hsp.types e t hx fun id p hp _ => hc id p hp]; rfl, fun id p hp => ?_⟩
  obtain ⟨u, hu⟩ := hd.processesOf id p hp
  exact hc id { p with uses := u } hu

theorem SoundBut.of_drops {hands' : List InstanceId} (h : SoundBut D hands g) (hsp : Spares D g g') (hd : g.Drops g')
    (huses : ∀ (id : InstanceId) (i : Instance), g'.instances[id]? = some i → ¬ D i.owner →
      i.uses = g'.useCount id + hands'.count id ∧ 0 < i.uses) : SoundBut D hands' g' :=
  h.of_wanes hsp hd.toWanes hd.derived.rewired huses

/-! ## Taking an instance down -/

/-- What an instance in use is counted by when another one is erased. -/
theorem useCount_erase (hi : g.instances[id]? = some i) (j : InstanceId) :
    g.useCount j = (usedBy i).count j + useCount { g with instances := g.instances.erase id } j :=
  Table.tally_erase (fun _ (i : Instance) => (usedBy i).count j) hi

theorem processes_dismantle (g : Graph) (id : InstanceId) (i : Instance) : (g.dismantle id i).processes = g.processes := by
  have hmark : ∀ (g : Graph) n s port, (g.markUnused n s port).processes = g.processes := by
    intro g n s port
    rw [markUnused]
    split <;> rfl
  show (markUnused (markUnused (markUnused { g with instances := g.instances.erase id } _ _ .output) _ _ .extended) _ _ .input).processes = _
  rw [hmark, hmark, hmark]

/-- An instance of `D` that is taken down leaves what it used in hand. -/
theorem SoundBut.dismantled (h : SoundBut D (id :: hands) g) (hi : g.instances[id]? = some i) (hD : D i.owner) :
    SoundBut D (usedBy i ++ hands) ((g.dismantle id i).giveBack i.process) ∧ Spares D g ((g.dismantle id i).giveBack i.process) := by
  have hsp : Spares D g ((g.dismantle id i).giveBack i.process) := by
    refine (spares_dismantle hi hD).trans (spares_giveBack fun pid p hpid hp => ?_)
    rw [processes_dismantle] at hp
    rw [h.runner id i pid p hi hpid hp]
    exact hD
  refine ⟨h.of_drops hsp ((drops_dismantle g id i).trans (drops_giveBack _ _)) fun j i' hi' hD' => ?_, hsp⟩
  have hinst : ((g.dismantle id i).giveBack i.process).instances = g.instances.erase id := by
    rw [(derives_giveBack ..).instances, instances_dismantle]
  rw [hinst, Table.get_erase] at hi'
  split at hi'
  · cases hi'
  · rename_i hne
    obtain ⟨huses, hpos⟩ := h.uses j i' hi' hD'
    rw [useCount_erase hi, List.count_cons_of_ne (Ne.symm hne)] at huses
    have hcount : useCount ((g.dismantle id i).giveBack i.process) j = useCount { g with instances := g.instances.erase id } j := by
      rw [useCount, useCount, hinst]
    refine ⟨?_, hpos⟩
    rw [huses, List.count_append, hcount]
    omega

/-- Who uses an instance is live as long as somebody does: with the last user of an instance, nothing above its node is live. -/
theorem SoundBut.alone (h : SoundBut D (id :: hands) g) (hi : g.instances[id]? = some i) (hu : ¬ 1 < i.uses) (hD : ¬ D i.owner)
    {m : NodeId} (hb : g.Below m i.owner) (hm : ¬ D m) {j : InstanceId} {i' : Instance} (hj : g.instances[j]? = some i')
    (ho : i'.owner = m) : j = id := by
  obtain ⟨d₀, hd₀, -⟩ := (h.faithful id i hi hD).inSync.exists_data
  induction hb using Relation.ReflTransGen.head_induction_on generalizing j i' with
  | refl => exact h.unique hj hi ho (by rw [ho]; exact hm)
  | head hr hb ih =>
    rename_i m r
    have hDr : ¬ D r := fun hDr => hm (h.upward _ _ hr hDr)
    have hf := h.faithful j i' hj (by rw [ho]; exact hm)
    obtain ⟨d, hd⟩ := hf.inSync.exists_design
    -- what refers to another node without a template gathers it
    have hin : r ∈ inflow d := by
      rw [← ho, references_eq, hd] at hr
      simp only [Option.map_some, Option.getD_some, Design.references, h.plain _ d hd, Option.toList_none, List.append_nil,
        List.mem_append, Option.mem_toList] at hr
      rw [inflow]
      rcases hs : d.source with _ | r'
      · rcases hr with hr | hr
        · exact hr
        · rw [hs] at hr
          cases hr
      · rw [hs, h.founded.single _ d hd r' hs] at hr
        rcases hr with hr | hr
        · cases hr
        · cases hr
          exact List.mem_singleton_self r
    have hleaf : g.leaf? r = none := by
      rcases Relation.ReflTransGen.cases_head hb with rfl | ⟨q, hq, -⟩
      · exact leaf?_eq_none_of_data? hd₀
      · obtain ⟨e, he⟩ := exists_data_of_reference hq
        exact leaf?_eq_none_of_data? he
    obtain ⟨k, i'', hk, hlive, ho'⟩ := h.child hj (by rw [ho]; exact hm) hd hin hleaf
    have hkid := ih hDr hlive ho'
    subst hkid
    obtain ⟨huses, -⟩ := h.uses k i hi hD
    have : 0 < g.useCount k := Table.tally_pos.2 ⟨j, i', hj, List.count_pos_iff.2 (List.mem_append_right _ hk)⟩
    rw [List.count_cons_self] at huses
    omega

/-! ## What goes with an instance -/

theorem cell?_markUnused_empty (g : Graph) (n m : NodeId) (port q : Port) (x k : String) :
    (g.markUnused n .empty port).cell? m q x k =
      if m = n ∧ q = port ∧ k = "" then ChannelMap.dropUse (g.cell? m q x k) else g.cell? m q x k := by
  rcases hw : g.wiring? n with _ | w
  · rw [markUnused]
    simp only [hw]
    split
    · rename_i h
      rw [cell?, h.1, hw]
      rfl
    · rfl
  · rw [markUnused_eq hw, cell?, wiring?_modifyWiring]
    by_cases hm : m = n
    · subst hm
      have hw' : wiring? { g with store := g.store.releaseAll (w.map port).id ((w.map port).lastUsed .empty) } m = some w := hw
      rw [if_pos rfl, cell?_of_wiring? hw, hw', Option.map_some, Option.bind_some, Wiring.map_setMap]
      by_cases hq : q = port
      · subst hq
        rw [if_pos rfl, ChannelMap.at?_markUnused, ChannelMap.keyOf, Substitution.keyOf_empty]
        by_cases hk : k = ""
        · rw [if_pos hk, if_pos ⟨rfl, rfl, hk⟩]
        · rw [if_neg hk, if_neg fun h => hk h.2.2]
      · rw [if_neg hq, if_neg fun h => hq h.2.1]
    · rw [if_neg hm, if_neg fun h => hm h.1]
      rfl

/-- The cells that a node keeps for an instance that goes have one user less. -/
theorem cell?_dismantle (hs : i.substitution = .empty) (port : Port) (x : String) :
    (g.dismantle id i).cell? i.owner port x "" = ChannelMap.dropUse (g.cell? i.owner port x "") := by
  have hforget : ∀ (g : Graph) (f : Wiring → Wiring), (∀ w, (f w).map port = w.map port) →
      (g.modifyWiring i.owner f).cell? i.owner port x "" = g.cell? i.owner port x "" := by
    intro g f hf
    rw [cell?, wiring?_modifyWiring, if_pos rfl, cell?]
    rcases g.wiring? i.owner with _ | w
    · rfl
    · rw [Option.map_some, Option.bind_some, Option.bind_some, hf]
  rw [dismantle]
  refine (hforget _ _ fun w => ?_).trans ?_
  · split <;> cases port <;> rfl
  · rw [hs]
    show (markUnused (markUnused (markUnused { g with instances := g.instances.erase id } _ _ .output) _ _ .extended) _ _ .input).cell?
      _ _ _ _ = _
    simp only [cell?_markUnused_empty]
    cases port <;> rfl

theorem instances_ne_of_dismantle {w : Wiring} (hw : (g.dismantle id i).wiring? i.owner = some w) :
    w.instances[i.key]? ≠ some id := by
  simp only [dismantle] at hw
  rw [wiring?_modifyWiring, if_pos rfl] at hw
  obtain ⟨w', -, rfl⟩ := Option.map_eq_some_iff.1 hw
  split
  · rw [Table.get_erase, if_pos rfl]
    exact (Option.some_ne_none id).symm
  · assumption

theorem processes_destroyProcess {pid : ProcessId} {p : Process} (hp : g.processes[pid]? = some p) :
    (g.destroyProcess pid).processes = g.processes.erase pid := by
  rw [destroyProcess_eq hp]
  rfl

theorem processes_ne_of_destroyProcess {pid : ProcessId} {p : Process} (hp : g.processes[pid]? = some p) {w : Wiring}
    (hw : (g.destroyProcess pid).wiring? p.owner = some w) : w.processes[p.key]? ≠ some pid := by
  rw [destroyProcess_eq hp, wiring?_modifyWiring, if_pos rfl] at hw
  obtain ⟨w', -, rfl⟩ := Option.map_eq_some_iff.1 hw
  split
  · rw [Table.get_erase, if_pos rfl]
    exact (Option.some_ne_none pid).symm
  · assumption

/-- With the last user of an instance, everything that its node derives goes; nothing is derived above it. -/
theorem SoundBut.vacant (h : SoundBut D (id :: hands) g) (hi : g.instances[id]? = some i) (hu : ¬ 1 < i.uses) {m : NodeId}
    (hb : g.Below m i.owner) (hm : ¬ D m) : ((g.dismantle id i).giveBack i.process).Vacant m := by
  have hD : ¬ D i.owner := h.not_mem_below hb hm
  have halone : ∀ {j : InstanceId} {i' : Instance}, g.instances[j]? = some i' → i'.owner = m → j = id ∧ i' = i := by
    intro j i' hj ho
    obtain rfl := h.alone hi hu hD hb hm hj ho
    rw [hi] at hj
    exact ⟨rfl, (Option.some.inj hj).symm⟩
  have hun := h.unbound id i hi
  have hdrops := (drops_dismantle g id i).trans (drops_giveBack (g.dismantle id i) i.process)
  have hback := drops_giveBack (g.dismantle id i) i.process
  have hrun : ∀ {pid : ProcessId} {p : Process}, g.processes[pid]? = some p → p.owner = m →
      m = i.owner ∧ i.process = some pid ∧ p.uses = 1 := by
    intro pid p hp ho
    obtain ⟨huses, j, i', hj, hr⟩ := h.runs pid p hp (by rw [ho]; exact hm)
    have hro := h.runner j i' pid p hj hr hp
    obtain ⟨rfl, rfl⟩ := halone hj (hro.symm.trans ho)
    exact ⟨ho.symm.trans hro, hr, huses⟩
  -- a process of the node was run by the instance alone, so it goes
  have hdestroy : ∀ {pid : ProcessId} {p : Process}, g.processes[pid]? = some p → p.owner = m →
      (g.dismantle id i).giveBack i.process = (g.dismantle id i).destroyProcess pid ∧ (g.dismantle id i).processes[pid]? = some p := by
    intro pid p hp ho
    obtain ⟨-, hpid, huses⟩ := hrun hp ho
    have hp' : (g.dismantle id i).processes[pid]? = some p := by rw [processes_dismantle]; exact hp
    rw [hpid]
    simp only [giveBack, releaseProcess, hp']
    rw [if_pos (by omega)]
    exact ⟨rfl, trivial⟩
  refine ⟨fun j i' hj ho => ?_, fun pid p hp ho => ?_, fun port x k => ?_, fun w k hw => ⟨?_, ?_⟩⟩
  · rw [(derives_giveBack ..).instances, instances_dismantle, Table.get_erase] at hj
    split at hj
    · cases hj
    · rename_i hne
      exact hne (halone hj ho).1
  · obtain ⟨u, hp'⟩ := hdrops.processesOf pid p hp
    obtain ⟨he, hlive⟩ := hdestroy hp' ho
    rw [he, processes_destroyProcess hlive, Table.get_erase, if_pos rfl] at hp
    cases hp
  · rcases hc : g.cell? m port x k with _ | c
    · exact hdrops.cell?_eq_none hc
    · obtain ⟨huses, rfl, ⟨j, i', hj, ho⟩, -⟩ := h.cells m port x k c hm hc
      obtain ⟨-, rfl⟩ := halone hj ho
      subst ho
      refine hback.cell?_eq_none ?_
      rw [cell?_dismantle hun.substitution, hc]
      exact if_pos (Nat.le_of_eq huses)
  · rcases hk : w.instances[k]? with _ | j
    · rfl
    · obtain ⟨w', hs, hw'⟩ := hdrops.wiring hw
      obtain ⟨i', hj, ho, hkey⟩ := (h.memo m w' k j hm hw').1 (hs.instances k j hk)
      obtain ⟨rfl, rfl⟩ := halone hj ho
      subst ho hkey
      obtain ⟨w'', hs', hw''⟩ := hback.wiring hw
      exact absurd (hs'.instances _ j hk) (instances_ne_of_dismantle hw'')
  · rcases hk : w.processes[k]? with _ | pid
    · rfl
    · obtain ⟨w', hs, hw'⟩ := hdrops.wiring hw
      obtain ⟨p, hp, ho, hkey⟩ := (h.processMemo m w' k pid hm hw').1 (hs.processes k pid hk)
      obtain ⟨he, hlive⟩ := hdestroy hp ho
      rw [he, ← ho] at hw
      exact absurd (hkey ▸ hk) (processes_ne_of_destroyProcess hlive hw)

/-! ## Releasing -/

/-- What a release leaves: the graph is sound but for the same nodes, what is in hand stays live, and the nodes of what is live are
as they were. -/
structure Released (D : NodeId → Prop) (hands : List InstanceId) (g g' : Graph) : Prop where
  sound : SoundBut D hands g'
  drops : g.Drops g'
  kept : ∀ j ∈ hands, ∀ i : Instance, g.instances[j]? = some i → ¬ D i.owner → ∃ u, g'.instances[j]? = some { i with uses := u }
  data : ∀ (j : InstanceId) (i : Instance), g'.instances[j]? = some i → ¬ D i.owner → g'.inner? i.owner = g.inner? i.owner

theorem spares_check (D : NodeId → Prop) (g : Graph) (i : Invariant) (b : Bool) (t : String) : Spares D g (g.check i b t) :=
  { Spares.refl D g with }

theorem SoundBut.check (h : SoundBut D hands g) (i : Invariant) (b : Bool) (t : String) : SoundBut D hands (g.check i b t) :=
  h.of_drops (spares_check D g i b t) (drops_check g i b t) h.uses

/-- Some instances are released one after the other. -/
theorem released_foldl {f : Graph → InstanceId → Graph} {k : Nat}
    (hf : ∀ {g hands id}, SoundBut D (id :: hands) g → g.instances.size < k → Released D hands g (f g id)) :
    ∀ (l : List InstanceId) {g : Graph}, SoundBut D (l ++ hands) g → g.instances.size < k → Released D hands g (l.foldl f g)
  | [], g, h, _ => ⟨h, .refl g, fun _ _ i hi _ => ⟨i.uses, hi⟩, fun _ _ _ _ => rfl⟩
  | id :: l, g, h, hk => by
    obtain ⟨h₁, hd₁, hk₁, hn₁⟩ := hf h hk
    obtain ⟨h₂, hd₂, hk₂, hn₂⟩ := released_foldl hf l h₁ (Nat.lt_of_le_of_lt hd₁.size hk)
    refine ⟨h₂, hd₁.trans hd₂, fun j hj i hi hD => ?_, fun j i hi hD => (hn₂ j i hi hD).trans ?_⟩
    · obtain ⟨u, hu⟩ := hk₁ j (List.mem_append_right _ hj) i hi hD
      exact hk₂ j hj { i with uses := u } hu hD
    · obtain ⟨u, hu⟩ := hd₂.instancesOf j i hi
      exact hn₁ j { i with uses := u } hu hD

theorem releaseWithin_spec : ∀ (k : Nat) {D : NodeId → Prop} {hands : List InstanceId} {g : Graph} {id : InstanceId},
    SoundBut D (id :: hands) g → g.instances.size < k → Released D hands g (releaseWithin k g id)
  | 0, _, _, _, _, _, hk => absurd hk (Nat.not_lt_zero _)
  | k + 1, D, hands, g, id, h, hk => by
    have hdrops := drops_releaseWithin (k + 1) g id
    rcases hi : g.instances[id]? with _ | i
    · rw [releaseWithin_none hi]
      refine ⟨{ h with uses := fun j i hj hD => ?_ }, .refl g, fun _ _ i hi _ => ⟨i.uses, hi⟩, fun _ _ _ _ => rfl⟩
      have := h.uses j i hj hD
      rw [List.count_cons_of_ne] at this
      · exact this
      · rintro rfl
        rw [hi] at hj
        cases hj
    by_cases hu : 1 < i.uses
    · rw [releaseWithin_used hi hu] at hdrops ⊢
      have hsp := spares_use (D := D) hi (i.uses - 1)
      refine ⟨h.of_drops hsp hdrops fun j i' hj hD => ?_, hdrops, fun j _ i' hj hD => hsp.instances j i' hj hD, fun _ _ _ _ => rfl⟩
      have hcount : useCount { g with instances := g.instances.insert id { i with uses := i.uses - 1 } } j = g.useCount j := by
        have := Table.tally_insert { i with uses := i.uses - 1 } (fun _ (i : Instance) => (usedBy i).count j) hi
        exact Nat.add_right_cancel this
      rw [hcount]
      rw [Table.get_insert] at hj
      split at hj
      · rename_i he
        cases hj
        subst he
        obtain ⟨huses, -⟩ := h.uses j i hi hD
        rw [List.count_cons_self] at huses
        exact ⟨by simp only; omega, by simp only; omega⟩
      · rename_i hne
        have := h.uses j i' hj hD
        rw [List.count_cons_of_ne (Ne.symm hne)] at this
        exact this
    · obtain ⟨b, hb⟩ : ∃ b, releaseWithin (k + 1) g id = ((usedBy i).foldl (releaseWithin k) ((g.dismantle id i).giveBack i.process)).check
          .teardownSymmetric b "release_substitution_node" := ⟨_, releaseWithin_last hi hu⟩
      rw [hb] at hdrops ⊢
      -- while the instance goes, its node and everything above are set aside
      have hup : g.Upward fun m => D m ∨ g.Below m i.owner := by
        rintro m r hr (hDr | hbr)
        · exact .inl (h.upward m r hr hDr)
        · exact .inr (Leads.head hr hbr)
      obtain ⟨h₁, hsp₁⟩ := (h.weaken (fun m hm => .inl hm) hup).dismantled hi (.inr (Leads.refl _))
      have hsize : ((g.dismantle id i).giveBack i.process).instances.size < k := by
        rw [(derives_giveBack ..).instances, instances_dismantle]
        have := Table.size_eq_of_get hi
        omega
      obtain ⟨h₂, hd₂, hk₂, hn₂⟩ := released_foldl (fun h hk => releaseWithin_spec k h hk) (usedBy i) h₁ hsize
      have hvacant : ∀ m, (D m ∨ g.Below m i.owner) → ¬ D m →
          (check ((usedBy i).foldl (releaseWithin k) ((g.dismantle id i).giveBack i.process)) .teardownSymmetric b
            "release_substitution_node").Vacant m := by
        rintro m (hDm | hbm) hm
        · exact absurd hDm hm
        · exact (h.vacant hi hu hbm hm).of_fades (hd₂.trans (drops_check ..)).fades
      refine ⟨(h₂.check ..).shrink (fun m r hr hD => ?_) (fun m d hm hd hs => ?_) hvacant, hdrops, fun j hj i' hi' hD => ?_,
        fun j i' hj hD => ?_⟩
      · rw [hdrops.derived.rewired.references] at hr
        exact h.upward m r hr hD
      · exact hdrops.wiredAt hd (fun e he => h.wired m e hm he) hs
      · have hD' : ¬ (D i'.owner ∨ g.Below i'.owner i.owner) := by
          rintro (hD' | hb)
          · exact hD hD'
          · have hDi : ¬ D i.owner := h.not_mem_below hb hD
            obtain rfl := h.alone hi hu hDi hb hD hi' rfl
            obtain ⟨huses, -⟩ := h.uses j i hi hDi
            have := List.count_pos_iff.2 hj
            rw [List.count_cons_self] at huses
            omega
        obtain ⟨u, hu⟩ := hsp₁.instances j i' hi' hD'
        exact hk₂ j hj { i' with uses := u } hu hD'
      · have hD' : ¬ (D i'.owner ∨ g.Below i'.owner i.owner) := fun hD' => (hvacant _ hD' hD).instances j i' hj rfl
        exact (hn₂ j i' hj hD').trans (hsp₁.data _ hD')

end Graph

end Dataflow
