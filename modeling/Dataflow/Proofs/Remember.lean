import Dataflow.Proofs.Build

/-!
# Remembering an instance

The instance that was built is remembered under the id that was drawn for it: its cells have one user more, its owner registers it
under its key, and it uses what was acquired for it. From then on it is live, and faithful.
-/

namespace Dataflow

namespace Graph

variable {R : Substitution → Prop} {hands : List InstanceId} {busy : List ProcessId} {g g' g₀ : Graph} {n : NodeId}
  {s : Substitution}


/-- The graph in which an instance is live and its cells are in use. -/
def enlist (g : Graph) (id : InstanceId) (i : Instance) : Graph := (g.markUsed i.owner i.substitution).remember id i

section Enlist

variable (g) (id : InstanceId) (i : Instance)

theorem wiring?_enlist (m : NodeId) :
    (g.enlist id i).wiring? m = if m = i.owner then (g.wiring? m).map fun w =>
      { w with
        input := w.input.markUsed i.substitution
        extended := w.extended.markUsed i.substitution
        output := w.output.markUsed i.substitution
        instances := w.instances.insert i.key id } else g.wiring? m := by
  refine (wiring?_modifyWiring ..).trans ?_
  change (if m = i.owner then ((g.markUsed i.owner i.substitution).wiring? m).map _ else (g.markUsed i.owner i.substitution).wiring? m) = _
  rw [markUsed, wiring?_modifyWiring]
  by_cases hm : m = i.owner
  · rw [if_pos hm, if_pos hm, if_pos hm, Option.map_map]
    rfl
  · rw [if_neg hm, if_neg hm, if_neg hm]

theorem instances_enlist (j : InstanceId) : (g.enlist id i).instances[j]? = if j = id then some i else g.instances[j]? :=
  Table.get_insert ..

theorem map_enlist {m : NodeId} {w : Wiring} (hw : g.wiring? m = some w) :
    ∃ w', (g.enlist id i).wiring? m = some w' ∧ w.Grows w' ∧
      ∀ port, w'.map port = if m = i.owner then (w.map port).markUsed i.substitution else w.map port := by
  rw [wiring?_enlist, hw]
  by_cases hm : m = i.owner
  · rw [if_pos hm]
    refine ⟨_, rfl, ⟨fun port => by cases port <;> rfl, fun h => h, fun _ => ?_, fun _ => rfl, fun _ _ _ h => h⟩, fun port => ?_⟩
    · simp only [Wiring.tables, ChannelMap.table_markUsed]
    · rw [if_pos hm]
      cases port <;> rfl
  · rw [if_neg hm]
    exact ⟨w, rfl, .refl w, fun port => (if_neg hm).symm⟩

theorem wiring?_enlist_eq_none {m : NodeId} (hw : g.wiring? m = none) : (g.enlist id i).wiring? m = none := by
  rw [wiring?_enlist, hw]
  split <;> rfl

theorem table_enlist (m : NodeId) (port : Port) : (g.enlist id i).table m port = g.table m port := by
  rcases hw : g.wiring? m with _ | w
  · rw [table, wiring?_enlist_eq_none g id i hw, table, hw]
  · obtain ⟨w', hw', -, hmap⟩ := map_enlist g id i hw
    rw [table_of_wiring? hw', table_of_wiring? hw, hmap]
    split
    · exact ChannelMap.table_markUsed ..
    · rfl

theorem keyAt_enlist (m : NodeId) (port : Port) (x : String) (s : Substitution) :
    (g.enlist id i).keyAt m port x s = g.keyAt m port x s := by
  rw [keyAt, paramsAt, table_enlist, keyAt, paramsAt]

/-- The cells of the instance have one user more. -/
theorem cell?_enlist (m : NodeId) (port : Port) (x k : String) :
    (g.enlist id i).cell? m port x k = if m = i.owner ∧ k = g.keyAt m port x i.substitution
      then (g.cell? m port x k).map fun c => { c with uses := c.uses + 1 } else g.cell? m port x k := by
  rcases hw : g.wiring? m with _ | w
  · rw [cell?, wiring?_enlist_eq_none g id i hw, cell?, hw]
    split <;> rfl
  · obtain ⟨w', hw', -, hmap⟩ := map_enlist g id i hw
    rw [cell?_of_wiring? hw', cell?_of_wiring? hw, hmap, keyAt_of_wiring? hw]
    by_cases hm : m = i.owner
    · rw [if_pos hm, ChannelMap.at?_markUsed]
      by_cases hk : k = (w.map port).keyOf x i.substitution
      · rw [if_pos hk, if_pos ⟨hm, hk⟩]
      · rw [if_neg hk, if_neg fun h => hk h.2]
    · rw [if_neg hm, if_neg fun h => hm h.1]

/-- A cell keeps its channel. -/
theorem cell?_of_enlist {m : NodeId} {port : Port} {x k : String} {c : Cell} (hc : (g.enlist id i).cell? m port x k = some c) :
    ∃ u, g.cell? m port x k = some { c with uses := u } := by
  rw [cell?_enlist] at hc
  split at hc
  · obtain ⟨c', hc', rfl⟩ := Option.map_eq_some_iff.1 hc
    exact ⟨c'.uses, hc'⟩
  · exact ⟨c.uses, hc⟩

theorem chan_enlist (m : NodeId) (port : Port) (x : String) (s : Substitution) :
    (g.enlist id i).chan m port x s = g.chan m port x s := by
  rw [chan, keyAt_enlist, cell?_enlist, chan]
  split
  · rcases g.cell? m port x (g.keyAt m port x s) with _ | c <;> rfl
  · rfl

theorem node?_enlist {m : NodeId} (hm : m ≠ i.owner) : (g.enlist id i).node? m = g.node? m := by
  refine (node?_modifyData ..).trans ?_
  rw [if_neg hm]
  exact (node?_modifyData ..).trans (if_neg hm)

variable {g id i}

theorem recached_markUsed (g : Graph) (n : NodeId) (s : Substitution) : g.Recached (g.markUsed n s) := by
  refine ⟨⟨_, g.store, g.journal, rfl⟩, (rewired_modifyWiring g n _).mono ?_⟩
  rintro m w w' ⟨-, rfl⟩
  refine ⟨rfl, ?_, rfl, fun port => by cases port <;> rfl, rfl, rfl⟩
  simp only [Wiring.tables, ChannelMap.table_markUsed]

theorem relisted_remember (g : Graph) (id : InstanceId) (i : Instance) : g.Relisted (g.remember id i) := by
  have h := rewired_modifyWiring { g with instances := g.instances.insert id i } i.owner
    fun w => { w with instances := w.instances.insert i.key id }
  have h' : Rewired (fun m w w' => m = i.owner ∧ w' = { w with instances := w.instances.insert i.key id }) g (g.remember id i) :=
    ⟨h.size, h.next, h.node⟩
  exact ⟨rfl, h'.mono fun m w w' ⟨_, he⟩ => ⟨_, w.processes, he⟩⟩

theorem wired_enlist (hw : g.Wired) : (g.enlist id i).Wired :=
  (relisted_remember _ id i).wired ((recached_markUsed g i.owner i.substitution).wired hw)

theorem extends_enlist (hid : g.instances[id]? = none) : g.Extends (g.enlist id i) := by
  have h1 := (recached_markUsed g i.owner i.substitution).rewired.mono fun _ _ _ h => Wiring.Same.grows h
  have h2 := rewired_modifyWiring { g.markUsed i.owner i.substitution with instances := g.instances.insert id i } i.owner
    fun w => { w with instances := w.instances.insert i.key id }
  have h2 : Rewired (fun m w w' => m = i.owner ∧ w' = { w with instances := w.instances.insert i.key id })
      (g.markUsed i.owner i.substitution) (g.enlist id i) := ⟨h2.size, h2.next, h2.node⟩
  have h2 : Rewired (fun _ => Wiring.Grows) (g.markUsed i.owner i.substitution) (g.enlist id i) := by
    refine h2.mono ?_
    rintro m w w' ⟨-, rfl⟩
    exact ⟨fun port => by cases port <;> rfl, fun h => h, fun _ => rfl, fun _ => rfl, fun _ _ _ h => h⟩
  have hrew := h1.trans h2 (fun _ _ _ h => h) (fun _ _ _ h => h) fun _ _ _ _ h h' => h.trans h'
  refine ⟨rfl, hrew, fun j i' hj => ⟨i'.uses, ?_⟩, fun _ p hp => ⟨p.uses, hp⟩, fun j p hp => .inl ?_,
    fun j i' _ port x => chan_enlist .., rfl, Nat.le_refl _, fun _ _ h => h, fun _ _ _ h => h, fun _ _ _ h => h⟩
  · rw [instances_enlist, if_neg]
    · exact hj
    · rintro rfl
      rw [hid] at hj
      cases hj
  · change g.processes[j]? = _ at hp
    rw [hp]
    rfl

end Enlist

/-! ## Counting one instance more -/

theorem mem_right_of_forall₂ {α β : Type} {P : α → β → Prop} {l : List α} {l' : List β} (h : List.Forall₂ P l l') {b : β}
    (hb : b ∈ l') : ∃ a ∈ l, P a b := by
  induction h with
  | nil => exact absurd hb List.not_mem_nil
  | cons hp _ ih =>
    rcases List.mem_cons.1 hb with rfl | hb
    · exact ⟨_, List.mem_cons_self .., hp⟩
    · obtain ⟨a, ha, hpa⟩ := ih hb
      exact ⟨a, List.mem_cons_of_mem _ ha, hpa⟩

theorem Serves.isSome {m : NodeId} {t : Substitution} {j : InstanceId} (h : g.Serves m t j) : (g.instances[j]?).isSome := by
  obtain ⟨i, hi, -⟩ := h
  rw [hi]
  rfl

/-- What a live instance uses is live. -/
theorem Sound.used_live (hs : g.Sound R hands busy) {id j : InstanceId} {i : Instance} (hi : g.instances[id]? = some i)
    (hj : j ∈ usedBy i) : (g.instances[j]?).isSome := by
  have hf := (hs.faithful id i hi).1
  obtain ⟨d, hd⟩ := hf.inSync.exists_design
  rcases List.mem_append.1 hj with hj | hj
  · have hp := hf.proto d hd
    rcases hq : d.proto with _ | q <;> rw [hq] at hp
    · rw [hp] at hj
      cases hj
    · obtain ⟨j', hj', hserv⟩ := hp
      rw [hj', Option.toList_some, List.mem_singleton] at hj
      rw [hj]
      exact hserv.isSome
  · obtain ⟨r, -, hserv⟩ := mem_right_of_forall₂ (hf.children d hd) hj
    exact hserv.isSome

section Count

variable {id : InstanceId} {i : Instance} (hid : g.instances[id]? = none)

include hid

theorem sharers_enlist (m : NodeId) (port : Port) (x k : String) :
    (g.enlist id i).sharers m port x k =
      (if i.owner = m ∧ g.keyAt m port x i.substitution = k then 1 else 0) + g.sharers m port x k := by
  rw [sharers, sharers]
  simp only [keyAt_enlist]
  exact Table.tally_insert_new _ _ hid

theorem useCount_enlist (j : InstanceId) : (g.enlist id i).useCount j = (usedBy i).count j + g.useCount j :=
  Table.tally_insert_new _ _ hid

theorem runCount_enlist (p : ProcessId) :
    (g.enlist id i).runCount p = (if i.process = some p then 1 else 0) + g.runCount p := Table.tally_insert_new _ _ hid

end Count

/-- Cells stay in order when an instance is enlisted that has them all. -/
theorem stocked_enlist {id : InstanceId} {i : Instance} (hst : g.Stocked)
    (hid : g.instances[id]? = none) : (g.enlist id i).Stocked := by
  have hext := extends_enlist (i := i) hid
  refine ⟨fun m port x k c hc => ?_, fun m port x k c hc => ?_, fun m port x k c x' k' c' ch l o hc hc' hch hch' ho hw => ?_,
    fun m port x k hm => ?_⟩
  · rw [sharers_enlist hid]
    rw [cell?_enlist] at hc
    by_cases h : m = i.owner ∧ k = g.keyAt m port x i.substitution
    · rw [if_pos h] at hc
      obtain ⟨c', hc', rfl⟩ := Option.map_eq_some_iff.1 hc
      rw [if_pos ⟨h.1.symm, h.2.symm⟩, ← hst.uses m port x k c' hc', Nat.add_comm]
    · rw [if_neg h] at hc
      rw [if_neg fun h' => h ⟨h'.1.symm, h'.2.symm⟩, Nat.zero_add]
      exact hst.uses m port x k c hc
  · obtain ⟨u, hu⟩ := cell?_of_enlist _ _ _ hc
    obtain ⟨ch, hch, hlt⟩ := hst.channel m port x k _ hu
    exact ⟨ch, hch, hlt⟩
  · obtain ⟨u, hu⟩ := cell?_of_enlist _ _ _ hc
    obtain ⟨u', hu'⟩ := cell?_of_enlist _ _ _ hc'
    rw [hext.mapId] at ho
    exact hst.sole m port x k _ x' k' _ ch l o hu hu' hch hch' ho hw
  · rcases hc : (g.enlist id i).cell? m port x k with _ | c
    · rfl
    · obtain ⟨u, hu⟩ := cell?_of_enlist _ _ _ hc
      rw [hst.blank m port x k fun h => hm (hext.inSync h)] at hu
      cases hu

/-- The instance that was built, with all that was acquired for it. -/
def assembled (n : NodeId) (s : Substitution) (js : List InstanceId) (p : Option ProcessId) (o : Option InstanceId) : Instance :=
  { owner := n, key := s.fullKey, substitution := s, process := p, children := js, proto := o }

section Assembled

variable {js : List InstanceId} {p : Option ProcessId} {o : Option InstanceId} {id : InstanceId}

/-- An instance that was built is faithful once it is enlisted. -/
theorem Completed.faithfulAt (h : Completed R hands busy g₀ n s js p o g) (here : Site R g n s)
    (hid : g.instances[id]? = none) (hw' : (g.enlist id (assembled n s js p o)).Wired) :
    (g.enlist id (assembled n s js p o)).FaithfulAt (assembled n s js p o) := by
  have hs := h.building.sound
  have hext := extends_enlist (i := assembled n s js p o) hid
  have hn := here.inSync
  have hchan : ∀ port x, (g.enlist id (assembled n s js p o)).chan n port x s = g.chan n port x s := fun port x => chan_enlist ..
  have hderived : (g.enlist id (assembled n s js p o)).derived n s = g.derived n s := Extends.derived (hchan .extended)
  have hrun := h.running.of_extends hn hext (h.filled .input).built (hchan .input) (fun _ _ h => h) fun _ _ h => h
  refine ⟨hext.inSync hn, rfl, fun x c hx => ⟨?_, ?_⟩, h.inflowing.of_extends hs hext, fun d hd => ?_, hrun.process, hrun.runs,
    fun port => ?_⟩
  · change x ∈ (g.enlist id (assembled n s js p o)).params n
    rw [hext.params hn]
    exact here.bound x c hx
  · obtain ⟨o', l, hw, -⟩ := (here.foreign c ⟨x, hx⟩).1
    exact Store.lt_next_of_wire? hw
  · rw [hext.sameDesign.design] at hd
    have ht := (h.templated d hd).of_extends hs hext hderived
    rw [Templated] at ht
    rcases hq : d.proto with _ | q <;> rw [hq] at ht
    · exact ht
    · exact ht
  · refine hext.built (h.filled port).built (fun x => ?_) (hchan port) (fun _ _ _ _ h => h) fun _ _ _ _ h => h
    obtain ⟨d, hd⟩ := hn.exists_design
    cases port with
    | input => exact h.inflowing.feeds_input hn hs hext hw' x
    | extended => exact h.running.feeds_extended hn hs hext (hchan .input) x
    | output =>
      refine hext.feeds_output hd hs.wired hw' (hchan .extended) (fun q hq => ?_) x
      have ht := h.templated d hd
      rw [Templated, hq] at ht
      obtain ⟨j, -, hj⟩ := ht
      exact ⟨hs.inSync_of_serves hj, j, hj⟩

/-- A graph with the instance that was built is sound. -/
theorem Completed.sound (h : Completed R (o.toList ++ hands) busy g₀ n s js p o g) (here : Site R g n s)
    (hid : g.instances[id]? = none) (hlast : id ≤ g.lastId)
    (hmemo : ∀ w, g.wiring? n = some w → w.instances[s.fullKey]? = none) :
    (g.enlist id (assembled n s js p o)).Sound R (id :: hands) busy := by
  have hs := h.building.sound
  have hw' := @wired_enlist _ id (assembled n s js p o) hs.wired
  have hnew := h.faithfulAt here hid hw'
  have hext := extends_enlist (i := assembled n s js p o) hid
  have hget := instances_enlist g id (assembled n s js p o)
  have hrew := (recached_markUsed g n s).rewired.authored hs.authored
  have hrew := (relisted_remember (g.markUsed n s) id (assembled n s js p o)).rewired.authored hrew
  have hne : ∀ (j : InstanceId) (i' : Instance), g.instances[j]? = some i' → j ≠ id := by
    rintro j i' hj rfl
    rw [hid] at hj
    cases hj
  have hlive : ∀ j ∈ js ++ (o.toList ++ hands), (g.instances[j]?).isSome := hs.counted.hands
  have hnot : ∀ l : List InstanceId, (∀ j ∈ l, (g.instances[j]?).isSome) → l.count id = 0 := by
    intro l hl
    refine List.count_eq_zero_of_not_mem fun hm => ?_
    have := hl id hm
    rw [hid] at this
    cases this
  have hmemo' : ∀ m w k j, g.wiring? m = some w → (m = n → k ≠ s.fullKey) →
      (w.instances[k]? = some j ↔ ∃ i' : Instance, (g.enlist id (assembled n s js p o)).instances[j]? = some i' ∧ i'.owner = m ∧
        i'.key = k) := by
    intro m w k j hw hk
    rw [hs.registered.memo m w k j hw]
    constructor
    · rintro ⟨i', hi', h'⟩
      exact ⟨i', by rw [hget, if_neg (hne j i' hi')]; exact hi', h'⟩
    · rintro ⟨i', hi', ho', hk'⟩
      rw [hget] at hi'
      split at hi'
      · cases hi'
        exact absurd hk'.symm (hk ho'.symm)
      · exact ⟨i', hi', ho', hk'⟩
  refine ⟨hrew, hw', fun m l e hl hle => hext.leaves hs hl hle, ⟨fun m port q hq => ?_, fun m port m' port' q hq hq' => ?_⟩,
    ⟨fun j i' hj => ?_, hs.registered.processId, fun m w k j hw => ?_, fun m w k j hw => ?_⟩, fun j i' hj => ?_,
    fun j q hq => hext.processAt hs hq q.uses, ⟨fun j i' hj => ?_, fun j hj => ?_, fun j q hq => ?_, fun j hj => ?_⟩,
    stocked_enlist hs.stocked hid, hs.mirrored⟩
  · rw [hext.mapId] at hq
    exact hs.anchored.bounded m port q hq
  · rw [hext.mapId] at hq hq'
    exact hs.anchored.injective m port m' port' q hq hq'
  · rw [hget] at hj
    split at hj
    · rename_i he
      rw [he]
      exact hlast
    · exact hs.registered.instanceId j i' hj
  · rw [wiring?_enlist] at hw
    by_cases hm : m = n
    · rw [if_pos (show m = (assembled n s js p o).owner from hm)] at hw
      obtain ⟨w', hw', rfl⟩ := Option.map_eq_some_iff.1 hw
      change (w'.instances.insert s.fullKey id)[k]? = some j ↔ _
      rw [Table.get_insert]
      by_cases hk : k = s.fullKey
      · rw [if_pos hk]
        constructor
        · rintro ⟨⟩
          exact ⟨_, (hget id).trans (if_pos rfl), hm.symm, hk.symm⟩
        · rintro ⟨i', hi', ho', hk'⟩
          rw [hget] at hi'
          split at hi'
          · rename_i he
            rw [he]
          · -- no live instance had the key
            have := (hs.registered.memo m w' k j hw').2 ⟨i', hi', ho', hk'⟩
            rw [hk, hmemo w' (hm ▸ hw')] at this
            cases this
      · rw [if_neg hk]
        exact hmemo' m w' k j hw' fun _ => hk
    · rw [if_neg (show ¬ m = (assembled n s js p o).owner from hm)] at hw
      exact hmemo' m w k j hw fun h' => absurd h' hm
  · rw [wiring?_enlist] at hw
    split at hw
    · obtain ⟨w', hw', rfl⟩ := Option.map_eq_some_iff.1 hw
      exact hs.registered.processMemo m w' k j hw'
    · exact hs.registered.processMemo m w k j hw
  · rw [hget] at hj
    split at hj
    · cases hj
      exact ⟨hnew, here.regime⟩
    · exact ⟨hext.faithfulAt hs hw' hj i'.uses, (hs.faithful j i' hj).2⟩
  · rw [useCount_enlist hid]
    have hused : (usedBy (assembled n s js p o)) = o.toList ++ js := rfl
    rw [hget] at hj
    split at hj
    · -- nobody uses the new instance but who acquired it
      rename_i he
      cases hj
      subst he
      have hzero : g.useCount j = 0 := by
        rw [useCount, Table.tally_eq_zero]
        exact fun k i' hi' => hnot _ fun j' hj' => hs.used_live hi' hj'
      rw [hused, hzero, hnot _ fun a ha => hlive a ?_, List.count_cons_self, hnot _ fun a ha => hlive a ?_]
      · exact ⟨rfl, Nat.one_pos⟩
      · exact List.mem_append_right _ (List.mem_append_right _ ha)
      · rcases List.mem_append.1 ha with ha | ha
        · exact List.mem_append_right _ (List.mem_append_left _ ha)
        · exact List.mem_append_left _ ha
    · rename_i he
      obtain ⟨hu, hpos⟩ := hs.counted.uses j i' hj
      refine ⟨?_, hpos⟩
      rw [hu, hused, List.count_append, List.count_append, List.count_append, List.count_cons_of_ne (Ne.symm he)]
      omega
  · rw [hget]
    rcases List.mem_cons.1 hj with rfl | hj
    · rw [if_pos rfl]
      rfl
    · have hl := hlive j (List.mem_append_right _ (List.mem_append_right _ hj))
      obtain ⟨i', hi'⟩ := Option.isSome_iff_exists.1 hl
      rw [if_neg (hne j i' hi')]
      exact hl
  · obtain ⟨hu, hpos⟩ := hs.counted.runs j q hq
    refine ⟨?_, hpos⟩
    rw [runCount_enlist hid, hu, List.count_append]
    change _ = (if p = some j then 1 else 0) + _ + _
    rcases p with _ | pid
    · simp
    · by_cases hpj : pid = j
      · subst hpj
        rw [if_pos rfl, Option.toList_some, List.count_singleton_self]
        omega
      · rw [if_neg (by simpa using hpj), Option.toList_some, List.count_singleton, if_neg (by simpa using hpj)]
        omega
  · exact hs.counted.busy j (List.mem_append_right _ hj)

end Assembled

end Graph

end Dataflow
