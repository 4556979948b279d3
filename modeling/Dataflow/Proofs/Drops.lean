import Dataflow.Proofs.Teardown

/-!
# What taking down derived objects takes away

Releasing an instance only takes away: instances, processes, channels, entries and cells go, and what stays is as it was but for how
often it is used. Every step of a release is told by that, and so is the whole of it.
-/

namespace Dataflow

/-- The wiring has lost cells, and has forgotten instances and processes; it may have been put out of sync. -/
structure Wiring.Clears (w w' : Wiring) : Prop where
  stale : w.outOfSync = true → w'.outOfSync = true
  ids : ∀ port, (w'.map port).id = (w.map port).id
  cells : ∀ port x k, (w.map port).at? x k = none → (w'.map port).at? x k = none
  instances : w.Forgets w'
  processes : ∀ (k : String) (id : ProcessId), w'.processes[k]? = some id → w.processes[k]? = some id

/-- The wiring has lost cells, and has forgotten instances and processes; its tables are as they were. -/
structure Wiring.Sheds (w w' : Wiring) : Prop where
  outOfSync : w'.outOfSync = w.outOfSync
  tables : w'.tables = w.tables
  params : w'.params = w.params
  ids : ∀ port, (w'.map port).id = (w.map port).id
  cells : ∀ port x k, (w.map port).at? x k = none → (w'.map port).at? x k = none
  instances : w.Forgets w'
  processes : ∀ (k : String) (id : ProcessId), w'.processes[k]? = some id → w.processes[k]? = some id

namespace Wiring

theorem Sheds.refl (w : Wiring) : w.Sheds w := ⟨rfl, rfl, rfl, fun _ => rfl, fun _ _ _ h => h, fun _ _ h => h, fun _ _ h => h⟩

theorem chains_sheds : Chains Sheds where
  refl := .refl
  trans _ _ _ h h' := ⟨h'.outOfSync.trans h.outOfSync, h'.tables.trans h.tables, h'.params.trans h.params,
    fun port => (h'.ids port).trans (h.ids port), fun port x k hc => h'.cells port x k (h.cells port x k hc),
    fun k id hk => h.instances k id (h'.instances k id hk), fun k id hk => h.processes k id (h'.processes k id hk)⟩

theorem Clears.refl (w : Wiring) : w.Clears w := ⟨id, fun _ => rfl, fun _ _ _ h => h, fun _ _ h => h, fun _ _ h => h⟩

theorem chains_clears : Chains Clears where
  refl := .refl
  trans _ _ _ h h' := ⟨fun hs => h'.stale (h.stale hs), fun port => (h'.ids port).trans (h.ids port),
    fun port x k hc => h'.cells port x k (h.cells port x k hc), fun k id hk => h.instances k id (h'.instances k id hk),
    fun k id hk => h.processes k id (h'.processes k id hk)⟩

theorem Sheds.clears {w w' : Wiring} (h : w.Sheds w') : w.Clears w' :=
  ⟨fun hs => h.outOfSync.trans hs, h.ids, h.cells, h.instances, h.processes⟩

theorem tables_setMap {w : Wiring} {port : Port} {m : ChannelMap} (hm : m.table = (w.map port).table) :
    (w.setMap port m).tables = w.tables := by
  cases port <;> exact (Tables.mk.injEq .. ).mpr (by simp [setMap, map] at hm ⊢; exact hm)

theorem sheds_markUnused (w : Wiring) (s : Substitution) (port : Port) : w.Sheds (w.setMap port ((w.map port).markUnused s)) := by
  refine ⟨?_, tables_setMap ((w.map port).table_markUnused s), ?_, Graph.id_setMap w port rfl, fun q x k hc => ?_, ?_, ?_⟩
  · cases port <;> rfl
  · cases port <;> rfl
  · rw [map_setMap]
    split
    · rename_i h
      subst h
      rw [ChannelMap.at?_markUnused, hc]
      split <;> rfl
    · exact hc
  · cases port <;> exact fun _ _ h => h
  · cases port <;> exact fun _ _ h => h

theorem sheds_eraseInstance (w : Wiring) (key : String) (id : InstanceId) :
    w.Sheds (if w.instances[key]? = some id then { w with instances := w.instances.erase key } else w) := by
  split
  · refine ⟨rfl, rfl, rfl, fun port => by cases port <;> rfl, fun port x k hc => by cases port <;> exact hc, fun k id' h => ?_, fun _ _ h => h⟩
    rw [Table.get_erase] at h
    split at h
    · cases h
    · exact h
  · exact .refl w

theorem sheds_eraseProcess (w : Wiring) (key : String) (id : ProcessId) :
    w.Sheds (if w.processes[key]? = some id then { w with processes := w.processes.erase key } else w) := by
  split
  · refine ⟨rfl, rfl, rfl, fun port => by cases port <;> rfl, fun port x k hc => by cases port <;> exact hc, fun _ _ h => h, fun k id' h => ?_⟩
    rw [Table.get_erase] at h
    split at h
    · cases h
    · exact h
  · exact .refl w

end Wiring

namespace Graph

variable {D E : NodeId → Prop} {hands : List InstanceId} {g g' g'' : Graph} {n : NodeId}

/-- The change takes away instances, processes, channels and entries, and leaves what stays but for how often it is used. -/
structure Wanes (g g' : Graph) : Prop where
  lastId : g'.lastId = g.lastId
  next : g'.store.channels.next = g.store.channels.next
  tolerance : g'.store.tolerance = g.store.tolerance
  size : g'.instances.size ≤ g.instances.size
  instancesOf : ∀ (id : InstanceId) (i : Instance), g'.instances[id]? = some i → ∃ u, g.instances[id]? = some { i with uses := u }
  processesOf : ∀ (id : ProcessId) (p : Process), g'.processes[id]? = some p → ∃ u, g.processes[id]? = some { p with uses := u }
  wiresOf : ∀ c w, g'.store.wire? c = some w → g.store.wire? c = some w
  entriesOf : ∀ e x, g'.store.entryAt? e = some x → g.store.entryAt? e = some x
  mirrored : g.store.Mirrored → g'.store.Mirrored

/-- The change takes away what is derived, and forgets it in the wiring of nodes, which it may put out of sync. -/
structure Fades (g g' : Graph) : Prop extends Wanes g g' where
  rewired : Rewired (fun _ => Wiring.Clears) g g'

/-- The change takes away what is derived, and forgets it in the wiring of nodes that stay as they are otherwise. -/
structure Drops (g g' : Graph) : Prop extends Wanes g g' where
  derived : g.Derived Wiring.Sheds g'
  outlets : ∀ c o, .outlet o ∈ g.store.listenersOf c → (g'.store.wire? c).isSome → .outlet o ∈ g'.store.listenersOf c

namespace Wanes

theorem refl (g : Graph) : g.Wanes g :=
  ⟨rfl, rfl, rfl, Nat.le_refl _, fun _ i h => ⟨i.uses, h⟩, fun _ p h => ⟨p.uses, h⟩, fun _ _ h => h, fun _ _ h => h, id⟩

theorem trans (h : g.Wanes g') (h' : g'.Wanes g'') : g.Wanes g'' where
  lastId := h'.lastId.trans h.lastId
  next := h'.next.trans h.next
  tolerance := h'.tolerance.trans h.tolerance
  size := Nat.le_trans h'.size h.size
  instancesOf id i hi := by
    obtain ⟨u, hu⟩ := h'.instancesOf id i hi
    obtain ⟨v, hv⟩ := h.instancesOf id _ hu
    exact ⟨v, hv⟩
  processesOf id p hp := by
    obtain ⟨u, hu⟩ := h'.processesOf id p hp
    obtain ⟨v, hv⟩ := h.processesOf id _ hu
    exact ⟨v, hv⟩
  wiresOf c w hw := h.wiresOf c w (h'.wiresOf c w hw)
  entriesOf e x he := h.entriesOf e x (h'.entriesOf e x he)
  mirrored hm := h'.mirrored (h.mirrored hm)

/-- What is not there does not come back. -/
theorem instances_eq_none (h : g.Wanes g') {id : InstanceId} (hi : g.instances[id]? = none) : g'.instances[id]? = none := by
  rcases hi' : g'.instances[id]? with _ | i
  · rfl
  · obtain ⟨u, hu⟩ := h.instancesOf id i hi'
    rw [hi] at hu
    cases hu

theorem processes_eq_none (h : g.Wanes g') {id : ProcessId} (hp : g.processes[id]? = none) : g'.processes[id]? = none := by
  rcases hp' : g'.processes[id]? with _ | p
  · rfl
  · obtain ⟨u, hu⟩ := h.processesOf id p hp'
    rw [hp] at hu
    cases hu

end Wanes

namespace Fades

theorem refl (g : Graph) : g.Fades g := ⟨.refl g, .refl g⟩

theorem trans (h : g.Fades g') (h' : g'.Fades g'') : g.Fades g'' :=
  ⟨h.toWanes.trans h'.toWanes, h.rewired.chain Wiring.chains_clears h'.rewired⟩

section Rewired

variable (h : g.Fades g')

include h

theorem wiring {m : NodeId} {w : Wiring} (hw : g'.wiring? m = some w) : ∃ w', w'.Clears w ∧ g.wiring? m = some w' :=
  h.rewired.exists_wiring_of (fun _ w => .refl w) hw

theorem wiring_to {m : NodeId} {w : Wiring} (hw : g.wiring? m = some w) : ∃ w', w.Clears w' ∧ g'.wiring? m = some w' :=
  h.rewired.exists_wiring (fun _ w => .refl w) hw

theorem cell?_eq_none {m : NodeId} {port : Port} {x k : String} (hc : g.cell? m port x k = none) : g'.cell? m port x k = none := by
  rcases hw' : g'.wiring? m with _ | w'
  · rw [cell?, hw']
    rfl
  · obtain ⟨w, hs, hw⟩ := h.wiring hw'
    rw [cell?_of_wiring? hw] at hc
    rw [cell?_of_wiring? hw']
    exact hs.cells port x k hc

end Rewired

end Fades

theorem Drops.fades (h : g.Drops g') : g.Fades g' := ⟨h.toWanes, h.derived.rewired.mono fun _ _ _ => Wiring.Sheds.clears⟩

namespace Drops

theorem refl (g : Graph) : g.Drops g := ⟨.refl g, .refl _ g, fun _ _ h _ => h⟩

theorem trans (h : g.Drops g') (h' : g'.Drops g'') : g.Drops g'' :=
  ⟨h.toWanes.trans h'.toWanes, h.derived.trans Wiring.chains_sheds h'.derived, fun c o ho hw =>
    h'.outlets c o (h.outlets c o ho (by
      obtain ⟨w, hw'⟩ := Option.isSome_iff_exists.1 hw
      rw [h'.wiresOf c w hw']
      rfl)) hw⟩

theorem foldl {α : Type} {f : Graph → α → Graph} (hf : ∀ (g : Graph) a, g.Drops (f g a)) : ∀ (l : List α) (g : Graph), g.Drops (l.foldl f g)
  | [], g => refl g
  | a :: l, g => (hf g a).trans (foldl hf l (f g a))

section Rewired

variable (h : g.Drops g')

include h

theorem wiring {m : NodeId} {w : Wiring} (hw : g'.wiring? m = some w) : ∃ w', w'.Sheds w ∧ g.wiring? m = some w' :=
  h.derived.rewired.exists_wiring_of (fun _ w => .refl w) hw

theorem wiring_to {m : NodeId} {w : Wiring} (hw : g.wiring? m = some w) : ∃ w', w.Sheds w' ∧ g'.wiring? m = some w' :=
  h.derived.rewired.exists_wiring (fun _ w => .refl w) hw

theorem sameDesign : g.SameDesign g' := h.derived.rewired.sameDesign h.derived.registry

theorem exposed (m : NodeId) : g'.exposed m = g.exposed m := by
  rw [Graph.exposed, Graph.exposed]
  rcases hw : g.wiring? m with _ | w
  · rcases hw' : g'.wiring? m with _ | w'
    · rfl
    · obtain ⟨w, -, hw''⟩ := h.wiring hw'
      rw [hw] at hw''
      cases hw''
  · obtain ⟨w', hs, hw'⟩ := h.wiring_to hw
    rw [hw']
    exact congrArg Tables.output hs.tables

/-- A node that is wired stays so. -/
theorem wiredAt {m : NodeId} {d : DataNode} (hd : g'.data? m = some d) (hw : ∀ e, g.data? m = some e → e.wiring.outOfSync = false → g.WiredAt e)
    (hs : d.wiring.outOfSync = false) : g'.WiredAt d := by
  obtain ⟨e, he, hsh, hde⟩ := h.derived.rewired.exists_data_of (fun _ w => .refl w) hd
  have hdesign : d.design = e.design := by rw [hde]; rfl
  refine (hw e he (hsh.outOfSync.symm.trans hs)).congr h.derived.registry hdesign hsh.tables hsh.params
    (fun r _ => h.derived.rewired.leaf? r) (fun r _ => h.exposed r) fun r hr f hf => ?_
  obtain ⟨f', hf', hsh', hff⟩ := h.derived.rewired.exists_data_of (fun _ w => .refl w) hf
  rw [hsh'.outOfSync]
  exact (hw e he (hsh.outOfSync.symm.trans hs)).below r hr f' hf'

theorem cell?_eq_none {m : NodeId} {port : Port} {x k : String} (hc : g.cell? m port x k = none) : g'.cell? m port x k = none :=
  h.fades.cell?_eq_none hc

end Rewired

end Drops

/-! ## The steps of a release -/

/-- A change of the instances alone. -/
theorem drops_instances {t : IdMap Instance} (hsize : t.size ≤ g.instances.size)
    (hof : ∀ (id : InstanceId) (i : Instance), t[id]? = some i → ∃ u, g.instances[id]? = some { i with uses := u }) :
    g.Drops { g with instances := t } :=
  { Drops.refl g with
    derived := derived_instances g t
    size := hsize
    instancesOf := hof }

theorem drops_use {id : InstanceId} {i : Instance} (hi : g.instances[id]? = some i) (u : Nat) :
    g.Drops { g with instances := g.instances.insert id { i with uses := u } } := by
  refine drops_instances ?_ (spares_use (D := fun _ => False) hi u).instancesOf
  rw [Std.ExtTreeMap.size_insert, if_pos]
  exact Std.ExtTreeMap.mem_iff_isSome_getElem?.2 (by rw [hi]; rfl)

theorem drops_erase (g : Graph) (id : InstanceId) : g.Drops { g with instances := g.instances.erase id } := by
  refine drops_instances Std.ExtTreeMap.size_erase_le fun id' i' hi' => ⟨i'.uses, ?_⟩
  rw [Table.get_erase] at hi'
  split at hi'
  · cases hi'
  · exact hi'

/-- A change of the store that frees channels and entries. -/
theorem drops_store {st : Store} (hnext : st.channels.next = g.store.channels.next) (htol : st.tolerance = g.store.tolerance)
    (hwires : ∀ c w, st.wire? c = some w → g.store.wire? c = some w)
    (hentries : ∀ e x, st.entryAt? e = some x → g.store.entryAt? e = some x)
    (houtlets : ∀ c o, .outlet o ∈ g.store.listenersOf c → (st.wire? c).isSome → .outlet o ∈ st.listenersOf c)
    (hm : g.store.Mirrored → st.Mirrored) : g.Drops { g with store := st } :=
  { Drops.refl g with
    derived := .of_nodes_eq ⟨_, _, _, _, _, rfl⟩ (Nat.le_refl _)
    next := hnext
    tolerance := htol
    wiresOf := hwires
    entriesOf := hentries
    outlets := houtlets
    mirrored := hm }

theorem drops_releaseAll (g : Graph) (m : MapId) (cs : List ChannelId) : g.Drops { g with store := g.store.releaseAll m cs } := by
  obtain ⟨-, h₂, -, h₄⟩ := g.store.releaseAll_fields m cs
  have hof : ∀ c w, (g.store.releaseAll m cs).wire? c = some w →
      g.store.wire? c = some w ∧ (g.store.releaseAll m cs).channel? c = g.store.channel? c := by
    intro c w hw
    rw [Store.channel?_releaseAll]
    rw [Store.wire?_releaseAll] at hw
    split at hw
    · cases hw
    · exact ⟨hw, if_neg ‹_›⟩
  refine drops_store h₄ h₂ (fun c w hw => (hof c w hw).1) (fun e x he => by rw [Store.entryAt?_releaseAll] at he; exact he)
    (fun c o ho hw => ?_) fun hm => Store.mirrored_releaseAll hm m cs
  obtain ⟨w, hw⟩ := Option.isSome_iff_exists.1 hw
  rw [Store.listenersOf, (hof c w hw).2]
  exact ho

/-- A change of the wiring of a node that gives up cells and memos. -/
theorem drops_modifyWiring (g : Graph) (n : NodeId) {f : Wiring → Wiring} (hf : ∀ w : Wiring, w.Sheds (f w)) : g.Drops (g.modifyWiring n f) :=
  { Drops.refl g with derived := .of_modifyWiring g n hf }

theorem drops_markUnused (g : Graph) (n : NodeId) (s : Substitution) (port : Port) : g.Drops (g.markUnused n s port) := by
  rcases hw : g.wiring? n with _ | w
  · rw [markUnused]
    simp only [hw]
    exact .refl g
  · rw [markUnused_eq hw]
    exact (drops_releaseAll g _ _).trans (drops_modifyWiring _ n fun w => w.sheds_markUnused s port)

theorem drops_destroyProcess (g : Graph) (id : ProcessId) : g.Drops (g.destroyProcess id) := by
  rcases hp : g.processes[id]? with _ | p
  · rw [destroyProcess]
    simp only [hp]
    exact .refl g
  rw [destroyProcess_eq hp]
  obtain ⟨h₁, h₂, -, h₃⟩ := g.store.unlistenAll_fields (.process id) p.inputs
  obtain ⟨h₁', -, h₂', -⟩ := (g.store.unlistenAll (.process id) p.inputs).freeAll_fields (p.outputs.map (·.2))
  have hstore : g.Drops { g with store := g.store.dropProcess id p } := by
    refine drops_store (by rw [Store.dropProcess, h₁', h₂]) (h₂'.trans h₃) (fun c w hw => ?_) (fun e x he => ?_) (fun c o ho _ => ?_)
      fun hm => Store.mirrored_dropProcess hm id p
    · rw [Store.dropProcess, Store.wire?_of_channels_eq h₁', Store.wire?_unlistenAll] at hw
      exact hw
    · rw [Store.dropProcess, Store.entryAt?_freeAll, Store.entryAt?_of_entries_eq h₁] at he
      split at he
      · cases he
      · exact he
    · rw [Store.dropProcess, Store.listenersOf_of_channels_eq h₁', Store.mem_listenersOf_unlistenAll]
      exact ⟨ho, fun _ he => by cases he⟩
  have herase : Drops { g with store := g.store.dropProcess id p }
      { g with processes := g.processes.erase id, store := g.store.dropProcess id p } :=
    { Drops.refl { g with store := g.store.dropProcess id p } with
      derived := .of_nodes_eq ⟨_, _, _, _, _, rfl⟩ (Nat.le_refl _)
      processesOf := fun j q hq => by
        have hq : (g.processes.erase id)[j]? = some q := hq
        rw [Table.get_erase] at hq
        split at hq
        · cases hq
        · exact ⟨q.uses, hq⟩ }
  exact (hstore.trans herase).trans (drops_modifyWiring _ _ fun w => w.sheds_eraseProcess p.key id)

theorem drops_giveBack (g : Graph) (o : Option ProcessId) : g.Drops (g.giveBack o) := by
  rcases o with _ | id
  · exact .refl g
  rcases hp : g.processes[id]? with _ | p
  · simp only [giveBack, releaseProcess, hp]
    exact .refl g
  simp only [giveBack, releaseProcess, hp]
  split
  · exact drops_destroyProcess g id
  · have hof : ∀ (j : ProcessId) (q : Process), (g.processes.insert id { p with uses := p.uses - 1 })[j]? = some q →
        ∃ u, g.processes[j]? = some { q with uses := u } := by
      intro j q hq
      rw [Table.get_insert] at hq
      split at hq
      · rename_i h
        cases hq
        exact ⟨p.uses, h ▸ hp⟩
      · exact ⟨q.uses, hq⟩
    exact
      { Drops.refl g with
        derived := .of_nodes_eq ⟨_, _, _, _, _, rfl⟩ (Nat.le_refl _)
        processesOf := hof }

theorem instances_dismantle (g : Graph) (id : InstanceId) (i : Instance) : (g.dismantle id i).instances = g.instances.erase id := by
  show ((markUnused (markUnused (markUnused { g with instances := g.instances.erase id } _ _ .output) _ _ .extended) _ _ .input)).instances = _
  rw [(derives_markUnused ..).instances, (derives_markUnused ..).instances, (derives_markUnused ..).instances]

theorem drops_dismantle (g : Graph) (id : InstanceId) (i : Instance) : g.Drops (g.dismantle id i) :=
  (((drops_erase g id).trans (drops_markUnused _ _ _ .output)).trans ((drops_markUnused _ _ _ .extended).trans
    (drops_markUnused _ _ _ .input))).trans (drops_modifyWiring _ _ fun w => w.sheds_eraseInstance i.key id)

theorem drops_check (g : Graph) (i : Invariant) (b : Bool) (t : String) : g.Drops (g.check i b t) :=
  { Drops.refl g with
    derived := .of_nodes_eq ⟨_, _, _, _, _, rfl⟩ (Nat.le_refl _) }

/-- What holds of every step of a release, and of one after another, holds of releases. -/
theorem rel_releaseWithin {Q : Graph → Graph → Prop} (hrefl : ∀ g, Q g g) (htrans : ∀ g g' g'', Q g g' → Q g' g'' → Q g g'')
    (huse : ∀ (g : Graph) (id : InstanceId) (i : Instance) u, g.instances[id]? = some i →
      Q g { g with instances := g.instances.insert id { i with uses := u } })
    (hdismantle : ∀ (g : Graph) (id : InstanceId) (i : Instance), g.instances[id]? = some i → Q g (g.dismantle id i))
    (hback : ∀ (g : Graph) o, Q g (g.giveBack o)) (hcheck : ∀ (g : Graph) i b t, Q g (g.check i b t)) :
    ∀ (k : Nat) (g : Graph) (id : InstanceId), Q g (releaseWithin k g id)
  | 0, g, _ => hrefl g
  | k + 1, g, id => by
    rcases hi : g.instances[id]? with _ | i
    · rw [releaseWithin_none hi]
      exact hrefl g
    · by_cases hu : 1 < i.uses
      · rw [releaseWithin_used hi hu]
        exact huse g id i _ hi
      · have hb := releaseWithin_last (k := k) hi hu
        have hfold : ∀ (l : List InstanceId) (g : Graph), Q g (l.foldl (releaseWithin k) g) := by
          intro l
          induction l with
          | nil => exact hrefl
          | cons j l ih =>
            exact fun g => htrans _ _ _ (rel_releaseWithin hrefl htrans huse hdismantle hback hcheck k g j) (ih _)
        rw [hb]
        exact htrans _ _ _ (htrans _ _ _ (htrans _ _ _ (hdismantle g id i hi) (hback _ _)) (hfold _ _)) (hcheck ..)

theorem drops_releaseWithin (k : Nat) (g : Graph) (id : InstanceId) : g.Drops (releaseWithin k g id) :=
  rel_releaseWithin .refl (fun _ _ _ => .trans) (fun _ _ _ u hi => drops_use hi u) (fun g id i _ => drops_dismantle g id i)
    drops_giveBack drops_check k g id

/-! ## Memos -/

/-- What nodes remember is theirs, and the nodes outside `E` remember their live instances and processes. -/
structure Listed (E : NodeId → Prop) (g : Graph) : Prop where
  instances : ∀ (id : InstanceId) (i : Instance), g.instances[id]? = some i → ¬ E i.owner →
    ∃ w, g.wiring? i.owner = some w ∧ w.instances[i.key]? = some id
  processes : ∀ (id : ProcessId) (p : Process), g.processes[id]? = some p → ¬ E p.owner →
    ∃ w, g.wiring? p.owner = some w ∧ w.processes[p.key]? = some id
  instanceOwner : ∀ n w (k : String) (id : InstanceId) (i : Instance), g.wiring? n = some w → w.instances[k]? = some id →
    g.instances[id]? = some i → i.owner = n
  processOwner : ∀ n w (k : String) (id : ProcessId) (p : Process), g.wiring? n = some w → w.processes[k]? = some id →
    g.processes[id]? = some p → p.owner = n

namespace Listed

/-- What takes away keeps the memos right, if the nodes remember what stays. -/
theorem of_fades (h : g.Listed E) (hd : g.Fades g')
    (hi : ∀ (id : InstanceId) (i : Instance) w w', g'.instances[id]? = some i → g.wiring? i.owner = some w →
      g'.wiring? i.owner = some w' → w.instances[i.key]? = some id → w'.instances[i.key]? = some id)
    (hp : ∀ (id : ProcessId) (p : Process) w w', g'.processes[id]? = some p → g.wiring? p.owner = some w →
      g'.wiring? p.owner = some w' → w.processes[p.key]? = some id → w'.processes[p.key]? = some id) : g'.Listed E := by
  refine ⟨fun id i hid hE => ?_, fun id p hid hE => ?_, fun n w k id i hw hk hid => ?_, fun n w k id p hw hk hid => ?_⟩
  · obtain ⟨u, hu⟩ := hd.instancesOf id i hid
    obtain ⟨w, hw, hk⟩ := h.instances id { i with uses := u } hu hE
    obtain ⟨w', -, hw'⟩ := hd.wiring_to hw
    exact ⟨w', hw', hi id i w w' hid hw hw' hk⟩
  · obtain ⟨u, hu⟩ := hd.processesOf id p hid
    obtain ⟨w, hw, hk⟩ := h.processes id { p with uses := u } hu hE
    obtain ⟨w', -, hw'⟩ := hd.wiring_to hw
    exact ⟨w', hw', hp id p w w' hid hw hw' hk⟩
  · obtain ⟨u, hu⟩ := hd.instancesOf id i hid
    obtain ⟨w', hs, hw'⟩ := hd.wiring hw
    exact h.instanceOwner n w' k id { i with uses := u } hw' (hs.instances k id hk) hu
  · obtain ⟨u, hu⟩ := hd.processesOf id p hid
    obtain ⟨w', hs, hw'⟩ := hd.wiring hw
    exact h.processOwner n w' k id { p with uses := u } hw' (hs.processes k id hk) hu

/-- A change that keeps what nodes remember. -/
theorem of_same (h : g.Listed E) (hd : g.Fades g')
    (hw : ∀ m w w', g.wiring? m = some w → g'.wiring? m = some w' → w'.instances = w.instances ∧ w'.processes = w.processes) :
    g'.Listed E :=
  h.of_fades hd (fun _ _ w w' _ h₁ h₂ hk => by rw [(hw _ w w' h₁ h₂).1]; exact hk)
    fun _ _ w w' _ h₁ h₂ hk => by rw [(hw _ w w' h₁ h₂).2]; exact hk

end Listed

theorem listed_markUnused (h : g.Listed E) (n : NodeId) (s : Substitution) (port : Port) : (g.markUnused n s port).Listed E := by
  refine h.of_same (drops_markUnused g n s port).fades fun m w w' hw hw' => ?_
  rw [markUnused] at hw'
  split at hw'
  · rw [hw] at hw'
    cases hw'
    exact ⟨rfl, rfl⟩
  · rw [wiring?_modifyWiring] at hw'
    have hw'' : (if m = n then (g.wiring? m).map _ else g.wiring? m) = some w' := hw'
    rw [hw] at hw''
    split at hw''
    · cases hw''
      cases port <;> exact ⟨rfl, rfl⟩
    · cases hw''
      exact ⟨rfl, rfl⟩

theorem listed_destroyProcess (h : g.Listed E) (id : ProcessId) : (g.destroyProcess id).Listed E := by
  rcases hp : g.processes[id]? with _ | p
  · rw [destroyProcess]
    simp only [hp]
    exact h
  refine h.of_fades (drops_destroyProcess g id).fades (fun j i w w' hj hw hw' hk => ?_) fun j q w w' hj hw hw' hk => ?_
  · rw [destroyProcess_eq hp, wiring?_modifyWiring] at hw'
    have hw'' : (if i.owner = p.owner then (g.wiring? i.owner).map _ else g.wiring? i.owner) = some w' := hw'
    rw [hw] at hw''
    split at hw''
    · cases hw''
      dsimp only
      split <;> exact hk
    · cases hw''
      exact hk
  · rw [destroyProcess_eq hp] at hj hw'
    rw [wiring?_modifyWiring] at hw'
    have hj : (g.processes.erase id)[j]? = some q := hj
    have hw'' : (if q.owner = p.owner then (g.wiring? q.owner).map _ else g.wiring? q.owner) = some w' := hw'
    rw [hw] at hw''
    split at hw''
    · cases hw''
      dsimp only
      split
      · rename_i hid
        refine (Table.get_erase ..).trans ((if_neg fun he => ?_).trans hk)
        rw [he, hid] at hk
        cases hk
        rw [Table.get_erase, if_pos rfl] at hj
        cases hj
      · exact hk
    · cases hw''
      exact hk

theorem listed_giveBack (h : g.Listed E) (o : Option ProcessId) : (g.giveBack o).Listed E := by
  rcases o with _ | id
  · exact h
  rcases hp : g.processes[id]? with _ | p
  · simp only [giveBack, releaseProcess, hp]
    exact h
  have hd := drops_giveBack g (some id)
  simp only [giveBack, releaseProcess, hp] at hd ⊢
  split
  · exact listed_destroyProcess h id
  · rw [if_neg ‹_›] at hd
    refine h.of_same hd.fades fun m w w' hw hw' => ?_
    have hw'' : g.wiring? m = some w' := hw'
    rw [hw] at hw''
    cases hw''
    exact ⟨rfl, rfl⟩

theorem listed_instances (h : g.Listed E) {t : IdMap Instance}
    (hof : ∀ (id : InstanceId) (i : Instance), t[id]? = some i → ∃ u, g.instances[id]? = some { i with uses := u }) :
    Listed E { g with instances := t } := by
  refine ⟨fun id i hi hE => ?_, h.processes, fun n w k id i hw hk hi => ?_, h.processOwner⟩
  · obtain ⟨u, hu⟩ := hof id i hi
    exact h.instances id { i with uses := u } hu hE
  · obtain ⟨u, hu⟩ := hof id i hi
    exact h.instanceOwner n w k id { i with uses := u } hw hk hu

/-- A node forgets an instance that is not there. -/
theorem listed_forget (h : g.Listed E) (n : NodeId) (key : String) {id : InstanceId} (hid : g.instances[id]? = none) :
    (g.modifyWiring n fun w => if w.instances[key]? = some id then { w with instances := w.instances.erase key } else w).Listed E := by
  refine h.of_fades (drops_modifyWiring g n fun w => w.sheds_eraseInstance key id).fades (fun j i' w w' hj hw hw' hk => ?_)
    fun j q w w' hj hw hw' hk => ?_
  · rw [wiring?_modifyWiring, hw] at hw'
    split at hw'
    · cases hw'
      dsimp only
      split
      · rename_i hid'
        refine (Table.get_erase ..).trans ((if_neg fun he => ?_).trans hk)
        rw [he, hid'] at hk
        cases hk
        have hj : g.instances[id]? = some i' := hj
        rw [hid] at hj
        cases hj
      · exact hk
    · cases hw'
      exact hk
  · rw [wiring?_modifyWiring, hw] at hw'
    split at hw'
    · cases hw'
      dsimp only
      split <;> exact hk
    · cases hw'
      exact hk

theorem listed_dismantle (h : g.Listed E) (id : InstanceId) (i : Instance) : (g.dismantle id i).Listed E := by
  refine listed_forget (listed_markUnused (listed_markUnused (listed_markUnused (listed_instances h (drops_erase g id).instancesOf)
    i.owner i.substitution .output) i.owner i.substitution .extended) i.owner i.substitution .input) i.owner i.key ?_
  rw [(derives_markUnused ..).instances, (derives_markUnused ..).instances, (derives_markUnused ..).instances]
  exact (Table.get_erase ..).trans (if_pos rfl)

/-- Releases keep the memos right. -/
theorem listed_releaseWithin (k : Nat) (g : Graph) (id : InstanceId) : g.Listed E → (releaseWithin k g id).Listed E :=
  rel_releaseWithin (Q := fun a b => a.Listed E → b.Listed E) (fun _ hl => hl) (fun _ _ _ h h' hl => h' (h hl))
    (fun _ _ _ u hi hl => listed_instances hl (drops_use hi u).instancesOf) (fun _ id i _ hl => listed_dismantle hl id i)
    (fun _ o hl => listed_giveBack hl o) (fun _ _ _ _ hl => ⟨hl.instances, hl.processes, hl.instanceOwner, hl.processOwner⟩) k g id

end Graph

end Dataflow
