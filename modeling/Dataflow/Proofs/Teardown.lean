import Dataflow.Proofs.Spared

/-!
# What taking down derived objects spares

Everything that is taken down for a node of `D` concerns these nodes alone: the cells and channels of their maps, their instances, and
their processes with the entries that they write.
-/

namespace Dataflow

namespace Store

variable (s : Store) (m : MapId)

/-- The store without the channels of a list that a map owns. -/
def releaseAll (cs : List ChannelId) : Store := cs.foldl (fun s c => s.release c m) s

theorem releaseAll_cons (c : ChannelId) (cs : List ChannelId) : s.releaseAll m (c :: cs) = (s.release c m).releaseAll m cs := rfl

theorem releaseAll_fields (cs : List ChannelId) :
    (s.releaseAll m cs).nextMap = s.nextMap ∧ (s.releaseAll m cs).tolerance = s.tolerance ∧
      (s.releaseAll m cs).entries.next = s.entries.next ∧ (s.releaseAll m cs).channels.next = s.channels.next := by
  induction cs generalizing s with
  | nil => exact ⟨rfl, rfl, rfl, rfl⟩
  | cons c cs ih =>
    obtain ⟨h₁, h₂, h₃, h₄⟩ := ih (s.release c m)
    obtain ⟨h₁', h₂', h₃', h₄'⟩ := s.release_fields c m
    exact ⟨h₁.trans h₁', h₂.trans h₂', h₃.trans h₃', h₄.trans h₄'⟩

theorem entryAt?_releaseAll (cs : List ChannelId) (e : EntryId) : (s.releaseAll m cs).entryAt? e = s.entryAt? e := by
  induction cs generalizing s with
  | nil => rfl
  | cons c cs ih => exact (ih _).trans (entryAt?_release ..)

/-- A channel stays as it is unless the map owns it and it is in the list. -/
theorem channel?_releaseAll (cs : List ChannelId) (c : ChannelId) :
    (s.releaseAll m cs).channel? c = if c ∈ cs ∧ (s.wire? c).any (·.1 = m) then none else s.channel? c := by
  induction cs generalizing s with
  | nil => simp [releaseAll]
  | cons a cs ih =>
    rw [releaseAll_cons, ih, wire?_release, channel?_release]
    by_cases ha : c = a
    · subst ha
      by_cases hm : (s.wire? c).any (·.1 = m) = true <;> by_cases hc : c ∈ cs <;> simp [hm, hc]
    · simp [ha]

theorem wire?_releaseAll (cs : List ChannelId) (c : ChannelId) :
    (s.releaseAll m cs).wire? c = if c ∈ cs ∧ (s.wire? c).any (·.1 = m) then none else s.wire? c := by
  rw [wire?, channel?_releaseAll]
  split
  · rfl
  · rfl

theorem mirrored_releaseAll {s : Store} (h : s.Mirrored) (m : MapId) (cs : List ChannelId) : (s.releaseAll m cs).Mirrored := by
  induction cs generalizing s with
  | nil => exact h
  | cons c cs ih => exact ih (mirrored_release h c m)

/-- The store in which a listener no longer listens to some channels. -/
def unlistenAll (l : Listener) (cs : List (Option ChannelId)) : Store :=
  cs.foldl (fun s c => match c with
    | some c => s.unlisten c l
    | none => s) s

theorem unlistenAll_fields (l : Listener) (cs : List (Option ChannelId)) :
    (s.unlistenAll l cs).entries = s.entries ∧ (s.unlistenAll l cs).channels.next = s.channels.next ∧
      (s.unlistenAll l cs).nextMap = s.nextMap ∧ (s.unlistenAll l cs).tolerance = s.tolerance := by
  induction cs generalizing s with
  | nil => exact ⟨rfl, rfl, rfl, rfl⟩
  | cons c cs ih =>
    rcases c with _ | c
    · exact ih s
    · exact ih (s.unlisten c l)

theorem wire?_unlistenAll (l : Listener) (cs : List (Option ChannelId)) (c : ChannelId) :
    (s.unlistenAll l cs).wire? c = s.wire? c := by
  induction cs generalizing s with
  | nil => rfl
  | cons a cs ih =>
    rcases a with _ | a
    · exact ih s
    · exact (ih (s.unlisten a l)).trans (wire?_unlisten ..)

theorem mem_listenersOf_unlistenAll (l l' : Listener) (cs : List (Option ChannelId)) (c : ChannelId) :
    l' ∈ (s.unlistenAll l cs).listenersOf c ↔ l' ∈ s.listenersOf c ∧ (some c ∈ cs → l' ≠ l) := by
  induction cs generalizing s with
  | nil => simp [unlistenAll]
  | cons a cs ih =>
    rcases a with _ | a
    · refine (ih s).trans ?_
      simp
    · refine (ih (s.unlisten a l)).trans ?_
      rw [mem_listenersOf_unlisten, List.mem_cons, Option.some.injEq]
      constructor
      · rintro ⟨⟨h, ha⟩, hcs⟩
        exact ⟨h, fun hc => hc.elim ha hcs⟩
      · rintro ⟨h, hc⟩
        exact ⟨⟨h, fun ha => hc (.inl ha)⟩, fun hcs => hc (.inr hcs)⟩

theorem mirrored_unlistenAll {s : Store} (h : s.Mirrored) (l : Listener) (cs : List (Option ChannelId)) :
    (s.unlistenAll l cs).Mirrored := by
  induction cs generalizing s with
  | nil => exact h
  | cons c cs ih =>
    rcases c with _ | c
    · exact ih h
    · exact ih (mirrored_unlisten h c l)

/-- The store without some entries. -/
def freeAll (es : List EntryId) : Store := es.foldl freeEntry s

theorem freeAll_fields (es : List EntryId) :
    (s.freeAll es).channels = s.channels ∧ (s.freeAll es).nextMap = s.nextMap ∧ (s.freeAll es).tolerance = s.tolerance ∧
      (s.freeAll es).entries.next = s.entries.next := by
  induction es generalizing s with
  | nil => exact ⟨rfl, rfl, rfl, rfl⟩
  | cons e es ih => exact ih (s.freeEntry e)

theorem entryAt?_freeAll (es : List EntryId) (e : EntryId) : (s.freeAll es).entryAt? e = if e ∈ es then none else s.entryAt? e := by
  induction es generalizing s with
  | nil => simp [freeAll]
  | cons a es ih =>
    refine (ih (s.freeEntry a)).trans ?_
    rw [entryAt?_freeEntry]
    by_cases ha : e = a <;> by_cases he : e ∈ es <;> simp [ha, he]

theorem mirrored_freeAll {s : Store} (h : s.Mirrored) (es : List EntryId) : (s.freeAll es).Mirrored := by
  induction es generalizing s with
  | nil => exact h
  | cons e es ih => exact ih (mirrored_freeEntry h e)

/-- The store without what a process listens to and writes. -/
def dropProcess (id : ProcessId) (p : Process) : Store := (s.unlistenAll (.process id) p.inputs).freeAll (p.outputs.map (·.2))

theorem mirrored_dropProcess {s : Store} (h : s.Mirrored) (id : ProcessId) (p : Process) : (s.dropProcess id p).Mirrored :=
  mirrored_freeAll (mirrored_unlistenAll h _ _) _

end Store

/-- The wiring with all ports emptied. -/
def Wiring.emptied (w : Wiring) : Wiring :=
  { w with input := { w.input with entries := ∅ }, extended := { w.extended with entries := ∅ }, output := { w.output with entries := ∅ } }

/-- The wiring in which what is cached at any port under a substitution has one user less. -/
def Wiring.unused (s : Substitution) (w : Wiring) : Wiring :=
  { w with input := w.input.markUnused s, extended := w.extended.markUnused s, output := w.output.markUnused s }

/-- The store without some channels of each of the maps of a wiring, which the maps own. -/
def Wiring.releases (w : Wiring) (f : ChannelMap → List ChannelId) (ports : List Port) (s : Store) : Store :=
  ports.foldl (fun s port => s.releaseAll (w.map port).id (f (w.map port))) s

namespace Graph

variable {D : NodeId → Prop} {hands : List InstanceId} {g g' g'' : Graph} {n : NodeId}

/-! ## The parts of a change -/

/-- A change of the wiring of a node of `D` that keeps the ids of its maps. -/
theorem spares_modifyWiring (hn : D n) {f : Wiring → Wiring}
    (hf : ∀ w, g.wiring? n = some w → ∀ port, ((f w).map port).id = (w.map port).id) : Spares D g (g.modifyWiring n f) := by
  have hmap : ∀ m q, (g.modifyWiring n f).mapId m q = g.mapId m q := by
    intro m q
    rw [mapId, mapId, wiring?_modifyWiring]
    split
    · rename_i h
      subst h
      rcases hw : g.wiring? m with _ | w
      · rfl
      · exact congrArg some (hf w hw q)
    · rfl
  exact { Spares.refl D g with
    registry := rfl
    data := fun m hm => by
      rw [inner?, inner?, data?_modifyWiring, if_neg]
      rintro rfl
      exact hm hn
    leaf := fun m _ => leaf?_modifyWiring ..
    mapIn := fun _ _ => mapIn_of_mapId hmap
    bounded := fun h m q o ho => h m q o ((hmap m q).symm.trans ho)
    apart := fun h m q m' q' o ho ho' => h m q m' q' o ((hmap m q).symm.trans ho) ((hmap m' q').symm.trans ho') }

/-- A change of instances that erases some of those of `D`, and changes how often others are used. -/
theorem spares_instances (t : IdMap Instance)
    (hto : ∀ (id : InstanceId) (i : Instance), g.instances[id]? = some i → ¬ D i.owner → ∃ u, t[id]? = some { i with uses := u })
    (hof : ∀ (id : InstanceId) (i : Instance), t[id]? = some i → ∃ u, g.instances[id]? = some { i with uses := u }) :
    Spares D g { g with instances := t } :=
  { Spares.refl D g with instances := hto, instancesOf := hof }

/-- A change of the store that spares the channels of maps outside, and the entries that processes outside write. -/
theorem spares_store (s : Store) (htol : s.tolerance = g.store.tolerance) (hnext : s.channels.next = g.store.channels.next)
    (hmap : s.nextMap = g.store.nextMap)
    (htypes : ∀ e t, g.store.typeAt? e = some t → (∀ (id : ProcessId) (p : Process), g.processes[id]? = some p → D p.owner →
      e ∉ p.outputs.map (·.2)) → s.typeAt? e = some t)
    (hwires : ∀ c o l, g.store.wire? c = some (o, l) → ¬ g.MapIn D o → s.wire? c = some (o, l))
    (hwiresOf : ∀ c w, s.wire? c = some w → g.store.wire? c = some w)
    (hlisten : ∀ c o l id p, g.store.wire? c = some (o, l) → ¬ g.MapIn D o → g.processes[id]? = some p → ¬ D p.owner →
      .process id ∈ g.store.listenersOf c → .process id ∈ s.listenersOf c) : Spares D g { g with store := s } :=
  { Spares.refl D g with
    tolerance := htol
    next := hnext
    nextMap := Nat.le_of_eq hmap.symm
    bounded := fun h m q o ho => Nat.le_trans (h m q o ho) (Nat.le_of_eq hmap.symm)
    types := htypes
    wires := fun c o l hw _ ho => hwires c o l hw ho
    wiresOf := hwiresOf
    listeners := fun c o l id p hw _ ho hp hD hl => hlisten c o l id p hw ho hp hD hl }

/-- The channels of a map of `D` are released. -/
theorem spares_releaseAll {m : MapId} (hm : g.MapIn D m) (cs : List ChannelId) :
    Spares D g { g with store := g.store.releaseAll m cs } := by
  obtain ⟨h₁, h₂, -, h₄⟩ := g.store.releaseAll_fields m cs
  have hkeep : ∀ c o l, g.store.wire? c = some (o, l) → ¬ g.MapIn D o →
      ¬ (c ∈ cs ∧ (g.store.wire? c).any (·.1 = m) = true) := by
    rintro c o l hw ho ⟨-, hm'⟩
    rw [hw] at hm'
    have : o = m := by simpa using hm'
    exact ho (this ▸ hm)
  refine spares_store _ h₂ h₄ h₁ (fun e t he _ => by rw [Store.typeAt?, Store.entryAt?_releaseAll]; exact he) (fun c o l hw ho => ?_)
    (fun c w hw => ?_) fun c o l id p hw ho _ _ hl => ?_
  · rw [Store.wire?_releaseAll, if_neg (hkeep c o l hw ho)]
    exact hw
  · rw [Store.wire?_releaseAll] at hw
    split at hw
    · cases hw
    · exact hw
  · rw [Store.listenersOf, Store.channel?_releaseAll, if_neg (hkeep c o l hw ho)]
    exact hl

/-! ## Ports, processes and instances -/

theorem id_setMap (w : Wiring) (p : Port) {m : ChannelMap} (hm : m.id = (w.map p).id) (q : Port) :
    ((w.setMap p m).map q).id = (w.map q).id := by
  rw [Wiring.map_setMap]
  split
  · rename_i h
    rw [hm, h]
  · rfl

theorem modifyData_congr {f f' : DataNode → DataNode} (h : ∀ d, g.data? n = some d → f d = f' d) : g.modifyData n f = g.modifyData n f' := by
  simp only [modifyData, Arena.modify, Graph.mk.injEq, Arena.mk.injEq, and_true]
  refine Std.ExtTreeMap.ext_getElem? fun k => ?_
  rw [Table.get_modify, Table.get_modify]
  split
  · rename_i hk
    subst hk
    rcases hx : g.nodes.items[k]? with _ | ⟨ps, l | d⟩
    · rfl
    · rfl
    · have hd : g.data? k = some d := by
        rw [data?, node?, Arena.get?, hx]
        rfl
      simp only [Option.map_some, h d hd]
  · rfl

theorem modifyWiring_congr {f f' : Wiring → Wiring} (h : ∀ w, g.wiring? n = some w → f w = f' w) :
    g.modifyWiring n f = g.modifyWiring n f' :=
  modifyData_congr fun d hd => by rw [h d.wiring (wiring?_of_data? hd)]

theorem markUnused_eq {w : Wiring} (hw : g.wiring? n = some w) (s : Substitution) (port : Port) :
    g.markUnused n s port = modifyWiring { g with store := g.store.releaseAll (w.map port).id ((w.map port).lastUsed s) } n
      fun w => w.setMap port ((w.map port).markUnused s) := by
  rw [markUnused]
  simp only [hw]
  refine modifyWiring_congr fun w' hw' => ?_
  have hw'' : g.wiring? n = some w' := hw'
  rw [hw] at hw''
  cases hw''
  rfl

theorem clearPort_eq {w : Wiring} (hw : g.wiring? n = some w) (port : Port) :
    g.clearPort n port = modifyWiring { g with store := g.store.releaseAll (w.map port).id (w.map port).channels } n
      fun w => w.setMap port { w.map port with entries := ∅ } := by
  rw [clearPort]
  simp only [hw]
  refine modifyWiring_congr fun w' hw' => ?_
  have hw'' : g.wiring? n = some w' := hw'
  rw [hw] at hw''
  cases hw''
  rfl

theorem modifyWiring_modifyWiring (g : Graph) (n : NodeId) (f f' : Wiring → Wiring) :
    (g.modifyWiring n f).modifyWiring n f' = g.modifyWiring n fun w => f' (f w) := by
  simp only [modifyWiring, modifyData, Arena.modify, Graph.mk.injEq, Arena.mk.injEq, and_true]
  refine Std.ExtTreeMap.ext_getElem? fun k => ?_
  rw [Table.get_modify, Table.get_modify, Table.get_modify]
  split
  · rw [Option.map_map]
    rcases g.nodes.items[k]? with _ | ⟨ps, l | d⟩ <;> rfl
  · rfl

/-- Emptying the ports of a node is one change of the store and one of its wiring. -/
theorem clearPorts_eq {w : Wiring} (hw : g.wiring? n = some w) :
    [Port.input, .extended, .output].foldl (fun g port => g.clearPort n port) g =
      { g with store := w.releases ChannelMap.channels [.input, .extended, .output] g.store }.modifyWiring n Wiring.emptied := by
  have hsome : ∀ {s : Store} {f : Wiring → Wiring}, ({ g with store := s }.modifyWiring n f).wiring? n = some (f w) := by
    intro s f
    rw [wiring?_modifyWiring, if_pos rfl]
    exact congrArg (Option.map f) hw
  have hset : ∀ (s s' : Store) (f : Wiring → Wiring), { ({ g with store := s }.modifyWiring n f) with store := s' } =
      { g with store := s' }.modifyWiring n f := fun _ _ _ => rfl
  rw [List.foldl_cons, clearPort_eq hw, List.foldl_cons, clearPort_eq hsome, List.foldl_cons, hset, modifyWiring_modifyWiring,
    clearPort_eq hsome, hset, modifyWiring_modifyWiring]
  exact modifyWiring_congr fun w' hw' => by
    have hw' : g.wiring? n = some w' := hw'
    rw [hw] at hw'
    cases hw'
    rfl

/-- One user less at all ports of a node is one change of the store and one of its wiring. -/
theorem markAllUnused_eq {w : Wiring} (hw : g.wiring? n = some w) (s : Substitution) :
    [Port.output, .extended, .input].foldl (fun g port => g.markUnused n s port) g =
      { g with store := w.releases (·.lastUsed s) [.output, .extended, .input] g.store }.modifyWiring n (Wiring.unused s) := by
  have hsome : ∀ {st : Store} {f : Wiring → Wiring}, ({ g with store := st }.modifyWiring n f).wiring? n = some (f w) := by
    intro st f
    rw [wiring?_modifyWiring, if_pos rfl]
    exact congrArg (Option.map f) hw
  have hset : ∀ (st st' : Store) (f : Wiring → Wiring), { ({ g with store := st }.modifyWiring n f) with store := st' } =
      { g with store := st' }.modifyWiring n f := fun _ _ _ => rfl
  rw [List.foldl_cons, markUnused_eq hw, List.foldl_cons, markUnused_eq hsome, List.foldl_cons, hset, modifyWiring_modifyWiring,
    markUnused_eq hsome, hset, modifyWiring_modifyWiring]
  exact modifyWiring_congr fun w' hw' => by
    have hw' : g.wiring? n = some w' := hw'
    rw [hw] at hw'
    cases hw'
    rfl

theorem spares_setMap (hn : D n) {w : Wiring} (hw : g.wiring? n = some w) (port : Port) (cs : List ChannelId)
    {f : ChannelMap → ChannelMap} (hf : ∀ m, (f m).id = m.id) :
    Spares D g (modifyWiring { g with store := g.store.releaseAll (w.map port).id cs } n fun w => w.setMap port (f (w.map port))) :=
  (spares_releaseAll ⟨n, port, hn, mapId_of_wiring? hw port⟩ cs).trans
    (spares_modifyWiring hn fun w _ q => id_setMap w port (hf _) q)

theorem spares_markUnused (hn : D n) (s : Substitution) (port : Port) : Spares D g (g.markUnused n s port) := by
  rcases hw : g.wiring? n with _ | w
  · rw [markUnused]
    simp only [hw]
    exact .refl D g
  · rw [markUnused_eq hw]
    exact spares_setMap hn hw port _ (f := fun m => m.markUnused s) fun _ => rfl

theorem spares_clearPort (hn : D n) (port : Port) : Spares D g (g.clearPort n port) := by
  rcases hw : g.wiring? n with _ | w
  · rw [clearPort]
    simp only [hw]
    exact .refl D g
  · rw [clearPort_eq hw]
    exact spares_setMap hn hw port _ (f := fun m => { m with entries := ∅ }) fun _ => rfl

theorem destroyProcess_eq {id : ProcessId} {p : Process} (hp : g.processes[id]? = some p) :
    g.destroyProcess id = modifyWiring { g with processes := g.processes.erase id, store := g.store.dropProcess id p } p.owner
      fun w => if w.processes[p.key]? = some id then { w with processes := w.processes.erase p.key } else w := by
  rw [destroyProcess]
  simp only [hp, Store.dropProcess, Store.freeAll, List.foldl_map]
  rfl

theorem spares_destroyProcess {id : ProcessId} {p : Process} (hp : g.processes[id]? = some p) (hD : D p.owner) :
    Spares D g (g.destroyProcess id) := by
  rw [destroyProcess_eq hp]
  obtain ⟨h₁, h₂, h₃, h₄⟩ := g.store.unlistenAll_fields (.process id) p.inputs
  obtain ⟨h₁', h₂', h₃', h₄'⟩ := (g.store.unlistenAll (.process id) p.inputs).freeAll_fields (p.outputs.map (·.2))
  have hwire : ∀ c, (g.store.dropProcess id p).wire? c = g.store.wire? c := by
    intro c
    rw [Store.dropProcess, Store.wire?_of_channels_eq h₁', Store.wire?_unlistenAll]
  have hstore : Spares D g { g with store := g.store.dropProcess id p } := by
    refine spares_store _ (h₃'.trans h₄) (by rw [Store.dropProcess, h₁', h₂]) (h₂'.trans h₃) (fun e t he hout => ?_)
      (fun c o l hw _ => (hwire c).trans hw) (fun c w hw => (hwire c).symm.trans hw) fun c o l id' p' hw _ hp' hD' hl => ?_
    · rw [Store.dropProcess, Store.typeAt?, Store.entryAt?_freeAll, if_neg (hout id p hp hD), Store.entryAt?_of_entries_eq h₁]
      exact he
    · rw [Store.dropProcess, Store.listenersOf_of_channels_eq h₁', Store.mem_listenersOf_unlistenAll]
      refine ⟨hl, fun _ he => ?_⟩
      cases he
      rw [hp] at hp'
      cases hp'
      exact hD' hD
  have herase : Spares D { g with store := g.store.dropProcess id p }
      { g with processes := g.processes.erase id, store := g.store.dropProcess id p } :=
    { Spares.refl D { g with store := g.store.dropProcess id p } with
      processes := fun id' p' hp' hD' => by
        refine ⟨p'.state, (Table.get_erase ..).trans ((if_neg ?_).trans hp')⟩
        rintro rfl
        have hp'' : g.processes[id']? = some p' := hp'
        rw [hp] at hp''
        cases hp''
        exact hD' hD
      processesOf := fun id' p' hp' => by
        have hp'' : (g.processes.erase id)[id']? = some p' := hp'
        rw [Table.get_erase] at hp''
        split at hp''
        · cases hp''
        · exact ⟨p'.uses, p'.state, hp''⟩ }
  refine (hstore.trans herase).trans (spares_modifyWiring hD fun w _ port => ?_)
  split <;> rfl

theorem spares_releaseProcess {id : ProcessId} (hD : ∀ p : Process, g.processes[id]? = some p → D p.owner) :
    Spares D g (g.releaseProcess id) := by
  rcases hp : g.processes[id]? with _ | p
  · rw [releaseProcess]
    simp only [hp]
    exact .refl D g
  · rw [releaseProcess]
    simp only [hp]
    split
    · exact spares_destroyProcess hp (hD p hp)
    · exact
        { Spares.refl D g with
          processes := fun id' p' hp' hD' => by
            refine ⟨p'.state, (Table.get_insert ..).trans ((if_neg ?_).trans hp')⟩
            rintro rfl
            rw [hp] at hp'
            cases hp'
            exact hD' (hD p hp)
          processesOf := fun id' p' hp' => by
            have hp'' : (g.processes.insert id { p with uses := p.uses - 1 })[id']? = some p' := hp'
            rw [Table.get_insert] at hp''
            split at hp''
            · rename_i h
              cases hp''
              exact ⟨p.uses, p.state, h ▸ hp⟩
            · exact ⟨p'.uses, p'.state, hp''⟩ }

theorem spares_giveBack {o : Option ProcessId} (hD : ∀ pid (p : Process), o = some pid → g.processes[pid]? = some p → D p.owner) :
    Spares D g (g.giveBack o) := by
  rcases o with _ | pid
  · exact .refl D g
  · exact spares_releaseProcess fun p hp => hD pid p rfl hp

/-- An instance of `D` is erased. -/
theorem spares_erase {id : InstanceId} {i : Instance} (hi : g.instances[id]? = some i) (hD : D i.owner) :
    Spares D g { g with instances := g.instances.erase id } := by
  refine spares_instances _ (fun id' i' hi' hD' => ⟨i'.uses, ?_⟩) fun id' i' hi' => ⟨i'.uses, ?_⟩
  · refine (Table.get_erase ..).trans ((if_neg ?_).trans hi')
    rintro rfl
    rw [hi] at hi'
    cases hi'
    exact hD' hD
  · rw [Table.get_erase] at hi'
    split at hi'
    · cases hi'
    · exact hi'

/-- An instance is used once less. -/
theorem spares_use {id : InstanceId} {i : Instance} (hi : g.instances[id]? = some i) (u : Nat) :
    Spares D g { g with instances := g.instances.insert id { i with uses := u } } := by
  refine spares_instances _ (fun id' i' hi' _ => ?_) fun id' i' hi' => ?_
  · by_cases h : id' = id
    · subst h
      rw [hi] at hi'
      cases hi'
      exact ⟨u, (Table.get_insert ..).trans (if_pos rfl)⟩
    · exact ⟨i'.uses, (Table.get_insert ..).trans ((if_neg h).trans hi')⟩
  · rw [Table.get_insert] at hi'
    split at hi'
    · rename_i h
      cases hi'
      exact ⟨i.uses, h ▸ hi⟩
    · exact ⟨i'.uses, hi'⟩

/-- An instance of `D` and what its node keeps for it are taken down. -/
theorem spares_dismantle {id : InstanceId} {i : Instance} (hi : g.instances[id]? = some i) (hD : D i.owner) :
    Spares D g (g.dismantle id i) := by
  rw [dismantle]
  refine (((spares_erase hi hD).trans (spares_markUnused hD _ .output)).trans ((spares_markUnused hD _ .extended).trans
    (spares_markUnused hD _ .input))).trans (spares_modifyWiring hD fun w _ port => ?_)
  split <;> rfl

end Graph

end Dataflow
