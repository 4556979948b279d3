import Dataflow.Proofs.Release

/-!
# Resetting nodes

A node that is reset loses all that is derived from it, whoever uses it, and what its instances used is released. Nodes for which
nothing is promised are reset one after the other; when all of them are, nothing is derived from them any more, and the graph is sound.
-/

namespace Dataflow

/-- The wiring of a node that is reset, before what it derived is taken down. -/
def Wiring.unwired (w : Wiring) : Wiring :=
  { w with outOfSync := true, operator := none, operatorParams := ∅, params := ∅, instances := ∅, processes := ∅ }

/-- The outlet after a change of structure: it has to rebuild. -/
def Outlet.stale (o : Outlet) : Outlet :=
  { o with held := none, channels := ∅, status := .needsStructure, result := { o.result with valid := false } }

theorem ChannelMap.at?_blank (id : MapId) (x k : String) : ChannelMap.at? { id } x k = none := by
  rw [at?, entryOf, Std.ExtTreeMap.getElem?_empty]
  exact Std.ExtTreeMap.getElem?_empty

namespace Graph

variable {D E E' : NodeId → Prop} {hands : List InstanceId} {g g' g'' : Graph} {n : NodeId}

/-- The change takes away what is derived, and nothing else but the journal; outlets still listen to what stays. -/
structure Clears (g g' : Graph) : Prop extends Fades g g' where
  rest : g'.requests = g.requests ∧ g'.registry = g.registry ∧ g'.config = g.config ∧ g'.plans = g.plans
  outlets : g'.outlets = g.outlets
  listens : ∀ c o, .outlet o ∈ g.store.listenersOf c → (g'.store.wire? c).isSome → .outlet o ∈ g'.store.listenersOf c

theorem Clears.refl (g : Graph) : g.Clears g := ⟨.refl g, ⟨rfl, rfl, rfl, rfl⟩, rfl, fun _ _ h _ => h⟩

theorem Clears.trans (h : g.Clears g') (h' : g'.Clears g'') : g.Clears g'' := by
  refine ⟨h.toFades.trans h'.toFades, ⟨h'.rest.1.trans h.rest.1, h'.rest.2.1.trans h.rest.2.1, h'.rest.2.2.1.trans h.rest.2.2.1,
    h'.rest.2.2.2.trans h.rest.2.2.2⟩, h'.outlets.trans h.outlets, fun c o ho hw => h'.listens c o (h.listens c o ho ?_) hw⟩
  obtain ⟨w, hw⟩ := Option.isSome_iff_exists.1 hw
  rw [h'.wiresOf c w hw]
  rfl

theorem Drops.clears (h : g.Drops g') : g.Clears g' :=
  ⟨h.fades, ⟨h.derived.requests, h.derived.registry, h.derived.config, h.derived.plans⟩, h.derived.outlets, h.outlets⟩

/-- What takes away leaves: the graph is sound but for the same nodes, the memos are right outside `E`, what is in hand stays live, the
nodes of what is live are as they were, and so are the outlets of nodes outside `D`. -/
structure Cleared (D E : NodeId → Prop) (hands : List InstanceId) (g g' : Graph) : Prop where
  sound : SoundBut D hands g'
  fades : g.Fades g'
  listed : g'.Listed E
  kept : ∀ j ∈ hands, ∀ i : Instance, g.instances[j]? = some i → ¬ D i.owner → ∃ u, g'.instances[j]? = some { i with uses := u }
  data : ∀ (j : InstanceId) (i : Instance), g'.instances[j]? = some i → ¬ D i.owner → g'.inner? i.owner = g.inner? i.owner
  rest : g'.requests = g.requests ∧ g'.registry = g.registry ∧ g'.config = g.config ∧ g'.plans = g.plans
  outlets : ∀ id : OutletId, g'.outlets[id]? = g.outlets[id]? ∨ ∃ o : Outlet, g.outlets[id]? = some o ∧ D o.owner ∧ g'.outlets[id]? = some o.stale
  listens : ∀ c (id : OutletId) (o : Outlet), g.outlets[id]? = some o → ¬ D o.owner → .outlet id ∈ g.store.listenersOf c →
    (g'.store.wire? c).isSome → .outlet id ∈ g'.store.listenersOf c

namespace Cleared

theorem of_clears (h : SoundBut D hands g') (hc : g.Clears g') (hl : g'.Listed E)
    (hkept : ∀ j ∈ hands, ∀ i : Instance, g.instances[j]? = some i → ¬ D i.owner → ∃ u, g'.instances[j]? = some { i with uses := u })
    (hdata : ∀ (j : InstanceId) (i : Instance), g'.instances[j]? = some i → ¬ D i.owner → g'.inner? i.owner = g.inner? i.owner) :
    Cleared D E hands g g' :=
  ⟨h, hc.toFades, hl, hkept, hdata, hc.rest, fun _ => .inl (by rw [hc.outlets]), fun c id _ _ _ => hc.listens c id⟩

theorem refl (h : SoundBut D hands g) (hl : g.Listed E) : Cleared D E hands g g :=
  of_clears h (.refl g) hl (fun _ _ i hi _ => ⟨i.uses, hi⟩) fun _ _ _ _ => rfl

theorem trans (h : Cleared D E hands g g') (h' : Cleared D E' hands g' g'') : Cleared D E' hands g g'' := by
  refine ⟨h'.sound, h.fades.trans h'.fades, h'.listed, fun j hj i hi hD => ?_, fun j i hi hD => (h'.data j i hi hD).trans ?_,
    ⟨h'.rest.1.trans h.rest.1, h'.rest.2.1.trans h.rest.2.1, h'.rest.2.2.1.trans h.rest.2.2.1, h'.rest.2.2.2.trans h.rest.2.2.2⟩,
    fun id => ?_, fun c id o ho hD hl hw => ?_⟩
  · obtain ⟨u, hu⟩ := h.kept j hj i hi hD
    exact h'.kept j hj { i with uses := u } hu hD
  · obtain ⟨u, hu⟩ := h'.fades.instancesOf j i hi
    exact h.data j { i with uses := u } hu hD
  · rcases h.outlets id with ho | ⟨o, ho, hD, hs⟩ <;> rcases h'.outlets id with ho' | ⟨o', ho', hD', hs'⟩
    · exact .inl (ho'.trans ho)
    · exact .inr ⟨o', ho ▸ ho', hD', hs'⟩
    · exact .inr ⟨o, ho, hD, ho'.trans hs⟩
    · rw [hs] at ho'
      cases ho'
      exact .inr ⟨o, ho, hD, hs'⟩
  · have hlive : (g'.store.wire? c).isSome := by
      obtain ⟨w, hw⟩ := Option.isSome_iff_exists.1 hw
      rw [h'.fades.wiresOf c w hw]
      rfl
    refine h'.listens c id o ?_ hD (h.listens c id o ho hD hl hlive) hw
    rcases h.outlets id with ho' | ⟨o', ho', hD', -⟩
    · exact ho'.trans ho
    · rw [ho] at ho'
      cases ho'
      exact absurd hD' hD

/-- A change of what the nodes of `D` derive that takes no instances away. -/
theorem of_spares (h : SoundBut D hands g) (hsp : Spares D g g') (hc : g.Clears g') (hl : g'.Listed E)
    (hinst : g'.instances = g.instances) : Cleared D E hands g g' := by
  refine .of_clears (h.of_wanes hsp hc.toWanes hc.rewired fun id i hi hD => ?_) hc hl (fun j _ i hi hD => hsp.instances j i hi hD)
    fun j i _ hD => hsp.data _ hD
  rw [useCount, hinst]
  rw [hinst] at hi
  exact h.uses id i hi hD

/-- Steps that clear, one after the other: what the steps need, and what they bring about, is kept by steps that clear. -/
theorem foldl {α : Type} {f : Graph → α → Graph} {P Q : α → Graph → Prop} (hP : ∀ a g g', P a g → Cleared D E hands g g' → P a g')
    (hQ : ∀ a g g', Q a g → Cleared D E hands g g' → Q a g')
    (hf : ∀ g a, SoundBut D hands g → g.Listed E → P a g → Cleared D E hands g (f g a) ∧ Q a (f g a)) :
    ∀ (l : List α) {g : Graph}, SoundBut D hands g → g.Listed E → (∀ a ∈ l, P a g) →
      Cleared D E hands g (l.foldl f g) ∧ ∀ a ∈ l, Q a (l.foldl f g)
  | [], g, h, hl, _ => ⟨.refl h hl, fun a ha => by cases ha⟩
  | a :: l, g, h, hl, hall => by
    obtain ⟨h₁, hq⟩ := hf g a h hl (hall a (List.mem_cons_self ..))
    obtain ⟨h₂, hqs⟩ := foldl hP hQ hf l h₁.sound h₁.listed fun b hb => hP b _ _ (hall b (List.mem_cons_of_mem _ hb)) h₁
    refine ⟨h₁.trans h₂, fun b hb => ?_⟩
    rcases List.mem_cons.1 hb with rfl | hb
    · exact hQ _ _ _ hq h₂
    · exact hqs b hb

end Cleared

/-! ## The steps of a reset -/

theorem clears_modifyWiring (g : Graph) (n : NodeId) {f : Wiring → Wiring} (hf : ∀ w : Wiring, w.Clears (f w)) :
    g.Clears (g.modifyWiring n f) :=
  { Clears.refl g with rewired := (rewired_modifyWiring g n f).mono fun _ w _ h => h.2 ▸ hf w }

theorem clears_unwired (w : Wiring) : w.Clears w.unwired := by
  refine ⟨fun _ => rfl, fun port => by cases port <;> rfl, fun port x k hc => by cases port <;> exact hc, fun k id h => ?_,
    fun k id h => ?_⟩
  all_goals
    rw [Wiring.unwired, Std.ExtTreeMap.getElem?_empty] at h
    cases h

theorem clears_clearPort (g : Graph) (n : NodeId) (port : Port) : g.Clears (g.clearPort n port) := by
  rcases hw : g.wiring? n with _ | w
  · rw [clearPort]
    simp only [hw]
    exact .refl g
  · rw [clearPort_eq hw]
    refine (drops_releaseAll g _ _).clears.trans (clears_modifyWiring _ n fun w => ⟨fun hs => ?_, id_setMap w port rfl, fun q x k hc => ?_, ?_, ?_⟩)
    · cases port <;> exact hs
    · rw [Wiring.map_setMap]
      split
      · exact ChannelMap.at?_blank ..
      · exact hc
    · cases port <;> exact fun _ _ h => h
    · cases port <;> exact fun _ _ h => h

/-- A node is put out of sync and forgets what it derived. -/
theorem SoundBut.cleared_unwired (h : SoundBut D hands g) (hl : g.Listed fun _ => False) (hn : D n) :
    Cleared D (· = n) hands g (g.modifyWiring n Wiring.unwired) := by
  have hget : ∀ m w, (g.modifyWiring n Wiring.unwired).wiring? m = some w →
      ∃ w', g.wiring? m = some w' ∧ w = if m = n then w'.unwired else w' := by
    intro m w hw
    rw [wiring?_modifyWiring] at hw
    split at hw
    · obtain ⟨w', hw', rfl⟩ := Option.map_eq_some_iff.1 hw
      exact ⟨w', hw', (if_pos ‹_›).symm⟩
    · exact ⟨w, hw, (if_neg ‹_›).symm⟩
  refine .of_spares h (spares_modifyWiring hn fun w _ port => by cases port <;> rfl) (clears_modifyWiring g n clears_unwired) ?_ rfl
  refine ⟨fun id i hi hE => ?_, fun id p hp hE => ?_, fun m w k id i hw hk hi => ?_, fun m w k id p hw hk hp => ?_⟩
  · obtain ⟨w, hw, hk⟩ := hl.instances id i hi not_false
    exact ⟨w, by rw [wiring?_modifyWiring, if_neg hE, hw], hk⟩
  · obtain ⟨w, hw, hk⟩ := hl.processes id p hp not_false
    exact ⟨w, by rw [wiring?_modifyWiring, if_neg hE, hw], hk⟩
  · obtain ⟨w', hw', rfl⟩ := hget m w hw
    split at hk
    · rw [Wiring.unwired, Std.ExtTreeMap.getElem?_empty] at hk
      cases hk
    · exact hl.instanceOwner m w' k id i hw' hk hi
  · obtain ⟨w', hw', rfl⟩ := hget m w hw
    split at hk
    · rw [Wiring.unwired, Std.ExtTreeMap.getElem?_empty] at hk
      cases hk
    · exact hl.processOwner m w' k id p hw' hk hp

theorem SoundBut.cleared_destroyProcess (h : SoundBut D hands g) (hl : g.Listed E) {id : ProcessId}
    (hD : ∀ p : Process, g.processes[id]? = some p → D p.owner) :
    Cleared D E hands g (g.destroyProcess id) ∧ (g.destroyProcess id).processes[id]? = none := by
  rcases hp : g.processes[id]? with _ | p
  · have : g.destroyProcess id = g := by
      rw [destroyProcess]
      simp only [hp]
    rw [this]
    exact ⟨.refl h hl, hp⟩
  · refine ⟨.of_spares h (spares_destroyProcess hp (hD p hp)) (drops_destroyProcess g id).clears (listed_destroyProcess hl id)
      (derives_destroyProcess g id).instances, ?_⟩
    rw [processes_destroyProcess hp, Table.get_erase, if_pos rfl]

/-- An instance of `D` goes, and what it used is released. -/
theorem SoundBut.cleared_discardInstance (h : SoundBut D hands g) (hl : g.Listed E) {id : InstanceId}
    (hD : ∀ i : Instance, g.instances[id]? = some i → D i.owner) :
    Cleared D E hands g (g.discardInstance id) ∧ (g.discardInstance id).instances[id]? = none := by
  rcases hi : g.instances[id]? with _ | i
  · have : g.discardInstance id = g := by
      rw [discardInstance]
      simp only [hi]
    rw [this]
    exact ⟨.refl h hl, hi⟩
  have hsp := spares_erase hi (hD i hi)
  have hd := drops_erase g id
  have h₁ : SoundBut D (usedBy i ++ hands) { g with instances := g.instances.erase id } := by
    refine h.of_drops hsp hd fun j i' hj hD' => ?_
    have hj' : (g.instances.erase id)[j]? = some i' := hj
    rw [Table.get_erase] at hj'
    split at hj'
    · cases hj'
    · obtain ⟨huses, hpos⟩ := h.uses j i' hj' hD'
      rw [useCount_erase hi] at huses
      refine ⟨?_, hpos⟩
      rw [huses, List.count_append]
      omega
  have hrel := released_foldl (f := releaseInstance) (k := g.instances.size + 1) (fun h _ => releaseWithin_spec _ h (Nat.lt_succ_self _))
    (usedBy i) h₁ (Nat.lt_succ_of_le hd.size)
  have hdisc : g.discardInstance id = (usedBy i).foldl releaseInstance { g with instances := g.instances.erase id } := by
    rw [discardInstance]
    simp only [hi]
  have hlist : ∀ (l : List InstanceId) {g : Graph}, g.Listed E → (l.foldl releaseInstance g).Listed E := by
    intro l
    induction l with
    | nil => exact fun h => h
    | cons a l ih => exact fun h => ih (listed_releaseWithin _ _ a h)
  rw [hdisc]
  refine ⟨.of_clears hrel.sound (hd.trans hrel.drops).clears (hlist _ (listed_instances hl hd.instancesOf)) (fun j hj i' hi' hD' => ?_)
    fun j i' hj hD' => (hrel.data j i' hj hD').trans rfl, hrel.drops.instances_eq_none ((Table.get_erase ..).trans (if_pos rfl))⟩
  obtain ⟨u, hu⟩ := hsp.instances j i' hi' hD'
  exact hrel.kept j hj { i' with uses := u } hu hD'

theorem listed_clearPort (h : g.Listed E) (n : NodeId) (port : Port) : (g.clearPort n port).Listed E := by
  refine h.of_same (clears_clearPort g n port).toFades fun m w w' hw hw' => ?_
  rw [clearPort] at hw'
  split at hw'
  · rw [hw] at hw'
    cases hw'
    exact ⟨rfl, rfl⟩
  · rw [wiring?_modifyWiring] at hw'
    have hw'' : (if m = n then (g.wiring? m).map _ else g.wiring? m) = some w' := hw'
    rw [hw] at hw''
    split at hw''
    · cases hw''
      cases port <;> exact ⟨rfl, rfl⟩
    · cases hw''
      exact ⟨rfl, rfl⟩

theorem SoundBut.cleared_clearPort (h : SoundBut D hands g) (hl : g.Listed E) (hn : D n) (port : Port) :
    Cleared D E hands g (g.clearPort n port) ∧ ∀ x k, (g.clearPort n port).cell? n port x k = none := by
  refine ⟨.of_spares h (spares_clearPort hn port) (clears_clearPort g n port) (listed_clearPort hl n port)
    (derives_clearPort g n port).instances, fun x k => ?_⟩
  rcases hw : g.wiring? n with _ | w
  · rw [clearPort]
    simp only [hw]
    rw [cell?, hw]
    rfl
  · have hw' : (g.clearPort n port).wiring? n = some (w.setMap port { w.map port with entries := ∅ }) := by
      rw [clearPort_eq hw, wiring?_modifyWiring, if_pos rfl]
      exact congrArg (Option.map _) hw
    rw [cell?_of_wiring? hw', Wiring.map_setMap, if_pos rfl]
    exact ChannelMap.at?_blank ..

/-! ## A reset -/

/-- A node that was reset: nothing is derived from it, and it is not in sync. -/
structure Blank (g : Graph) (n : NodeId) : Prop where
  vacant : g.Vacant n
  stale : ¬ g.InSync n

theorem Blank.of_fades (h : g.Blank n) (hc : g.Fades g') : g'.Blank n := by
  refine ⟨h.vacant.of_fades hc, ?_⟩
  rintro ⟨w, hw, hs⟩
  obtain ⟨w', hcl, hw'⟩ := hc.wiring hw
  refine h.stale ⟨w', hw', ?_⟩
  rcases hs' : w'.outOfSync with _ | _
  · rfl
  · rw [hcl.stale hs'] at hs
    cases hs

theorem resetWiring_eq {w : Wiring} (hw : g.wiring? n = some w) :
    g.resetWiring n = [Port.input, .extended, .output].foldl (fun g port => g.clearPort n port)
      (w.instances.values.foldl discardInstance (w.processes.values.foldl destroyProcess (g.modifyWiring n Wiring.unwired))) := by
  rw [resetWiring]
  simp only [hw]
  rfl

theorem resetWiring_none (hw : g.wiring? n = none) : g.resetWiring n = g := by
  rw [resetWiring]
  simp only [hw]

/-- A reset of a node of `D` leaves it blank. -/
theorem SoundBut.cleared_resetWiring (h : SoundBut D hands g) (hl : g.Listed fun _ => False) (hn : D n) :
    Cleared D (fun _ => False) hands g (g.resetWiring n) ∧ (g.resetWiring n).Blank n := by
  rcases hw : g.wiring? n with _ | w
  · rw [resetWiring_none hw]
    refine ⟨.refl h hl, ⟨fun id i hi ho => ?_, fun id p hp ho => ?_, fun port x k => by rw [cell?, hw]; rfl, fun w' k hw' => ?_⟩, ?_⟩
    · obtain ⟨w', hw', -⟩ := hl.instances id i hi not_false
      rw [ho, hw] at hw'
      cases hw'
    · obtain ⟨w', hw', -⟩ := hl.processes id p hp not_false
      rw [ho, hw] at hw'
      cases hw'
    · rw [hw] at hw'
      cases hw'
    · rintro ⟨w', hw', -⟩
      rw [hw] at hw'
      cases hw'
  have h₁ := h.cleared_unwired hl hn
  -- what the node remembers is its own
  obtain ⟨h₂, hp₂⟩ := Cleared.foldl (f := destroyProcess) (P := fun id g => ∀ p : Process, g.processes[id]? = some p → D p.owner)
    (Q := fun id g => g.processes[id]? = none)
    (fun id g g' hP hc p hp => by
      obtain ⟨u, hu⟩ := hc.fades.processesOf id p hp
      exact hP { p with uses := u } hu)
    (fun id g g' hQ hc => hc.fades.processes_eq_none hQ) (fun g id h hl hP => h.cleared_destroyProcess hl hP) w.processes.values h₁.sound
    h₁.listed fun id hid p hp => by
      obtain ⟨k, hk⟩ := Table.mem_values.1 hid
      rw [hl.processOwner n w k id p hw hk hp]
      exact hn
  obtain ⟨h₃, hi₃⟩ := Cleared.foldl (f := discardInstance) (P := fun id g => ∀ i : Instance, g.instances[id]? = some i → D i.owner)
    (Q := fun id g => g.instances[id]? = none)
    (fun id g g' hP hc i hi => by
      obtain ⟨u, hu⟩ := hc.fades.instancesOf id i hi
      exact hP { i with uses := u } hu)
    (fun id g g' hQ hc => hc.fades.instances_eq_none hQ) (fun g id h hl hP => h.cleared_discardInstance hl hP) w.instances.values h₂.sound
    h₂.listed fun id hid i hi => by
      obtain ⟨k, hk⟩ := Table.mem_values.1 hid
      obtain ⟨u, hu⟩ := (h₁.fades.trans h₂.fades).instancesOf id i hi
      have ho : i.owner = n := hl.instanceOwner n w k id { i with uses := u } hw hk hu
      rw [ho]
      exact hn
  obtain ⟨h₄, hc₄⟩ := Cleared.foldl (f := fun g port => g.clearPort n port) (P := fun _ _ => True)
    (Q := fun port g => ∀ x k, g.cell? n port x k = none)
    (fun _ _ _ _ _ => trivial) (fun port g g' hQ hc x k => hc.fades.cell?_eq_none (hQ x k))
    (fun g port h hl _ => h.cleared_clearPort hl hn port) [Port.input, .extended, .output] h₃.sound h₃.listed fun _ _ => trivial
  have hall := ((h₁.trans h₂).trans h₃).trans h₄
  rw [resetWiring_eq hw]
  have hinst : ∀ (id : InstanceId) (i : Instance), ([Port.input, .extended, .output].foldl (fun g port => g.clearPort n port)
      (w.instances.values.foldl discardInstance (w.processes.values.foldl destroyProcess (g.modifyWiring n Wiring.unwired)))).instances[id]? =
        some i → i.owner ≠ n := by
    intro id i hi ho
    obtain ⟨u, hu⟩ := hall.fades.instancesOf id i hi
    obtain ⟨w', hw', hk⟩ := hl.instances id _ hu not_false
    rw [ho, hw] at hw'
    cases hw'
    have := h₄.fades.instances_eq_none (hi₃ id (Table.mem_values.2 ⟨_, hk⟩))
    rw [this] at hi
    cases hi
  have hproc : ∀ (id : ProcessId) (p : Process), ([Port.input, .extended, .output].foldl (fun g port => g.clearPort n port)
      (w.instances.values.foldl discardInstance (w.processes.values.foldl destroyProcess (g.modifyWiring n Wiring.unwired)))).processes[id]? =
        some p → p.owner ≠ n := by
    intro id p hp ho
    obtain ⟨u, hu⟩ := hall.fades.processesOf id p hp
    obtain ⟨w', hw', hk⟩ := hl.processes id _ hu not_false
    rw [ho, hw] at hw'
    cases hw'
    have := (h₃.fades.trans h₄.fades).processes_eq_none (hp₂ id (Table.mem_values.2 ⟨_, hk⟩))
    rw [this] at hp
    cases hp
  have hun : (g.modifyWiring n Wiring.unwired).wiring? n = some w.unwired := by
    rw [wiring?_modifyWiring, if_pos rfl, hw]
    rfl
  have hrest := (h₂.fades.trans h₃.fades).trans h₄.fades
  refine ⟨{ hall with listed := ?_ }, ⟨hinst, hproc, fun port x k => ?_, fun w' k hw' => ?_⟩, ?_⟩
  · refine ⟨fun id i hi _ => hall.listed.instances id i hi (hinst id i hi), fun id p hp _ => hall.listed.processes id p hp (hproc id p hp),
      hall.listed.instanceOwner, hall.listed.processOwner⟩
  · exact hc₄ port (by cases port <;> simp) x k
  · obtain ⟨w'', hcl, hw''⟩ := hrest.wiring hw'
    rw [hun] at hw''
    cases hw''
    refine ⟨?_, ?_⟩
    · rcases hk : w'.instances[k]? with _ | id
      · rfl
      · have := hcl.instances k id hk
        rw [Wiring.unwired, Std.ExtTreeMap.getElem?_empty] at this
        cases this
    · rcases hk : w'.processes[k]? with _ | id
      · rfl
      · have := hcl.processes k id hk
        rw [Wiring.unwired, Std.ExtTreeMap.getElem?_empty] at this
        cases this
  · rintro ⟨w', hw', hs⟩
    obtain ⟨w'', hcl, hw''⟩ := hrest.wiring hw'
    rw [hun] at hw''
    cases hw''
    rw [hcl.stale rfl] at hs
    cases hs

end Graph

end Dataflow
