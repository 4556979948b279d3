import Dataflow.Graph.Instantiate
import Dataflow.Proofs.Operate

/-!
# What acquiring adds

Acquiring an instance brings nodes below into sync and adds instances, processes and channels; every channel that was there stays as
it is, and so does every node that is not below. It gives a live instance of the node under the substitution as far as the node
depends on it. What has to hold before, what holds after and what holds in between while an instance is built is stated here.
-/

namespace Dataflow

namespace Graph

variable {R : Substitution → Prop} {hands : List InstanceId} {busy : List ProcessId} {g g' g'' : Graph} {n r : NodeId}
  {s t : Substitution}

/-! ## Synchronizing a sound graph -/

namespace Synced

variable (h : g.Synced g')

include h

theorem instances : g'.instances = g.instances := by
  obtain ⟨ns, j, rfl⟩ := h.rest
  rfl

theorem processes : g'.processes = g.processes := by
  obtain ⟨ns, j, rfl⟩ := h.rest
  rfl

theorem store : g'.store = g.store := by
  obtain ⟨ns, j, rfl⟩ := h.rest
  rfl

theorem lastId : g'.lastId = g.lastId := by
  obtain ⟨ns, j, rfl⟩ := h.rest
  rfl

/-- A wiring stays, or was out of sync and has no cells now. -/
theorem wiring (m : NodeId) : g'.wiring? m = g.wiring? m ∨
    ∃ w t, g.wiring? m = some w ∧ w.outOfSync = true ∧ g'.wiring? m = some (w.ofTables t) := by
  rcases h.rewired.data? m with hm | ⟨d, w, hd, ⟨ho, t, rfl⟩, hd'⟩
  · exact .inl (by rw [wiring?, hm, wiring?])
  · exact .inr ⟨d.wiring, t, wiring?_of_data? hd, ho, wiring?_of_data? hd'⟩

theorem wiring_of_inSync {m : NodeId} (hm : g.InSync m) : g'.wiring? m = g.wiring? m := by
  rcases h.wiring m with hw | ⟨w, t, hw, ho, -⟩
  · exact hw
  · obtain ⟨w', hw', hs⟩ := hm
    rw [hw] at hw'
    cases hw'
    rw [ho] at hs
    cases hs

theorem cell? {m : NodeId} {port : Port} {x k : String} {c : Cell} (hc : g'.cell? m port x k = some c) :
    g.cell? m port x k = some c := by
  rcases h.wiring m with hw | ⟨w, t, hw, -, hw'⟩
  · rw [Graph.cell?, hw] at hc
    exact hc
  · rw [cell?_of_wiring? hw'] at hc
    have hnone : ((w.ofTables t).map port).at? x k = none := by cases port <;> exact ChannelMap.at?_ofTable ..
    rw [hnone] at hc
    cases hc

theorem extending (hs : g.Sound R hands busy) : g.Extends g' := by
  refine ⟨h.registry, h.rewired.mono ?_, fun id i hi => ⟨i.uses, by rw [h.instances]; exact hi⟩,
    fun id p hp => ⟨p.uses, by rw [h.processes]; exact hp⟩, fun id p hp => .inl ?_, fun id i hi port x => ?_, by rw [h.store],
    by rw [h.store], fun e x hx => by rw [h.store]; exact hx, fun c w _ hw => by rw [h.store]; exact hw,
    fun c l _ hl => by rw [h.store]; exact hl⟩
  · rintro m w w' ⟨ho, t, rfl⟩
    have hne : ∀ {P : Prop}, w.outOfSync = false → P := fun hs => by rw [ho] at hs; cases hs
    exact ⟨fun port => by cases port <;> rfl, fun hs => hne hs, fun hs => hne hs, fun hs => hne hs, fun hs => hne hs⟩
  · rw [h.processes] at hp
    rw [hp]
    rfl
  · have hw := h.wiring_of_inSync (hs.faithful id i hi).1.inSync
    rw [chan, chan, Graph.cell?, hw, keyAt, paramsAt, Graph.table, hw]
    rfl

/-- Synchronizing keeps a graph sound. -/
theorem sound (hs : g.Sound R hands busy) (hw' : g'.Wired) : g'.Sound R hands busy := by
  have he := h.extending hs
  have hi := h.instances
  have hp := h.processes
  have hst := h.store
  have hcell : ∀ {m port x k c}, g'.cell? m port x k = some c → g.cell? m port x k = some c ∧ g.InSync m := by
    intro m port x k c hc
    have hc := h.cell? hc
    refine ⟨hc, ?_⟩
    by_contra hm
    rw [hs.stocked.blank m port x k hm] at hc
    cases hc
  have hmemo : ∀ m w', g'.wiring? m = some w' → ∃ w, g.wiring? m = some w ∧ w'.instances = w.instances ∧
      w'.processes = w.processes := by
    intro m w' hw
    rcases h.wiring m with he | ⟨w, t, hw'', -, he⟩
    · exact ⟨w', he ▸ hw, rfl, rfl⟩
    · rw [hw] at he
      cases he
      exact ⟨w, hw'', rfl, rfl⟩
  refine ⟨h.rewired.authored hs.authored, hw', fun n l e hl hle => he.leaves hs hl hle, ⟨fun m port o ho => ?_,
    fun m port m' port' o ho ho' => ?_⟩, ⟨fun id i h' => ?_, fun id p h' => ?_, fun m w k id hw => ?_, fun m w k id hw => ?_⟩,
    fun id i h' => ?_, fun id p h' => ?_, ⟨fun id i h' => ?_, fun id h' => ?_, fun id p h' => ?_, fun id h' => ?_⟩,
    ⟨fun m port x k c hc => ?_, fun m port x k c hc => ?_, fun m port x k c x' k' c' ch l o hc hc' hch hch' ho hw => ?_,
      fun m port x k hm => ?_⟩, by rw [hst]; exact hs.mirrored⟩
  · rw [he.mapId] at ho
    rw [hst]
    exact hs.anchored.bounded m port o ho
  · rw [he.mapId] at ho ho'
    exact hs.anchored.injective m port m' port' o ho ho'
  · rw [hi] at h'
    rw [h.lastId]
    exact hs.registered.instanceId id i h'
  · rw [hp] at h'
    rw [h.lastId]
    exact hs.registered.processId id p h'
  · obtain ⟨w', hw', he, -⟩ := hmemo m w hw
    rw [he, hi]
    exact hs.registered.memo m w' k id hw'
  · obtain ⟨w', hw', -, he⟩ := hmemo m w hw
    rw [he, hp]
    exact hs.registered.processMemo m w' k id hw'
  · rw [hi] at h'
    exact ⟨he.faithfulAt hs hw' h' i.uses, (hs.faithful id i h').2⟩
  · rw [hp] at h'
    exact he.processAt hs h' p.uses
  · rw [hi] at h'
    rw [useCount, hi]
    exact hs.counted.uses id i h'
  · rw [hi]
    exact hs.counted.hands id h'
  · rw [hp] at h'
    rw [runCount, hi]
    exact hs.counted.runs id p h'
  · rw [hp]
    exact hs.counted.busy id h'
  · obtain ⟨hc, hm⟩ := hcell hc
    have hk : ∀ u, g'.keyAt m port x u = g.keyAt m port x u := he.keyAt hm port x
    rw [sharers, hi]
    simp only [hk]
    exact hs.stocked.uses m port x k c hc
  · rw [hst]
    exact hs.stocked.channel m port x k c (hcell hc).1
  · rw [he.mapId] at ho
    rw [hst] at hw
    exact hs.stocked.sole m port x k c x' k' c' ch l o (hcell hc).1 (hcell hc').1 hch hch' ho hw
  · rcases hc : g'.cell? m port x k with _ | c
    · rfl
    · exact absurd (he.inSync (hcell hc).2) hm

end Synced

/-! ## Conditions -/

/-- The channels that a substitution binds are known, and belong to no node at or below `n` that depends on a parameter. -/
def Foreign (g : Graph) (n : NodeId) (s : Substitution) : Prop :=
  ∀ c, s.Binds c → g.Known (.channel c) ∧
    ∀ o l, g.store.wire? c = some (o, l) → ∀ k q, g.Below n k → g.Varies k → g.mapId k q ≠ some o

/-- Every cell of a node is in use. -/
def QuietAt (g : Graph) (n : NodeId) : Prop := ∀ port x k c, g.cell? n port x k = some c → c.uses ≠ 0

/-- Templates at or below a node are used in an orderly way, and under substitutions of a class. -/
structure Suited (R : Substitution → Prop) (g : Graph) (n : NodeId) : Prop where
  orderly : ∀ m, g.Below n m → g.OrderlyAt m
  derives : ∀ m, g.Below n m → ∀ d p, g.design? m = some d → d.proto = some p → ∀ t : Substitution, R (t.restrict (g.tableOf p .input).all)

/-- What acquiring an instance of `n` under `s` adds. -/
structure Grown (g g' : Graph) (n : NodeId) (s : Substitution) : Prop where
  extending : g.Extends g'
  wires : ∀ c w, g.store.wire? c = some w → g'.store.wire? c = some w
  listeners : ∀ c l, l ∈ g.store.listenersOf c → l ∈ g'.store.listenersOf c
  nodes : ∀ m, ¬ g.Below n m → g'.node? m = g.node? m
  seen : ∀ c, g'.Seen c → g.Seen c ∨ g.store.channels.next ≤ c ∨ s.Binds c
  lastId : g.lastId ≤ g'.lastId
  drawn : ∀ (id : InstanceId) (i : Instance), g'.instances[id]? = some i → (g.instances[id]?).isSome ∨ g.lastId < id

/-- Processes that belong to no node at or below `n`. -/
def Idle (g : Graph) (busy : List ProcessId) (n : NodeId) : Prop :=
  ∀ id ∈ busy, ∀ p : Process, g.processes[id]? = some p → ¬ g.Below n p.owner

/-- What has to hold for an instance of a node to be acquired. -/
structure Ready (R : Substitution → Prop) (hands : List InstanceId) (busy : List ProcessId) (g : Graph) (n : NodeId)
    (s : Substitution) : Prop where
  sound : g.Sound R hands busy
  suited : Suited R g n
  data : (g.data? n).isSome
  regime : R (s.restrict (g.tableOf n .input).all)
  foreign : g.Foreign n (s.restrict (g.tableOf n .input).all)
  idle : g.Idle busy n
  quiet : ∀ m, g.Below n m → g.QuietAt m

/-- What holds once an instance of a node is acquired. -/
structure Acquired (R : Substitution → Prop) (hands : List InstanceId) (busy : List ProcessId) (g : Graph) (n : NodeId)
    (s : Substitution) (g' : Graph) (j : InstanceId) : Prop where
  sound : g'.Sound R (j :: hands) busy
  grown : g.Grown g' n s
  serves : g'.Serves n s j
  quiet : ∀ m, g.Below n m → g'.QuietAt m

/-- A way to acquire instances of the nodes of rank less than `k`. -/
def Acquires (R : Substitution → Prop) (ρ : NodeId → Nat) (k : Nat) (acquire : Acquire) : Prop :=
  ∀ hands busy g n s, g.Ranked ρ → ρ n < k → Ready R hands busy g n s →
    ∃ g' j, acquire g n s = (g', some j) ∧ Acquired R hands busy g n s g' j

/-! ## Growing -/

namespace Grown

theorem refl (g : Graph) (n : NodeId) (s : Substitution) : g.Grown g n s :=
  ⟨.refl g, fun _ _ h => h, fun _ _ h => h, fun _ _ => rfl, fun _ h => .inl h, Nat.le_refl _,
    fun _ i h => .inl (by rw [h]; rfl)⟩

/-- Growing below a node grows the node. What the inner substitution binds has to come from the outer one, or to be new. -/
theorem trans (h : g.Grown g' n s) (h' : g'.Grown g'' r t) (hr : g.Below n r)
    (ht : ∀ c, t.Binds c → g.Seen c ∨ g.store.channels.next ≤ c ∨ s.Binds c) : g.Grown g'' n s := by
  have hd := h.extending.sameDesign
  refine ⟨h.extending.trans h'.extending, fun c w hw => h'.wires c w (h.wires c w hw),
    fun c l hl => h'.listeners c l (h.listeners c l hl), fun m hm => ?_, fun c hc => ?_, Nat.le_trans h.lastId h'.lastId,
    fun id i hi => ?_⟩
  · exact (h'.nodes m fun hb => hm (hr.trans (hd.below.1 hb))).trans (h.nodes m hm)
  · rcases h'.seen c hc with hc | hc | hc
    · exact h.seen c hc
    · exact .inr (.inl (Nat.le_trans h.extending.next hc))
    · exact ht c hc
  · rcases h'.drawn id i hi with hi | hi
    · obtain ⟨i', hi'⟩ := Option.isSome_iff_exists.1 hi
      exact h.drawn id i' hi'
    · exact .inr (Nat.lt_of_le_of_lt h.lastId hi)

/-- Acquiring for fewer bindings. -/
theorem of_restrict {T : NameSet} (h : g.Grown g' n (s.restrict T)) : g.Grown g' n s :=
  ⟨h.extending, h.wires, h.listeners, h.nodes, fun c hc => (h.seen c hc).imp_right (Or.imp_right .of_restrict), h.lastId, h.drawn⟩

/-- Merging at a port of `n` since `g` had its channels grows `n`. -/
theorem of_refilled {base : Nat} {port : Port} (h : g.Grown g' n s) (hb : g.store.channels.next ≤ base) (he : g'.Extends g'')
    (hr : g'.Refilled g'' n port base) (hseen : ∀ c, g''.Seen c → g'.Seen c) : g.Grown g'' n s := by
  refine ⟨h.extending.trans he, fun c w hw => hr.wires c _ _ (h.wires c w hw) fun _ => Nat.lt_of_lt_of_le (Store.lt_next_of_wire? hw) hb,
    fun c l hl => ?_, fun m hm => ?_, fun c hc => h.seen c (hseen c hc), ?_, fun id i hi => ?_⟩
  · rcases hw : g.store.wire? c with _ | w
    · rw [Store.listenersOf, Option.map_eq_none_iff.1 hw] at hl
      exact absurd hl List.not_mem_nil
    · rw [hr.listeners c _ _ (h.wires c w hw) fun _ => Nat.lt_of_lt_of_le (Store.lt_next_of_wire? hw) hb]
      exact h.listeners c l hl
  · have hmn : m ≠ n := by
      rintro rfl
      exact hm (Leads.refl _)
    exact (hr.nodes m hmn).trans (h.nodes m hm)
  · rw [hr.recached.lastId]
    exact h.lastId
  · rw [hr.recached.instances] at hi
    exact h.drawn id i hi

/-- Acquiring a process of `n` grows `n`. -/
theorem of_operated (h : g.Grown g' n s) (he : g'.Extends g'') (ho : g'.Operated g'' n) : g.Grown g'' n s := by
  refine ⟨h.extending.trans he, fun c w hw => (ho.wires c).trans (h.wires c w hw),
    fun c l hl => ho.listeners c l (h.listeners c l hl), fun m hm => ?_, fun c hc => h.seen c (ho.seen hc),
    Nat.le_trans h.lastId ho.lastId, fun id i hi => ?_⟩
  · have hmn : m ≠ n := by
      rintro rfl
      exact hm (Leads.refl _)
    exact (ho.nodes m hmn).trans (h.nodes m hm)
  · rw [ho.instances] at hi
    exact h.drawn id i hi

theorem known (h : g.Grown g' n s) {f : Feed} (hf : g.Known f) : g'.Known f := h.extending.known hf fun c w _ => h.wires c w

/-- What is foreign stays foreign. -/
theorem foreign (h : g.Grown g' n s) (hs : g.Sound R hands busy) {hands' : List InstanceId} {busy' : List ProcessId}
    (hs' : g'.Sound R hands' busy') (hf : g.Foreign r t) : g'.Foreign r t := by
  intro c hc
  obtain ⟨hk, ho⟩ := hf c hc
  refine ⟨h.known hk, fun o l hw k q hb hv => ?_⟩
  obtain ⟨o', l', hw', -⟩ := hk
  rw [h.wires c _ hw'] at hw
  cases hw
  rw [h.extending.mapId]
  exact ho o l hw' k q (h.extending.sameDesign.below.1 hb)
    ((h.extending.sameDesign.varies_iff hs.authored hs.wired hs'.authored hs'.wired).1 hv)

end Grown

theorem SameDesign.suited (h : g.SameDesign g') (ha : g.Authored) (hw : g.Wired) (ha' : g'.Authored) (hw' : g'.Wired)
    (hs : Suited R g n) : Suited R g' n := by
  refine ⟨fun m hm => h.orderlyAt ha hw ha' hw' (hs.orderly m (h.below.1 hm)), fun m hm d p hd hp t => ?_⟩
  rw [h.tableOf_eq ha hw ha' hw']
  rw [h.design] at hd
  exact hs.derives m (h.below.1 hm) d p hd hp t

theorem Suited.below (h : Suited R g n) (hr : g.Below n r) : Suited R g r :=
  ⟨fun m hm => h.orderly m (hr.trans hm), fun m hm => h.derives m (hr.trans hm)⟩

theorem Foreign.below (h : g.Foreign n s) (hr : g.Below n r) : g.Foreign r s :=
  fun c hc => ⟨(h c hc).1, fun o l hw k q hk => (h c hc).2 o l hw k q (hr.trans hk)⟩

theorem Foreign.restrict (h : g.Foreign n s) (T : NameSet) : g.Foreign n (s.restrict T) := fun c hc => h c hc.of_restrict

/-- A node stays quiet when an instance of another node is acquired. -/
theorem Acquired.quietAt {j : InstanceId} (h : Acquired R hands busy g r s g' j) {m : NodeId} (hm : g.QuietAt m) :
    g'.QuietAt m := by
  by_cases hb : g.Below r m
  · exact h.quiet m hb
  · intro port x k c hc
    rw [cell?, wiring?, data?, h.grown.nodes m hb] at hc
    exact hm port x k c hc

theorem Idle.below (h : g.Idle busy n) (hr : g.Below n r) : g.Idle busy r :=
  fun id hid p hp hb => h id hid p hp (hr.trans hb)

/-- Live processes that are idle stay idle. -/
theorem Idle.of_extends (h : g.Idle busy n) (hb : ∀ id ∈ busy, (g.processes[id]?).isSome) (he : g.Extends g') :
    g'.Idle busy n := by
  intro id hid p hp hbelow
  obtain ⟨q, hq⟩ := Option.isSome_iff_exists.1 (hb id hid)
  obtain ⟨u, hu⟩ := he.processes id q hq
  rw [hp] at hu
  cases hu
  exact h id hid q hq (he.sameDesign.below.1 hbelow)

/-- The order of hands does not matter. -/
theorem Sound.of_perm (h : g.Sound R hands busy) {hands' : List InstanceId} (hp : hands.Perm hands') : g.Sound R hands' busy :=
  { h with
    counted := ⟨fun id i hi => by rw [← hp.count_eq]; exact h.counted.uses id i hi,
      fun id hid => h.counted.hands id (hp.mem_iff.2 hid), h.counted.runs, h.counted.busy⟩ }

/-! ## Where an instance is built -/

/-- A node in sync and a substitution under which an instance of it is built. -/
structure Site (R : Substitution → Prop) (g : Graph) (n : NodeId) (s : Substitution) : Prop where
  inSync : g.InSync n
  regime : R s
  bound : ∀ x c, s.get? x = some c → x ∈ g.params n
  foreign : g.Foreign n s
  orderly : g.OrderlyAt n
  suited : ∀ r ∈ g.references n, Suited R g r

/-- An instance of a node while it is built, since the graph was `g₀`. -/
structure Building (R : Substitution → Prop) (hands : List InstanceId) (busy : List ProcessId) (g₀ : Graph) (n : NodeId)
    (s : Substitution) (g : Graph) : Prop where
  sound : g.Sound R hands busy
  grown : g₀.Grown g n s
  quiet : ∀ m, g.Below n m → m ≠ n → g.QuietAt m
  memo : (g.wiring? n).map (·.instances) = (g₀.wiring? n).map (·.instances)

theorem Site.of_grown (h : Site R g n s) (hs : g.Sound R hands busy) {hands' : List InstanceId} {busy' : List ProcessId}
    (hs' : g'.Sound R hands' busy') (hg : g.Grown g' n s) : Site R g' n s := by
  have hd := hg.extending.sameDesign
  refine ⟨hg.extending.inSync h.inSync, h.regime, ?_, hg.foreign hs hs' h.foreign,
    hd.orderlyAt hs.authored hs.wired hs'.authored hs'.wired h.orderly, fun r hr => ?_⟩
  · rw [hg.extending.params h.inSync]
    exact h.bound
  · rw [hd.references] at hr
    exact hd.suited hs.authored hs.wired hs'.authored hs'.wired (h.suited r hr)

section Site

variable (h : Site R g n s) (hs : g.Sound R hands busy)

include h hs

/-- A node under a substitution that binds something varies. -/
theorem Site.varies {c : ChannelId} (hc : s.Binds c) : g.Varies n := by
  obtain ⟨x, hx⟩ := hc
  obtain ⟨d, hd, hwd⟩ := h.inSync.wiredAt hs.wired
  have := h.bound x c hx
  rw [hwd.params_eq hd] at this
  exact ⟨x, by rw [tableOf_of_inSync hs.authored hs.wired h.inSync]; exact this⟩

/-- No port of the node owns a channel that its substitution binds. -/
theorem Site.mapId_ne {c : ChannelId} (hc : s.Binds c) {o : MapId} {l : List (Slot Float32)} (hw : g.store.wire? c = some (o, l))
    (q : Port) : g.mapId n q ≠ some o := (h.foreign c hc).2 o l hw n q (Leads.refl _) (h.varies hs hc)

/-- Live instances of the node that spell the key of a name that is fed have the name too. -/
theorem Site.shares (hR : Regime R) {port : Port} {x : String} (hx : g.feeds n s x port ≠ []) (id : InstanceId) (i : Instance)
    (hi : g.instances[id]? = some i) (hk : g.keyAt n port x i.substitution = g.keyAt n port x s) :
    g.feeds n i.substitution x port ≠ [] := by
  have ha := hR.keys _ _ _ (hs.faithful id i hi).2 h.regime hk
  rw [feeds_agree hs h.inSync h.orderly ha]
  exact hx

end Site

end Graph

end Dataflow
