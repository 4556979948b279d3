import Dataflow.Proofs.Carried

/-!
# What is upstream of an outlet

What a channel holds is written by processes, from channels that they read, and so on. While an outlet is ready, all that is upstream of it
has run, and no call changes any of it without sending the outlet back: what is built or taken down leaves what both graphs have, running
leaves what has run, and a change of an entry finds its way down to the outlet.
-/

namespace Dataflow

/-- A process, up to its state and its uses. -/
def Process.bare (p : Process) : Process := { p with state := .unprocessed, uses := 0 }

namespace Graph

variable {g g' g'' : Graph} {id : OutletId} {o o' : Outlet} {c : ChannelId} {k : ProcessId} {e : EntryId}

/-- A channel is upstream of an outlet that publishes it, or for which a process works that reads it. -/
def Upstream (g : Graph) (id : OutletId) (c : ChannelId) : Prop :=
  (∃ (o : Outlet) (x : String), g.outlets[id]? = some o ∧ o.channels[x]? = some c) ∨
    ∃ (k : ProcessId) (p : Process), g.WorksFor id k ∧ g.processes[k]? = some p ∧ some c ∈ p.inputs

/-- An entry informs an outlet when a channel upstream holds it, or when a process writes it that works for the outlet. -/
def Informs (g : Graph) (id : OutletId) (e : EntryId) : Prop :=
  (∃ c, g.Upstream id c ∧ g.store.Holds c e) ∨ ∃ (k : ProcessId) (p : Process), g.WorksFor id k ∧ g.processes[k]? = some p ∧ e ∈ p.writes

/-! ## The same upstream -/

/-- What leads to the outlet is the same: the channels that it publishes, those who write these, what they read, and so on. -/
structure SameCourse (g g' : Graph) (id : OutletId) : Prop where
  channels : (g'.outlets[id]?).map (·.channels) = (g.outlets[id]?).map (·.channels)
  slots : ∀ c, g.Upstream id c → g'.store.slots c = g.store.slots c
  processes : ∀ k, g.WorksFor id k → (g'.processes[k]?).map Process.bare = (g.processes[k]?).map Process.bare

/-- The outlet shows the same, and what is upstream of it is the same: processes are in the same state, and entries hold the same. -/
structure SameUpstream (g g' : Graph) (id : OutletId) : Prop extends SameCourse g g' id where
  outlet : ∃ o o' : Outlet, g.outlets[id]? = some o ∧ g'.outlets[id]? = some o' ∧ o.Echoes o'
  states : ∀ k, g.WorksFor id k → (g'.processes[k]?).map (·.state) = (g.processes[k]?).map (·.state)
  entries : ∀ e, g.Informs id e → g'.entryAt? e = g.entryAt? e

namespace SameCourse

theorem exists_outlet (h : g.SameCourse g' id) (ho : g.outlets[id]? = some o) : ∃ o' : Outlet, g'.outlets[id]? = some o' ∧ o'.channels = o.channels := by
  have hch := h.channels
  rw [ho] at hch
  exact Option.map_eq_some_iff.1 hch

theorem exists_process (h : g.SameCourse g' id) (hk : g.WorksFor id k) {p : Process} (hp : g.processes[k]? = some p) :
    ∃ p' : Process, g'.processes[k]? = some p' ∧ p'.bare = p.bare := by
  have hb := h.processes k hk
  rw [hp] at hb
  exact Option.map_eq_some_iff.1 hb

theorem worksFor (h : g.SameCourse g' id) (hk : g.WorksFor id k) : g'.WorksFor id k := by
  induction hk with
  | @writes o x c j ho hc hj =>
    obtain ⟨o', ho', hch⟩ := h.exists_outlet ho
    refine .writes ho' (hch ▸ hc) ?_
    rw [Store.creators, h.slots c (.inl ⟨o, x, ho, hc⟩)]
    exact hj
  | awaited hj hp hk ih =>
    obtain ⟨p', hp', hb⟩ := h.exists_process hj hp
    exact ih.awaited hp' (congrArg Process.children hb ▸ hk)

/-- The way back leads to the same processes. -/
theorem worksFor_iff (h : g.SameCourse g' id) : g'.WorksFor id k ↔ g.WorksFor id k := by
  refine ⟨fun hk => ?_, h.worksFor⟩
  induction hk with
  | @writes o' x c j ho' hc hj =>
    have hch := h.channels
    rw [ho'] at hch
    obtain ⟨o, ho, hch⟩ := Option.map_eq_some_iff.1 hch.symm
    have hc : o.channels[x]? = some c := hch ▸ hc
    rw [Store.creators, h.slots c (.inl ⟨o, x, ho, hc⟩)] at hj
    exact .writes ho hc hj
  | @awaited j k p' _ hp' hk ih =>
    have hb := h.processes j ih
    rw [hp'] at hb
    obtain ⟨p, hp, hb⟩ := Option.map_eq_some_iff.1 hb.symm
    exact ih.awaited hp (congrArg Process.children hb ▸ hk)

theorem upstream (h : g.SameCourse g' id) (hc : g.Upstream id c) : g'.Upstream id c := by
  rcases hc with ⟨o, x, ho, hx⟩ | ⟨k, p, hk, hp, hin⟩
  · obtain ⟨o', ho', hch⟩ := h.exists_outlet ho
    exact .inl ⟨o', x, ho', hch ▸ hx⟩
  · obtain ⟨p', hp', hb⟩ := h.exists_process hk hp
    exact .inr ⟨k, p', h.worksFor hk, hp', congrArg Process.inputs hb ▸ hin⟩

theorem symm (h : g.SameCourse g' id) : g'.SameCourse g id := by
  have hup : ∀ {c}, g'.Upstream id c → g.Upstream id c := by
    rintro c (⟨o', x, ho', hx⟩ | ⟨k, p', hk, hp', hin⟩)
    · have hch := h.channels
      rw [ho'] at hch
      obtain ⟨o, ho, hch⟩ := Option.map_eq_some_iff.1 hch.symm
      exact .inl ⟨o, x, ho, hch ▸ hx⟩
    · have hb := h.processes k (h.worksFor_iff.1 hk)
      rw [hp'] at hb
      obtain ⟨p, hp, hb⟩ := Option.map_eq_some_iff.1 hb.symm
      exact .inr ⟨k, p, h.worksFor_iff.1 hk, hp, congrArg Process.inputs hb ▸ hin⟩
  exact ⟨h.channels.symm, fun c hc => (h.slots c (hup hc)).symm, fun k hk => (h.processes k (h.worksFor_iff.1 hk)).symm⟩

theorem trans (h : g.SameCourse g' id) (h' : g'.SameCourse g'' id) : g.SameCourse g'' id :=
  ⟨h'.channels.trans h.channels, fun c hc => (h'.slots c (h.upstream hc)).trans (h.slots c hc),
    fun k hk => (h'.processes k (h.worksFor hk)).trans (h.processes k hk)⟩

/-- The same entries inform the outlet. -/
theorem informs (h : g.SameCourse g' id) (he : g.Informs id e) : g'.Informs id e := by
  rcases he with ⟨c, hc, y, hy, rfl⟩ | ⟨k, p, hk, hp, hw⟩
  · exact .inl ⟨c, h.upstream hc, y, by rwa [h.slots c hc], rfl⟩
  · obtain ⟨p', hp', hb⟩ := h.exists_process hk hp
    have hout : p'.bare.writes = p.bare.writes := congrArg Process.writes hb
    exact .inr ⟨k, p', h.worksFor hk, hp', hout ▸ hw⟩

end SameCourse

namespace SameUpstream

theorem symm (h : g.SameUpstream g' id) : g'.SameUpstream g id := by
  have hc := h.toSameCourse.symm
  obtain ⟨o, o', ho, ho', he⟩ := h.outlet
  exact ⟨hc, ⟨o', o, ho', ho, he.owner.symm, he.channels.symm, he.result.symm, he.status.symm⟩,
    fun k hk => (h.states k (hc.worksFor hk)).symm, fun e he => (h.entries e (hc.informs he)).symm⟩

theorem trans (h : g.SameUpstream g' id) (h' : g'.SameUpstream g'' id) : g.SameUpstream g'' id := by
  have hc := h.toSameCourse
  obtain ⟨o, o₁, ho, ho₁, he⟩ := h.outlet
  obtain ⟨o₁', o₂, ho₁', ho₂, he'⟩ := h'.outlet
  cases ho₁.symm.trans ho₁'
  exact ⟨hc.trans h'.toSameCourse, ⟨o, o₂, ho, ho₂, he.trans he'⟩, fun k hk => (h'.states k (hc.worksFor hk)).trans (h.states k hk),
    fun e he => (h'.entries e (hc.informs he)).trans (h.entries e he)⟩

/-- Nothing that matters to the outlet differs. -/
theorem of_same (ho : g.outlets[id]? = some o) (hout : g'.outlets[id]? = g.outlets[id]?) (hproc : g'.processes = g.processes)
    (hstore : g'.store = g.store) : g.SameUpstream g' id where
  channels := by rw [hout]
  slots _ _ := by rw [hstore]
  processes _ _ := by rw [hproc]
  outlet := ⟨o, o, ho, hout.trans ho, .refl o⟩
  states _ _ := by rw [hproc]
  entries _ _ := by rw [entryAt?, hstore, entryAt?]

/-- A process that works for the outlet is the same, but for its uses. -/
theorem exists_worker (h : g.SameUpstream g' id) (hk : g.WorksFor id k) {p : Process} (hp : g.processes[k]? = some p) :
    ∃ u, g'.processes[k]? = some { p with uses := u } := by
  obtain ⟨p', hp', hb⟩ := h.exists_process hk hp
  have hs := h.states k hk
  rw [hp, hp'] at hs
  refine ⟨p'.uses, hp'.trans (congrArg some ?_)⟩
  have hstate : p'.state = p.state := Option.some.inj hs
  obtain ⟨owner, key, op, inputs, outputs, children, state, uses⟩ := p
  obtain ⟨owner', key', op', inputs', outputs', children', state', uses'⟩ := p'
  simp only [Process.bare, Process.mk.injEq] at hb hstate ⊢
  exact ⟨hb.1, hb.2.1, hb.2.2.1, hb.2.2.2.1, hb.2.2.2.2.1, hb.2.2.2.2.2.1, hstate, trivial⟩

end SameUpstream

/-! ## Tended graphs -/

/-- What writes a slot that is grounded is there. -/
theorem Grounded.exists_creator {y : Slot Float32} (h : g.Grounded y) (hk : y.creator = some k) :
    ∃ q : Process, g.processes[k]? = some q ∧ y.entry ∈ q.writes := by
  have hc := h.2
  rw [hk] at hc
  exact hc

namespace Tended

variable (h : g.Tended)

include h

/-- What is upstream is in the store; what it holds is there, and written by nobody, or by a process that works for the outlet. -/
theorem upstream (hc : g.Upstream id c) : (g.store.wire? c).isSome ∧
    ∀ y ∈ g.store.slots c, g.Grounded y ∧ ∀ j, y.creator = some j → g.WorksFor id j := by
  rcases hc with ⟨o, x, ho, hx⟩ | ⟨k, p, hk, hp, hin⟩
  · exact ⟨h.wire_of_outlet ho hx, fun y hy => ⟨h.grounded ho hx y hy, fun j hj => .writes ho hx (List.mem_filterMap.2 ⟨y, hy, hj⟩)⟩⟩
  · obtain ⟨-, hw, hall⟩ := h.sound.reads hp not_false hin
    exact ⟨hw, fun y hy => ⟨(hall y hy).1, fun j hj => hk.awaited hp ((hall y hy).2 j hj)⟩⟩

theorem exists_worker (hk : g.WorksFor id k) : ∃ p : Process, g.processes[k]? = some p := by
  cases hk with
  | writes ho hx hj =>
    obtain ⟨y, hy, hcr⟩ := List.mem_filterMap.1 hj
    exact ((h.grounded ho hx y hy).exists_creator hcr).imp fun _ hq => hq.1
  | awaited _ hp hk => exact Option.isSome_iff_exists.1 ((h.sound.process _ _ hp not_false).children _ hk).2

theorem isSome_of_informs (he : g.Informs id e) : (g.entryAt? e).isSome := by
  rcases he with ⟨c, hc, y, hy, rfl⟩ | ⟨k, p, -, hp, hw⟩
  · exact ((h.upstream hc).2 y hy).1.isSome_entry
  · obtain ⟨b, hb, rfl⟩ := List.mem_map.1 hw
    exact (h.sound.fits hp).2 b hb

/-- What writes an entry that informs the outlet works for it. -/
theorem worksFor_of_informs (he : g.Informs id e) {p : Process} (hp : g.processes[k]? = some p) (hw : e ∈ p.writes) : g.WorksFor id k := by
  have hsole : ∀ {j : ProcessId} {q : Process}, g.processes[j]? = some q → e ∈ q.writes → j = k := fun {j q} hq hwq => by
    by_contra hne
    exact (h.sound.process k p hp not_false).apart j q hq hne e hw hwq
  rcases he with ⟨c, hc, y, hy, rfl⟩ | ⟨j, q, hj, hq, hwq⟩
  · obtain ⟨hground, hworks⟩ := (h.upstream hc).2 y hy
    rcases hcr : y.creator with _ | j
    · have hnone := hground.2
      rw [hcr] at hnone
      exact absurd hw (hnone k p hp)
    · obtain ⟨q, hq, hwq⟩ := hground.exists_creator hcr
      exact hsole hq hwq ▸ hworks j hcr
  · exact hsole hq hwq ▸ hj

end Tended

/-! ## Building and taking down -/

/-- Where what both graphs have is retained, what is upstream of a ready outlet stays. -/
theorem Retains.sameUpstream (hr : g.Retains g') (hg : g.Tended) (hg' : g'.Tended) (ho' : g'.outlets[id]? = some o') (hready : o'.status = .ready) :
    g.SameUpstream g' id := by
  obtain ⟨o, ho, he, -⟩ := hr.ready id o' ho' hready
  have hslots : ∀ {c}, (g.store.wire? c).isSome → (g'.store.wire? c).isSome → g'.store.slots c = g.store.slots c := fun hc hc' => by
    obtain ⟨w, hw⟩ := Option.isSome_iff_exists.1 hc
    obtain ⟨w', hw'⟩ := Option.isSome_iff_exists.1 hc'
    exact Store.slots_of_wire?_eq (by rw [hw, hw', hr.concurs.lasts.wire_eq hw hw'])
  have hentry : ∀ {e}, (g.entryAt? e).isSome → (g'.entryAt? e).isSome → g'.entryAt? e = g.entryAt? e := fun hx hx' => by
    obtain ⟨x, hx⟩ := Option.isSome_iff_exists.1 hx
    obtain ⟨x', hx'⟩ := Option.isSome_iff_exists.1 hx'
    rw [hx, hx', hr.concurs.entries _ x x' hx hx']
  -- who works for the outlet works for it in both graphs, from the outlet upwards
  have hworks : ∀ {k}, g.WorksFor id k → g'.WorksFor id k := by
    intro k hk
    induction hk with
    | @writes oo x c j hoo hc hj =>
      cases ho.symm.trans hoo
      have hc' : o'.channels[x]? = some c := he.channels ▸ hc
      refine .writes ho' hc' ?_
      rw [Store.creators, hslots (hg.wire_of_outlet ho hc) (hg'.wire_of_outlet ho' hc')]
      exact hj
    | awaited hj hp hk ih =>
      obtain ⟨p', hp'⟩ := hg'.exists_worker ih
      obtain ⟨u, rfl⟩ := hr.concurs.processes _ _ _ hp hp'
      exact ih.awaited hp' hk
  have hproc : ∀ {k}, g.WorksFor id k → ∃ p u, g.processes[k]? = some p ∧ g'.processes[k]? = some { p with uses := u } := fun hk => by
    obtain ⟨p, hp⟩ := hg.exists_worker hk
    obtain ⟨p', hp'⟩ := hg'.exists_worker (hworks hk)
    obtain ⟨u, rfl⟩ := hr.concurs.processes _ _ _ hp hp'
    exact ⟨p, u, hp, hp'⟩
  have hcourse : g.SameCourse g' id := by
    refine ⟨?_, fun c hc => ?_, fun k hk => ?_⟩
    · rw [ho, ho', Option.map_some, Option.map_some, he.channels]
    · refine hslots (hg.upstream hc).1 ?_
      rcases hc with ⟨oo, x, hoo, hx⟩ | ⟨k, p, hk, hp, hin⟩
      · cases ho.symm.trans hoo
        exact hg'.wire_of_outlet ho' (he.channels ▸ hx)
      · obtain ⟨q, u, hq, hq'⟩ := hproc hk
        cases hp.symm.trans hq
        exact (hg'.sound.reads hq' not_false hin).2.1
    · obtain ⟨p, u, hp, hp'⟩ := hproc hk
      rw [hp, hp']
      rfl
  refine ⟨hcourse, ⟨o, o', ho, ho', he⟩, fun k hk => ?_, fun e he => ?_⟩
  · obtain ⟨p, u, hp, hp'⟩ := hproc hk
    rw [hp, hp']
    rfl
  · exact hentry (hg.isSome_of_informs he) (hg'.isSome_of_informs (hcourse.informs he))

/-! ## Running -/

/-- While the outlet is ready, all that works for it has run. -/
def Rested (g : Graph) (id : OutletId) : Prop := ∀ o : Outlet, g.outlets[id]? = some o → o.status = .ready →
  ∀ (k : ProcessId) (p : Process), g.WorksFor id k → g.processes[k]? = some p → p.state ≠ .unprocessed

theorem SameUpstream.rested (h : g.SameUpstream g' id) (hr : g.Rested id) : g'.Rested id := by
  intro o' ho' hready k p' hk hp'
  obtain ⟨o, o₁, ho, ho₁, he⟩ := h.outlet
  cases ho₁.symm.trans ho'
  obtain ⟨p, hp, -⟩ := h.toSameCourse.symm.exists_process hk hp'
  have hk := h.toSameCourse.worksFor_iff.1 hk
  obtain ⟨u, hu⟩ := h.exists_worker hk hp
  cases hp'.symm.trans hu
  exact hr o ho (he.status.symm.trans hready) k p hk hp

/-- All that works for an outlet has run when what writes its channels has. -/
theorem Current.rested (h : g.Current)
    (hran : ∀ (x : String) (c : ChannelId) (o : Outlet), g.outlets[id]? = some o → o.channels[x]? = some c → ∀ k ∈ g.store.creators c,
      ∀ p : Process, g.processes[k]? = some p → p.state ≠ .unprocessed) : g.Rested id := by
  intro _ _ _ k p hk
  induction hk generalizing p with
  | writes ho hx hj => exact hran _ _ _ ho hx _ hj p
  | @awaited j k q hj hq hk ih => exact fun hp => h.settled j q hq (ih q hq) k hk p hp

/-- Running leaves what has run. -/
theorem Ran.sameUpstream (hr : g.Ran g') (hg : g.Tended) (ho : g.outlets[id]? = some o)
    (hrest : ∀ (k : ProcessId) (p : Process), g.WorksFor id k → g.processes[k]? = some p → p.state ≠ .unprocessed) : g.SameUpstream g' id := by
  have hproc : ∀ k, g.WorksFor id k → g'.processes[k]? = g.processes[k]? := fun k hk => by
    obtain ⟨p, hp⟩ := hg.exists_worker hk
    rw [hp, hr.rested k p hp (hrest k p hk hp)]
  have hout := hr.outlets
  refine ⟨⟨by rw [hout], fun c _ => ?_, fun k hk => by rw [hproc k hk]⟩, ⟨o, o, ho, hout ▸ ho, .refl o⟩, fun k hk => by rw [hproc k hk], fun e he => ?_⟩
  · rw [Store.slots, Store.slots, Store.channel?, Store.channel?, hr.channels]
  · exact hr.kept e fun k p hp hw => hrest k p (hg.worksFor_of_informs he hp hw) hp

/-! ## Changes of entries -/

/-- What makes stale what works for an outlet concerns the outlet. -/
theorem Tended.concerned_of_stale (h : g.Tended) (hk : g.WorksFor id k) (hs : g.Stale e k) : g.Concerned e id := by
  induction hk with
  | @writes o x c j ho hx hj =>
    obtain ⟨y, hy, hcr⟩ := List.mem_filterMap.1 hj
    obtain ⟨q, hq, hw⟩ := (h.grounded ho hx y hy).exists_creator hcr
    exact ⟨y.entry, c, .inr ⟨j, q, hs, hq, hw⟩, ⟨y, hy, rfl⟩, (h.outlet id o ho).listens x c hx⟩
  | @awaited j k p hj hp hk ih =>
    obtain ⟨q, hq⟩ := h.exists_worker (hj.awaited hp hk)
    obtain ⟨c, y, hc, hy, hw⟩ := h.sound.child_writes hp hk hq
    exact ih (.follows hs hq hw ⟨y, hy, rfl⟩ (h.sound.reads hp not_false hc).1)

/-- A change of an authored entry that informs an outlet concerns it. -/
theorem Tended.concerned_of_informs (h : g.Tended) (hauthored : ∀ (k : ProcessId) (p : Process), g.processes[k]? = some p → e ∉ p.writes)
    (he : g.Informs id e) : g.Concerned e id := by
  rcases he with ⟨c, ⟨o, x, ho, hx⟩ | ⟨k, p, hk, hp, hin⟩, hc⟩ | ⟨k, p, -, hp, hw⟩
  · exact ⟨e, c, .inl rfl, hc, (h.outlet id o ho).listens x c hx⟩
  · exact h.concerned_of_stale hk (.reads hc (h.sound.reads hp not_false hin).1)
  · exact absurd hw (hauthored k p hp)

/-- A change of an authored entry leaves what is upstream of the outlets that it does not concern. -/
theorem Spread.sameUpstream (hs : Spread g g' e) (hg : g.Tended) (hauthored : ∀ (k : ProcessId) (p : Process), g.processes[k]? = some p → e ∉ p.writes)
    (ho : g.outlets[id]? = some o) (hc : ¬ g.Concerned e id) : g.SameUpstream g' id := by
  have hout := hs.unconcerned id hc
  have hproc : ∀ k, g.WorksFor id k → g'.processes[k]? = g.processes[k]? := fun k hk =>
    hs.current k fun hstale => hc (hg.concerned_of_stale hk hstale)
  refine ⟨⟨by rw [hout], fun c _ => ?_, fun k hk => by rw [hproc k hk]⟩, ⟨o, o, ho, hout.trans ho, .refl o⟩, fun k hk => by rw [hproc k hk],
    fun e' he' => ?_⟩
  · obtain ⟨_, _, _, _, rfl⟩ := hs.rest
    rfl
  · have hne : e' ≠ e := by
      rintro rfl
      exact hc (hg.concerned_of_informs hauthored he')
    exact congrArg (Option.map StoredEntry.entry) (hs.entries e' hne)

/-! ## Every call -/

/-- What is upstream of an outlet is the same if the outlet is ready afterwards, and everything there had run. -/
def LeavesReady (g g' : Graph) : Prop :=
  ∀ (id : OutletId) (o' : Outlet), g.Rested id → g'.outlets[id]? = some o' → o'.status = .ready → g.SameUpstream g' id

theorem LeavesReady.rested (h : g.LeavesReady g') (hr : g.Rested id) : g'.Rested id :=
  fun o' ho' hready => (h id o' hr ho' hready).rested hr o' ho' hready

theorem LeavesReady.trans (h : g.LeavesReady g') (h' : g'.LeavesReady g'') : g.LeavesReady g'' := by
  intro id o'' hr ho'' hready
  have hlast := h' id o'' (h.rested hr) ho'' hready
  obtain ⟨o', o₂, ho', ho₂, he⟩ := hlast.outlet
  cases ho₂.symm.trans ho''
  exact (h id o' hr ho' (he.status.symm.trans hready)).trans hlast

theorem carries_leavesReady : Carries LeavesReady where
  trans _ _ _ h h' := h.trans h'
  retained _ _ hg hg' hr _ _ _ ho' hready := hr.sameUpstream hg.tended hg'.tended ho' hready
  ran g roots hg id o' hrest ho' hready := by
    obtain ⟨hr, -, -⟩ := hg.current.runAll hg.tended.sound hg.named roots
    have ho : g.outlets[id]? = some o' := hr.outlets ▸ ho'
    exact hr.sameUpstream hg.tended ho (hrest o' ho hready)

/-- A change of an authored entry sends back whom it concerns. -/
theorem Spread.leavesReady (hs : Spread g g' e) (hg : g.Tended)
    (hauthored : ∀ (k : ProcessId) (p : Process), g.processes[k]? = some p → e ∉ p.writes) : g.LeavesReady g' := by
  intro id o' _ ho' hready
  have hc := hs.not_concerned ho' hready
  rw [hs.unconcerned id hc] at ho'
  exact hs.sameUpstream hg hauthored ho' hc

/-- Which outlets there are does not matter for what runs. -/
theorem Ran.with_outlets (h : g.Ran g') (outlets : IdMap Outlet) : Ran { g with outlets } { g' with outlets } := by
  refine ⟨⟨?_, h.types, h.mirrored, h.processes⟩, rfl, h.requests, h.kept, h.rested⟩
  obtain ⟨_, _, _, _, _, _, rfl⟩ := h.rest
  exact ⟨_, _, _, _, _, _, rfl⟩

/-- Bringing another outlet up to date leaves what is upstream of one that is ready. -/
theorem Consistent.sameUpstream_resolve (h : g.Consistent) {j : OutletId} {oj : Outlet} (hj : g.outlets[j]? = some oj) (ho : g.outlets[id]? = some o)
    (hready : o.status = .ready) (hrest : g.Rested id) : g.SameUpstream (g.resolve j) id := by
  by_cases hs : oj.status = .ready
  · rw [resolve_of_ready hj hs]
    exact .of_same ho rfl rfl rfl
  have hid : id ≠ j := by
    rintro rfl
    cases ho.symm.trans hj
    exact hs hready
  obtain ⟨g₁, o₁, he, -, hp⟩ := h.poised hj hs
  have hsound : SoundBut (fun _ => False) _ g₁ := hp.tended.sound.aside g₁.outlets g₁.requests g₁.plans g₁.journal
  obtain ⟨g', journal, hr, -, -, hre⟩ := refresh_spec hp.current hsound (hp.keeps.registry ▸ h.named) hp.outlet oj.owner
  have hother : ∀ (g : Graph) f, (g.modifyOutlet j f).outlets[id]? = g.outlets[id]? := fun g f => by rw [get_outlets_modifyOutlet, if_neg hid]
  have ho₁ : (g₁.modifyOutlet j ({ · with status := .needsData })).outlets[id]? = some o := by rw [hother, hp.others id hid, ho]
  have hbuilt : g.SameUpstream (g₁.modifyOutlet j ({ · with status := .needsData })) id := hp.retains.sameUpstream h.tended hp.tended ho₁ hready
  have hran := (hr.with_outlets (g₁.modifyOutlet j ({ · with status := .needsData })).outlets).sameUpstream hp.tended ho₁
    (hbuilt.rested hrest o ho₁ hready)
  refine (hbuilt.trans hran).trans (.of_same ho₁ ?_ ?_ ?_)
  · rw [he, hre, hother, hother]
    exact congrArg (·[id]?) hr.outlets
  · rw [he, hre]
    rfl
  · rw [he, hre]
    rfl

/-- Bringing an outlet up to date runs all that works for it. -/
theorem Consistent.rested_resolve (h : g.Consistent) {j : OutletId} {oj : Outlet} (hj : g.outlets[j]? = some oj) (hrest : g.Rested id) :
    (g.resolve j).Rested id := by
  by_cases hs : oj.status = .ready
  · rw [resolve_of_ready hj hs]
    exact hrest
  by_cases hid : id = j
  · subst hid
    obtain ⟨g₁, o₁, he, -, hp⟩ := h.poised hj hs
    have hsound : SoundBut (fun _ => False) _ g₁ := hp.tended.sound.aside g₁.outlets g₁.requests g₁.plans g₁.journal
    obtain ⟨g', journal, hr, -, hran, hre⟩ := refresh_spec hp.current hsound (hp.keeps.registry ▸ h.named) hp.outlet oj.owner
    have hcons : (g.resolve id).Consistent := ((h.resolve hj).upholds fun _ => False).consistent
    rw [he, hre] at hcons ⊢
    refine hcons.current.rested fun x c o ho hx k hk p hp' => hran k ?_ p hp'
    rw [get_outlets_modifyOutlet, if_pos rfl, show ({ g' with journal } : Graph).outlets[id]? = some o₁ from hr.outlets ▸ hp.outlet] at ho
    cases ho
    refine List.mem_flatMap.2 ⟨c, Table.mem_values.2 ⟨x, hx⟩, ?_⟩
    have hch : g'.store.channels = g₁.store.channels := hr.channels
    rw [Store.creators, Store.slots, Store.channel?, ← hch]
    exact hk
  · intro o' ho' hready
    have ho : g.outlets[id]? = some o' := (h.outlets_resolve hj (.inl hid)).symm.trans ho'
    exact (h.sameUpstream_resolve hj ho hready hrest).rested hrest o' ho' hready

theorem carries_rested (id : OutletId) : Carries fun g g' => g.Rested id → g'.Rested id where
  trans _ _ _ h h' := h' ∘ h
  retained g g' hg hg' hr := (carries_leavesReady.retained g g' hg hg' hr).rested
  ran g roots hg := (carries_leavesReady.ran g roots hg).rested

/-- A regular call changes no entry that a process writes. -/
theorem Regular.not_written {call : Call} (hc : g.Regular call) {f : Entry → Except Error Entry} (hup : call.update = some (e, f))
    (k : ProcessId) (p : Process) (hp : g.processes[k]? = some p) : e ∉ p.writes := by
  have hall : ∀ p ∈ g.processes.values, e ∉ p.writes := by
    cases call <;> cases hup <;> exact hc
  exact hall p (Table.mem_values.2 ⟨k, hp⟩)

section Step

variable {call : Call} (hg : g.Maintained) (hc : g.Regular call)

include hg hc

theorem Maintained.leavesReady_update {f : Entry → Except Error Entry} (hup : call.update = some (e, f)) : g.settled.LeavesReady (g.step call) := by
  rcases hg.update_cases hup with heq | ⟨hs, -⟩
  · rw [heq]
    exact fun id o' _ ho' _ => .of_same ho' rfl rfl rfl
  · have hjournal : g.settled.LeavesReady g := fun id o' _ ho' _ => .of_same ho' rfl rfl rfl
    exact hjournal.trans (hs.leavesReady hg.consistent.tended (hc.not_written hup))

/-- Where all that works for an outlet has run while it is ready, it still has after a regular call. -/
theorem Maintained.rested_step (hrest : g.Rested id) : (g.step call).Rested id :=
  (carries_rested id).step (fun _ _ _ _ hg ho hrest => hg.rested_resolve ho hrest) hg hc (fun _ _ hup => (hg.leavesReady_update hc hup).rested) hrest

/-- What is upstream of an outlet that is ready before a regular call and after it is the same. -/
theorem Maintained.sameUpstream_step (hrest : g.Rested id) (ho : g.outlets[id]? = some o) (hready : o.status = .ready)
    (ho' : (g.step call).outlets[id]? = some o') (hready' : o'.status = .ready) : g.SameUpstream (g.step call) id := by
  have hsettled : g.SameUpstream g.settled id := .of_same ho rfl rfl rfl
  by_cases hp : call.pulls = true
  · obtain ⟨g₁, hg₁, hrepeats, hto, hend⟩ := hg.consistent.settled.pulls_cases hp
    obtain ⟨o₁, ho₁, he⟩ := hrepeats id o ho
    have hready₁ : o₁.status = .ready := he.status.trans hready
    have hbuilt := hto _ carries_leavesReady id o₁ (hsettled.rested hrest) ho₁ hready₁
    refine hsettled.trans (hbuilt.trans ?_)
    rw [show g.step call = (g.settled.perform call).1 from rfl]
    rcases hend with heq | ⟨j, oj, hj, heq⟩ <;> rw [heq]
    · exact .of_same ho₁ rfl rfl rfl
    · exact hg₁.sameUpstream_resolve hj ho₁ hready₁ (hbuilt.rested (hsettled.rested hrest))
  · exact carries_leavesReady.step (fun _ _ _ hp' => absurd hp' hp) hg hc (fun _ _ => hg.leavesReady_update hc) id o' hrest ho' hready'

end Step

theorem rested_new (registry : Registry) (config : Config) (id : OutletId) : (new registry config).Rested id :=
  fun o ho => absurd ho (get_outlets_new registry config id o)

/-- All regular calls keep it so. -/
theorem Maintained.rested_after {calls : List Call} (hg : g.Maintained) (hc : g.Throughout Regular calls) (hrest : g.Rested id) :
    (g.after calls).Rested id := by
  induction calls generalizing g with
  | nil => exact hrest
  | cons c calls ih => exact ih (hg.step hc.1).1 hc.2 (hg.rested_step hc.1 hrest)

end Graph

end Dataflow
