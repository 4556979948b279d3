import Dataflow.Proofs.Agree
import Dataflow.Proofs.Drained
import Dataflow.Proofs.Incremental
import Dataflow.Proofs.Merged
import Dataflow.Proofs.Spelled

/-!
# The last source of every key wins

What an instance shows for a name at the input of its node holds, for every key, what the last source of that name has under it, if the
slots of the sources are of one type and their keys are exact. So sources that have no key in common may change places. This is so for all
instances after one more is acquired under bindings to channels of other nodes. It is not so where a name is bound to a channel that the
node made itself: the map takes a channel that it made for one that nothing else uses, and frees it when other slots take its place,
although it is what the name is bound to, and a source still to come.
-/

namespace Dataflow

open KeyArith Sequence

namespace Graph

variable {R : Substitution → Prop} {hands : List InstanceId} {busy : List ProcessId} {τ : Work} {g g' : Graph} {n : NodeId}
  {s : Substitution} {x : String} {c : ChannelId} {o : MapId} {l : List (Slot Float32)} {j : InstanceId} {own : Prop}

/-! ## Channels and the instances that show them -/

/-- Where nothing is being built, every channel is shown by a live instance at the port whose map owns it. -/
theorem Sound.exists_owner (hs : g.Sound R hands busy) (h : Shelved τ g) (hτ : τ.jobs = []) (hc : g.store.wire? c = some (o, l)) :
    ∃ (id : InstanceId) (i : Instance) (port : Port) (x : String),
      g.instances[id]? = some i ∧ g.mapId i.owner port = some o ∧ g.chan i.owner port x i.substitution = some c := by
  obtain ⟨n, port, x, k, cell, hm, hcell, hch⟩ := h.owned c o l hc
  have hin : g.InSync n := by
    by_contra hn
    rw [hs.stocked.blank n port x k hn] at hcell
    cases hcell
  have hshared : g.sharers n port x k ≠ 0 := by
    rw [← hs.stocked.uses n port x k cell hcell]
    intro hzero
    obtain ⟨J, hJ, -⟩ := (h.uses n port x k cell hin hcell).2 hzero
    rw [hτ] at hJ
    cases hJ
  obtain ⟨id, i, hi, rfl, rfl⟩ := sharers_ne_zero.1 hshared
  refine ⟨id, i, port, x, hi, hm, ?_⟩
  rw [chan, hcell, Option.bind_some, hch]

/-- Where nothing is being built, every channel holds what slots that were put in one after the other leave. -/
theorem Sound.exists_insertAll (hs : g.Sound R hands busy) (h : Shelved τ g) (hτ : τ.jobs = []) (c : ChannelId) :
    ∃ xs, g.store.slots c = insertAll g.store.tolerance [] xs := by
  rcases hw : g.store.wire? c with _ | ⟨o, l⟩
  · exact ⟨[], by rw [Store.slots_eq, hw]; rfl⟩
  · obtain ⟨id, i, port, x, hi, hm, hch⟩ := hs.exists_owner h hτ hw
    obtain ⟨m, hm', hshows⟩ := ((hs.faithful id i hi).1.built port).shown x
    rw [hch] at hshows
    obtain ⟨d, o', hd, hw', hlender⟩ := hshows.of_some
    cases hm.symm.trans hm'
    cases hw.symm.trans hw'
    rcases hlender with ⟨-, hne⟩ | ⟨hlend, -⟩
    · exact absurd rfl hne
    · obtain ⟨xs, hxs⟩ := Store.exists_insertAll_of_draft hd hlend
      exact ⟨xs, by rw [Store.slots_of_wire? hw, hxs]⟩

/-! ## What an instance shows -/

/-- The slots of what is merged under a name at the input of a node, source by source in order. -/
def sources (g : Graph) (n : NodeId) (s : Substitution) (x : String) : List (List (Slot Float32)) :=
  (g.feeds n s x .input).map g.store.feedSlots

/-- Slots of one type under finite keys, any two of which are the same or more than the tolerance apart. -/
structure Uniform (g : Graph) (src : List (Slot Float32)) : Prop where
  type : ∃ t, ∀ y ∈ src, g.store.typeAt? y.entry = some t
  finite : ∀ y ∈ src, y.key.isFinite = true
  keys : ∀ y ∈ src, ∀ z ∈ src, same y.key z.key = true ∨ near g.store.tolerance y.key z.key = false

/-- The input of a node shows the sources of a name: there is a channel if there are any, and if they are uniform it holds what the last
source under every key has. So it is the channel that any order of them would give in which those with a common key come as they do. -/
structure LatestWins (g : Graph) (n : NodeId) (s : Substitution) (x : String) : Prop where
  shown : g.chan n .input x s = none ↔ g.sources n s x = []
  latest : g.Uniform (g.sources n s x).flatten → ∀ c, g.chan n .input x s = some c → LastWins (g.sources n s x).flatten (g.store.slots c)
  exchanged : g.Uniform (g.sources n s x).flatten → ∀ c, g.chan n .input x s = some c → ∀ srcs, Exchanged (g.sources n s x) srcs →
    ∀ l, LastWins srcs.flatten l → Coincide (g.store.slots c) l

/-- The keys of uniform slots are exact. -/
theorem Uniform.exact {src : List (Slot Float32)} (hu : g.Uniform src) (hε : 0 ≤ g.store.tolerance) :
    Exact (fun k : Float32 => k.isNaN = false) g.store.tolerance fun k => ∃ y ∈ src, y.key = k := by
  refine Float32.exact ?_ ?_
  · rintro _ ⟨y, hy, rfl⟩
    exact Float32.near_self_iff.2 ⟨hu.finite y hy, hε⟩
  · rintro _ _ ⟨y, hy, rfl⟩ ⟨z, hz, rfl⟩
    exact hu.keys y hy z hz

section Serves

variable (hs : g.Sound R hands busy) (h : Shelved τ g) (hτ : τ.jobs = []) (hε : 0 ≤ g.store.tolerance) (hj : g.Serves n s j)

include hs hj

/-- A live instance shows the draft of its sources. -/
theorem Sound.shown_input (x : String) : ∃ m, g.store.Shows m 0 (g.chan n .input x s) (g.store.draft (g.feeds n s x .input)) := by
  obtain ⟨i, hi, rfl, hsub⟩ := hj
  obtain ⟨hf, -⟩ := hs.faithful j i hi
  obtain ⟨m, -, hshows⟩ := (hf.built .input).shown x
  have hagree : (s.restrict (g.params i.owner)).AgreeOn s (g.paramsAt i.owner .input x) := fun q hq => by
    rw [Substitution.get?_restrict, if_pos (hf.inSync.paramsAt_subset hs.wired hq)]
  rw [hsub, hf.inSync.chan_restrict hs.wired, feeds_input_agree hs.authored hs.wired hf.inSync hagree] at hshows
  exact ⟨m, hshows⟩

include h hτ hε

theorem Sound.lastWins (hu : g.Uniform (g.sources n s x).flatten) (hc : g.chan n .input x s = some c) :
    LastWins (g.sources n s x).flatten (g.store.slots c) := by
  obtain ⟨m, hshows⟩ := hs.shown_input hj x
  rw [hc] at hshows
  obtain ⟨d, o, hd, hw, -⟩ := hshows.of_some
  have he := hu.exact hε
  obtain ⟨t, ht⟩ := hu.type
  have hmem : ∀ f ∈ g.feeds n s x .input, ∀ y ∈ g.store.feedSlots f, y ∈ (g.sources n s x).flatten := by
    intro f hf y hy
    exact List.mem_flatten.2 ⟨_, List.mem_map_of_mem hf, hy⟩
  have hgood : ∀ f ∈ g.feeds n s x .input, ∀ y ∈ g.store.feedSlots f, ∃ z ∈ (g.sources n s x).flatten, z.key = y.key := by
    intro f hf y hy
    exact ⟨y, hmem f hf y hy, rfl⟩
  have htype : ∀ f ∈ g.feeds n s x .input, ∀ y ∈ g.store.feedSlots f, g.store.typeAt? y.entry = some t := by
    intro f hf y hy
    exact ht y (hmem f hf y hy)
  -- a channel that is a source was filled slot by slot, so it is in order as its keys are exact
  have hord : ∀ f ∈ g.feeds n s x .input, ascending (g.store.feedSlots f) = true := by
    intro f hf
    rcases f with c' | y
    · obtain ⟨xs, hxs⟩ := hs.exists_insertAll h hτ c'
      have hkeys := hgood _ hf
      rw [Store.feedSlots, hxs] at hkeys ⊢
      exact ascending_insertAll Float32.ranked he hkeys
    · rfl
  rw [Store.slots_of_wire? hw, sources, ← List.flatMap_def]
  exact Store.lastWins_draft he hgood hord htype hd

/-- At the input of a live instance the last source of every key wins. -/
theorem Sound.latestWins (x : String) : g.LatestWins n s x where
  shown := by
    obtain ⟨m, hshows⟩ := hs.shown_input hj x
    rw [sources, List.map_eq_nil_iff, ← Store.draft_eq_none_iff g.store]
    exact hshows.eq_none_iff
  latest := by
    intro hu c hc
    exact hs.lastWins h hτ hε hj hu hc
  exchanged := by
    intro hu c hc srcs hex l hl
    have hnum : ∀ y ∈ (g.sources n s x).flatten, y.key.isNaN = false := by
      intro y hy
      exact Float32.isNaN_of_isFinite (hu.finite y hy)
    have hnum' : ∀ y ∈ srcs.flatten, y.key.isNaN = false := by
      intro y hy
      exact hnum y (hex.perm.flatten.mem_iff.2 hy)
    refine (hs.lastWins h hτ hε hj hu hc).coincide Float32.ranked hnum hnum' hl ?_
    intro k
    rw [hex.lastUnder_eq Float32.ranked k]

end Serves

/-- Inputs that have the same sources, in any order, show the same if no two of them have a key in common. -/
theorem LatestWins.coincide {n' : NodeId} {s' : Substitution} {x' : String} {c' : ChannelId} (h : g.LatestWins n s x)
    (h' : g'.LatestWins n' s' x') (hu : g.Uniform (g.sources n s x).flatten) (hu' : g'.Uniform (g'.sources n' s' x').flatten)
    (hp : (g.sources n s x).Perm (g'.sources n' s' x')) (hstrange : (g.sources n s x).Pairwise Strange)
    (hc : g.chan n .input x s = some c) (hc' : g'.chan n' .input x' s' = some c') : Coincide (g.store.slots c) (g'.store.slots c') :=
  h.exchanged hu c hc _ (exchanged_of_perm hp hstrange) _ (h'.latest hu' c' hc')

/-! ## Acquiring instances -/

/-- A substitution binds channels that are there, under names without semicolons. They belong to no node at or below `n` that depends on a
parameter, unless they may. -/
structure Bindable (own : Prop) (g : Graph) (n : NodeId) (s : Substitution) : Prop where
  spelled : s.Spelled
  live : ∀ c, s.Binds c → (g.store.wire? c).isSome
  foreign : ∀ c, s.Binds c → ∀ o l, g.store.wire? c = some (o, l) → ∀ m port, g.Below n m → g.Varies m → g.mapId m port = some o → own

/-- To acquire an instance of a node succeeds and leaves what is bound as it was; and after it the last source of every key wins at the
inputs of all live instances. -/
structure MergesLatest (g : Graph) (n : NodeId) (s : Substitution) : Prop where
  acquired : ∃ j, (g.settled.perform (.acquireInstance n s)).2 = .ok (.acquired (some j)) ∧ (g.step (.acquireInstance n s)).Serves n s j
  bound : ∀ c, s.Binds c → (g.step (.acquireInstance n s)).store.slots c = g.store.slots c
  latest : ∀ m t j x, (g.step (.acquireInstance n s)).Serves m t j → (g.step (.acquireInstance n s)).LatestWins m t x

/-- A sound graph in which nothing is bound is sound for bindings of spelled names. -/
theorem Sound.spelled (hs : g.Sound Nothing hands busy) : g.Sound Substitution.Spelled hands busy := by
  refine { hs with faithful := fun id i hi => ?_ }
  obtain ⟨hf, hnothing⟩ := hs.faithful id i hi
  rw [show i.substitution = .empty from hnothing]
  exact ⟨hf, regime_spelled.empty⟩

/-- Acquiring an instance of a node of a consistent graph under such bindings succeeds. -/
theorem Consistent.acquires (hg : g.Consistent) (h : Shelved τ g) (hτ : τ.jobs = []) (hn : (g.data? n).isSome) (ha : g.Bindable False n s) :
    ∃ g' j, g.acquireInstance n s = (g', some j) ∧ Acquired Substitution.Spelled g.held [] g n s g' j := by
  obtain ⟨hs, hq⟩ := hg.tended.quiet
  have hforeign : g.Foreign n (s.restrict (g.tableOf n .input).all) := by
    intro c hc
    refine ⟨?_, fun o l hw m port hb hv hm => ha.foreign c hc.of_restrict o l hw m port hb hv hm⟩
    obtain ⟨⟨o, l⟩, hw⟩ := Option.isSome_iff_exists.1 (ha.live c hc.of_restrict)
    obtain ⟨id, i, port, y, hi, -, hch⟩ := hs.exists_owner h hτ hw
    exact ((hs.faithful id i hi).1.built port).known_chan hch
  have hready : Ready Substitution.Spelled g.held [] g n s :=
    { sound := hs.spelled
      suited := hg.tended.sound.plain.suited n
      data := hn
      regime := regime_spelled.restrict _ _ ha.spelled
      foreign := hforeign
      idle := fun id hid => absurd hid List.not_mem_nil
      quiet := fun m _ => hq m }
  exact acquireWithin_spec regime_spelled (g.nodes.size + 1) g.held [] g n s hg.tended.authored.ranked (Nat.lt_succ_of_le (rank_le_size g n))
    hready

/-- What the journal says makes no difference to what may be bound. -/
theorem Bindable.settled (ha : g.Bindable own n s) (hg : g.Consistent) : g.settled.Bindable own n s := by
  refine ⟨ha.spelled, ha.live, fun c hc o l hw m port hb hv hm => ha.foreign c hc o l hw m port hb ?_ hm⟩
  obtain ⟨hs, -⟩ := hg.tended.quiet
  obtain ⟨hs', -⟩ := hg.settled.tended.quiet
  have hsame : g.SameDesign g.settled := ⟨fun _ => rfl, fun _ => rfl, rfl⟩
  exact (hsame.varies_iff hs.authored hs.wired hs'.authored hs'.wired).1 hv

/-- In a consistent graph acquiring an instance under such bindings merges such that the last source wins. -/
theorem Consistent.mergesLatest {a : Account} (hg : g.Consistent) (h : Sustained a g) (hε : 0 ≤ g.store.tolerance) (hn : (g.data? n).isSome)
    (ha : g.Bindable False n s) : g.MergesLatest n s := by
  have hshelved : Shelved a.work g.settled := ⟨h.shelved.uses, h.shelved.owned⟩
  obtain ⟨g', j, hacq, hac⟩ := hg.settled.acquires hshelved rfl hn (ha.settled hg)
  have hstep : g.step (.acquireInstance n s) = g' := congrArg Prod.fst hacq
  have hshelved' := (h.step (.acquireInstance n s)).shelved
  rw [hstep] at hshelved'
  have hreply : (g.settled.perform (.acquireInstance n s)).2 = .ok (.acquired (some j)) :=
    congrArg (fun r : Graph × Option InstanceId => Except.ok (Reply.acquired r.2)) hacq
  refine ⟨⟨j, hreply, hstep ▸ hac.serves⟩, ?_, ?_⟩
  · intro c hc
    rw [hstep]
    exact slots_of_wire?_eq_some (hac.grown.wires c) (ha.live c hc)
  · intro m t k x hk
    rw [hstep] at hk ⊢
    exact hac.sound.latestWins hshelved' rfl (hac.grown.extending.tolerance ▸ hε) hk x

/-! ## Bindings to a node's own channels -/

/-- Three leaves of one name feed a node that is pulled; the first and the last are placeholders. -/
def selfBoundCalls : List Call :=
  [.createPayload .float (.floats [1]), .createPayload .float (.floats [2]), .createPayload .float (.floats [3]), .createLeaf, .setName 0 "x",
    .setParam 0 true, .setData 0 (some 0), .createLeaf, .setName 1 "x", .setData 1 (some 1), .createLeaf, .setName 2 "x", .setParam 2 true,
    .setData 2 (some 2), .createData false, .appendChild 3 0, .appendChild 3 1, .appendChild 3 2, .createRequest 3 [], .pull 2]

/-- The name is bound to the channel that pulling the node made. -/
def selfBinding : Substitution := .ofList [("x", 2)]

theorem get?_selfBinding (h : selfBinding.get? x = some c) : x = "x" ∧ c = 2 := by
  rw [selfBinding, Substitution.get?_ofList] at h
  have hm := mem_of_get_tableOf h
  simpa using hm

theorem bindable_selfBinding : ((new Registry.empty {}).after selfBoundCalls).Bindable True 3 selfBinding := by
  refine ⟨fun x c hx => ?_, fun c hc => ?_, fun _ _ _ _ _ _ _ _ _ _ => trivial⟩
  · obtain ⟨rfl, -⟩ := get?_selfBinding hx
    decide
  · obtain ⟨x, hx⟩ := hc
    obtain ⟨-, rfl⟩ := get?_selfBinding hx
    decide +kernel

/-- The binding shows the channel that it had, but this is gone, and the only source that has a slot is not in it. -/
theorem shown_selfBinding :
    ((new Registry.empty {}).after selfBoundCalls).store.slots 2 = [{ entry := 2, key := 0 }] ∧
    (((new Registry.empty {}).after selfBoundCalls).step (.acquireInstance 3 selfBinding)).chan 3 .input "x" selfBinding = some 2 ∧
    (((new Registry.empty {}).after selfBoundCalls).step (.acquireInstance 3 selfBinding)).store.slots 2 = [] ∧
    (((new Registry.empty {}).after selfBoundCalls).step (.acquireInstance 3 selfBinding)).sources 3 selfBinding "x" =
      [[], [{ entry := 1, key := 0 }], []] ∧
    (((new Registry.empty {}).after selfBoundCalls).step (.acquireInstance 3 selfBinding)).store.typeAt? 1 = some .float := by
  refine ⟨by decide +kernel, by decide +kernel, by decide +kernel, by decide +kernel, by decide +kernel⟩

theorem not_mergesLatest_selfBinding : ¬ ((new Registry.empty {}).after selfBoundCalls).MergesLatest 3 selfBinding := by
  intro h
  obtain ⟨-, hchan, hslots, hsrc, htype⟩ := shown_selfBinding
  obtain ⟨j, -, hj⟩ := h.acquired
  have hlatest := (h.latest 3 selfBinding j "x" hj).latest
  rw [hsrc] at hlatest
  have huniform : (((new Registry.empty {}).after selfBoundCalls).step (.acquireInstance 3 selfBinding)).Uniform
      [[], [{ entry := 1, key := 0 }], []].flatten := by
    refine ⟨⟨.float, fun y hy => ?_⟩, fun y hy => ?_, fun y hy z hz => ?_⟩
    · cases List.mem_singleton.1 hy
      exact htype
    · cases List.mem_singleton.1 hy
      rfl
    · cases List.mem_singleton.1 hy
      cases List.mem_singleton.1 hz
      exact .inl (by decide)
  obtain ⟨y, hy, -⟩ := (hlatest huniform 2 hchan).covers _ (List.mem_singleton_self _)
  rw [hslots] at hy
  cases hy

/-- After all regular calls an instance that is acquired under bindings shows what the last source of every key has, as do all others, and
exactly as long as no name may be bound to a channel of a node that it depends on, or of its own. -/
theorem last_source_wins_iff (own : Prop) :
    (∀ descriptors registry log config calls, Registry.empty.registerAll descriptors = .ok (registry, log) → 0 ≤ config.tolerance →
      (new registry config).Throughout Regular calls → ∀ n s, (((new registry config).after calls).data? n).isSome →
      ((new registry config).after calls).Bindable own n s → ((new registry config).after calls).MergesLatest n s) ↔ ¬ own := by
  constructor
  · intro h ho
    have hcalls : (new Registry.empty {}).Throughout Regular selfBoundCalls := by decide +kernel
    have ha : ((new Registry.empty {}).after selfBoundCalls).Bindable own 3 selfBinding :=
      { bindable_selfBinding with foreign := fun _ _ _ _ _ _ _ _ _ _ => ho }
    exact not_mergesLatest_selfBinding (h [] _ _ {} _ rfl (by decide) hcalls 3 selfBinding (by decide +kernel) ha)
  · intro ho descriptors registry log config calls hreg hε hcalls n s hn ha
    obtain ⟨hm, hup⟩ := (maintained_new registry config (Registry.wellNamed_empty.registerAll hreg)).after hcalls
    have hε' : 0 ≤ ((new registry config).after calls).store.tolerance := by
      rw [hup.tolerance]
      exact hε
    exact hm.consistent.mergesLatest ((sustained_new registry config).after calls) hε' hn
      ⟨ha.spelled, ha.live, fun c hc o l hw m port hb hv hm => ho (ha.foreign c hc o l hw m port hb hv hm)⟩

/-- Of three sources under one key, of which the first and the last are one channel of the node's own, the last one wins no more: the channel
is freed, and nothing is under that key. -/
theorem own_channel_lost :
    ((new Registry.empty {}).after selfBoundCalls).store.slots 2 = [{ entry := 2, key := 0 }] ∧
    (((new Registry.empty {}).after selfBoundCalls).step (.acquireInstance 3 selfBinding)).chan 3 .input "x" selfBinding = some 2 ∧
    (((new Registry.empty {}).after selfBoundCalls).step (.acquireInstance 3 selfBinding)).store.channel? 2 = none ∧
    ¬ ((new Registry.empty {}).after selfBoundCalls).MergesLatest 3 selfBinding :=
  ⟨shown_selfBinding.1, shown_selfBinding.2.1, by decide +kernel, not_mergesLatest_selfBinding⟩

end Graph

end Dataflow
