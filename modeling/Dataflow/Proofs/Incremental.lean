import Dataflow.Proofs.Overwriting
import Dataflow.Proofs.Recomputed
import Dataflow.Proofs.Upheld

/-!
# Incremental evaluation equals evaluation from scratch

As long as calls are fair, a graph that grew by edits, requests and pulls in any order stays consistent, so pulling a request gives what is
told by the authored graph alone: what any other graph of the same registry and tolerance gives that is authored alike, such as one that
was just made.
-/

namespace Dataflow

namespace Graph

variable {φ : NodeId → NodeId} {g g' : Graph} {n : NodeId} {names : List String} {r : RequestId}

/-! ## New graphs -/

section New

variable (registry : Registry) (config : Config)

theorem design?_new (n : NodeId) : (new registry config).design? n = none := by
  unfold design?
  rw [data?_new]
  rfl

theorem mapId_new (n : NodeId) (port : Port) : (new registry config).mapId n port = none := by
  unfold mapId
  rw [wiring?_new]
  rfl

theorem get_processes_new (id : ProcessId) (p : Process) : (new registry config).processes[id]? ≠ some p := fun hp =>
  Option.some_ne_none _ (hp.symm.trans Std.ExtTreeMap.getElem?_empty)

theorem get_outlets_new (id : OutletId) (o : Outlet) : (new registry config).outlets[id]? ≠ some o := fun ho =>
  Option.some_ne_none _ (ho.symm.trans Std.ExtTreeMap.getElem?_empty)

/-- A graph without nodes is sound. -/
theorem soundBut_new : SoundBut (fun _ => False) (new registry config).held (new registry config) := by
  have hdata : ∀ n d, (new registry config).data? n ≠ some d := by
    simp [data?_new]
  have hwiring : ∀ n w, (new registry config).wiring? n ≠ some w := by
    simp [wiring?_new]
  have hdesign : ∀ n d, (new registry config).design? n ≠ some d := by
    simp [design?_new]
  have href : ∀ n m, m ∉ (new registry config).references n := by
    simp [references_new]
  have hmap : ∀ n port m, (new registry config).mapId n port ≠ some m := by
    simp [mapId_new]
  have hleaf : ∀ n l, (new registry config).leaf? n ≠ some l := by
    intro n l
    have hn : (new registry config).node? n = none := Std.ExtTreeMap.getElem?_empty
    simp [leaf?, hn]
  have hcell : ∀ n port x k c, (new registry config).cell? n port x k ≠ some c := by
    simp [cell?, wiring?_new]
  have hinst : ∀ (id : InstanceId) i, (new registry config).instances[id]? ≠ some i := fun id i hi =>
    Option.some_ne_none _ (hi.symm.trans Std.ExtTreeMap.getElem?_empty)
  have hproc := get_processes_new registry config
  exact {
    founded := (authored_new registry config).founded
    plain := fun n d hd => absurd hd (hdesign n d)
    upward := fun n m hm => absurd hm (href n m)
    wired := fun n d _ hd => absurd hd (hdata n d)
    leaves := fun n l _ hl => absurd hl (hleaf n l)
    anchored := ⟨fun n port m hm => absurd hm (hmap n port m), fun n port _ _ m hm => absurd hm (hmap n port m)⟩
    instanceId := fun id i hi => absurd hi (hinst id i)
    processId := fun id p hp => absurd hp (hproc id p)
    unbound := fun id i hi => absurd hi (hinst id i)
    runner := fun id i _ _ hi => absurd hi (hinst id i)
    memo := fun n w _ _ _ hw => absurd hw (hwiring n w)
    processMemo := fun n w _ _ _ hw => absurd hw (hwiring n w)
    faithful := fun id i hi => absurd hi (hinst id i)
    process := fun id p hp => absurd hp (hproc id p)
    uses := fun id i hi => absurd hi (hinst id i)
    runs := fun id p hp => absurd hp (hproc id p)
    cells := fun n port x k c _ hc => absurd hc (hcell n port x k c)
    sole := fun n port x k c _ _ _ _ _ _ _ hc => absurd hc (hcell n port x k c)
    mirrored := (stored_new registry config True).mirrored trivial }

/-- A graph without nodes is consistent. -/
theorem consistent_new (hreg : registry.WellNamed) : (new registry config).Consistent where
  tended := {
    authored := authored_new registry config
    sound := soundBut_new registry config
    enrolled := (posted_new registry config).toEnrolled rfl
    outlet := fun id o ho => absurd ho (get_outlets_new registry config id o) }
  current := {
    settled := fun id p hp => absurd hp (get_processes_new registry config id p)
    computed := fun id p hp => absurd hp (get_processes_new registry config id p)
    planned := fun _ plan hp => absurd (hp.symm.trans Std.ExtTreeMap.getElem?_empty) (Option.some_ne_none plan)
    published := fun id o ho => absurd ho (get_outlets_new registry config id o) }
  named := hreg

theorem maintained_new (hreg : registry.WellNamed) : (new registry config).Maintained :=
  ⟨consistent_new registry config hreg, {}, attended_new registry config False⟩

end New

/-! ## Histories -/

/-- What fair calls lead to: a consistent graph in which the entries know the channels that hold them, and in which the names of outlets are
spelled. -/
structure Evolved (g : Graph) : Prop where
  consistent : g.Consistent
  attended : ∃ a, Attended False a g
  spelled : ∀ (id : OutletId) (o : Outlet), g.outlets[id]? = some o → Spelled o.filter

theorem evolved_new {registry : Registry} (config : Config) (hreg : registry.WellNamed) : (new registry config).Evolved := by
  exact ⟨consistent_new registry config hreg, ⟨{}, attended_new registry config False⟩,
    fun id o ho => absurd ho (get_outlets_new registry config id o)⟩

theorem Evolved.step (h : g.Evolved) {c : Call} (hc : g.Fair c) : (g.step c).Evolved ∧ Upholds Spelled g (g.step c) := by
  obtain ⟨a, ha⟩ := h.attended
  have hup := h.consistent.step ha hc
  refine ⟨⟨hup.consistent, ha.step hc.regular.bindsEntry nofun, fun id o ho => ?_⟩, hup⟩
  rcases hup.serving.outlets id o ho with ⟨o', ho', -, hf⟩ | ⟨-, hf⟩
  · rw [← hf]
    exact h.spelled id o' ho'
  · exact hf

/-- Fair calls uphold a graph that fair calls led to. -/
theorem Evolved.after (h : g.Evolved) {calls : List Call} (hc : g.Throughout Fair calls) :
    (g.after calls).Evolved ∧ Upholds Spelled g (g.after calls) := by
  induction calls generalizing g with
  | nil => exact ⟨h, h.consistent.upholds⟩
  | cons c calls ih =>
    obtain ⟨hstep, hup⟩ := h.step hc.1
    obtain ⟨hend, hup'⟩ := ih hstep hc.2
    exact ⟨hend, hup.trans hup'⟩

/-! ## What requests are given -/

theorem isSome_node?_iff : (g.node? n).isSome ↔ (g.leaf? n).isSome ∨ (g.design? n).isSome := by
  unfold leaf? design? data?
  rcases g.node? n with _ | ⟨ps, l | d⟩ <;> simp [Node.leaf?, Node.data?]

/-- Graphs that show what others show that are authored alike are authored alike. -/
theorem Alike.keeps (ha : Alike φ g g') {k k' : Graph} (h : g.Keeps k) (h' : g'.Keeps k') : Alike φ k k' := by
  have hnode : ∀ m, (k.node? m).isSome → (g.node? m).isSome := by
    intro m hm
    rw [isSome_node?_iff] at hm ⊢
    rwa [h.leaf, h.design] at hm
  refine ⟨fun m m' hm hm' he => ha.apart m m' (hnode m hm) (hnode m' hm') he, fun m d hd => ?_, fun m l hl => ?_⟩
  · rw [h.design] at hd
    rw [h'.design]
    exact ha.design m d hd
  · rw [h.leaf] at hl
    obtain ⟨l', hl', hlike⟩ := ha.leaf m l hl
    refine ⟨l', (h'.leaf _).trans hl', hlike.name, hlike.key, hlike.param, ?_⟩
    have hentry := hlike.entry
    rcases he : l.entry with _ | e <;> rcases he' : l'.entry with _ | e' <;> rw [he, he'] at hentry
    · exact .none
    · cases hentry
    · cases hentry
    · cases hentry with
      | some hv =>
        refine .some ?_
        rw [h'.values _ l' e' hl' he', h.values _ l e hl he]
        exact hv

theorem keeps_settled (g : Graph) : g.Keeps g.settled := ⟨⟨fun _ => rfl, fun _ => rfl, rfl⟩, fun _ _ _ _ _ => rfl, rfl⟩

/-- Asking for names changes nothing that is authored. -/
theorem keeps_createRequest (g : Graph) (n : NodeId) (names : List String) : g.Keeps (g.createRequest n names).1 := by
  have henroll : ∀ (g : Graph) id, g.Keeps (g.enroll id) := fun g id =>
    ⟨⟨fun _ => rfl, fun _ => rfl, rfl⟩, fun _ _ _ _ _ => rfl, rfl⟩
  rw [createRequest_eq]
  rcases outletFor_cases g n names with ⟨e, he⟩ | ⟨d, -, ⟨id, -, he⟩ | ⟨-, he⟩⟩ <;> rw [he]
  · exact .refl g
  · exact henroll g id
  · show g.Keeps ((g.openOutlet n (sortNames names)).enroll (g.lastId + 1))
    exact .trans ⟨sameDesign_openOutlet g n _, fun _ _ _ _ _ => rfl, rfl⟩ (henroll _ _)

/-- Data nodes are not refused a request. -/
theorem createRequest_ok (hd : (g.data? n).isSome) (names : List String) : ∃ r, (g.createRequest n names).2 = .ok r := by
  obtain ⟨d, hd⟩ := Option.isSome_iff_exists.1 hd
  obtain ⟨x, hx, hxd⟩ := Option.bind_eq_some_iff.1 hd
  have hreq : g.requireData n = .ok d := by
    unfold requireData
    rw [hx]
    dsimp only
    rw [hxd]
  have hid : ∃ id, (g.outletFor n names).2 = .ok id := by
    unfold outletFor
    rw [hreq]
    dsimp only
    split
    · exact ⟨_, rfl⟩
    · exact ⟨_, rfl⟩
  obtain ⟨id, hid⟩ := hid
  unfold createRequest
  rcases ho : g.outletFor n names with ⟨g₁, e | id'⟩
  · rw [ho] at hid
    cases hid
  · exact ⟨_, rfl⟩

/-- A request asks its node for names with the key of those that it was made for. -/
theorem Consistent.asks_of_created (h : g.Consistent) (hr : (g.settled.perform (.createRequest n names)).2 = .ok (.created r)) :
    ∃ filter, (g.step (.createRequest n names)).Asks r n filter ∧ outletKey filter = outletKey (sortNames names) := by
  have hmade : (g.settled.createRequest n names).2 = .ok r := by
    rcases hc : (g.settled.createRequest n names).2 with e | r' <;> rw [perform, created, hc] at hr <;> cases hr
    rfl
  exact (h.settled.createRequest n names).2 r hmade

/-- A request asks for the names that it was made for. -/
theorem Evolved.asks_of_created (h : g.Evolved) (hn : Spelled names)
    (hr : (g.settled.perform (.createRequest n names)).2 = .ok (.created r)) :
    (g.step (.createRequest n names)).Asks r n (sortNames names) := by
  obtain ⟨filter, hasks, hkey⟩ := h.consistent.asks_of_created hr
  have hevolved := (h.step (c := .createRequest n names) hn).1
  obtain ⟨q, o, hq, ho, hown, rfl⟩ := hasks
  rw [← outletKey_inj (hevolved.spelled q.outlet o ho) (spelled_sortNames hn) hkey]
  exact ⟨q, o, hq, ho, hown, rfl⟩

/-- As long as a request lives, regular calls leave it what it asks for. -/
theorem Maintained.asks_after (h : g.Maintained) {filter : List String} (ha : g.Asks r n filter) {calls : List Call}
    (hc : g.Throughout Regular calls) (hr : ((g.after calls).requests[r]?).isSome) : (g.after calls).Asks r n filter := by
  obtain ⟨hend, hup⟩ := h.after hc
  exact hup.serving.asks h.consistent.tended.enrolled hend.consistent.tended.enrolled ha hr

theorem Evolved.asks_after (h : g.Evolved) {filter : List String} (ha : g.Asks r n filter) {calls : List Call} (hc : g.Throughout Fair calls)
    (hr : ((g.after calls).requests[r]?).isSome) : (g.after calls).Asks r n filter :=
  Maintained.asks_after ⟨h.consistent, h.attended⟩ ha (hc.mono fun _ _ hf => hf.regular) hr

/-- Every process that works for what a request publishes has run. -/
def RanFor (g : Graph) (r : RequestId) : Prop :=
  ∀ q : Request, g.requests[r]? = some q → ∀ (j : ProcessId) (p : Process), g.WorksFor q.outlet j → g.processes[j]? = some p → p.state = .processed

theorem ranFor_of_processed (h : ∀ p ∈ g.processes.values, p.state = .processed) : g.RanFor r := fun _ _ j p _ hp =>
  h p (Table.mem_values.2 ⟨j, hp⟩)

/-- What pulling a request comes to: what is authored stays, and the answer is the result of its outlet, which is ready. -/
structure Delivers (g : Graph) (r : RequestId) (n : NodeId) (filter : List String) (id : OutletId) (o : Outlet) : Prop where
  upholds : Upholds Spelled g (g.step (.pull r))
  keeps : g.Keeps (g.step (.pull r))
  request : ∃ q : Request, (g.step (.pull r)).requests[r]? = some q ∧ q.outlet = id
  outlet : (g.step (.pull r)).outlets[id]? = some o
  owner : o.owner = n
  filter : o.filter = filter
  ready : o.status = .ready
  reply : (g.settled.perform (.pull r)).2 = .ok (.pulled (some o.result))

theorem Consistent.delivers (h : g.Consistent) {filter : List String} (ha : g.Asks r n filter) : ∃ id o, Delivers g r n filter id o := by
  obtain ⟨q, o, hq, ho, rfl, rfl⟩ := ha
  have hs : Upholds Spelled g g.settled := h.journal {}
  obtain ⟨o₁, ho₁, hres, hreply⟩ := hs.consistent.pull (r := r) hq
  have hsame : o₁ = o := Option.some.inj (ho₁.symm.trans ho)
  subst hsame
  obtain ⟨o₂, ho₂, hown, hfilter, hready⟩ := hres.outlet
  refine ⟨q.outlet, o₂, hs.trans (hres.upholds _), (keeps_settled g).trans hres.keeps, ⟨q, ?_, rfl⟩, ho₂, hown, hfilter, hready, ?_⟩
  · show (g.settled.pull r).1.requests[r]? = some q
    rw [hres.requests]
    exact hq
  · show Except.ok (Reply.pulled (g.settled.pull r).2) = _
    rw [hreply, resultOf, ho₂]
    rfl

/-- What a request that was just pulled publishes. -/
theorem Delivers.publishedEntry {filter : List String} {id : OutletId} {o : Outlet} (h : Delivers g r n filter id o) (x : String) :
    (g.step (.pull r)).publishedEntry r x = (o.result.outputs[x]?).bind (g.step (.pull r)).entryAt? := by
  obtain ⟨q, hq, rfl⟩ := h.request
  unfold Graph.publishedEntry
  rw [hq]
  simp only [Option.bind_eq_bind, Option.bind_some, h.outlet]

/-- Requests for the same names of a node and of its counterpart are given the same names when they are pulled, and under each of them the
same value if all processes that work for it ran. -/
theorem Delivers.agree {filter : List String} {id id' : OutletId} {o o' : Outlet} {r' : RequestId} (h : Delivers g r n filter id o)
    (h' : Delivers g' r' (φ n) filter id' o') (ha : Alike φ g g') (hreg : g'.registry = g.registry)
    (htol : g'.store.tolerance = g.store.tolerance) (hover : g.registry.Overwriting) :
    (∀ x : String, (o'.result.outputs[x]?).isSome = (o.result.outputs[x]?).isSome) ∧
    ((g.step (.pull r)).RanFor r → (g'.step (.pull r')).RanFor r' →
      ∀ x, (g'.step (.pull r')).publishedEntry r' x = (g.step (.pull r)).publishedEntry r x) := by
  have hc := h.upholds.consistent
  have hc' := h'.upholds.consistent
  have halike : Alike φ (g.step (.pull r)) (g'.step (.pull r')) := ha.keeps h.keeps h'.keeps
  have hready : ∀ {o : Outlet}, o.status = .ready → o.status ≠ .needsStructure := fun hs => by
    rw [hs]
    nofun
  have hpub := halike.published hc.tended.sound hc'.tended.sound (h'.upholds.registry.trans (hreg.trans h.upholds.registry.symm))
    (h'.upholds.tolerance.trans (htol.trans h.upholds.tolerance.symm)) hc.current hc'.current
    (fun name op hop => hover name op (h.upholds.registry ▸ hop)) h.outlet h'.outlet (hc.tended.outlet id o h.outlet)
    (hc'.tended.outlet id' o' h'.outlet) (hready h.ready) (hready h'.ready) (h'.owner.trans (congrArg φ h.owner.symm))
    (h'.filter.trans h.filter.symm)
  rw [← hc.current.published id o h.outlet h.ready, ← hc'.current.published id' o' h'.outlet h'.ready] at hpub
  refine ⟨fun x => ?_, fun hran hran' x => ?_⟩
  · have hx := hpub x
    generalize o.result.outputs[x]? = a at hx
    generalize o'.result.outputs[x]? = a' at hx
    cases hx with
    | none => rfl
    | some _ => rfl
  · obtain ⟨q, hq, rfl⟩ := h.request
    obtain ⟨q', hq', rfl⟩ := h'.request
    rw [h.publishedEntry, h'.publishedEntry]
    have hx := hpub x
    generalize o.result.outputs[x]? = a at hx
    generalize o'.result.outputs[x]? = a' at hx
    cases hx with
    | none => rfl
    | some he => exact he (finished_worksFor (hran q hq)) (finished_worksFor (hran' q' hq'))

/-! ## Incremental evaluation -/

/-- Take any fair history in which a request was made that is still live at its end, and any fair history that authors alike from nothing.
Then the other graph grants the same request, both requests are given a result when they are pulled, with exactly the same names, and under
every name the same value if all processes that work for them ran. -/
theorem incremental_evaluation_exact {descriptors : List (String × Descriptor)} {registry : Registry} {log : List Notice} {config : Config}
    (hreg : Registry.empty.registerAll descriptors = .ok (registry, log)) (hover : registry.Overwriting)
    {before later build : List Call} (hfair : (new registry config).Throughout Fair (before ++ .createRequest n names :: later))
    (hmade : (((new registry config).after before).settled.perform (.createRequest n names)).2 = .ok (.created r))
    (hg : (new registry config).after (before ++ .createRequest n names :: later) = g) (hlive : (g.requests[r]?).isSome)
    (hbuild : (new registry config).Throughout Fair build) (hg' : (new registry config).after build = g') (ha : Alike φ g g') :
    ∃ (r' : RequestId) (res res' : Result),
      (g'.settled.perform (.createRequest (φ n) names)).2 = .ok (.created r') ∧
      (g.settled.perform (.pull r)).2 = .ok (.pulled (some res)) ∧
      ((g'.step (.createRequest (φ n) names)).settled.perform (.pull r')).2 = .ok (.pulled (some res')) ∧
      (∀ x : String, (res'.outputs[x]?).isSome = (res.outputs[x]?).isSome) ∧
      ((g.step (.pull r)).RanFor r → ((g'.step (.createRequest (φ n) names)).step (.pull r')).RanFor r' →
        ∀ x, ((g'.step (.createRequest (φ n) names)).step (.pull r')).publishedEntry r' x = (g.step (.pull r)).publishedEntry r x) := by
  have hnew := evolved_new config (Registry.wellNamed_empty.registerAll hreg)
  -- the request asks for its names still
  obtain ⟨hbefore, hspelled, hlater⟩ := throughout_append.1 hfair
  obtain ⟨hstart, -⟩ := hnew.after hbefore
  have hasked := hstart.asks_of_created hspelled hmade
  obtain ⟨hmid, -⟩ := hstart.step (c := .createRequest n names) hspelled
  obtain ⟨hend, hup⟩ := hnew.after hfair
  rw [hg] at hend hup
  have hasks : g.Asks r n (sortNames names) := by
    rw [after_append, after_cons] at hg
    subst hg
    exact hmid.asks_after hasked hlater hlive
  -- the other graph grants the same one
  obtain ⟨hbuilt, hup'⟩ := hnew.after hbuild
  rw [hg'] at hbuilt hup'
  have hdata : (g'.settled.data? (φ n)).isSome := by
    obtain ⟨q, o, hq, ho, rfl, -⟩ := hasks
    obtain ⟨d, hd, -⟩ := hend.consistent.tended.enrolled.home q.outlet o ho
    have := ha.design _ _ (design?_of_data? hd)
    obtain ⟨d', hd', -⟩ := Option.map_eq_some_iff.1 this
    exact Option.isSome_iff_exists.2 ⟨d', hd'⟩
  obtain ⟨r', hr'⟩ := createRequest_ok hdata names
  have hmade' : (g'.settled.perform (.createRequest (φ n) names)).2 = .ok (.created r') := by
    rw [perform, created, hr']
    rfl
  obtain ⟨hready, hup''⟩ := hbuilt.step (c := .createRequest (φ n) names) hspelled
  have hasks' := hbuilt.asks_of_created hspelled hmade'
  obtain ⟨id, o, hdel⟩ := hend.consistent.delivers hasks
  obtain ⟨id', o', hdel'⟩ := hready.consistent.delivers hasks'
  have hkeep : g'.Keeps (g'.step (.createRequest (φ n) names)) :=
    (keeps_settled _).trans (keeps_createRequest _ _ _)
  obtain ⟨hnames, hvalues⟩ := hdel.agree hdel' (ha.keeps (.refl _) hkeep)
    (hup''.registry.trans (hup'.registry.trans hup.registry.symm)) (hup''.tolerance.trans (hup'.tolerance.trans hup.tolerance.symm))
    (hup.registry ▸ hover)
  exact ⟨r', o.result, o'.result, hmade', hdel.reply, hdel'.reply, hnames, hvalues⟩

/-- An operator that doubles numbers, as declared. -/
def doubling : Descriptor where
  outputs := [{ type := "int", name := "y" }]
  params := [{ type := "int", source := "x" }]
  core := some fun views _ => [.ints [2 * (views.flatMap View.ints).headD 0]]

/-- The operator that doubles numbers. -/
def doubler : Operator where
  name := "double"
  outputs := [⟨.int, "y", false⟩]
  params := [⟨.int, "x", false, false⟩]
  args := [⟨0, .first, none, false⟩]
  alloc := none
  kernel := .core fun views _ => [.ints [2 * (views.flatMap View.ints).headD 0]]

theorem writesAll_doubler : doubler.WritesAll := by
  intro views outs outs' hw hw'
  refine ⟨rfl, ?_⟩
  rcases outs with _ | ⟨out, _ | ⟨out', outs⟩⟩
  · cases hw
  · obtain ⟨hc, hn⟩ := Prod.mk.inj (List.cons.inj hw).1
    exact .cons ⟨hc.symm, Nat.le_of_eq hn⟩ .nil
  · cases (List.cons.inj hw).2

/-- The operator under its name. -/
def doublers : Registry := ⟨(∅ : NameMap Operator).insert "double" doubler⟩

theorem registerAll_doubling : Registry.empty.registerAll [("double", doubling)] = .ok (doublers, []) := rfl

theorem overwriting_doublers : doublers.Overwriting := by
  intro name op hop
  unfold Registry.get? doublers at hop
  rw [Std.ExtTreeMap.getElem?_insert, Std.ExtTreeMap.getElem?_empty] at hop
  split at hop
  · cases hop
    refine writesAll_doubler.overwrites fun core _ o ho => ?_
    rw [List.mem_singleton.1 ho]
    exact ⟨rfl, nofun⟩
  · cases hop

/-- Two numbers are to be doubled. -/
def doubledOnce : List Call :=
  [.createData false, .createLeaf, .createPayload .int (.ints [1, 2]), .setName 1 "x", .setData 1 (some 0), .appendChild 0 1,
    .setCompute 0 "y = double(x)"]

/-- They are doubled; then there are other numbers, and more of them, while a node comes and goes. -/
def doubledAgain : List Call :=
  [.pull 2, .createLeaf, .setName 2 "z", .appendChild 0 2, .createRequest 0 [], .setPayload 0 (.ints [3, 4, 5]), .pull 2, .remove 2,
    .setPayload 0 (.ints [6, 7, 8])]

/-- Where nothing was before, the last numbers are to be doubled. -/
def doubledAnew : List Call :=
  [.createLeaf, .createData false, .createPayload .int (.ints [0]), .createPayload .int (.ints [6, 7, 8]), .setData 0 (some 1), .setName 0 "x",
    .setCompute 1 "y = double(x)", .appendChild 1 0]

/-- The graph that went through all of it. -/
def seasoned : Graph := (new doublers {}).after (doubledOnce ++ .createRequest 0 ["y"] :: doubledAgain)

/-- The graph that was made for the last numbers. -/
def pristine : Graph := (new doublers {}).after doubledAnew

theorem alike_seasoned : Alike (1 - ·) seasoned pristine := by
  have hlive : ∀ n, (seasoned.node? n).isSome → n = 0 ∨ n = 1 := by
    intro n hn
    have hkeys : seasoned.nodes.items.keys = [0, 1] := by decide +kernel
    have hmem : n ∈ seasoned.nodes.items.keys := by
      rw [Std.ExtTreeMap.mem_keys, Std.ExtTreeMap.mem_iff_isSome_getElem?]
      exact hn
    rw [hkeys] at hmem
    simpa using hmem
  refine ⟨fun m n hm hn he => ?_, fun n d hd => ?_, fun n l hl => ?_⟩
  · rcases hlive m hm with rfl | rfl <;> rcases hlive n hn with rfl | rfl <;> first | rfl | exact absurd he (by decide)
  · rcases hlive n (isSome_node?_iff.2 (.inr (Option.isSome_iff_exists.2 ⟨d, hd⟩))) with rfl | rfl
    · have hsame : pristine.design? 1 = (seasoned.design? 0).map (Design.place (1 - ·)) := by decide +kernel
      rw [hd] at hsame
      exact hsame
    · have hnone : seasoned.design? 1 = none := by decide +kernel
      rw [hd] at hnone
      cases hnone
  · rcases hlive n (isSome_node?_iff.2 (.inl (Option.isSome_iff_exists.2 ⟨l, hl⟩))) with rfl | rfl
    · have hnone : seasoned.leaf? 0 = none := by decide +kernel
      rw [hl] at hnone
      cases hnone
    · have hleaf : seasoned.leaf? 1 = some { name := "x", entry := some 0 } := by decide +kernel
      have hleaf' : pristine.leaf? 0 = some { name := "x", entry := some 1 } := by decide +kernel
      have hentry : pristine.entryAt? 1 = seasoned.entryAt? 0 := entry_eq_of (by decide +kernel) (by decide +kernel)
      obtain rfl : l = _ := Option.some.inj (hl.symm.trans hleaf)
      exact ⟨_, hleaf', rfl, rfl, rfl, .some hentry⟩

/-- The three numbers that are there in the end are doubled, whatever there was before. -/
theorem incremental_evaluation_exact_doubled :
    ∃ (r' : RequestId) (res res' : Result),
      (pristine.settled.perform (.createRequest 1 ["y"])).2 = .ok (.created r') ∧
      (seasoned.settled.perform (.pull 2)).2 = .ok (.pulled (some res)) ∧
      ((pristine.step (.createRequest 1 ["y"])).settled.perform (.pull r')).2 = .ok (.pulled (some res')) ∧
      (∀ x : String, (res'.outputs[x]?).isSome = (res.outputs[x]?).isSome) ∧
      (∀ x, ((pristine.step (.createRequest 1 ["y"])).step (.pull r')).publishedEntry r' x = (seasoned.step (.pull 2)).publishedEntry 2 x) ∧
      ((seasoned.step (.pull 2)).publishedEntry 2 "y").map (·.payload) = some (.ints [12, 14, 16]) := by
  have hreg : Registry.empty.registerAll [("double", doubling)] = .ok (doublers, []) := rfl
  have hfair : (new doublers {}).Throughout Fair (doubledOnce ++ .createRequest 0 ["y"] :: doubledAgain) := by decide +kernel
  have hmade : (((new doublers {}).after doubledOnce).settled.perform (.createRequest 0 ["y"])).2 = .ok (.created 2) := by decide +kernel
  have hlive : (seasoned.requests[2]?).isSome := by decide +kernel
  have hbuild : (new doublers {}).Throughout Fair doubledAnew := by decide +kernel
  have hran : ∀ p ∈ (seasoned.step (.pull 2)).processes.values, p.state = .processed := by decide +kernel
  have hran' : ∀ p ∈ ((pristine.step (.createRequest 1 ["y"])).step (.pull 2)).processes.values, p.state = .processed := by decide +kernel
  obtain ⟨r', res, res', hr', hres, hres', hnames, hvalues⟩ :=
    incremental_evaluation_exact hreg overwriting_doublers hfair hmade rfl hlive hbuild rfl alike_seasoned
  have hgranted : (pristine.settled.perform (.createRequest 1 ["y"])).2 = .ok (.created 2) := by decide +kernel
  obtain rfl : 2 = r' := by
    have hsame := hgranted.symm.trans hr'
    cases hsame
    rfl
  exact ⟨2, res, res', hr', hres, hres', hnames, hvalues (ranFor_of_processed hran) (ranFor_of_processed hran'), by decide +kernel⟩

end Graph

end Dataflow
