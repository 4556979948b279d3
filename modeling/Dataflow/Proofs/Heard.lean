import Dataflow.Proofs.Drawn

/-!
# Who listens, and to what

A process listens to the channels that are bound to its inputs, and an outlet to those that it publishes, for as long as they live. Channels
list their listeners, so whoever is listed has the channel; and as long as only channels that exist are substituted, both sides say the same
of every live channel. Nobody starts or stops listening but with a process or an outlet.
-/

namespace Dataflow

namespace Graph

variable {κ : Call} {exact : Prop} {τ τ' : Work} {g g' : Graph} {n : NodeId}

/-- The listener is live, and has the channel among its inputs or among what it publishes. -/
def Tuned (g : Graph) : Listener → ChannelId → Prop
  | .process p, c => ∃ q : Process, g.processes[p]? = some q ∧ some c ∈ q.inputs
  | .outlet id, c => ∃ o : Outlet, g.outlets[id]? = some o ∧ c ∈ o.channels.values

/-- A channel lists only listeners that have it, each once. In a graph that is exact channels that listeners have were handed out, and one
that is live lists everyone who has it. -/
structure Heard (exact : Prop) (g : Graph) : Prop where
  drawn : exact → ∀ l c, g.Tuned l c → c < g.store.channels.next
  tuned : ∀ c, ∀ l ∈ g.store.listenersOf c, g.Tuned l c
  heard : exact → ∀ c, (g.store.wire? c).isSome → ∀ l, g.Tuned l c → l ∈ g.store.listenersOf c
  once : ∀ c, (g.store.listenersOf c).Nodup

theorem tuned_congr (hp : ∀ p : ProcessId, (g'.processes[p]?).map (·.inputs) = (g.processes[p]?).map (·.inputs))
    (ho : ∀ id : OutletId, (g'.outlets[id]?).map (·.channels) = (g.outlets[id]?).map (·.channels)) (l : Listener) (c : ChannelId) :
    g'.Tuned l c ↔ g.Tuned l c := by
  have key : ∀ {g g' : Graph}, (∀ p : ProcessId, (g'.processes[p]?).map (·.inputs) = (g.processes[p]?).map (·.inputs)) →
      (∀ id : OutletId, (g'.outlets[id]?).map (·.channels) = (g.outlets[id]?).map (·.channels)) → g'.Tuned l c → g.Tuned l c := by
    intro g g' hp ho ht
    cases l with
    | process p =>
      obtain ⟨q', hq', hc⟩ := ht
      have := hp p
      rw [hq', Option.map_some, eq_comm, Option.map_eq_some_iff] at this
      obtain ⟨q, hq, he⟩ := this
      exact ⟨q, hq, by rwa [he]⟩
    | outlet id =>
      obtain ⟨o', ho', hc⟩ := ht
      have := ho id
      rw [ho', Option.map_some, eq_comm, Option.map_eq_some_iff] at this
      obtain ⟨o, hid, he⟩ := this
      exact ⟨o, hid, by rwa [he]⟩
  exact ⟨key hp ho, key (fun p => (hp p).symm) fun id => (ho id).symm⟩

/-- Nobody starts or stops listening. -/
theorem Heard.congr (h : Heard exact g) (hs : g.store.Hears g'.store) (ht : ∀ l c, g'.Tuned l c ↔ g.Tuned l c) : Heard exact g' := by
  refine ⟨fun hx l c hc => Nat.lt_of_lt_of_le (h.drawn hx l c ((ht l c).1 hc)) hs.next, fun c l hl => ?_, fun hx c hc l hl => ?_, fun c => ?_⟩
  · by_cases hc : (g'.store.wire? c).isSome
    · rw [hs.same c hc] at hl
      exact (ht l c).2 (h.tuned c l hl)
    · rw [Store.listenersOf_of_none (Option.not_isSome_iff_eq_none.1 hc)] at hl
      cases hl
  · rw [ht] at hl
    rw [hs.same c hc]
    exact h.heard hx c (hs.kept c hc (h.drawn hx l c hl)) l hl
  · by_cases hc : (g'.store.wire? c).isSome
    · rw [hs.same c hc]
      exact h.once c
    · rw [Store.listenersOf_of_none (Option.not_isSome_iff_eq_none.1 hc)]
      exact List.nodup_nil

/-- Somebody has more channels, and listens to them. -/
theorem Heard.tuneIn (h : Heard exact g) (l₀ : Listener) (cs : List ChannelId) (hcs : exact → ∀ c ∈ cs, c < g.store.channels.next)
    (hs : g'.store.channels = (g.store.listenAll l₀ cs).channels) (ht : ∀ l c, g'.Tuned l c ↔ g.Tuned l c ∨ (l = l₀ ∧ c ∈ cs)) :
    Heard exact g' := by
  have hnext : g'.store.channels.next = g.store.channels.next := by rw [hs, (Store.listenAll_fields ..).2.1]
  refine ⟨fun hx l c hc => ?_, fun c l hl => ?_, fun hx c hc l hl => ?_, fun c => ?_⟩
  · rw [hnext]
    rcases (ht l c).1 hc with hc | ⟨-, hc⟩
    · exact h.drawn hx l c hc
    · exact hcs hx c hc
  · rw [Store.listenersOf_of_channels_eq hs, Store.mem_listenersOf_listenAll] at hl
    rcases hl with hl | ⟨hc, rfl, -⟩
    · exact (ht l c).2 (.inl (h.tuned c l hl))
    · exact (ht _ c).2 (.inr ⟨rfl, hc⟩)
  · rw [Store.wire?_of_channels_eq hs, Store.wire?_listenAll] at hc
    rw [Store.listenersOf_of_channels_eq hs, Store.mem_listenersOf_listenAll]
    rcases (ht l c).1 hl with hl | ⟨rfl, hl⟩
    · exact .inl (h.heard hx c hc l hl)
    · exact .inr ⟨hl, rfl, hc⟩
  · rw [Store.listenersOf_of_channels_eq hs]
    exact Store.nodup_listenAll h.once l₀ cs c

/-- Somebody goes, or has no channels any more, and listens to none. -/
theorem Heard.tuneOut (h : Heard exact g) (l₀ : Listener) (cs : List (Option ChannelId)) (hcs : ∀ c, g.Tuned l₀ c → some c ∈ cs)
    (hs : g'.store.channels = (g.store.unlistenAll l₀ cs).channels) (ht : ∀ l c, g'.Tuned l c ↔ g.Tuned l c ∧ l ≠ l₀) : Heard exact g' := by
  have hnext : g'.store.channels.next = g.store.channels.next := by rw [hs, (Store.unlistenAll_fields ..).2.1]
  refine ⟨fun hx l c hc => hnext ▸ h.drawn hx l c ((ht l c).1 hc).1, fun c l hl => ?_, fun hx c hc l hl => ?_, fun c => ?_⟩
  · rw [Store.listenersOf_of_channels_eq hs, Store.mem_listenersOf_unlistenAll] at hl
    have htuned := h.tuned c l hl.1
    exact (ht l c).2 ⟨htuned, fun he => hl.2 (hcs c (he ▸ htuned)) he⟩
  · rw [Store.wire?_of_channels_eq hs, Store.wire?_unlistenAll] at hc
    obtain ⟨hl, hne⟩ := (ht l c).1 hl
    rw [Store.listenersOf_of_channels_eq hs, Store.mem_listenersOf_unlistenAll]
    exact ⟨h.heard hx c hc l hl, fun _ => hne⟩
  · rw [Store.listenersOf_of_channels_eq hs]
    exact Store.nodup_unlistenAll h.once l₀ cs c

/-- Inputs of processes and what outlets publish stay. -/
theorem Heard.same (h : Heard exact g) (hs : g.store.Hears g'.store) (hp : g'.processes = g.processes) (ho : g'.outlets = g.outlets) :
    Heard exact g' :=
  h.congr hs (tuned_congr (fun p => by rw [hp]) fun id => by rw [ho])

/-! ## Processes -/

/-- A process has one user more or less. -/
theorem Heard.recount (h : Heard exact g) {id : ProcessId} {p : Process} (hp : g.processes[id]? = some p) (u : Nat) :
    Heard exact { g with processes := g.processes.insert id { p with uses := u } } := by
  refine h.congr (.refl _) (tuned_congr (fun a => ?_) fun _ => rfl)
  rw [Table.get_insert]
  split
  · subst a
    rw [hp]
    rfl
  · rfl

theorem Heard.withProcess (h : Heard exact g) (hk : Kept τ g) (hdr : exact → Drawn κ τ g) (s : Substitution) (c : Compute) (op : Operator) :
    Heard exact (g.withProcess n s c op) := by
  have hget := processes_withProcess g n s c op
  have hold : ∀ {p : ProcessId} {q : Process}, g.processes[p]? = some q → p ≠ g.lastId + 1 := by
    intro p q hq he
    subst he
    exact Nat.not_succ_le_self _ (hk.processId _ q hq)
  refine h.tuneIn (.process (g.lastId + 1)) (boundOf (g.inputsOf n s c op)) ?_ (Store.pushEmpties_fields ..).1 ?_
  · intro hex a ha
    obtain ⟨x, -, hx⟩ := List.mem_map.1 (mem_boundOf.1 ha)
    exact (hdr hex).chan hx
  · intro l a
    cases l with
    | outlet id => simp [Tuned, Graph.withProcess, modifyWiring, modifyData]
    | process p =>
      simp only [Tuned, hget, Listener.process.injEq]
      by_cases hp : p = g.lastId + 1
      · subst hp
        rw [if_pos rfl]
        constructor
        · rintro ⟨q, hq, ha⟩
          obtain rfl := Option.some.inj hq
          exact .inr ⟨rfl, mem_boundOf.2 ha⟩
        · rintro (⟨q, hq, -⟩ | ⟨-, ha⟩)
          · exact absurd rfl (hold hq)
          · exact ⟨_, rfl, mem_boundOf.1 ha⟩
      · simp [hp]

theorem Heard.operate (h : Heard exact g) (hk : Kept τ g) (hdr : exact → Drawn κ τ g) (n : NodeId) (s : Substitution) : Heard exact (g.acquireProcess n s).1 := by
  rcases acquireProcess_cases g n s with he | ⟨id, p, -, hp, he⟩ | ⟨c, op, -, -, he⟩ <;> rw [he]
  · exact h
  · exact h.recount hp _
  · exact h.withProcess hk hdr s c op

theorem Heard.destroyProcess (h : Heard exact g) (id : ProcessId) : Heard exact (g.destroyProcess id) := by
  rcases hp : g.processes[id]? with _ | p
  · rw [Graph.destroyProcess, hp]
    exact h
  · have hget : ∀ a : ProcessId, (g.destroyProcess id).processes[a]? = if a = id then none else g.processes[a]? := fun a => by
      rw [processes_destroyProcess hp, Table.get_erase]
    have hstore : (g.destroyProcess id).store = g.store.dropProcess id p := by rw [destroyProcess_eq hp]; rfl
    have hout : (g.destroyProcess id).outlets = g.outlets := by rw [destroyProcess_eq hp]; rfl
    refine h.tuneOut (.process id) p.inputs ?_ (hstore ▸ (Store.freeAll_fields ..).1) ?_
    · rintro c ⟨q, hq, hc⟩
      rw [hp] at hq
      obtain rfl := Option.some.inj hq
      exact hc
    · intro l c
      cases l with
      | outlet o => simp [Tuned, hout]
      | process a =>
        simp only [Tuned, hget, ne_eq, Listener.process.injEq]
        by_cases ha : a = id <;> simp [ha]

theorem Heard.giveBack (h : Heard exact g) (p : Option ProcessId) : Heard exact (g.giveBack p) := by
  rcases p with _ | id
  · exact h
  · rw [Graph.giveBack, releaseProcess]
    rcases hp : g.processes[id]? with _ | p <;> dsimp only
    · exact h
    · split
      · exact h.destroyProcess id
      · exact h.recount hp _

/-! ## Outlets -/

/-- What an outlet publishes stays. -/
theorem Heard.modifyOutlet (h : Heard exact g) (requests : IdMap Request) (lastId : Nat) (id : OutletId) {f : Outlet → Outlet}
    (hf : ∀ o, (f o).channels = o.channels) : Heard exact (Graph.modifyOutlet { g with requests, lastId } id f) := by
  refine h.congr (.refl _) (tuned_congr (fun _ => rfl) fun a => ?_)
  rw [get_outlets_modifyOutlet]
  split
  · rw [Option.map_map]
    exact congrArg (Option.map · _) (funext hf)
  · rfl

theorem Heard.unsubscribe (h : Heard exact g) (id : OutletId) : Heard exact (g.unsubscribe id) := by
  rcases ho : g.outlets[id]? with _ | o
  · rw [Graph.unsubscribe, ho]
    exact h
  · have hget : ∀ a : OutletId, (g.unsubscribe id).outlets[a]? = if a = id then some { o with channels := ∅ } else g.outlets[a]? := by
      intro a
      rw [Graph.unsubscribe, ho]
      refine (get_outlets_modifyOutlet ..).trans ?_
      split
      · subst a
        rw [ho]
        rfl
      · rfl
    have hstore : (g.unsubscribe id).store = g.store.unlistenAll (.outlet id) (o.channels.values.map some) := by
      rw [Graph.unsubscribe, ho]
      simp only [Store.unlistenAll, List.foldl_map]
      rfl
    have hproc : (g.unsubscribe id).processes = g.processes := by
      rw [Graph.unsubscribe, ho]
      rfl
    refine h.tuneOut (.outlet id) (o.channels.values.map some) ?_ (by rw [hstore]) ?_
    · rintro c ⟨o', ho', hc⟩
      rw [ho] at ho'
      obtain rfl := Option.some.inj ho'
      exact List.mem_map_of_mem hc
    · intro l c
      cases l with
      | process p => simp [Tuned, hproc]
      | outlet a =>
        simp only [Tuned, hget, ne_eq, Listener.outlet.injEq]
        by_cases ha : a = id
        · simp [ha, Table.values_eq]
        · simp [ha]

/-- An outlet that listens to nothing listens to what it publishes. -/
theorem Heard.attach (h : Heard exact g) (hdr : exact → Drawn κ τ g) {id : OutletId} {o : Outlet} {held : Option InstanceId} {channels : NameMap ChannelId}
    (ho : g.outlets[id]? = some o) (hc : o.channels = ∅) (hex : ∀ c ∈ channels.values, ∃ x s, (x, c) ∈ g.finalChannels o.owner s) :
    Heard exact (g.attach id held channels) := by
  have hget : ∀ a : OutletId, (g.attach id held channels).outlets[a]? = if a = id then some { o with held, channels } else g.outlets[a]? := by
    intro a
    refine (get_outlets_modifyOutlet ..).trans ?_
    split
    · subst a
      rw [ho]
      rfl
    · rfl
  have hnone : ∀ c, ¬ g.Tuned (.outlet id) c := by
    rintro c ⟨o', ho', hc'⟩
    rw [ho] at ho'
    obtain rfl := Option.some.inj ho'
    rw [hc] at hc'
    simp [Table.values_eq] at hc'
  refine h.tuneIn (.outlet id) channels.values ?_ rfl ?_
  · intro hx c hc
    obtain ⟨x, s, hf⟩ := hex c hc
    exact (hdr hx).chan (mem_finalChannels.1 hf)
  · intro l c
    cases l with
    | process p => simp [Tuned, Graph.attach, Graph.modifyOutlet]
    | outlet a =>
      simp only [Tuned, hget, Listener.outlet.injEq]
      by_cases ha : a = id
      · subst ha
        rw [if_pos rfl]
        constructor
        · rintro ⟨o', ho', hc'⟩
          obtain rfl := Option.some.inj ho'
          exact .inr ⟨rfl, hc'⟩
        · rintro (hc' | ⟨-, hc'⟩)
          · exact absurd hc' (hnone c)
          · exact ⟨_, rfl, hc'⟩
      · simp [ha]

/-- Outlets that publish nothing come or go. -/
theorem Heard.of_outlets (h : Heard exact g) (hs : g'.store = g.store) (hp : g'.processes = g.processes)
    (ho : ∀ id : OutletId, g'.outlets[id]? = g.outlets[id]? ∨
      (∀ o : Outlet, g.outlets[id]? = some o → o.channels = ∅) ∧ ∀ o : Outlet, g'.outlets[id]? = some o → o.channels = ∅) : Heard exact g' := by
  have hempty : ∀ {o : Outlet} {c : ChannelId}, o.channels = ∅ → c ∉ o.channels.values := by
    intro o c he hc
    obtain ⟨x, hx⟩ := Table.mem_values.1 hc
    rw [he, Std.ExtTreeMap.getElem?_empty] at hx
    cases hx
  refine h.congr (hs ▸ .refl _) fun l c => ?_
  cases l with
  | process p => simp only [Tuned, hp]
  | outlet id =>
    rcases ho id with he | ⟨h₁, h₂⟩
    · simp only [Tuned, he]
    · constructor
      · rintro ⟨o, hid, hc⟩
        exact absurd hc (hempty (h₂ o hid))
      · rintro ⟨o, hid, hc⟩
        exact absurd hc (hempty (h₁ o hid))

/-! ## Moves -/

theorem heard_move (m : Move κ τ g τ' g') (hd : Tidy τ g) (hpost : Posted τ g) (hdr : exact → Drawn κ τ g) (h : Heard exact g) : Heard exact g' := by
  have hsame : ∀ {g'' : Graph}, g''.store.channels = g.store.channels → g''.processes = g.processes → g''.outlets = g.outlets → Heard exact g'' :=
    fun hs hp ho => h.same (.of_channels hs) hp ho
  cases m with
  | restate hr =>
    have hproc : ∀ p : ProcessId, (g'.processes[p]?).map (·.inputs) = (g.processes[p]?).map (·.inputs) := fun p => by
      have := congrArg (Option.map (·.inputs)) (hr.processes p)
      rwa [Option.map_map, Option.map_map] at this
    have hout : ∀ id : OutletId, (g'.outlets[id]?).map (·.channels) = (g.outlets[id]?).map (·.channels) := fun id => by
      have := congrArg (Option.map (·.channels)) (hr.outlets id)
      rwa [Option.map_map, Option.map_map] at this
    obtain ⟨_, _, _, _, _, _, he⟩ := hr.rest
    exact h.congr (.of_channels (by rw [he])) (tuned_congr hproc hout)
  | reparent hn =>
    obtain ⟨_, rfl⟩ := hn.rest
    exact hsame rfl rfl rfl
  | sync n hτ ha =>
    obtain ⟨_, _, he⟩ := (synchronize_spec ha (hd.framed.wired_of_settled hτ.stale) n).1.rest
    rw [he]
    exact hsame rfl rfl rfl
  | reuse hτ hdn hs hk hi => exact hsame rfl rfl rfl
  | start hτ ha hdn hs hk hnest hgrant => exact hsame rfl rfl rfl
  | merge hj ho =>
    rename_i J jobs port fs
    have hmem : J ∈ τ.jobs := hj ▸ List.mem_cons_self
    have hJ := hd.staffed.jobs J hmem
    obtain ⟨w, hw, -⟩ := id hJ.inSync
    have hstore := store_mergeFeeds (s := J.sub) (I := g.store.Hears) hw
      (ho.mem_table hd.framed.designed (hd.staffed.wired hd.framed (List.ne_nil_of_mem hmem)) hJ hd.staffed.names)
      (fun st cur x _ hst => hst.trans (Store.hears_put ..)) (.refl _)
    obtain ⟨_, _, _, he⟩ := (hd.recached_merge hj ho).rest
    exact h.same hstore (by rw [he]) (by rw [he])
  | operate hj => exact h.operate hd.kept hdr _ _
  | view hj => exact h
  | finish children proto hj ha hh hb => exact hsame rfl rfl rfl
  | lessen hτ hi hu => exact hsame rfl rfl rfl
  | dismantle hτ hi hu =>
    rename_i id i
    obtain ⟨w, hw⟩ := hd.wiring_instance hi
    have hstore : (g.dismantle id i).store = w.releases (·.lastUsed i.substitution) [.output, .extended, .input] g.store := by
      rw [dismantle_eq hw]
      rfl
    exact h.same (hstore ▸ w.hears_releases _ _ _) (by rw [dismantle_eq hw]; rfl) (by rw [dismantle_eq hw]; rfl)
  | miss hi => exact h
  | giveBack p hτ => exact h.giveBack p
  | unwire hτ ht hw hup => exact hsame rfl rfl rfl
  | destroy hτ ht => exact h.destroyProcess _
  | discard hτ ht hi => exact hsame rfl rfl rfl
  | pass hτ ht hi => exact h
  | empty hτ ht =>
    obtain ⟨f, hf, -, -⟩ := hd.framed.torn _ ht
    obtain ⟨w, hw, -⟩ := Option.map_eq_some_iff.1 hf
    rw [clearPorts_eq hw]
    exact h.same (w.hears_releases _ _ _) rfl rfl
  | hush ht hc hdn hs hid =>
    rename_i n d id
    exact (h.unsubscribe id).modifyOutlet (g.unsubscribe id).requests (g.unsubscribe id).lastId id fun _ => rfl
  | told hst ht hs => exact h
  | edit hτ hj ht =>
    obtain ⟨_, _, rfl⟩ := ht.rest
    exact hsame rfl rfl rfl
  | addLeaf hτ => exact hsame rfl rfl rfl
  | addData b hτ => exact hsame rfl rfl rfl
  | addEntry e => exact hsame rfl rfl rfl
  | openOutlet hτ hc hdn hk =>
    refine h.of_outlets rfl rfl fun id => ?_
    rw [get_outlets_openOutlet]
    split
    · rename_i he
      refine .inr ⟨fun o ho => ?_, fun o ho => ?_⟩
      · rw [he, hpost.fresh] at ho
        cases ho
      · obtain rfl := Option.some.inj ho
        rfl
    · exact .inl rfl
  | enroll ho hb => exact h.modifyOutlet _ _ _ fun _ => rfl
  | pin hc hb => exact h.modifyOutlet g.requests g.lastId _ fun _ => rfl
  | unsubscribe id => exact h.unsubscribe id
  | giveUp ho hh => exact h.modifyOutlet g.requests g.lastId _ fun _ => rfl
  | attach ho hn hc hcl hex => exact h.attach hdr ho hc hex
  | withdraw hτ hr => exact h.modifyOutlet _ g.lastId _ fun _ => rfl
  | unasked hr => exact h
  | keep hb ho => exact h
  | close hb hτ ho he hp hc =>
    rename_i id o
    refine h.of_outlets rfl rfl fun a => ?_
    rw [Table.get_erase]
    split
    · rename_i ha
      refine .inr ⟨fun o' ho' => ?_, nofun⟩
      rw [ha, ho] at ho'
      obtain rfl := Option.some.inj ho'
      exact hc
    · exact .inl rfl
  | forget hc => exact hsame rfl rfl rfl
  | uproot hτ hj hc hrefs hs hidle =>
    refine h.of_outlets rfl rfl fun a => ?_
    change (List.foldl _ _ _ : IdMap Outlet)[a]? = _ ∨ _ ∧ ∀ o, (List.foldl _ _ _ : IdMap Outlet)[a]? = _ → _
    rw [get_eraseAll]
    split
    · rename_i ha
      exact .inr ⟨fun o ho => (hidle a ha o ho).2, nofun⟩
    · exact .inl rfl
  | disclaim hsub => exact h

end Graph

end Dataflow
