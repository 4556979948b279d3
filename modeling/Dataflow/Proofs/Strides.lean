import Dataflow.Proofs.Turns

/-!
# What moves do to processes and slots

Only two moves add anything that processes have to do with: feeds are merged at a port, which puts slots into channels, and a process is
made, with entries for its outputs. Every other move leaves processes what they are for each other, but for their states and their users, or
takes some of them away with what they write.
-/

namespace Dataflow

namespace Graph

variable {κ : Call} {τ τ' : Work} {g g' : Graph}

/-- A graph with fewer processes and fewer slots, perhaps: those that are left are the same, but for states and users, and their outputs
are of the same types. Processes may have kept plans. -/
structure Thins (g g' : Graph) : Prop where
  lastId : g.lastId ≤ g'.lastId
  registry : g'.registry = g.registry
  slots : ∀ c, ∀ y ∈ g'.store.slots c, y ∈ g.store.slots c
  processes : ∀ (id : ProcessId) (q : Process), g'.processes[id]? = some q →
    ∃ p : Process, g.processes[id]? = some p ∧ q = { p with state := q.state, uses := q.uses }
  types : ∀ e, g'.Written e → g'.store.typeAt? e = g.store.typeAt? e
  plans : ∀ key plan, g'.plans[key]? = some plan → g.plans[key]? = some plan ∨ g.Devises key plan

namespace Thins

/-- Processes stay as they are. -/
theorem same (hl : g.lastId ≤ g'.lastId) (hr : g'.registry = g.registry) (hp : g'.processes = g.processes) (hk : g'.plans = g.plans)
    (hs : ∀ c, ∀ y ∈ g'.store.slots c, y ∈ g.store.slots c) (ht : ∀ e, g'.Written e → g'.store.typeAt? e = g.store.typeAt? e) : g.Thins g' :=
  ⟨hl, hr, hs, fun _ q hq => ⟨q, hp ▸ hq, rfl⟩, ht, fun _ _ h => .inl (hk ▸ h)⟩

/-- The store and the processes stay as they are. -/
theorem aside (hl : g.lastId ≤ g'.lastId) (hr : g'.registry = g.registry) (hp : g'.processes = g.processes) (hk : g'.plans = g.plans)
    (hs : g'.store = g.store) : g.Thins g' := .same hl hr hp hk (fun c y hy => hs ▸ hy) fun e _ => by rw [hs]

theorem refl (g : Graph) : g.Thins g := .aside (Nat.le_refl _) rfl rfl rfl rfl

/-- Channels lose listeners alone, or gain some. -/
theorem relisten (hl : g'.lastId = g.lastId) (hr : g'.registry = g.registry) (hp : g'.processes = g.processes) (hk : g'.plans = g.plans)
    (he : g'.store.entries = g.store.entries) (hw : ∀ c, g'.store.wire? c = g.store.wire? c) : g.Thins g' :=
  .same hl.ge hr hp hk (fun c y hy => Store.slots_of_wire?_eq (hw c) ▸ hy) fun e _ => by
    rw [Store.typeAt?, Store.typeAt?, Store.entryAt?_of_entries_eq he]

/-- The maps of a node release channels. -/
theorem releases (w : Wiring) (f : ChannelMap → List ChannelId) (ports : List Port) (hl : g'.lastId = g.lastId) (hr : g'.registry = g.registry)
    (hp : g'.processes = g.processes) (hk : g'.plans = g.plans) (hs : g'.store = w.releases f ports g.store) : g.Thins g' := by
  refine .same hl.ge hr hp hk (fun c y hy => ?_) fun e _ => ?_
  · rw [hs, Store.slots_eq] at hy
    rcases hc : (w.releases f ports g.store).wire? c with _ | ⟨m, l⟩ <;> rw [hc] at hy
    · cases hy
    · rw [Store.slots_of_wire? (w.wire?_releases f ports g.store hc).1]
      exact hy
  · rw [hs, Store.typeAt?, Store.typeAt?, (w.releases_fields f ports g.store).1]

/-- Values and states change. -/
theorem restate (h : g.Restated g') : g.Thins g' := by
  have ht : ∀ e, g'.store.typeAt? e = g.store.typeAt? e := fun e => by
    have := congrArg (Option.map Prod.fst) (h.entries e)
    rw [Option.map_map, Option.map_map] at this
    rw [Store.typeAt?, Store.typeAt?, Store.entryAt?, Store.entryAt?, Option.map_map, Option.map_map]
    exact this
  have hp := h.processes
  have hk := h.plans
  obtain ⟨_, _, _, _, _, _, rfl⟩ := h.rest
  refine ⟨Nat.le_refl _, rfl, fun _ _ hy => hy, fun id q hq => ?_, fun e _ => ht e, hk⟩
  have hu := hp id
  rw [hq, Option.map_some, eq_comm, Option.map_eq_some_iff] at hu
  obtain ⟨p, hp, he⟩ := hu
  refine ⟨p, hp, ?_⟩
  rw [Process.unrun, Process.unrun] at he
  cases p
  cases q
  cases he
  rfl

/-- A process has one user more or less. -/
theorem recount {id : ProcessId} {p : Process} (hp : g.processes[id]? = some p) (u : Nat) :
    g.Thins { g with processes := g.processes.insert id { p with uses := u } } := by
  refine ⟨Nat.le_refl _, rfl, fun _ _ hy => hy, fun j q hq => ?_, fun _ _ => rfl, fun _ _ hk => .inl hk⟩
  rw [Table.get_insert] at hq
  split at hq
  · subst j
    cases hq
    exact ⟨p, hp, rfl⟩
  · exact ⟨q, hq, rfl⟩

/-- A process goes, with its entries, which no other process writes. -/
theorem destroyProcess {exact : Prop} (h : Stored exact κ τ g) (id : ProcessId) : g.Thins (g.destroyProcess id) := by
  rcases hp : g.processes[id]? with _ | p
  · rw [Graph.destroyProcess, hp]
    exact .refl g
  · have hget : ∀ a : ProcessId, (g.destroyProcess id).processes[a]? = if a = id then none else g.processes[a]? := fun a => by
      rw [processes_destroyProcess hp, Table.get_erase]
    have hstore : (g.destroyProcess id).store = g.store.dropProcess id p := by rw [destroyProcess_eq hp]; rfl
    refine ⟨(derives_destroyProcess g id).derived.lastId, (derives_destroyProcess g id).derived.registry, fun c y hy => ?_, fun a q hq => ?_,
      fun e hw => ?_, fun _ _ hk => .inl (by rwa [destroyProcess_eq hp] at hk)⟩
    · have hwire : (g.store.dropProcess id p).wire? c = g.store.wire? c :=
        (Store.wire?_of_channels_eq (Store.freeAll_fields ..).1 c).trans (Store.wire?_unlistenAll ..)
      rwa [hstore, Store.slots_of_wire?_eq hwire] at hy
    · rw [hget] at hq
      split at hq
      · cases hq
      · exact ⟨q, hq, rfl⟩
    · obtain ⟨a, q, hq, he⟩ := hw
      rw [hget] at hq
      split at hq
      · cases hq
      · rename_i hne
        have hep : e ∉ p.outputs.map (·.2) := fun hep => hne (h.apart a id q p hq hp e he hep)
        rw [hstore, Store.typeAt?, Store.typeAt?, Store.entryAt?_dropProcess, if_neg hep]

theorem giveBack {exact : Prop} (h : Stored exact κ τ g) (p : Option ProcessId) : g.Thins (g.giveBack p) := by
  rcases p with _ | id
  · exact .refl g
  · rw [Graph.giveBack, releaseProcess]
    rcases hp : g.processes[id]? with _ | p <;> dsimp only
    · exact .refl g
    · split
      · exact .destroyProcess h id
      · exact .recount hp _

theorem unsubscribe (g : Graph) (id : OutletId) : g.Thins (g.unsubscribe id) := by
  rw [Graph.unsubscribe]
  split
  · exact .refl g
  · rename_i o _
    have hs : o.channels.values.foldl (fun s c => s.unlisten c (.outlet id)) g.store =
        g.store.unlistenAll (.outlet id) (o.channels.values.map some) := by
      rw [Store.unlistenAll, List.foldl_map]
    rw [hs]
    exact .relisten rfl rfl rfl rfl (Store.unlistenAll_fields ..).1 fun _ => Store.wire?_unlistenAll ..

end Thins

/-- What a move does to processes and slots: feeds are merged at a port of the node of a job, a process is made, or nothing is added. -/
inductive Stride (τ : Work) (g : Graph) : Graph → Prop where
  | merges {J : Job} {jobs : List Job} {port : Port} {fs : List (String × Feed)} (jobs : τ.jobs = J :: jobs) (offers : g.Offers J port fs) :
    Stride τ g (g.mergeFeeds J.node port J.sub fs)
  | makes {J : Job} {jobs : List Job} {c : Compute} {op : Operator} (jobs : τ.jobs = J :: jobs) (operation : g.operation? J.node = some (c, op)) :
    Stride τ g (g.withProcess J.node J.sub c op)
  | thins {g' : Graph} (thins : g.Thins g') : Stride τ g g'

/-- Every move is of one of these kinds. -/
theorem Move.stride (m : Move κ τ g τ' g') (hd : Tidy τ g) {exact : Prop} (h : Stored exact κ τ g) : Stride τ g g' := by
  have hsame : ∀ {g'' : Graph}, g.lastId ≤ g''.lastId → g''.registry = g.registry → g''.processes = g.processes → g''.plans = g.plans →
      g''.store = g.store → Stride τ g g'' := fun hl hr hp hk hs => .thins (.aside hl hr hp hk hs)
  cases m with
  | restate hr => exact .thins (.restate hr)
  | reparent hn =>
    obtain ⟨_, rfl⟩ := hn.rest
    exact hsame (Nat.le_refl _) rfl rfl rfl rfl
  | sync n hτ ha =>
    obtain ⟨_, _, he⟩ := (synchronize_spec ha (hd.framed.wired_of_settled hτ.stale) n).1.rest
    rw [he]
    exact hsame (Nat.le_refl _) rfl rfl rfl rfl
  | reuse hτ hdn hs hk hi => exact hsame (Nat.le_refl _) rfl rfl rfl rfl
  | start hτ ha hdn hs hk hnest hgrant => exact hsame (Nat.le_succ _) rfl rfl rfl rfl
  | merge hj ho => exact .merges hj ho
  | operate hj =>
    rename_i J jobs
    rcases acquireProcess_cases g J.node J.sub with he | ⟨id, p, -, hp, he⟩ | ⟨c, op, ho, -, he⟩ <;> rw [he]
    · exact .thins (.refl g)
    · exact .thins (.recount hp _)
    · exact .makes hj ho
  | view hj => exact .thins (.refl g)
  | finish children proto hj ha hh hb => exact hsame (Nat.le_refl _) rfl rfl rfl rfl
  | lessen hτ hi hu => exact hsame (Nat.le_refl _) rfl rfl rfl rfl
  | dismantle hτ hi hu =>
    rename_i id i
    obtain ⟨w, hw⟩ := hd.wiring_instance hi
    rw [dismantle_eq hw]
    exact .thins (.releases w (·.lastUsed i.substitution) [.output, .extended, .input] rfl rfl rfl rfl rfl)
  | miss hi => exact .thins (.refl g)
  | giveBack p hτ => exact .thins (.giveBack h p)
  | unwire hτ ht hw hup => exact hsame (Nat.le_refl _) rfl rfl rfl rfl
  | destroy hτ ht => exact .thins (.destroyProcess h _)
  | discard hτ ht hi => exact hsame (Nat.le_refl _) rfl rfl rfl rfl
  | pass hτ ht hi => exact .thins (.refl g)
  | empty hτ ht =>
    obtain ⟨f, hf, -, -⟩ := hd.framed.torn _ ht
    obtain ⟨w, hw, -⟩ := Option.map_eq_some_iff.1 hf
    rw [clearPorts_eq hw]
    exact .thins (.releases w ChannelMap.channels [.input, .extended, .output] rfl rfl rfl rfl rfl)
  | hush ht hc hdn hs hid =>
    rename_i id
    have hun := Thins.unsubscribe g id
    exact .thins ⟨hun.lastId, hun.registry, hun.slots, hun.processes, hun.types, hun.plans⟩
  | told hst ht hs => exact .thins (.refl g)
  | edit hτ hj ht =>
    obtain ⟨_, _, rfl⟩ := ht.rest
    exact hsame (Nat.le_refl _) rfl rfl rfl rfl
  | addLeaf hτ => exact hsame (Nat.le_refl _) rfl rfl rfl rfl
  | addData b hτ => exact .thins (.same (Nat.le_refl _) rfl rfl rfl (fun _ _ hy => hy) fun _ _ => rfl)
  | addEntry e =>
    refine .thins (.same (Nat.le_refl _) rfl rfl rfl (fun _ _ hy => hy) fun e' hw => ?_)
    have hlt := Store.lt_next_of_isSome (h.outputs e' hw)
    rw [Store.typeAt?, Store.typeAt?, show (g.createEntry e).1.store.entryAt? e' = _ from Store.entryAt?_pushEntry ..,
      if_neg (Nat.ne_of_lt hlt)]
  | openOutlet hτ hc hdn hk => exact hsame (Nat.le_succ _) rfl rfl rfl rfl
  | enroll ho hb => exact hsame (Nat.le_succ _) rfl rfl rfl rfl
  | pin hc hb => exact hsame (Nat.le_refl _) rfl rfl rfl rfl
  | unsubscribe id => exact .thins (.unsubscribe g id)
  | giveUp ho hh => exact hsame (Nat.le_refl _) rfl rfl rfl rfl
  | attach ho hn hc hcl => exact .thins (.relisten rfl rfl rfl rfl (Store.listenAll_fields ..).1 fun _ => Store.wire?_listenAll ..)
  | withdraw hτ hr => exact hsame (Nat.le_refl _) rfl rfl rfl rfl
  | unasked hr => exact .thins (.refl g)
  | keep hb ho => exact .thins (.refl g)
  | close hb hτ ho he hp hc => exact hsame (Nat.le_refl _) rfl rfl rfl rfl
  | forget hc => exact hsame (Nat.le_refl _) rfl rfl rfl rfl
  | uproot hτ hj hc hrefs hs hidle => exact hsame (Nat.le_refl _) rfl rfl rfl rfl
  | disclaim hsub => exact .thins (.refl g)

end Graph

end Dataflow
