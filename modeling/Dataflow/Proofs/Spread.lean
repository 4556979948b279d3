import Dataflow.Proofs.Attended
import Dataflow.Proofs.Events

/-!
# How a change of data spreads

A change of an entry makes stale what the processes that read it write, and so on. Who is told of it is defined here by what channels hold
and who listens to them; a search over the entries' lists of channels finds exactly these, as the lists are exact.
-/

namespace Dataflow

/-- Some slot of the channel holds the entry. -/
def Store.Holds (s : Store) (c : ChannelId) (e : EntryId) : Prop := ∃ y ∈ s.slots c, y.entry = e

/-- A channel that holds an entry is in the entry's list. -/
theorem Store.Mirrored.mem_watchers {s : Store} (h : s.Mirrored) {e : EntryId} (he : (s.entryAt? e).isSome) {c : ChannelId} :
    c ∈ s.watchers e ↔ s.Holds c e := by
  rw [← List.count_pos_iff, h.watchers e he, List.countP_pos_iff]
  simp [Store.Holds]

theorem Store.watchers_modifyEntry (s : Store) (e a : EntryId) (f : Entry → Entry) : (s.modifyEntry e f).watchers a = s.watchers a := by
  rw [Store.watchers, show (s.modifyEntry e f).entries.get? a = _ from Arena.get?_modify .., Store.watchers]
  split
  · rcases s.entries.get? a with _ | r <;> rfl
  · rfl

/-- The process that listens, unless it is an outlet. -/
def Listener.process? : Listener → Option ProcessId
  | .process p => some p
  | .outlet _ => none

/-- The outlet, as one that has to refresh before its result is valid. -/
def Outlet.outdated (o : Outlet) : Outlet :=
  { o with status := if o.status = .ready then .needsData else o.status, result := { o.result with valid := false } }

theorem Outlet.outdated_outdated (o : Outlet) : o.outdated.outdated = o.outdated := by
  rw [outdated, outdated]
  rcases o.status with _ | _ | _ <;> rfl

theorem Outlet.outdated_ne_ready (o : Outlet) : o.outdated.status ≠ .ready := by
  rcases hst : o.status <;> simp [outdated, hst]

/-- The entry that a call changes, and how. -/
def Call.update : Call → Option (EntryId × (Entry → Except Error Entry))
  | .setPayload e x => some (e, (·.setPayload x))
  | .setImage e x => some (e, (·.mapTexture ({ · with image := x })))
  | .setLoading e x => some (e, (·.mapTexture ({ · with loading := x })))
  | _ => none

namespace Graph

variable {τ : Work} {g g' : Graph} {e e' : EntryId} {p : ProcessId} {id : OutletId}

/-! ## Who is told -/

/-- A process is stale after a change of an entry when it listens to a channel that holds the entry, or one that a stale process writes. -/
inductive Stale (g : Graph) (e : EntryId) : ProcessId → Prop where
  | reads {c : ChannelId} {p : ProcessId} (hc : g.store.Holds c e) (hl : .process p ∈ g.store.listenersOf c) : Stale g e p
  | follows {p p' : ProcessId} {q : Process} {c : ChannelId} {e' : EntryId} (hp : Stale g e p) (hq : g.processes[p]? = some q)
    (he : e' ∈ q.writes) (hc : g.store.Holds c e') (hl : .process p' ∈ g.store.listenersOf c) : Stale g e p'

/-- An entry is outdated after a change of an entry when it is that one, or one that a stale process writes. -/
def Outdated (g : Graph) (e e' : EntryId) : Prop := e' = e ∨ ∃ p q, g.Stale e p ∧ g.processes[p]? = some q ∧ e' ∈ q.writes

/-- An outlet is concerned with a change of an entry when it listens to a channel that holds an outdated one. -/
def Concerned (g : Graph) (e : EntryId) (id : OutletId) : Prop :=
  ∃ e' c, g.Outdated e e' ∧ g.store.Holds c e' ∧ .outlet id ∈ g.store.listenersOf c

/-- Every entry that is the given one or is written by a process is there, and knows the channels that hold it. -/
structure Findable (g : Graph) (e : EntryId) : Prop where
  mirrored : g.store.Mirrored
  entry : (g.store.entryAt? e).isSome
  written : ∀ e', g.Written e' → (g.store.entryAt? e').isSome

theorem mem_listeners (hm : g.store.Mirrored) (he : (g.store.entryAt? e).isSome) {l : Listener} :
    l ∈ g.listeners e ↔ ∃ c, g.store.Holds c e ∧ l ∈ g.store.listenersOf c := by
  simp only [listeners, List.mem_flatMap, hm.mem_watchers he]
  rfl

theorem mem_readers : p ∈ g.readers e ↔ .process p ∈ g.listeners e := by
  rw [readers, List.mem_filterMap]
  constructor
  · rintro ⟨l, hl, hp⟩
    cases l with
    | process p' =>
      obtain rfl := Option.some.inj hp
      exact hl
    | outlet id => cases hp
  · exact fun hl => ⟨_, hl, rfl⟩

theorem mem_publishers : id ∈ g.publishers e ↔ .outlet id ∈ g.listeners e := by
  rw [publishers, List.mem_filterMap]
  constructor
  · rintro ⟨l, hl, hp⟩
    cases l with
    | process p => cases hp
    | outlet id' =>
      obtain rfl := Option.some.inj hp
      exact hl
  · exact fun hl => ⟨_, hl, rfl⟩

theorem mem_written : e ∈ g.written p ↔ ∃ q : Process, g.processes[p]? = some q ∧ e ∈ q.writes := by
  rw [written]
  rcases g.processes[p]? with _ | q
  · simp
  · simp [Process.writes]

theorem mem_audience_of_listener {l : Listener} (h : l ∈ g.listeners e) : l ∈ g.audience := by
  obtain ⟨c, -, hl⟩ := List.mem_flatMap.1 h
  rcases hc : g.store.channel? c with _ | ch
  · rw [hc] at hl
    cases hl
  · rw [hc] at hl
    exact List.mem_flatMap.2 ⟨ch, Table.mem_values.2 ⟨c, hc⟩, hl⟩

/-- The search finds exactly the stale processes. -/
theorem Findable.mem_downstream (h : g.Findable e) : p ∈ g.downstream e ↔ g.Stale e p := by
  have hentry : ∀ {p : ProcessId} {e' : EntryId}, e' ∈ g.written p → (g.store.entryAt? e').isSome := by
    intro p e' he'
    obtain ⟨q, hq, he'⟩ := mem_written.1 he'
    exact h.written e' ⟨p, q, hq, he'⟩
  have hstart : ∀ {p : ProcessId}, p ∈ g.readers e ↔ ∃ c, g.store.Holds c e ∧ .process p ∈ g.store.listenersOf c := by
    intro p
    rw [mem_readers, mem_listeners h.mirrored h.entry]
  have hnext : ∀ {p p' : ProcessId}, p' ∈ (g.written p).flatMap g.readers ↔
      ∃ q e' c, g.processes[p]? = some q ∧ e' ∈ q.writes ∧ g.store.Holds c e' ∧ .process p' ∈ g.store.listenersOf c := by
    intro p p'
    rw [List.mem_flatMap]
    constructor
    · rintro ⟨e', he', hp'⟩
      rw [mem_readers, mem_listeners h.mirrored (hentry he')] at hp'
      obtain ⟨q, hq, hw⟩ := mem_written.1 he'
      obtain ⟨c, hc, hl⟩ := hp'
      exact ⟨q, e', c, hq, hw, hc, hl⟩
    · rintro ⟨q, e', c, hq, hw, hc, hl⟩
      have he' := mem_written.2 ⟨q, hq, hw⟩
      exact ⟨e', he', by rw [mem_readers, mem_listeners h.mirrored (hentry he')]; exact ⟨c, hc, hl⟩⟩
  constructor
  · intro hp
    obtain ⟨t, ht, hlead⟩ := reachable_sound hp
    refine hlead.mem_of_closed (fun i hi j hj => ?_) ?_
    · obtain ⟨q, e', c, hq, hw, hc, hl⟩ := hnext.1 hj
      exact .follows hi hq hw hc hl
    · obtain ⟨c, hc, hl⟩ := hstart.1 ht
      exact .reads hc hl
  · intro hp
    have hlead : ∃ t ∈ g.readers e, Leads (fun p => (g.written p).flatMap g.readers) t p := by
      induction hp with
      | reads hc hl => exact ⟨_, hstart.2 ⟨_, hc, hl⟩, .refl _⟩
      | follows _ hq hw hc hl ih =>
        obtain ⟨t, ht, hlead⟩ := ih
        exact ⟨t, ht, hlead.tail (hnext.2 ⟨_, _, _, hq, hw, hc, hl⟩)⟩
    obtain ⟨t, ht, hlead⟩ := hlead
    -- everyone whom the search comes by listens to some channel
    have hall : ∀ {e' p}, p ∈ g.readers e' → p ∈ g.audience.filterMap Listener.process? := fun hp =>
      List.mem_filterMap.2 ⟨_, mem_audience_of_listener (mem_readers.1 hp), rfl⟩
    refine reachable_complete (fun _ hp => hall hp) (fun i _ j hj => ?_) (List.length_filterMap_le ..) ht hlead
    obtain ⟨e', -, hj⟩ := List.mem_flatMap.1 hj
    exact hall hj

/-- The outlets that publish what is outdated are those concerned. -/
theorem Findable.mem_outlets (h : g.Findable e) :
    id ∈ (e :: (g.downstream e).flatMap g.written).flatMap g.publishers ↔ g.Concerned e id := by
  have hout : ∀ {e'}, e' ∈ e :: (g.downstream e).flatMap g.written ↔ g.Outdated e e' := by
    intro e'
    simp only [List.mem_cons, List.mem_flatMap, h.mem_downstream, mem_written, Outdated]
    constructor
    · rintro (rfl | ⟨p, hp, q, hq, hw⟩)
      · exact .inl rfl
      · exact .inr ⟨p, q, hp, hq, hw⟩
    · rintro (rfl | ⟨p, q, hp, hq, hw⟩)
      · exact .inl rfl
      · exact .inr ⟨p, hp, q, hq, hw⟩
  have hentry : ∀ {e'}, g.Outdated e e' → (g.store.entryAt? e').isSome := by
    rintro e' (rfl | ⟨p, q, -, hq, hw⟩)
    · exact h.entry
    · exact h.written e' ⟨p, q, hq, hw⟩
  rw [List.mem_flatMap]
  constructor
  · rintro ⟨e', he', hid⟩
    have ho := hout.1 he'
    rw [mem_publishers, mem_listeners h.mirrored (hentry ho)] at hid
    obtain ⟨c, hc, hl⟩ := hid
    exact ⟨e', c, ho, hc, hl⟩
  · rintro ⟨e', c, ho, hc, hl⟩
    refine ⟨e', hout.2 ho, ?_⟩
    rw [mem_publishers, mem_listeners h.mirrored (hentry ho)]
    exact ⟨c, hc, hl⟩

/-! ## What is told -/

theorem get_unprocess (g : Graph) (ps : List ProcessId) (p : ProcessId) :
    (g.unprocess ps).processes[p]? = if p ∈ ps then (g.processes[p]?).map Process.unrun else g.processes[p]? :=
  @Table.get_foldl_modify _ _ _ _ _ _ Process.unrun (fun _ => rfl) ps g.processes p

theorem staleData_eq (g : Graph) (ids : List OutletId) :
    g.staleData ids = { g with outlets := ids.foldl (fun t id => t.modify id Outlet.outdated) g.outlets } := by
  induction ids generalizing g with
  | nil => rfl
  | cons id ids ih => exact ih _

theorem get_staleData (g : Graph) (ids : List OutletId) (id : OutletId) :
    (g.staleData ids).outlets[id]? = if id ∈ ids then (g.outlets[id]?).map Outlet.outdated else g.outlets[id]? := by
  rw [staleData_eq]
  exact Table.get_foldl_modify Outlet.outdated_outdated ids g.outlets id

/-- The outlets that publish an entry or what is computed from it. -/
def concernedBy (g : Graph) (e : EntryId) : List OutletId := inOrder ((e :: (g.downstream e).flatMap g.written).flatMap g.publishers)

/-! Who is told does not depend on values. -/

section Values

variable (g : Graph) (e a : EntryId) (f : Entry → Entry)

theorem listeners_modifyEntry : Graph.listeners { g with store := g.store.modifyEntry e f } a = g.listeners a := by
  rw [listeners, Store.watchers_modifyEntry, listeners]
  rfl

theorem readers_modifyEntry : Graph.readers { g with store := g.store.modifyEntry e f } = g.readers :=
  funext fun a => by rw [readers, listeners_modifyEntry, readers]

theorem publishers_modifyEntry : Graph.publishers { g with store := g.store.modifyEntry e f } = g.publishers :=
  funext fun a => by rw [publishers, listeners_modifyEntry, publishers]

theorem downstream_modifyEntry : Graph.downstream { g with store := g.store.modifyEntry e f } a = g.downstream a := by
  rw [downstream, readers_modifyEntry]
  rfl

theorem concernedBy_modifyEntry : Graph.concernedBy { g with store := g.store.modifyEntry e f } a = g.concernedBy a := by
  rw [concernedBy, downstream_modifyEntry, publishers_modifyEntry]
  rfl

end Values

/-- Telling of a change of data concerns processes, outlets and the journal. -/
theorem dataChanged_eq (g : Graph) (e : EntryId) (h : g.journal.violation = none) :
    g.dataChanged e = { g with
      processes := (g.unprocess (g.downstream e)).processes
      outlets := (g.staleData (g.concernedBy e)).outlets
      journal := { g.journal with
        checked := g.journal.checked ++ [.dataKeepsStructure]
        events := g.journal.events ++ g.callbacks (inOrder ((g.concernedBy e).flatMap g.requestsAt)) .data } } := by
  have hstale : (g.unprocess (g.downstream e)).staleData (g.concernedBy e) =
      { g with processes := (g.unprocess (g.downstream e)).processes, outlets := (g.staleData (g.concernedBy e)).outlets } := by
    rw [staleData_eq, staleData_eq]
    rfl
  -- nobody gets out of sync
  have hsync : decide (((g.unprocess (g.downstream e)).staleData (g.concernedBy e)).outOfSyncCount = g.outOfSyncCount) = true := by
    rw [hstale]
    exact decide_eq_true rfl
  change (((g.unprocess (g.downstream e)).staleData (g.concernedBy e)).check .dataKeepsStructure
    (decide (((g.unprocess (g.downstream e)).staleData (g.concernedBy e)).outOfSyncCount = g.outOfSyncCount)) "notify_data_change").fire
    ((g.concernedBy e).flatMap g.requestsAt) .data = _
  rw [hsync, hstale]
  exact fire_check _ _ _ _ _ h

/-- A change of an entry has spread: the stale processes have to run and the outlets concerned have to refresh, their requests were told,
and everything else is as it was, but for the entry. -/
structure Spread (g g' : Graph) (e : EntryId) : Prop where
  stale : ∀ p : ProcessId, g.Stale e p → g'.processes[p]? = (g.processes[p]?).map Process.unrun
  current : ∀ p : ProcessId, ¬ g.Stale e p → g'.processes[p]? = g.processes[p]?
  concerned : ∀ id : OutletId, g.Concerned e id → g'.outlets[id]? = (g.outlets[id]?).map Outlet.outdated
  unconcerned : ∀ id : OutletId, ¬ g.Concerned e id → g'.outlets[id]? = g.outlets[id]?
  reported : Reported g .data (g.Concerned e) g'.journal.events
  entries : ∀ e', e' ≠ e → g'.store.entries.get? e' = g.store.entries.get? e'
  watchers : g'.store.watchers e = g.store.watchers e
  rest : ∃ entries processes outlets journal, g' = { g with store := { g.store with entries }, processes, outlets, journal }

/-- Who is ready after a change has spread was not concerned. -/
theorem Spread.not_concerned (hs : Spread g g' e) {o' : Outlet} (ho' : g'.outlets[id]? = some o') (hready : o'.status = .ready) :
    ¬ g.Concerned e id := by
  intro hc
  rw [hs.concerned id hc] at ho'
  obtain ⟨o, -, rfl⟩ := Option.map_eq_some_iff.1 ho'
  exact o.outdated_ne_ready hready

/-- When everyone can be found, a change of the value of an entry spreads. -/
theorem Findable.spread (h : g.Findable e) (hp : Posted τ g) (x : Entry) :
    Spread g ({ g.settled with store := g.store.modifyEntry e fun _ => x }.dataChanged e) e := by
  have hdown : Graph.downstream { g.settled with store := g.store.modifyEntry e fun _ => x } e = g.downstream e :=
    downstream_modifyEntry g.settled e e fun _ => x
  have hconcerned : Graph.concernedBy { g.settled with store := g.store.modifyEntry e fun _ => x } e = g.concernedBy e :=
    concernedBy_modifyEntry g.settled e e fun _ => x
  have hmem : ∀ id, id ∈ g.concernedBy e ↔ g.Concerned e id := fun id => mem_inOrder.trans h.mem_outlets
  rw [dataChanged_eq _ _ rfl, hdown, hconcerned]
  have hproc : ∀ p : ProcessId, (g.unprocess (g.downstream e)).processes[p]? = if p ∈ g.downstream e then (g.processes[p]?).map Process.unrun
      else g.processes[p]? := get_unprocess g _
  have hout : ∀ id : OutletId, (g.staleData (g.concernedBy e)).outlets[id]? = if id ∈ g.concernedBy e then (g.outlets[id]?).map Outlet.outdated
      else g.outlets[id]? := get_staleData g _
  have hsame : (Graph.staleData { g.settled with store := g.store.modifyEntry e fun _ => x } (g.concernedBy e)).outlets =
      (g.staleData (g.concernedBy e)).outlets := by
    rw [staleData_eq, staleData_eq]
    rfl
  rw [hsame]
  refine ⟨fun p hs => ?_, fun p hs => ?_, fun id hc => ?_, fun id hc => ?_, ?_, fun e' he => ?_, Store.watchers_modifyEntry g.store e e _, ?_⟩
  · exact (hproc p).trans (if_pos (h.mem_downstream.2 hs))
  · exact (hproc p).trans (if_neg fun hp => hs (h.mem_downstream.1 hp))
  · exact (hout id).trans (if_pos ((hmem id).2 hc))
  · exact (hout id).trans (if_neg fun hid => hc ((hmem id).1 hid))
  · exact (hp.reported (g.concernedBy e) .data).congr (fun id => (hmem id).symm) rfl
  · exact (Arena.get?_modify ..).trans (if_neg he)
  · exact ⟨_, _, _, _, rfl⟩

theorem perform_of_update (g : Graph) {c : Call} {f : Entry → Except Error Entry} (hc : c.update = some (e, f)) :
    g.perform c = done (g.updateEntry e f) := by
  cases c <;> cases hc <;> rfl

/-- In a graph whose lists are exact everyone can be found. -/
theorem Attended.findable {exact : Prop} {a : Account} (h : Attended exact a g) (he : (g.entryAt? e).isSome) : g.Findable e :=
  ⟨h.stored.mirrored trivial, he, h.stored.outputs⟩

/-- A change of an entry that is not refused spreads, and the entry has its new value. -/
theorem Attended.update {exact : Prop} {a : Account} (h : Attended exact a g) {f : Entry → Except Error Entry}
    (hok : (g.settled.updateEntry e f).2 = .ok ()) :
    Spread g (g.settled.updateEntry e f).1 e ∧
      ∃ old value, g.entryAt? e = some old ∧ f old = .ok value ∧ (g.settled.updateEntry e f).1.entryAt? e = some value := by
  rw [updateEntry] at hok ⊢
  rcases hold : g.entryAt? e with _ | old
  · simp only [show g.settled.entryAt? e = none from hold] at hok
    cases hok
  · simp only [show g.settled.entryAt? e = some old from hold] at hok ⊢
    rcases hvalue : f old with err | value <;> simp only [hvalue] at hok ⊢
    · cases hok
    · refine ⟨(h.findable (by rw [hold]; rfl)).spread h.orderly.posted value, old, value, rfl, hvalue, ?_⟩
      rw [dataChanged_eq _ _ rfl]
      change (g.store.modifyEntry e fun _ => value).entryAt? e = some value
      rw [Store.entryAt?_modifyEntry, if_pos rfl, show g.store.entryAt? e = some old from hold]
      rfl

/-- After any calls of which leaves were bound to entries that were there, a call that changes an entry and is not refused spreads: exactly
the stale processes have to run, exactly the outlets concerned have to refresh, exactly their requests are told, once and in order, and
nothing else changes. -/
theorem data_change_exact (registry : Registry) (config : Config) (calls : List Call) (h : (new registry config).Throughout BindsEntry calls)
    {c : Call} {e : EntryId} {f : Entry → Except Error Entry} (hc : c.update = some (e, f))
    (hok : (((new registry config).after calls).settled.perform c).2 = .ok .done) :
    Spread ((new registry config).after calls) (((new registry config).after calls).step c) e ∧
      ∃ old value, ((new registry config).after calls).entryAt? e = some old ∧ f old = .ok value ∧
        (((new registry config).after calls).step c).entryAt? e = some value := by
  obtain ⟨a, ha⟩ := (attended_new registry config False).after (fun _ _ hc => hc) nofun h
  generalize (new registry config).after calls = g at hok ha ⊢
  obtain hperform := perform_of_update g.settled hc
  have hstep : g.step c = (g.settled.updateEntry e f).1 := congrArg Prod.fst hperform
  rw [hstep]
  refine ha.update ?_
  rw [hperform] at hok
  rcases hr : (g.settled.updateEntry e f).2 with err | u
  · rw [done, hr] at hok
    cases hok
  · rfl

/-- The request has a callback, and the leaf's entry changes. -/
theorem data_change_exact_subscribing :
    (((new ⟨(∅ : NameMap Operator).insert "keep" keepOperator⟩ {}).after (subscribingCalls ++ [.watchRequest 6 "changed"])).step
      (.setPayload 0 (.floats [2]))).journal.events = [⟨6, .data, "changed"⟩] ∧
    Spread ((new ⟨(∅ : NameMap Operator).insert "keep" keepOperator⟩ {}).after (subscribingCalls ++ [.watchRequest 6 "changed"]))
      (((new ⟨(∅ : NameMap Operator).insert "keep" keepOperator⟩ {}).after (subscribingCalls ++ [.watchRequest 6 "changed"])).step
        (.setPayload 0 (.floats [2]))) 0 := by
  have h := data_change_exact ⟨(∅ : NameMap Operator).insert "keep" keepOperator⟩ {} (subscribingCalls ++ [.watchRequest 6 "changed"])
    (by decide +kernel) (c := .setPayload 0 (.floats [2])) rfl (by decide +kernel)
  exact ⟨by decide +kernel, h.1⟩

end Graph

end Dataflow
