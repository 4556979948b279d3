import Dataflow.Proofs.Arranged
import Dataflow.Proofs.Spread

/-!
# What a pull runs again

A run of a process that has to run is the only thing that settles it, and it settles no other. So when a result was brought up to date, none
of the processes that it is computed from has to run. A change of an entry has those run again that read it, directly or through what others
write, and the schedule of the next pull lists the same processes, each after what it reads from. So that pull runs, each once and in order,
some of those that read what was changed.
-/

namespace Dataflow

namespace Graph

variable {g g' g'' : Graph} {id j : ProcessId} {r : RequestId} {E : List EntryId}

/-! ## Who has to run -/

/-- Whether a process has to run. -/
def due (g : Graph) (id : ProcessId) : Bool := (g.processes[id]?).any (·.state = .unprocessed)

theorem due_iff : g.due id = true ↔ ∃ p : Process, g.processes[id]? = some p ∧ p.state = .unprocessed := by
  simp [due, Option.any_eq_true]

theorem runProcess_of_not_due (h : g.due id = false) : g.runProcess id = g := by
  rw [runProcess]
  rcases hp : g.processes[id]? with _ | p
  · rfl
  · have hs : p.state ≠ .unprocessed := fun hs => Bool.false_ne_true (h.symm.trans (due_iff.2 ⟨p, hp, hs⟩))
    dsimp only
    rw [if_pos hs]

theorem processes_applyOperator (g : Graph) (p : Process) : (g.applyOperator p).1.processes = g.processes := by
  have hplan : ∀ adv, ((g.prepare p).planFor p.operator adv).1.processes = (g.prepare p).processes := fun adv => by
    obtain ⟨_, he⟩ := planFor_rest (g.prepare p) p.operator adv
    rw [he]
  rw [applyOperator_eq, runKernel]
  dsimp only
  split
  · exact (hplan _).trans (processes_prepare g p)
  · split <;> exact processes_prepare g p

/-- A run of a process settles its state, and that of no other. -/
theorem processes_runProcess (h : g.due id = true) :
    ∃ st, st ≠ .unprocessed ∧ ∀ j : ProcessId, (g.runProcess id).processes[j]? =
      if j = id then (g.processes[j]?).map ({ · with state := st }) else g.processes[j]? := by
  obtain ⟨p, hp, hs⟩ := due_iff.1 h
  have key : ∃ g₁ st, st ≠ ProcessState.unprocessed ∧ g.runProcess id = setState g₁ id st ∧ g₁.processes = g.processes := by
    rw [runProcess, hp]
    dsimp only
    rw [if_neg (not_not_intro hs)]
    rcases g.processFlaw p with _ | flaw
    · have hsame := processes_applyOperator g p
      rcases ha : g.applyOperator p with ⟨g₁, _ | reason⟩ <;> rw [ha] at hsame
      · exact ⟨g₁, .processed, by decide, rfl, hsame⟩
      · exact ⟨g₁.notice (.operatorFailed id reason), .invalidInput, by decide, rfl, hsame⟩
    · exact ⟨g.notice flaw, .invalidInput, by decide, rfl, rfl⟩
  obtain ⟨g₁, st, hst, he, hsame⟩ := key
  refine ⟨st, hst, fun j => ?_⟩
  rw [he, processes_setState, hsame]

theorem due_runProcess (g : Graph) (id j : ProcessId) : (g.runProcess id).due j = (decide (j ≠ id) && g.due j) := by
  rcases hd : g.due id with _ | _
  · rw [runProcess_of_not_due hd]
    by_cases hj : j = id
    · rw [hj, hd, Bool.and_false]
    · rw [decide_eq_true hj, Bool.true_and]
  · obtain ⟨st, hst, hp⟩ := processes_runProcess hd
    rw [due, hp]
    by_cases hj : j = id
    · rw [if_pos hj, decide_eq_false (not_not_intro hj), Bool.false_and]
      rcases g.processes[j]? with _ | p
      · rfl
      · exact decide_eq_false hst
    · rw [if_neg hj, decide_eq_true hj, Bool.true_and, due]

/-- Processes that ran do not have to run, and the others have to just when they had to. -/
theorem due_runs (ids : List ProcessId) (g : Graph) (j : ProcessId) : (ids.foldl runProcess g).due j = (decide (j ∉ ids) && g.due j) := by
  induction ids generalizing g with
  | nil => simp
  | cons id ids ih =>
    rw [List.foldl_cons, ih, due_runProcess, ← Bool.and_assoc]
    congr 1
    simp only [List.mem_cons, not_or, ← Bool.decide_and, and_comm]

/-- Of processes that are listed once each, only those run that have to. -/
theorem runs_eq_runs_due {ids : List ProcessId} (hn : ids.Nodup) (g : Graph) :
    ids.foldl runProcess g = (ids.filter g.due).foldl runProcess g := by
  induction ids generalizing g with
  | nil => rfl
  | cons id ids ih =>
    obtain ⟨hid, hn⟩ := List.nodup_cons.1 hn
    rcases hd : g.due id with _ | _
    · rw [List.foldl_cons, runProcess_of_not_due hd, ih hn, List.filter_cons_of_neg (by rw [hd]; exact Bool.false_ne_true)]
    · have hsame : ids.filter (g.runProcess id).due = ids.filter g.due := by
        refine List.filter_congr fun j hj => ?_
        rw [due_runProcess, decide_eq_true (ne_of_mem_of_not_mem hj hid), Bool.true_and]
      rw [List.foldl_cons, ih hn, hsame, List.filter_cons_of_pos hd, List.foldl_cons]

/-! ## What is invoked -/

/-- The kernels that a run of a process invokes. -/
def invoking (g : Graph) (id : ProcessId) : List Invocation := (g.runProcess id).journal.invocations.drop g.journal.invocations.length

/-- The kernels that runs of some processes in turn invoke, process by process. -/
def invokings : Graph → List ProcessId → List (ProcessId × List Invocation)
  | _, [] => []
  | g, id :: ids => (id, g.invoking id) :: (g.runProcess id).invokings ids

theorem invocations_applyOperator (g : Graph) (p : Process) : g.journal.invocations <+: (g.applyOperator p).1.journal.invocations := by
  have hplan : ∀ adv, ((g.prepare p).planFor p.operator adv).1.journal = (g.prepare p).journal := fun adv => by
    obtain ⟨_, he⟩ := planFor_rest (g.prepare p) p.operator adv
    rw [he]
  rw [applyOperator_eq, runKernel, ← invocations_prepare g p]
  dsimp only
  split
  · rw [← hplan]
    exact Journal.invocations_invoke ..
  · split <;> exact Journal.invocations_invoke ..

theorem invocations_runProcess (g : Graph) (id : ProcessId) : (g.runProcess id).journal.invocations = g.journal.invocations ++ g.invoking id := by
  have hprefix : g.journal.invocations <+: (g.runProcess id).journal.invocations := by
    rw [runProcess]
    split
    · exact List.prefix_refl _
    · rename_i p _
      split
      · exact List.prefix_refl _
      · split
        · exact (Journal.invocations_notice g.journal _).symm ▸ List.prefix_refl _
        · have happly := invocations_applyOperator g p
          rcases ha : g.applyOperator p with ⟨g₁, _ | reason⟩ <;> rw [ha] at happly
          · exact happly
          · exact (Journal.invocations_notice g₁.journal _).symm ▸ happly
  obtain ⟨made, hmade⟩ := hprefix
  rw [invoking, ← hmade, List.drop_left]

theorem invocations_runs (ids : List ProcessId) (g : Graph) :
    (ids.foldl runProcess g).journal.invocations = g.journal.invocations ++ (g.invokings ids).flatMap (·.2) := by
  induction ids generalizing g with
  | nil => exact (List.append_nil _).symm
  | cons id ids ih => rw [List.foldl_cons, ih, invocations_runProcess, invokings, List.flatMap_cons, List.append_assoc]

/-! ## Who reads what was changed -/

/-- A process reads one of some entries when a channel that is bound to one of its inputs holds one, or holds what a process that reads one
writes. -/
inductive Reads (g : Graph) (E : List EntryId) : ProcessId → Prop where
  | entry {c : ChannelId} {e : EntryId} {id : ProcessId} (ht : g.Tuned (.process id) c) (hc : g.store.Holds c e) (he : e ∈ E) : Reads g E id
  | output {c : ChannelId} {e : EntryId} {id j : ProcessId} {p : Process} (hid : Reads g E id) (hp : g.processes[id]? = some p)
    (he : e ∈ p.writes) (ht : g.Tuned (.process j) c) (hc : g.store.Holds c e) : Reads g E j

theorem not_reads_nil : ¬ g.Reads [] id := by
  intro h
  induction h with
  | entry _ _ he => cases he
  | output _ _ _ _ _ ih => exact ih

theorem Reads.mono {E' : List EntryId} (h : g.Reads E id) (hE : E ⊆ E') : g.Reads E' id := by
  induction h with
  | entry ht hc he => exact .entry ht hc (hE he)
  | output _ hp he ht hc ih => exact .output ih hp he ht hc

/-- What channels hold and who listens to them is as it seems: a channel that an entry lists holds it, and whoever a channel lists has it. -/
theorem Reachable.overheard (h : g.Reachable) : g.store.Covered ∧ Heard False g := by
  obtain ⟨a, ha⟩ := h.sustained
  exact ⟨(ha.stored .createLeaf).covered,
    h.held (fun registry config => heard_new registry config False) fun _ _ _ _ _ m hd hp _ hh => heard_move m hd hp nofun hh⟩

/-- Whoever is told of a change of an entry reads it. -/
theorem Reachable.reads_of_downstream (h : g.Reachable) {e : EntryId} (he : e ∈ E) (hid : id ∈ g.downstream e) : g.Reads E id := by
  obtain ⟨hcov, hheard⟩ := h.overheard
  have hreader : ∀ {e' : EntryId} {j : ProcessId}, j ∈ g.readers e' → ∃ c, g.Tuned (.process j) c ∧ g.store.Holds c e' := by
    intro e' j hj
    obtain ⟨c, hc, hl⟩ := List.mem_flatMap.1 (mem_readers.1 hj)
    have hpos := Nat.lt_of_lt_of_le (List.count_pos_iff.2 hc) (hcov e' c)
    obtain ⟨y, hy, hye⟩ := List.countP_pos_iff.1 hpos
    exact ⟨c, hheard.tuned c _ hl, y, hy, of_decide_eq_true hye⟩
  obtain ⟨t, ht, hlead⟩ := reachable_sound hid
  refine hlead.mem_of_closed (fun i hi j hj => ?_) ?_
  · obtain ⟨e', he', hj⟩ := List.mem_flatMap.1 hj
    obtain ⟨q, hq, hw⟩ := mem_written.1 he'
    obtain ⟨c, ht, hc⟩ := hreader hj
    exact .output hi hq hw ht hc
  · obtain ⟨c, ht, hc⟩ := hreader ht
    exact .entry ht hc he

/-! ## Restating changes neither schedules nor readers -/

theorem Restated.slots (h : g.Restated g') (c : ChannelId) : g'.store.slots c = g.store.slots c := by
  obtain ⟨_, _, _, _, _, _, rfl⟩ := h.rest
  rfl

theorem Restated.scheduleOf (h : g.Restated g') (roots : List ProcessId) : g'.scheduleOf roots = g.scheduleOf roots := by
  have hchildren : (g'.processes.map fun _ p => p.children) = g.processes.map fun _ p => p.children := by
    refine Std.ExtTreeMap.ext_getElem? fun {id} => ?_
    have hsame := congrArg (Option.map Process.children) (h.processes id)
    rw [Option.map_map, Option.map_map] at hsame
    rw [Std.ExtTreeMap.getElem?_map, Std.ExtTreeMap.getElem?_map]
    exact hsame
  rw [Graph.scheduleOf, hchildren, Graph.scheduleOf]

theorem Restated.feeding (h : g.Restated g') (id : OutletId) : g'.feeding id = g.feeding id := by
  have hchannels : (g'.outlets[id]?).map Outlet.channels = (g.outlets[id]?).map Outlet.channels := by
    have hsame := congrArg (Option.map Outlet.channels) (h.outlets id)
    rwa [Option.map_map, Option.map_map] at hsame
  have hcreators : g'.store.creators = g.store.creators := funext fun c => by rw [Store.creators, h.slots, Store.creators]
  rw [Graph.feeding, hchannels, hcreators, Graph.feeding]

theorem Restated.reads (h : g.Restated g') (hr : g.Reads E id) : g'.Reads E id := by
  have hprocess : ∀ {id : ProcessId} {p : Process}, g.processes[id]? = some p →
      ∃ p' : Process, g'.processes[id]? = some p' ∧ p'.inputs = p.inputs ∧ p'.writes = p.writes := by
    intro id p hp
    have hsame := h.processes id
    rw [hp, Option.map_some, Option.map_eq_some_iff] at hsame
    obtain ⟨p', hp', he⟩ := hsame
    have hinputs : p'.unrun.inputs = p.unrun.inputs := congrArg Process.inputs he
    have hwrites : p'.unrun.writes = p.unrun.writes := congrArg Process.writes he
    exact ⟨p', hp', hinputs, hwrites⟩
  have htuned : ∀ {id : ProcessId} {c : ChannelId}, g.Tuned (.process id) c → g'.Tuned (.process id) c := by
    rintro id c ⟨p, hp, hc⟩
    obtain ⟨p', hp', hinputs, -⟩ := hprocess hp
    exact ⟨p', hp', hinputs ▸ hc⟩
  have hholds : ∀ {c : ChannelId} {e : EntryId}, g.store.Holds c e → g'.store.Holds c e := by
    rintro c e ⟨y, hy, rfl⟩
    exact ⟨y, h.slots c ▸ hy, rfl⟩
  induction hr with
  | entry ht hc he => exact .entry (htuned ht) (hholds hc) he
  | output _ hp he ht hc ih =>
    obtain ⟨p', hp', -, hwrites⟩ := hprocess hp
    exact .output ih hp' (hwrites ▸ he) (htuned ht) (hholds hc)

/-! ## Edits -/

/-- Some entries got other values: the processes that have to run for it read one of them, and outlets that were ready may have to refresh. -/
structure Altered (E : List EntryId) (g g' : Graph) : Prop where
  restated : g.Restated g'
  due : ∀ id, g'.due id = true → g.due id = true ∨ g'.Reads E id
  outlets : ∀ id : OutletId, g'.outlets[id]? = g.outlets[id]? ∨ g'.outlets[id]? = (g.outlets[id]?).map Outlet.outdated

theorem Altered.refl (E : List EntryId) (g : Graph) : Altered E g g := ⟨.refl g, fun _ hd => .inl hd, fun _ => .inl rfl⟩

theorem Altered.trans {E' : List EntryId} (h : Altered E g g') (h' : Altered E' g' g'') : Altered (E ++ E') g g'' := by
  refine ⟨h.restated.trans h'.restated, fun id hd => ?_, fun id => ?_⟩
  · rcases h'.due id hd with hd | hr
    · exact (h.due id hd).imp_right fun hr => (h'.restated.reads hr).mono (List.subset_append_left _ _)
    · exact .inr (hr.mono (List.subset_append_right _ _))
  · rcases h.outlets id with h₁ | h₁ <;> rcases h'.outlets id with h₂ | h₂
    · exact .inl (h₂.trans h₁)
    · exact .inr (h₂.trans (congrArg _ h₁))
    · exact .inr (h₂.trans h₁)
    · refine .inr (h₂.trans ?_)
      rw [h₁, Option.map_map]
      exact congrArg (Option.map · _) (funext Outlet.outdated_outdated)

/-- An entry gets another value, or the call is refused. -/
theorem Reachable.altered_step (h : g.Reachable) (e : EntryId) (x : Payload) : Altered [e] g (g.step (.setPayload e x)) := by
  have hrestated : g.Restated (g.step (.setPayload e x)) :=
    (restated_aside g {}).trans (restated_updateEntry g.settled e fun _ _ => Entry.type_of_setPayload)
  have hcases : g.step (.setPayload e x) = g.settled ∨ ∃ g₁ : Graph, g.step (.setPayload e x) = g₁.dataChanged e ∧
      g₁.journal.violation = none ∧ g₁.downstream e = g.downstream e ∧ g₁.processes = g.processes ∧ g₁.outlets = g.outlets := by
    change (g.settled.updateEntry e (·.setPayload x)).1 = _ ∨ ∃ g₁ : Graph, (g.settled.updateEntry e (·.setPayload x)).1 = _ ∧ _
    rw [updateEntry]
    rcases g.settled.entryAt? e with _ | old <;> dsimp only
    · exact .inl rfl
    · split
      · exact .inl rfl
      · exact .inr ⟨_, rfl, rfl, downstream_modifyEntry g.settled e e _, rfl, rfl⟩
  rcases hcases with he | ⟨g₁, he, hsound, hdown, hprocesses, houtlets⟩
  · exact ⟨hrestated, fun id hd => .inl (by rw [he] at hd; exact hd), fun id => .inl (by rw [he]; rfl)⟩
  · rw [dataChanged_eq g₁ e hsound] at he
    refine ⟨hrestated, fun id hd => ?_, fun id => ?_⟩
    · by_cases hid : id ∈ g₁.downstream e
      · exact .inr (hrestated.reads (h.reads_of_downstream (List.mem_singleton_self e) (hdown ▸ hid)))
      · have hsame : (g.step (.setPayload e x)).processes[id]? = g.processes[id]? := by
          rw [he, ← hprocesses]
          exact (get_unprocess g₁ _ id).trans (if_neg hid)
        rw [Graph.due, hsame] at hd
        exact .inl hd
    · have hout : (g.step (.setPayload e x)).outlets[id]? =
          if id ∈ g₁.concernedBy e then (g.outlets[id]?).map Outlet.outdated else g.outlets[id]? := by
        rw [he, ← houtlets]
        exact get_staleData g₁ _ id
      rw [hout]
      split
      · exact .inr rfl
      · exact .inl rfl

theorem Reachable.altered (h : g.Reachable) (edits : List (EntryId × Payload)) :
    Altered (edits.map (·.1)) g (g.after (edits.map fun e => .setPayload e.1 e.2)) := by
  induction edits generalizing g with
  | nil => exact .refl [] g
  | cons e edits ih => exact (h.altered_step e.1 e.2).trans (ih (h.after [_]))

/-- An edit does not make an outlet that is ready rebuild: when it is resolved next, nothing is done, or it is refreshed. -/
theorem Altered.resolve {id : OutletId} (h : Altered E g g') (hready : ∀ o : Outlet, g.outlets[id]? = some o → o.status = .ready) :
    g'.settled.resolve id = g'.settled ∨ ∃ owner, g'.settled.resolve id = g'.settled.refresh id owner := by
  rw [Graph.resolve]
  rcases ho' : g'.settled.outlets[id]? with _ | o' <;> dsimp only
  · exact .inl rfl
  obtain ⟨o, ho, hsame⟩ : ∃ o : Outlet, g.outlets[id]? = some o ∧ (o' = o ∨ o' = o.outdated) := by
    rcases h.outlets id with he | he
    · exact ⟨o', he.symm.trans ho', .inl rfl⟩
    · obtain ⟨o, ho, hout⟩ := Option.map_eq_some_iff.1 (he.symm.trans ho')
      exact ⟨o, ho, .inr hout.symm⟩
  have hr := hready o ho
  rcases hs : o'.status with _ | _ | _ <;> dsimp only
  · rcases hsame with rfl | rfl
    · cases hr.symm.trans hs
    · rw [Outlet.outdated, if_pos hr] at hs
      cases hs
  · exact .inr ⟨o'.owner, rfl⟩
  · exact .inl rfl

/-! ## Pulling -/

theorem step_pull {q : Request} (hq : g.requests[r]? = some q) : g.step (.pull r) = g.settled.resolve q.outlet := by
  rw [step, perform, pull, show g.settled.requests[r]? = some q from hq]

theorem requests_rebuild (g : Graph) (id : OutletId) (o : Outlet) : (g.rebuild id o).requests = g.requests := by
  have hunsub : (g.unsubscribe id).requests = g.requests := by
    rw [unsubscribe]
    split <;> rfl
  have hheld : ((g.unsubscribe id).releaseHeld id).requests = (g.unsubscribe id).requests := by
    rw [releaseHeld]
    split
    · rfl
    · obtain ⟨_, _, _, _, _, _, he⟩ := (derived_releaseInstance ((g.unsubscribe id).modifyOutlet id ({ · with held := none })) _).rest
      rw [he]
      rfl
  have hacquired : (((g.unsubscribe id).releaseHeld id).acquireInstance o.owner .empty).1.requests = ((g.unsubscribe id).releaseHeld id).requests := by
    obtain ⟨_, _, _, _, _, _, he⟩ := (derived_acquireWithin (((g.unsubscribe id).releaseHeld id).nodes.size + 1)
      ((g.unsubscribe id).releaseHeld id) o.owner .empty).rest
    rw [acquireInstance, he]
  exact hacquired.trans (hheld.trans hunsub)

/-- An outlet that is not ready gets ready by a refresh, after a rebuild if that is due; the requests stay. -/
theorem resolve_of_stale {id : OutletId} {o : Outlet} (ho : g.outlets[id]? = some o) (hs : o.status ≠ .ready) :
    ∃ g₀, g.refreshing id = some (g₀, g₀.feeding id) ∧ g.resolve id = g₀.refresh id o.owner ∧ g₀.requests = g.requests := by
  rw [refreshing, resolve, ho]
  dsimp only
  rcases hst : o.status with _ | _ | _ <;> dsimp only
  · exact ⟨_, rfl, rfl, requests_rebuild g id o⟩
  · exact ⟨g, rfl, rfl, rfl⟩
  · exact absurd hst hs

/-- After a refresh nothing has to run that is scheduled for the outlet, and the outlet, if there is one, is ready. -/
theorem refreshed {g₀ : Graph} {id : OutletId} {order : List ProcessId} (h : g₀.scheduleOf (g₀.feeding id) = .ok order) (owner : NodeId) :
    (∀ j ∈ order, (g₀.refresh id owner).due j = false) ∧
      ∀ o : Outlet, (g₀.refresh id owner).outlets[id]? = some o → o.status = .ready := by
  constructor
  · intro j hj
    have hrun : (g₀.refresh id owner).processes = (order.foldl runProcess g₀).processes := by
      rw [← runAll_of_scheduleOf h]
      rfl
    have hdue := due_runs order g₀ j
    rw [decide_eq_false (not_not_intro hj), Bool.false_and] at hdue
    rw [due, hrun]
    exact hdue
  · intro o ho
    rw [refresh, get_outlets_modifyOutlet, if_pos rfl] at ho
    obtain ⟨o', -, rfl⟩ := Option.map_eq_some_iff.1 ho
    rfl

/-- Of a schedule, those that have to run come after what they read from that has to run. -/
theorem mem_done_of_due {order roots done rest : List ProcessId} {p : Process} (h : g.scheduleOf roots = .ok order)
    (he : order.filter g.due = done ++ id :: rest) (hp : g.processes[id]? = some p) (hj : j ∈ p.children) (hd : g.due j = true) : j ∈ done := by
  obtain ⟨l₁, l₂, rfl, h₁, h₂⟩ := List.filter_eq_append_iff.1 he
  obtain ⟨l₃, l₄, rfl, h₃, -, -⟩ := List.filter_eq_cons_iff.1 h₂
  rw [scheduleOf, ← List.append_assoc] at h
  have hdeps : j ∈ Schedule.depsOf (g.processes.map fun _ p => p.children) id := by
    rw [Schedule.depsOf, Std.ExtTreeMap.getElem?_map, hp]
    exact hj
  rcases List.mem_append.1 (Schedule.mem_done_of_compile h j hdeps) with hj | hj
  · rw [← h₁]
    exact List.mem_filter.2 ⟨hj, hd⟩
  · exact absurd hd (h₃ j hj)

theorem Publishes.invocations (h : g.Publishes g') : g'.journal.invocations = g.journal.invocations := by
  obtain ⟨_, _, rfl, hinv⟩ := h
  exact hinv

/-- A result that is not up to date is pulled, some entries get other values, whether or not all these calls are granted, and the result is
pulled again. That pull runs processes one after the other and publishes, and the kernels that it invokes are those of these runs. Every one of
the processes has to run, is run once, reads an entry that got a value, and comes after all of its children that have to run. When no entry got
a value, no kernel is invoked. -/
theorem pull_reruns_least {st : Status} (h : g.Reachable) (hst : g.statusOf r = some st) (hne : st ≠ .ready)
    (edits : List (EntryId × Payload)) (hg : g' = (g.step (.pull r)).after (edits.map fun e => .setPayload e.1 e.2)) :
    ∃ order : List ProcessId, (order.foldl runProcess g'.settled).Publishes (g'.step (.pull r)) ∧
      (g'.step (.pull r)).journal.invocations = (g'.settled.invokings order).flatMap (·.2) ∧
      order.Nodup ∧ (∀ id ∈ order, g'.due id = true ∧ g'.Reads (edits.map (·.1)) id) ∧
      (∀ done id rest, order = done ++ id :: rest → ∀ p : Process, g'.processes[id]? = some p → ∀ j ∈ p.children, g'.due j = true → j ∈ done) ∧
      (edits = [] → (g'.step (.pull r)).journal.invocations = []) := by
  simp only [statusOf, Option.pure_def, Option.bind_eq_bind, Option.bind_eq_some_iff] at hst
  obtain ⟨q, hq, o, ho, hos⟩ := hst
  cases hos
  -- the first pull settles all that is scheduled for the outlet
  obtain ⟨g₀, hrefreshing, hresolve, hrequests⟩ := resolve_of_stale (g := g.settled) ho hne
  have hrunning : g.settled.running (.pull r) = some (g₀, g₀.feeding q.outlet) := by
    rw [running, show g.settled.requests[r]? = some q from hq]
    exact hrefreshing
  have hpull : g.step (.pull r) = g₀.refresh q.outlet o.owner := (step_pull hq).trans hresolve
  obtain ⟨order, horder⟩ : ∃ order, g₀.scheduleOf (g₀.feeding q.outlet) = .ok order :=
    exists_schedule (h.arranged_runs hrunning []).children _
  obtain ⟨hsettled, hready⟩ := refreshed horder o.owner
  rw [← hpull] at hsettled hready
  -- what has to run afterwards has to because of an edit
  have halt : Altered (edits.map (·.1)) (g.step (.pull r)) g' := hg ▸ (h.after [.pull r]).altered edits
  have hrestated : g₀.Restated g'.settled :=
    ((hpull ▸ restated_refresh g₀ q.outlet o.owner).trans halt.restated).trans (restated_aside g' {})
  have horder' : g'.settled.scheduleOf (g'.settled.feeding q.outlet) = .ok order := by
    rw [hrestated.feeding, hrestated.scheduleOf]
    exact horder
  have hreads : ∀ id ∈ order.filter g'.due, g'.due id = true ∧ g'.Reads (edits.map (·.1)) id := by
    intro id hid
    obtain ⟨hmem, hdue⟩ := List.mem_filter.1 hid
    exact ⟨hdue, (halt.due id hdue).resolve_left fun hd => Bool.false_ne_true ((hsettled id hmem).symm.trans hd)⟩
  -- the second pull refreshes the outlet, if that is not still ready
  have hagain : g'.step (.pull r) = g'.settled ∨ ∃ owner, g'.step (.pull r) = g'.settled.refresh q.outlet owner := by
    obtain ⟨q', hq', hoq⟩ : ∃ q' : Request, g'.requests[r]? = some q' ∧ q'.outlet = q.outlet := by
      have hsame := hrestated.requests r
      rw [hrequests, show g.settled.requests[r]? = some q from hq] at hsame
      exact Option.map_eq_some_iff.1 hsame
    rw [step_pull hq', hoq]
    exact halt.resolve hready
  rcases hagain with he | ⟨owner, he⟩
  · refine ⟨[], he ▸ ⟨_, _, rfl, rfl⟩, by rw [he]; rfl, List.nodup_nil, fun _ hid => absurd hid List.not_mem_nil, fun done id rest hnil => ?_, fun _ => by rw [he]; rfl⟩
    simp at hnil
  · have hpublishes : ((order.filter g'.due).foldl runProcess g'.settled).Publishes (g'.step (.pull r)) := by
      rw [he]
      have hall := publishes_refresh g'.settled q.outlet owner
      rw [runAll_of_scheduleOf horder', runs_eq_runs_due (Schedule.nodup_of_compile horder')] at hall
      exact hall
    have hinvocations : (g'.step (.pull r)).journal.invocations = (g'.settled.invokings (order.filter g'.due)).flatMap (·.2) :=
      hpublishes.invocations.trans (invocations_runs _ g'.settled)
    refine ⟨order.filter g'.due, hpublishes, hinvocations, (Schedule.nodup_of_compile horder').filter _, hreads, fun done id rest hsplit p hp j hj hd => ?_,
      fun hnil => ?_⟩
    · exact mem_done_of_due horder' hsplit hp hj hd
    · have hnone : order.filter g'.due = [] := List.eq_nil_iff_forall_not_mem.2 fun id hid => not_reads_nil (hnil ▸ (hreads id hid).2)
      rw [hinvocations, hnone]
      rfl

/-- What a leaf holds is kept, and the result is asked for. -/
def keptGraph : Graph := (new ⟨(∅ : NameMap Operator).insert "keep" keepOperator⟩ {}).after
  [.createPayload .float (.floats [1, 2]), .createLeaf, .setName 0 "x", .setData 0 (some 0), .createData false, .setCompute 1 "y = keep(x)",
    .appendChild 1 0, .createRequest 1 ["y"]]

/-- After the result was pulled, a new value has the one process run again, once for each of three tuples, and it reads the value; without a
new value nothing runs. -/
theorem pull_reruns_least_kept :
    keptGraph.Reachable ∧ keptGraph.statusOf 2 = some .needsStructure ∧
      ((keptGraph.step (.pull 2)).step (.pull 2)).journal.invocations = [] ∧
      ∃ g' id, g' = (keptGraph.step (.pull 2)).after [.setPayload 0 (.floats [3, 4, 5])] ∧
        (g'.step (.pull 2)).journal.invocations.map (fun i => (i.operator, i.call.args)) =
          [("keep", [some (.floats [3])]), ("keep", [some (.floats [4])]), ("keep", [some (.floats [5])])] ∧
        (g'.step (.pull 2)).journal.invocations = g'.settled.invoking id ∧ g'.due id = true ∧ g'.Reads [0] id := by
  have h : keptGraph.Reachable := ⟨_, _, _, rfl⟩
  have hst : keptGraph.statusOf 2 = some .needsStructure := by decide +kernel
  obtain ⟨-, -, -, -, -, -, hnone⟩ := pull_reruns_least h hst nofun [] rfl
  obtain ⟨g', hg⟩ : ∃ g', g' = (keptGraph.step (.pull 2)).after [.setPayload 0 (.floats [3, 4, 5])] := ⟨_, rfl⟩
  obtain ⟨order, -, hinvocations, hnodup, hreads, -, -⟩ := pull_reruns_least h hst nofun [(0, .floats [3, 4, 5])] hg
  have hmade : (g'.step (.pull 2)).journal.invocations.map (fun i => (i.operator, i.call.args)) =
      [("keep", [some (.floats [3])]), ("keep", [some (.floats [4])]), ("keep", [some (.floats [5])])] := by
    rw [hg]
    decide +kernel
  have hkeys : g'.processes.toList.map (·.1) = [4] := by
    rw [hg]
    decide +kernel
  -- the order is of the one process
  have hall : ∀ id ∈ order, id = 4 := by
    intro id hid
    obtain ⟨p, hp, -⟩ := due_iff.1 (hreads id hid).1
    refine List.mem_singleton.1 (hkeys ▸ ?_)
    exact List.mem_map.2 ⟨(id, p), Std.ExtTreeMap.mem_toList_iff_getElem?_eq_some.2 hp, rfl⟩
  rcases order with _ | ⟨id, _ | ⟨id', order⟩⟩
  · rw [hinvocations] at hmade
    cases hmade
  · exact ⟨h, hst, hnone rfl, g', id, hg, hmade, hinvocations.trans (List.append_nil _), hreads id (List.mem_singleton_self id)⟩
  · have hsame : id = id' := (hall id List.mem_cons_self).trans (hall id' (List.mem_cons_of_mem _ List.mem_cons_self)).symm
    exact absurd (hsame ▸ List.mem_cons_self) (List.nodup_cons.1 hnodup).1

end Graph

end Dataflow
