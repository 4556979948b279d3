import Dataflow.Proofs.Current
import Dataflow.Proofs.Scheduled

/-!
# Running processes

A process that has to run does so after all that it reads from, and nothing that has run reads what it writes. So a run changes the
values of its outputs and its state alone, and leaves the graph sound and current.
-/

namespace Dataflow

namespace Graph

variable {hands : List InstanceId} {g g' g'' : Graph} {id : ProcessId} {p p' : Process}

theorem processes_setState (g : Graph) (id j : ProcessId) (st : ProcessState) :
    (g.setState id st).processes[j]? = if j = id then (g.processes[j]?).map ({ · with state := st }) else g.processes[j]? := by
  rw [setState, Std.ExtTreeMap.getElem?_modify]
  simp only [Std.LawfulEqCmp.compare_eq_iff_eq, @eq_comm _ id]
  by_cases h : j = id
  · rw [if_pos h, if_pos h, h]
  · rw [if_neg h, if_neg h]

/-- The operator of a process is registered under its name. -/
theorem SoundBut.registered (h : SoundBut (fun _ => False) hands g) (hreg : g.registry.WellNamed) (hp : g.processes[id]? = some p) :
    g.registry.get? p.operator.name = some p.operator := by
  obtain ⟨c, hc, -⟩ := (h.process id p hp not_false).operation
  obtain ⟨d, hd, hs⟩ := (h.process id p hp not_false).inSync.exists_data
  have hop := (h.wired _ d not_false hd hs).registered hd hc
  rw [hreg _ _ hop]
  exact hop

/-- The state in which running leaves a process that has to run, and what its outputs hold then. They are left as they are when the inputs
have a flaw. -/
def attempt (g : Graph) (p : Process) : ProcessState × List Payload :=
  if (g.processFlaw p).isSome then (.invalidInput, g.outputPayloads p) else p.operator.attempt (g.viewsOf p) (g.outputPayloads p)

theorem attempt_settles (g : Graph) (p : Process) : (g.attempt p).1 ≠ .unprocessed := by
  rw [attempt, Operator.attempt]
  split
  · nofun
  · split <;> nofun

/-- A process that was processed has an outcome, and its outputs hold it. -/
theorem outcome_of_attempt {outs : List Payload} (h : g.attempt p = (.processed, outs)) :
    p.operator.outcome (g.viewsOf p) (g.outputPayloads p) = .ok outs := by
  rw [attempt, Operator.attempt] at h
  split at h
  · cases h
  · split at h
    · rename_i news hout
      cases h
      exact hout
    · cases h

/-- Running a process that has to run writes its outputs and settles its state; any other process is left alone. -/
theorem runProcess_spec (h : SoundBut (fun _ => False) hands g) (hreg : g.registry.WellNamed) (hplan : g.Planned) (id : ProcessId) :
    (g.runProcess id = g ∧ ∀ p : Process, g.processes[id]? = some p → p.state ≠ .unprocessed) ∨
      ∃ p g₁ st, g.processes[id]? = some p ∧ p.state = .unprocessed ∧ g.runProcess id = setState g₁ id st ∧ Wrote p g g₁ ∧
        g₁.Planned ∧ g.attempt p = (st, g₁.outputPayloads p) := by
  rw [runProcess]
  rcases hp : g.processes[id]? with _ | p
  · exact .inl ⟨rfl, nofun⟩
  · dsimp only
    by_cases hst : p.state = .unprocessed
    · rw [if_neg (not_not_intro hst)]
      refine .inr ⟨p, ?_⟩
      rw [attempt]
      rcases hf : g.processFlaw p with _ | flaw
      · have hn := (h.process id p hp not_false).distinct
        have hl := (h.fits hp).2
        obtain ⟨hw, hp', hres⟩ := applyOperator_spec hplan (h.registered hreg hp) hn hl
        have href := fun reason => @applyOperator_refused _ _ hn hl reason
        rcases ha : g.applyOperator p with ⟨g₁, _ | reason⟩ <;> rw [ha] at hw hp' hres href <;> dsimp only
        · refine ⟨g₁, .processed, rfl, hst, rfl, hw, hp', (if_neg nofun).trans ?_⟩
          rw [Operator.attempt, hres rfl]
        · obtain ⟨hout, hleft⟩ := href reason rfl
          refine ⟨g₁.notice _, .invalidInput, rfl, hst, rfl, hw.trans (.of_rest ⟨_, _, rfl⟩), hp', (if_neg nofun).trans ?_⟩
          rw [Operator.attempt, hout]
          exact congrArg _ hleft.symm
      · exact ⟨g.notice flaw, .invalidInput, rfl, hst, rfl, .of_rest ⟨_, _, rfl⟩, hplan, rfl⟩
    · rw [if_pos hst]
      exact .inl ⟨rfl, fun q hq => by cases hq; exact hst⟩

/-- What running processes changes: values that they write, their states, and the plans that are kept. -/
structure Ran (g g' : Graph) : Prop extends Revalued g g' where
  outlets : g'.outlets = g.outlets
  requests : g'.requests = g.requests
  kept : ∀ e, (∀ (id : ProcessId) (p : Process), g.processes[id]? = some p → e ∈ p.outputs.map (·.2) → p.state ≠ .unprocessed) →
    g'.entryAt? e = g.entryAt? e
  rested : ∀ (id : ProcessId) (p : Process), g.processes[id]? = some p → p.state ≠ .unprocessed → g'.processes[id]? = some p

namespace Ran

theorem refl (g : Graph) : g.Ran g := ⟨.refl g, rfl, rfl, fun _ _ => rfl, fun _ _ hp _ => hp⟩

/-- What had run has run. -/
theorem states (h : g.Ran g') {id : ProcessId} (hp : g.processes[id]? = some p) (hp' : g'.processes[id]? = some p')
    (hs : p.state ≠ .unprocessed) : p'.state ≠ .unprocessed := by
  cases hp'.symm.trans (h.rested id p hp hs)
  exact hs

theorem trans (h : g.Ran g') (h' : g'.Ran g'') : g.Ran g'' := by
  refine ⟨h.toRevalued.trans h'.toRevalued, h'.outlets.trans h.outlets, h'.requests.trans h.requests, fun e he => ?_,
    fun id p hp hs => h'.rested id p (h.rested id p hp hs) hs⟩
  refine (h'.kept e fun id p hp hm => ?_).trans (h.kept e he)
  obtain ⟨st, hst⟩ := h.processes_of hp
  exact h.states hst hp (he id { p with state := st } hst hm)

/-- What no process writes stays. -/
theorem authored (h : g.Ran g') {e : EntryId} (he : ∀ (id : ProcessId) (p : Process), g.processes[id]? = some p → e ∉ p.outputs.map (·.2)) :
    g'.entryAt? e = g.entryAt? e := h.kept e fun id p hp hm => absurd hm (he id p hp)

theorem registry (h : g.Ran g') : g'.registry = g.registry := by
  obtain ⟨_, _, _, _, _, _, rfl⟩ := h.rest
  rfl

end Ran

/-- When a process that has to run writes, those that have run see nothing of it, and neither does it itself. -/
theorem Current.sameSight (h : g.Current) (hs : SoundBut (fun _ => False) hands g) (hp : g.processes[id]? = some p)
    (hun : p.state = .unprocessed) (hslots : ∀ c, g'.store.slots c = g.store.slots c)
    (hentry : ∀ e, e ∉ p.outputs.map (·.2) → g'.entryAt? e = g.entryAt? e) {j : ProcessId} {q : Process} (hq : g.processes[j]? = some q)
    (hran : q.state ≠ .unprocessed ∨ j = id) : g.SameSight g' q := by
  refine ⟨fun c _ => hslots c, fun c hc y hy => ⟨hs.not_written hq hc hy, hentry _ ?_⟩⟩
  rcases hran with hran | rfl
  · obtain ⟨⟨-, hg⟩, hchild⟩ := (hs.reads hq not_false hc).2.2 y hy
    rcases hcr : y.creator with _ | k <;> rw [hcr] at hg
    · exact hg id p hp
    · -- what one that has run reads was written by one that has run
      obtain ⟨r, hr, hm⟩ := hg
      refine (hs.process k r hr not_false).apart id p hp ?_ _ hm
      rintro rfl
      cases hp.symm.trans hr
      exact h.settled j q hq hran id (hchild id hcr) p hp hun
  · cases hp.symm.trans hq
    exact hs.not_written hp hc hy

section Wrote

variable {st : ProcessState} (hw : Wrote p g g') (hp : g.processes[id]? = some p)

include hw hp

theorem Wrote.get_processes (st : ProcessState) (j : ProcessId) :
    (g'.setState id st).processes[j]? = if j = id then some { p with state := st } else g.processes[j]? := by
  obtain ⟨entries, plans, journal, rfl⟩ := hw.rest
  rw [processes_setState]
  by_cases hj : j = id
  · rw [if_pos hj, if_pos hj, hj, hp]
    rfl
  · rw [if_neg hj, if_neg hj]

/-- A process that has to run runs. -/
theorem Wrote.ran (hun : p.state = .unprocessed) : g.Ran (g'.setState id st) := by
  have hproc := hw.get_processes hp st
  refine ⟨⟨?_, fun e t ht => (hw.types e).trans ht, hw.mirrored, fun j => ?_⟩, ?_, ?_, fun e he => hw.entries e fun hm => he id p hp hm hun,
    fun j q hq hs => ?_⟩
  · obtain ⟨entries, plans, journal, rfl⟩ := hw.rest
    exact ⟨entries, _, g.outlets, g.requests, plans, journal, rfl⟩
  · rw [hproc]
    by_cases hj : j = id
    · rw [if_pos hj, hj, hp]
      rfl
    · rw [if_neg hj]
  · obtain ⟨entries, plans, journal, rfl⟩ := hw.rest
    rfl
  · obtain ⟨entries, plans, journal, rfl⟩ := hw.rest
    rfl
  · rw [hproc]
    split
    · rename_i hj
      subst hj
      cases hp.symm.trans hq
      exact absurd hun hs
    · exact hq

/-- A process that runs after those that it reads from leaves the graph current. -/
theorem Current.wrote (h : g.Current) (hs : SoundBut (fun _ => False) hands g) (hun : p.state = .unprocessed) (hst : st ≠ .unprocessed)
    (hplan : g'.Planned) (hout : st = .processed → p.operator.outcome (g.viewsOf p) (g.outputPayloads p) = .ok (g'.outputPayloads p))
    (hch : ∀ j ∈ p.children, ∀ q : Process, g.processes[j]? = some q → q.state ≠ .unprocessed) : (g'.setState id st).Current := by
  have hran : g.Ran (g'.setState id st) := hw.ran hp hun
  have hproc := hw.get_processes hp st
  have hslots : ∀ c, (g'.setState id st).store.slots c = g.store.slots c := fun c => by
    rw [Store.slots, Store.slots, Store.channel?, Store.channel?, hran.channels]
  have htol : (g'.setState id st).store.tolerance = g.store.tolerance := by
    obtain ⟨_, _, _, _, _, _, heq⟩ := hran.rest
    rw [heq]
  refine ⟨fun j q hq hs' k hk r hr => ?_, fun j q hq hs' => ?_, hplan, fun o oo ho hr => ?_⟩
  · rw [hproc] at hr
    split at hr
    · cases hr
      exact hst
    · rw [hproc] at hq
      split at hq
      · cases hq
        exact hch k hk r hr
      · exact h.settled j q hq hs' k hk r hr
  · rw [hproc] at hq
    split at hq
    · cases hq
      refine ⟨g.outputPayloads p, (hs.fits hp).1, ?_⟩
      have hv := (h.sameSight hs hp hun hslots hw.entries hp (.inr rfl)).viewsOf htol
      exact (congrArg (fun v => p.operator.outcome v (g.outputPayloads p)) hv).trans (hout hs')
    · rename_i hj
      have hsight := h.sameSight hs hp hun hslots hw.entries hq (.inl (by rw [hs']; decide))
      exact hsight.holds htol (fun e he => hw.entries e ((hs.process j q hq not_false).apart id p hp (Ne.symm hj) e he)) (h.computed j q hq hs')
  · rw [hran.outlets] at ho
    exact (h.published o oo ho hr).trans (published_congr fun x c _ => hslots c).symm

end Wrote

/-- Running a process after those that it reads from keeps the graph current, and settles it. -/
theorem Current.runProcess (h : g.Current) (hs : SoundBut (fun _ => False) hands g) (hreg : g.registry.WellNamed)
    (hch : ∀ p : Process, g.processes[id]? = some p → ∀ j ∈ p.children, ∀ q : Process, g.processes[j]? = some q → q.state ≠ .unprocessed) :
    g.Ran (g.runProcess id) ∧ (g.runProcess id).Current ∧
      ∀ p : Process, (g.runProcess id).processes[id]? = some p → p.state ≠ .unprocessed := by
  rcases runProcess_spec hs hreg h.planned id with ⟨he, hst⟩ | ⟨p, g₁, st, hp, hun, he, hw, hplan, hatt⟩ <;> rw [he]
  · exact ⟨.refl g, h, hst⟩
  · have hst : st ≠ .unprocessed := fun hn => attempt_settles g p (by rw [hatt, hn])
    have hout : st = .processed → p.operator.outcome (g.viewsOf p) (g.outputPayloads p) = .ok (g₁.outputPayloads p) := fun hst =>
      outcome_of_attempt (by rw [hatt, hst])
    refine ⟨hw.ran hp hun, Current.wrote hw hp h hs hun hst hplan hout (hch p hp), fun q hq => ?_⟩
    rw [hw.get_processes hp, if_pos rfl] at hq
    cases hq
    exact hst

/-- There is a schedule for any processes when all of them read from those of smaller ids. -/
theorem exists_schedule (h : ∀ (id : ProcessId) (p : Process), g.processes[id]? = some p → ∀ j ∈ p.children, j < id) (roots : List ProcessId) :
    ∃ order, Schedule.compile (g.processes.map fun _ p => p.children) roots = .ok order := by
  refine Schedule.exists_compile (fun i j hj => ?_) roots
  rw [Schedule.depsOf, Std.ExtTreeMap.getElem?_map] at hj
  rcases hp : g.processes[i]? with _ | p <;> rw [hp] at hj
  · cases hj
  · exact h i p hp j hj

/-- There is a schedule for any processes of a sound graph. -/
theorem SoundBut.exists_schedule (h : SoundBut (fun _ => False) hands g) (roots : List ProcessId) :
    ∃ order, Schedule.compile (g.processes.map fun _ p => p.children) roots = .ok order :=
  Graph.exists_schedule (fun i p hp j hj => ((h.process i p hp not_false).children j hj).1) roots

/-- Where running some processes in order has come to: the graph is current, and they have settled. -/
structure Settles (g g' : Graph) (order : List ProcessId) : Prop where
  ran : g.Ran g'
  current : g'.Current
  settled : ∀ j ∈ order, ∀ p : Process, g'.processes[j]? = some p → p.state ≠ .unprocessed

/-- A process runs next that waits for those alone that have settled. -/
theorem Settles.snoc {order : List ProcessId} (h : Settles g g' order) (hs : SoundBut (fun _ => False) hands g) (hreg : g.registry.WellNamed)
    (hdeps : ∀ j ∈ Schedule.depsOf (g.processes.map fun _ p => p.children) id, j ∈ order) : Settles g (g'.runProcess id) (order ++ [id]) := by
  have hchildren : ∀ p : Process, g'.processes[id]? = some p → ∀ j ∈ p.children, ∀ q : Process, g'.processes[j]? = some q →
      q.state ≠ .unprocessed := fun p hp j hj q hq => by
    obtain ⟨st, hst⟩ := h.ran.processes_of hp
    refine h.settled j (hdeps j ?_) q hq
    rw [Schedule.depsOf, Std.ExtTreeMap.getElem?_map, hst]
    exact hj
  obtain ⟨hr, hcur, hid⟩ := h.current.runProcess (h.ran.toRevalued.soundBut hs) (h.ran.registry ▸ hreg) hchildren
  refine ⟨h.ran.trans hr, hcur, fun j hj p hp => ?_⟩
  rcases List.mem_append.1 hj with hj | hj
  · obtain ⟨st, hst⟩ := hr.processes_of hp
    exact hr.states hst hp (h.settled j hj _ hst)
  · obtain rfl := List.mem_singleton.1 hj
    exact hid p hp

/-- Running processes in order keeps a graph sound and current, and settles them. -/
theorem Current.runAll (h : g.Current) (hs : SoundBut (fun _ => False) hands g) (hreg : g.registry.WellNamed) (roots : List ProcessId) :
    g.Ran (g.runAll roots) ∧ (g.runAll roots).Current ∧ ∀ j ∈ roots, ∀ p : Process, (g.runAll roots).processes[j]? = some p →
      p.state ≠ .unprocessed := by
  obtain ⟨order, hc⟩ := hs.exists_schedule roots
  have hsettles : Settles g (order.foldl Graph.runProcess g) order :=
    Schedule.compile_induction hc (P := fun order => Settles g (order.foldl Graph.runProcess g) order) ⟨.refl g, h, nofun⟩
      fun order i ho hdeps => by
        rw [List.foldl_append, List.foldl_cons, List.foldl_nil]
        exact ho.snoc hs hreg hdeps
  have heq : g.runAll roots = order.foldl Graph.runProcess g := by rw [Graph.runAll, hc]
  rw [heq]
  exact ⟨hsettles.ran, hsettles.current,
    fun j hj => hsettles.settled j ((Schedule.mem_of_compile hc).2 (Schedule.mem_involved.2 ⟨j, hj, .refl j⟩))⟩

end Graph

end Dataflow
