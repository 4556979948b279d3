import Dataflow.Proofs.Drained

/-!
# Processes fit their operators

A process is made with a channel, or none, for each parameter of its operator, and with a new entry for each output. Nothing that happens
to it later changes these, so in every graph that calls lead to what is paired with parameters and outputs by position is complete, and a
process writes no entry twice.
-/

namespace Dataflow

/-- A process has a place for every parameter of its operator, and an entry of its own for every output. -/
structure Process.Fitted (p : Process) : Prop where
  inputs : p.inputs.length = p.operator.params.length
  outputs : p.outputs.length = p.operator.outputs.length
  distinct : p.writes.Nodup

/-- What is settled when a process is made. -/
def Process.fixture (p : Process) : Operator × List (Option ChannelId) × List (String × EntryId) := (p.operator, p.inputs, p.outputs)

theorem Process.Fitted.of_fixture {p q : Process} (h : p.Fitted) (he : q.fixture = p.fixture) : q.Fitted := by
  unfold Process.fixture at he
  obtain ⟨hop, hin, hout⟩ : q.operator = p.operator ∧ q.inputs = p.inputs ∧ q.outputs = p.outputs := by simpa using he
  refine ⟨?_, ?_, ?_⟩
  · rw [hin, hop]
    exact h.inputs
  · rw [hout, hop]
    exact h.outputs
  · rw [Process.writes, hout]
    exact h.distinct

namespace Graph

variable {κ : Call} {τ τ' : Work} {g g' : Graph}

/-- Every live process fits its operator. -/
def Fitted (g : Graph) : Prop := ∀ (id : ProcessId) (p : Process), g.processes[id]? = some p → p.Fitted

theorem Fitted.of_processes (h : g.Fitted)
    (hp : ∀ (id : ProcessId) (q : Process), g'.processes[id]? = some q → ∃ p, g.processes[id]? = some p ∧ q.fixture = p.fixture) :
    g'.Fitted := by
  intro id q hq
  obtain ⟨p, hp, he⟩ := hp id q hq
  exact (h id p hp).of_fixture he

theorem Fitted.same (h : g.Fitted) (hp : g'.processes = g.processes) : g'.Fitted := by
  unfold Fitted
  rw [hp]
  exact h

theorem Fitted.recount (h : g.Fitted) {id : ProcessId} {p : Process} (hp : g.processes[id]? = some p) (u : Nat) :
    Fitted { g with processes := g.processes.insert id { p with uses := u } } := by
  refine h.of_processes fun j q hq => ?_
  rw [Table.get_insert] at hq
  split at hq
  · subst j
    cases hq
    exact ⟨p, hp, rfl⟩
  · exact ⟨q, hq, rfl⟩

theorem fitted_newProcess (g : Graph) (n : NodeId) (s : Substitution) (c : Compute) (op : Operator) : (g.newProcess n s c op).Fitted := by
  refine ⟨?_, ?_, nodup_newOutputs g c op⟩
  · simp [newProcess, inputsOf, DataNode.inputNames]
  · simp [newProcess, newOutputs]

theorem Fitted.operate (h : g.Fitted) (n : NodeId) (s : Substitution) : (g.acquireProcess n s).1.Fitted := by
  rcases acquireProcess_cases g n s with he | ⟨id, p, -, hp, he⟩ | ⟨c, op, -, -, he⟩ <;> rw [he]
  · exact h
  · exact h.recount hp _
  · intro id q hq
    rw [processes_withProcess] at hq
    split at hq
    · cases hq
      exact fitted_newProcess g n s c op
    · exact h id q hq

theorem Fitted.destroyProcess (h : g.Fitted) (id : ProcessId) : (g.destroyProcess id).Fitted := by
  rcases hp : g.processes[id]? with _ | p
  · rw [Graph.destroyProcess, hp]
    exact h
  · refine h.of_processes fun j q hq => ?_
    rw [processes_destroyProcess hp, Table.get_erase] at hq
    split at hq
    · cases hq
    · exact ⟨q, hq, rfl⟩

theorem Fitted.giveBack (h : g.Fitted) (q : Option ProcessId) : (g.giveBack q).Fitted := by
  rcases q with _ | id
  · exact h
  · rw [Graph.giveBack, releaseProcess]
    rcases hp : g.processes[id]? with _ | p <;> dsimp only
    · exact h
    · split
      · exact h.destroyProcess id
      · exact h.recount hp _

/-- Processes are made when they are acquired; every other move leaves what is settled of them, or takes them away. -/
theorem fitted_move (m : Move κ τ g τ' g') (hd : Tidy τ g) (h : g.Fitted) : g'.Fitted := by
  cases m with
  | restate hr =>
    refine h.of_processes fun id q hq => ?_
    have := hr.processes id
    rw [hq, Option.map_some, eq_comm, Option.map_eq_some_iff] at this
    obtain ⟨p, hp, he⟩ := this
    exact ⟨p, hp, (congrArg Process.fixture he).symm⟩
  | reparent hn =>
    obtain ⟨_, rfl⟩ := hn.rest
    exact h
  | sync n hτ ha =>
    obtain ⟨_, _, he⟩ := (synchronize_spec ha (hd.framed.wired_of_settled hτ.stale) n).1.rest
    rw [he]
    exact h
  | reuse hτ hdn hs hk hi => exact h
  | start hτ ha hdn hs hk hnest hgrant => exact h
  | merge hj ho =>
    obtain ⟨_, _, _, he⟩ := (hd.recached_merge hj ho).rest
    rw [he]
    exact h
  | operate hj => exact h.operate _ _
  | view hj => exact h
  | finish children proto hj ha hh hb => exact h
  | lessen hτ hi hu => exact h
  | dismantle hτ hi hu =>
    obtain ⟨w, hw⟩ := hd.wiring_instance hi
    rw [dismantle_eq hw]
    exact h
  | miss hi => exact h
  | giveBack p hτ => exact h.giveBack p
  | unwire hτ ht hw hup => exact h
  | destroy hτ ht => exact h.destroyProcess _
  | discard hτ ht hi => exact h
  | pass hτ ht hi => exact h
  | empty hτ ht =>
    obtain ⟨f, hf, -, -⟩ := hd.framed.torn _ ht
    obtain ⟨w, hw, -⟩ := Option.map_eq_some_iff.1 hf
    rw [clearPorts_eq hw]
    exact h
  | hush ht hc hdn hs hid =>
    refine h.same ?_
    rw [Graph.hush, Graph.unsubscribe]
    split <;> rfl
  | told hst ht hs => exact h
  | edit hτ hj ht =>
    obtain ⟨_, _, rfl⟩ := ht.rest
    exact h
  | addLeaf hτ => exact h
  | addData b hτ => exact h
  | addEntry e => exact h
  | openOutlet hτ hc hdn hk => exact h
  | enroll ho hb => exact h
  | pin hc hb => exact h
  | unsubscribe id =>
    refine h.same ?_
    rw [Graph.unsubscribe]
    split <;> rfl
  | giveUp ho hh => exact h
  | attach ho hn hc hcl => exact h
  | withdraw hτ hr => exact h
  | unasked hr => exact h
  | keep hb ho => exact h
  | close hb hτ ho he hp hc => exact h
  | forget hc => exact h
  | uproot hτ hj hc hrefs hs hidle => exact h
  | disclaim hsub => exact h

theorem fitted_new (registry : Registry) (config : Config) : (new registry config).Fitted := by
  intro id p hp
  exact absurd (hp.symm.trans Std.ExtTreeMap.getElem?_empty) (Option.some_ne_none p)

/-- In every graph that calls lead to, processes fit their operators. -/
theorem Reachable.fitted (h : g.Reachable) : g.Fitted := by
  obtain ⟨_, _, hf⟩ := h.keeps (I := fun _ g => g.Fitted) fitted_new (fun _ _ _ hf => hf) fun _ _ _ _ _ m hd _ hf => fitted_move m hd hf
  exact hf

theorem Reachable.sustained (h : g.Reachable) : ∃ a, Sustained a g := by
  obtain ⟨registry, config, calls, rfl⟩ := h
  exact ⟨_, (sustained_new registry config).after calls⟩

/-- What a live process writes is there. -/
theorem Reachable.isSome_output (h : g.Reachable) {id : ProcessId} {p : Process} (hp : g.processes[id]? = some p) {e : EntryId}
    (he : e ∈ p.writes) : (g.entryAt? e).isSome := by
  obtain ⟨a, hs⟩ := h.sustained
  exact (hs.stored .createLeaf).outputs e ⟨id, p, hp, he⟩

end Graph

end Dataflow
