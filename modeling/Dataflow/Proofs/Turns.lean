import Dataflow.Proofs.Fitted

/-!
# Turns: the processes that a call has run

Three calls have processes run: the one that asks for a process, and the two that pull a result which is not up to date. Before that they may
open an outlet and rebuild it, and afterwards they publish. In between, the processes of a schedule have their turns one after the other.
A turn comes in the middle of a call, so what holds at every turn is what every move keeps.
-/

namespace Dataflow

namespace Journal

variable (j : Journal)

theorem invocations_notice (n : Notice) : (j.notice n).invocations = j.invocations := by
  rw [notice]
  split <;> rfl

theorem invocations_check (i : Invariant) (b : Bool) (t : String) : (j.check i b t).invocations = j.invocations := by
  rw [check]
  split
  · rfl
  · split <;> rfl

theorem invocations_invoke (is : List Invocation) : j.invocations <+: (j.invoke is).invocations := by
  rw [invoke]
  split
  · exact List.prefix_refl _
  · exact List.prefix_append _ _

end Journal

namespace Graph

variable {κ : Call} {a : Account} {g g' g₀ : Graph} {id : ProcessId} {roots : List ProcessId}

theorem invocations_prepare (g : Graph) (p : Process) : (g.prepare p).journal.invocations = g.journal.invocations := by
  rw [prepare]
  dsimp only
  split
  · exact (Journal.invocations_check ..).trans ((Journal.invocations_check ..).trans (Journal.invocations_notice ..))
  · exact (Journal.invocations_check ..).trans (Journal.invocations_check ..)

/-- The schedule of some processes and of all that they read from. -/
def scheduleOf (g : Graph) (roots : List ProcessId) : Except Error (List ProcessId) :=
  Schedule.compile (g.processes.map fun _ p => p.children) roots

/-- The processes that write what an outlet publishes. -/
def feeding (g : Graph) (id : OutletId) : List ProcessId :=
  (((g.outlets[id]?).map Outlet.channels).getD ∅).values.flatMap g.store.creators

/-- The graph at which an outlet has processes run to get up to date, and those it asks for; there is none when it is up to date. -/
def refreshing (g : Graph) (id : OutletId) : Option (Graph × List ProcessId) :=
  match g.outlets[id]? with
  | none => none
  | some o => match o.status with
    | .ready => none
    | .needsData => some (g, g.feeding id)
    | .needsStructure => some (g.rebuild id o, (g.rebuild id o).feeding id)

/-- The graph at which a call has processes run, and those it asks for, if it has any run. -/
def running (g : Graph) : Call → Option (Graph × List ProcessId)
  | .process id => some (g, [id])
  | .pull r => (g.requests[r]?).bind fun q => g.refreshing q.outlet
  | .pullNode n names => match g.outletFor n names with
    | (_, .error _) => none
    | (g, .ok id) => (g.modifyOutlet id ({ · with pinned := true })).refreshing id
  | _ => none

theorem runAll_of_scheduleOf {order : List ProcessId} (h : g.scheduleOf roots = .ok order) : g.runAll roots = order.foldl runProcess g := by
  rw [scheduleOf] at h
  rw [runAll, h]

/-! ## What follows the runs -/

/-- Nothing but results and checks of these differs. -/
def Publishes (g g' : Graph) : Prop :=
  ∃ outlets journal, g' = { g with outlets, journal } ∧ journal.invocations = g.journal.invocations

theorem publishes_refresh (g : Graph) (id : OutletId) (owner : NodeId) : (g.runAll (g.feeding id)).Publishes (g.refresh id owner) := by
  rw [refresh]
  exact ⟨_, _, rfl, Journal.invocations_check ..⟩

theorem publishes_resolve {id : OutletId} (h : g.refreshing id = some (g₀, roots)) : (g₀.runAll roots).Publishes (g.resolve id) := by
  rw [refreshing] at h
  rw [resolve]
  rcases ho : g.outlets[id]? with _ | o <;> simp only [ho] at h ⊢
  · cases h
  · rcases hs : o.status <;> simp only [hs] at h ⊢
    · cases h
      exact publishes_refresh ..
    · cases h
      exact publishes_refresh ..
    · cases h

/-- After the processes of a call ran, the call only publishes. -/
theorem publishes_perform {c : Call} (h : g.running c = some (g₀, roots)) : (g₀.runAll roots).Publishes (g.perform c).1 := by
  cases c with
  | process id =>
    cases h
    exact ⟨_, _, rfl, rfl⟩
  | pull r =>
    obtain ⟨q, hq, h⟩ := Option.bind_eq_some_iff.1 h
    rw [perform, pull, hq]
    exact publishes_resolve h
  | pullNode n names =>
    rw [running] at h
    rw [perform, pullNode]
    rcases ho : g.outletFor n names with ⟨g₁, e | id⟩ <;> simp only [ho] at h ⊢
    · cases h
    · exact publishes_resolve h
  | _ => cases h

/-! ## What precedes the runs -/

theorem moves_refreshing {τ : Work} (hτ : τ.Settled) (hj : τ.jobs = []) (ha : g.Authored) {id : OutletId}
    (h : g.refreshing id = some (g₀, roots)) : Moves κ τ g τ g₀ ∧ g₀.Authored := by
  rw [refreshing] at h
  rcases ho : g.outlets[id]? with _ | o <;> simp only [ho] at h
  · cases h
  · rcases hs : o.status <;> simp only [hs] at h
    · cases h
      exact ⟨moves_rebuild hτ hj ha ho, (sameTree_rebuild ..).authored ha⟩
    · cases h
      exact ⟨.refl τ g, ha⟩
    · cases h

theorem moves_running (ha : g.Authored) (h : g.running κ = some (g₀, roots)) : Moves κ a.work g a.work g₀ ∧ g₀.Authored := by
  cases κ with
  | process id =>
    cases h
    exact ⟨.refl _ g, ha⟩
  | pull r =>
    obtain ⟨q, -, h⟩ := Option.bind_eq_some_iff.1 h
    exact moves_refreshing a.settled_work rfl ha h
  | pullNode n names =>
    rw [running] at h
    rcases moves_outletFor (κ := .pullNode n names) (g := g) (τ := a.work) rfl rfl n names with
      ⟨e, he⟩ | ⟨g₁, id, b, o, he, hid, hm, -, -, hg₁⟩ <;> simp only [he] at h
    · cases h
    · have hpin : Moves (.pullNode n names) a.work g a.work (g₁.modifyOutlet id ({ · with pinned := true })) := hm.tail (.pin ⟨n, names, rfl⟩ hid)
      obtain ⟨hr, ha'⟩ := moves_refreshing (κ := .pullNode n names) (g := g₁.modifyOutlet id ({ · with pinned := true })) a.settled_work rfl
        { hg₁ ha with } h
      exact ⟨hpin.trans hr, ha'⟩
  | _ => cases h

/-! ## Turns -/

/-- It is the turn of a process in a call: the call has the processes of a schedule run, and those that come first ran. -/
inductive Turn (g : Graph) (c : Call) : Graph → ProcessId → Prop where
  | mk {g₀ : Graph} {roots done rest : List ProcessId} {id : ProcessId} (running : g.settled.running c = some (g₀, roots))
    (schedule : g₀.scheduleOf roots = .ok (done ++ id :: rest)) : Turn g c (done.foldl runProcess g₀) id

theorem restated_runs (ids : List ProcessId) (g : Graph) : g.Restated (ids.foldl runProcess g) := .foldl restated_runProcess ids g

/-- What a call does before its processes run, and while some of them ran, is a run of moves. -/
theorem moves_runs (ha : g.Authored) (h : g.settled.running κ = some (g₀, roots)) (ids : List ProcessId) :
    Moves κ a.work g a.work (ids.foldl runProcess g₀) ∧ (ids.foldl runProcess g₀).Authored := by
  obtain ⟨hm, ha₀⟩ := moves_running (a := a) (g := g.settled) { ha with } h
  exact ⟨(Moves.head (.restate (restated_aside g {})) hm).tail (.restate (restated_runs ids g₀)),
    (SameTree.of_restated (restated_runs ids g₀)).authored ha₀⟩

/-- What every move keeps of a sustained graph, a run of moves keeps. -/
theorem Moves.held {I : Graph → Prop} {τ τ' : Work} (hm : Moves κ τ g τ' g') (ht : Tidy τ g) (hp : Posted τ g) (hs : Stored False κ τ g)
    (hmove : ∀ κ τ g τ' g', Move κ τ g τ' g' → Tidy τ g → Posted τ g → Stored False κ τ g → I g → I g') (hi : I g) : I g' :=
  (hm.keeps (I := fun τ g => Tidy τ g ∧ Posted τ g ∧ Stored False κ τ g ∧ I g)
    (fun τ g τ' g' m ⟨h₁, h₂, h₃, h₄⟩ => ⟨tidy_move m h₁, posted_move m h₂, stored_move m h₁ h₃, hmove κ τ g τ' g' m h₁ h₂ h₃ h₄⟩)
    ⟨ht, hp, hs, hi⟩).2.2.2

/-- So does a call, whatever it releases. -/
theorem Sustained.held_step {I : Graph → Prop} (h : Sustained a g) (c : Call)
    (hmove : ∀ κ τ g τ' g', Move κ τ g τ' g' → Tidy τ g → Posted τ g → Stored False κ τ g → I g → I g') (hi : I g) : I (g.step c) := by
  -- the caller has in hand what the call releases
  have hl := h.orderly.lend c.released.toList
  have hm := moves_step (κ := c) hl.authored (hl.posted.homed rfl) { a with hands := c.released.toList } fun id he => by
    subst he
    exact List.mem_singleton_self id
  exact hm.held hl.tidy hl.posted (h.stored c).lend hmove hi

/-- What holds of new graphs and is kept by every move of a sustained graph holds of every graph that calls lead to. -/
theorem Reachable.held {I : Graph → Prop} (h : g.Reachable) (hnew : ∀ registry config, I (new registry config))
    (hmove : ∀ κ τ g τ' g', Move κ τ g τ' g' → Tidy τ g → Posted τ g → Stored False κ τ g → I g → I g') : I g := by
  obtain ⟨_, _, _, hi⟩ := h.keeps (I := fun τ g => (∀ κ, Stored False κ τ g) ∧ I g)
    (fun registry config => ⟨fun κ => (stored_new registry config False).of_call nofun, hnew registry config⟩)
    (fun a hands g ⟨h₁, h₂⟩ => ⟨fun κ => (h₁ κ).lend, h₂⟩)
    fun κ τ g τ' g' m hd hp ⟨h₁, h₂⟩ => ⟨fun κ' => (stored_move m hd (h₁ κ)).of_call nofun, hmove κ τ g τ' g' m hd hp (h₁ κ) h₂⟩
  exact hi

/-- And it holds in the middle of every call that has processes run, after any of them ran. -/
theorem Reachable.held_runs {I : Graph → Prop} (h : g.Reachable) (hrun : g.settled.running κ = some (g₀, roots)) (ids : List ProcessId)
    (hnew : ∀ registry config, I (new registry config))
    (hmove : ∀ κ τ g τ' g', Move κ τ g τ' g' → Tidy τ g → Posted τ g → Stored False κ τ g → I g → I g') : I (ids.foldl runProcess g₀) := by
  obtain ⟨a, ha⟩ := h.sustained
  exact (moves_runs (a := a) ha.orderly.authored hrun ids).1.held ha.orderly.tidy ha.orderly.posted (ha.stored κ) hmove (h.held hnew hmove)

/-- A node that computes is a child of another that computes from what it exposes; a result of the upper one is asked for. -/
def cascadeCalls : List Call :=
  [.createPayload .float (.floats [1, 2]), .createLeaf, .setName 0 "x", .setData 0 (some 0), .createData false, .setCompute 1 "y = keep(x)",
    .appendChild 1 0, .createData false, .setCompute 2 "z = keep(y)", .appendChild 2 1, .createRequest 2 ["z"]]

/-- The graph of the two nodes. Its processes will be made when the result is pulled. -/
def cascadeGraph : Graph := (new ⟨(∅ : NameMap Operator).insert "keep" keepOperator⟩ {}).after cascadeCalls

theorem reachable_cascadeGraph : cascadeGraph.Reachable := ⟨_, _, _, rfl⟩

end Graph

end Dataflow
