import Dataflow.Proofs.Kinship

/-!
# Refused calls

A call that is refused leaves everything as it is. What it may leave behind is in the journal: the notice of a text that did not parse,
and the check that a reference would have closed no cycle. No callback is invoked and no kernel runs, and since every call starts with
an empty journal no later call can tell that the refused one was made.
-/

namespace Dataflow

namespace Graph

variable {α β : Type} {g g' g'' : Graph}

/-- Two graphs differ at most in what was logged and checked on the way from one to the other: no callback was invoked, no kernel ran
and no invariant was found violated. -/
structure Unmoved (g g' : Graph) : Prop where
  state : g'.settled = g.settled
  events : g'.journal.events = g.journal.events
  invocations : g'.journal.invocations = g.journal.invocations
  violation : g'.journal.violation = g.journal.violation

theorem Unmoved.refl (g : Graph) : g.Unmoved g := ⟨rfl, rfl, rfl, rfl⟩

theorem Unmoved.trans (h : g.Unmoved g') (h' : g'.Unmoved g'') : g.Unmoved g'' :=
  ⟨h'.state.trans h.state, h'.events.trans h.events, h'.invocations.trans h.invocations, h'.violation.trans h.violation⟩

theorem unmoved_notice (g : Graph) (n : Notice) : g.Unmoved (g.notice n) := by
  unfold notice Journal.notice
  split <;> exact ⟨rfl, rfl, rfl, rfl⟩

theorem unmoved_check (g : Graph) (i : Invariant) {holds : Bool} (hh : holds = true) (context : String) :
    g.Unmoved (g.check i holds context) := by
  subst hh
  unfold check Journal.check
  split <;> exact ⟨rfl, rfl, rfl, rfl⟩

/-- No later call can tell unmoved graphs apart. -/
theorem Unmoved.step (h : g.Unmoved g') (c : Call) : g'.step c = g.step c := by
  unfold Graph.step
  rw [h.state]

theorem Unmoved.after (h : g.Unmoved g') (c : Call) (calls : List Call) : g'.after (c :: calls) = g.after (c :: calls) := by
  rw [after_cons, after_cons, h.step]

/-- What is refused left the graph as it was. -/
def Refuses (g : Graph) (o : Outcome α) : Prop := ∀ e, o.2 = .error e → g.Unmoved o.1

theorem refuses_same (g : Graph) (r : Except Error α) : g.Refuses (g, r) := by
  intro e _
  exact .refl g

theorem refuses_ok (g g' : Graph) (a : α) : g.Refuses (g', (.ok a : Except Error α)) := by
  intro e he
  cases he

/-- What came before a refusal has to leave the graph as it was, too. -/
theorem Refuses.of_unmoved {o : Outcome α} (h : g.Unmoved g') (ho : g'.Refuses o) : g.Refuses o := by
  intro e he
  exact h.trans (ho e he)

theorem Refuses.map {o : Outcome α} (h : g.Refuses o) (f : α → β) : g.Refuses (o.1, o.2.map f) := by
  intro e he
  rcases ho : o.2 with e' | a
  · exact h e' ho
  · rw [ho] at he
    cases he

theorem Refuses.done {o : Outcome Unit} (h : g.Refuses o) : g.Refuses (done o) := h.map _

theorem Refuses.created {o : Outcome Nat} (h : g.Refuses o) : g.Refuses (created o) := h.map _

/-! ## Edits of nodes -/

theorem unmoved_accepted {p c : NodeId} (h : ¬ g.Below c p) : g.Unmoved (g.accepted p c) := by
  have hne : p ≠ c := by
    rintro rfl
    exact h (Leads.refl _)
  exact unmoved_check g .graphAcyclic (decide_eq_true hne) _

theorem refuses_appendChild (p c : NodeId) : g.Refuses (g.appendChild p c) := by
  unfold appendChild
  split
  · exact refuses_same g _
  · exact refuses_ok g _ _

/-- The place is looked up when the reference has been accepted already. -/
theorem refuses_insertBefore (ha : g.Authored) (p c before : NodeId) : g.Refuses (g.insertBefore p c before) := by
  unfold insertBefore
  split
  · exact refuses_same g _
  · rename_i hc
    dsimp only
    split
    · exact .of_unmoved (unmoved_accepted (ha.of_checkChild hc).2) (refuses_same _ _)
    · exact refuses_ok g _ _

theorem refuses_removeChild (p c : NodeId) : g.Refuses (g.removeChild p c) := by
  unfold removeChild
  split
  · exact refuses_same g _
  · split
    · exact refuses_ok g _ _
    · exact refuses_same g _

theorem refuses_clearChildren (p : NodeId) : g.Refuses (g.clearChildren p) := by
  unfold clearChildren
  split
  · exact refuses_same g _
  · exact refuses_ok g _ _

theorem refuses_detachFromParents (n : NodeId) : g.Refuses (g.detachFromParents n) := by
  unfold detachFromParents
  split
  · exact refuses_same g _
  · exact refuses_ok g _ _

theorem refuses_setSource (n : NodeId) (source : Option NodeId) : g.Refuses (g.setSource n source) := by
  unfold setSource
  split
  · exact refuses_same g _
  · dsimp only
    split
    · exact refuses_ok g _ _
    · split
      · exact refuses_same g _
      · split
        · exact refuses_same g _
        · exact refuses_ok g _ _

theorem refuses_setProto (n : NodeId) (proto : Option NodeId) : g.Refuses (g.setProto n proto) := by
  unfold setProto
  split
  · exact refuses_same g _
  · dsimp only
    split
    · exact refuses_ok g _ _
    · split
      · exact refuses_same g _
      · exact refuses_ok g _ _

theorem refuses_updateData (n : NodeId) (f : DataNode → DataNode) : g.Refuses (g.updateData n f) := by
  unfold updateData
  split
  · exact refuses_same g _
  · exact refuses_ok g _ _

/-- A text that does not parse is logged before the node is looked up. -/
theorem refuses_setFilter (n : NodeId) (text : String) : g.Refuses (g.setFilter n text) := by
  unfold setFilter
  split
  · exact refuses_updateData n _
  · exact .of_unmoved (unmoved_notice g _) (refuses_updateData n _)

theorem refuses_setCompute (n : NodeId) (text : String) : g.Refuses (g.setCompute n text) := by
  unfold setCompute
  split
  · exact refuses_updateData n _
  · exact .of_unmoved (unmoved_notice g _) (refuses_updateData n _)

theorem refuses_updateLeaf (n : NodeId) (f : Leaf → Leaf) : g.Refuses (g.updateLeaf n f) := by
  unfold updateLeaf
  split
  · exact refuses_same g _
  · exact refuses_ok g _ _

theorem refuses_removeNode (n : NodeId) : g.Refuses (g.removeNode n) := by
  have hd := refuses_detachFromParents (g := g) n
  unfold removeNode
  split
  · rename_i e h
    rw [h] at hd
    exact fun _ _ => hd e rfl
  · exact refuses_ok g _ _

/-! ## Entries and requests -/

theorem refuses_createPayload (type : DataType) (payload : Payload) : g.Refuses (g.createPayload type payload) := by
  unfold createPayload
  split
  · exact refuses_same g _
  · exact refuses_ok g _ _

theorem refuses_updateEntry (id : EntryId) (f : Entry → Except Error Entry) : g.Refuses (g.updateEntry id f) := by
  unfold updateEntry
  split
  · exact refuses_same g _
  · split
    · exact refuses_same g _
    · exact refuses_ok g _ _

theorem refuses_outletFor (n : NodeId) (names : List String) : g.Refuses (g.outletFor n names) := by
  unfold outletFor
  split
  · exact refuses_same g _
  · dsimp only
    split
    · exact refuses_ok g _ _
    · exact refuses_ok g _ _

theorem refuses_createRequest (n : NodeId) (names : List String) : g.Refuses (g.createRequest n names) := by
  have ho := refuses_outletFor (g := g) n names
  unfold createRequest
  split
  · rename_i e h
    rw [h] at ho
    exact fun _ _ => ho e rfl
  · exact refuses_ok g _ _

/-! ## Calls -/

theorem Authored.refuses_perform (ha : g.Authored) (c : Call) : g.Refuses (g.perform c) := by
  cases c with
  | createLeaf => exact refuses_ok g _ _
  | createData isProto => exact refuses_ok g _ _
  | createEntry e => exact refuses_ok g _ _
  | createPayload type payload => exact (refuses_createPayload type payload).created
  | appendChild p c => exact (refuses_appendChild p c).done
  | insertBefore p c before => exact (refuses_insertBefore ha p c before).done
  | removeChild p c => exact (refuses_removeChild p c).done
  | clearChildren p => exact (refuses_clearChildren p).done
  | detach n => exact (refuses_detachFromParents n).done
  | remove n => exact (refuses_removeNode n).done
  | setSource n source => exact (refuses_setSource n source).done
  | setProto n proto => exact (refuses_setProto n proto).done
  | setFilter n text => exact (refuses_setFilter n text).done
  | setCompute n text => exact (refuses_setCompute n text).done
  | setName n name => exact (refuses_updateLeaf n _).done
  | setKey n key => exact (refuses_updateLeaf n _).done
  | setParam n param => exact (refuses_updateLeaf n _).done
  | setData n entry => exact (refuses_updateLeaf n _).done
  | setPayload id payload => exact (refuses_updateEntry id _).done
  | setImage id image => exact (refuses_updateEntry id _).done
  | setLoading id loading => exact (refuses_updateEntry id _).done
  | touch n => exact refuses_ok g _ _
  | synchronize n => exact refuses_ok g _ _
  | acquireInstance n s => exact refuses_ok g _ _
  | releaseInstance id => exact refuses_ok g _ _
  | process id => exact refuses_ok g _ _
  | createRequest n names => exact (refuses_createRequest n names).created
  | watchRequest r tag => exact refuses_ok g _ _
  | pull r => exact refuses_ok g _ _
  | pullNode n names => exact refuses_ok g _ _
  | releaseRequest r => exact refuses_ok g _ _

/-- In every graph that calls lead to, a call that is refused changes nothing: the graph after it is the graph before it, nothing was
called back, no kernel ran, and whatever is asked next finds the graph as if the call had not been made. -/
theorem refused_call_changes_nothing (h : g.Reachable) {c : Call} {e : Error} (he : (g.settled.perform c).2 = .error e) :
    g.settled.Unmoved (g.step c) ∧ ∀ c', (g.step c).step c' = g.step c' := by
  obtain ⟨_, ho⟩ := h.orderly
  have hu : g.settled.Unmoved (g.step c) := (ho.authored.journal {}).refuses_perform c e he
  refine ⟨hu, fun c' => ?_⟩
  exact hu.step c'

/-- A data node that has a leaf twice, a node with a source, and an entry and a texture. -/
def peopledGraph : Graph := (new Registry.empty {}).after
  [.createData false, .createLeaf, .appendChild 0 1, .appendChild 0 1, .createData false, .setSource 2 (some 0),
    .createPayload .float (.floats [1]), .createEntry (.ofTexture {}), .createRequest 2 []]

/-- Calls that are refused there, one or more for every call that can be: for an id that is nobody's or of the wrong kind, for a cycle,
for a source beside children, for a place that is not there, and for a payload of another class. -/
def refusedCalls : List Call :=
  [.appendChild 2 1, .appendChild 0 2, .appendChild 1 0, .appendChild 0 9, .insertBefore 0 1 2, .insertBefore 0 2 1, .removeChild 0 2,
    .removeChild 9 1, .clearChildren 1, .detach 9, .remove 9, .setSource 0 (some 2), .setSource 2 (some 1), .setSource 1 none,
    .setProto 0 (some 2), .setProto 0 (some 1), .setProto 9 none, .setFilter 1 "(", .setFilter 9 "x", .setCompute 1 "= =",
    .setName 0 "x", .setKey 0 1, .setParam 9 true, .setData 0 none, .createPayload .float (.ints [1]), .setPayload 0 (.ints [1]),
    .setPayload 1 (.floats [1]), .setPayload 9 (.floats []), .setImage 0 none, .setImage 9 none, .setLoading 0 true,
    .createRequest 1 [], .createRequest 9 ["x"]]

theorem refused_call_changes_nothing_peopled :
    peopledGraph.Reachable ∧ (∀ c ∈ refusedCalls, (peopledGraph.settled.perform c).2.toOption = none) ∧
      ∀ c ∈ refusedCalls, peopledGraph.settled.Unmoved (peopledGraph.step c) := by
  have h : peopledGraph.Reachable := ⟨_, _, _, rfl⟩
  have hrefused : ∀ c ∈ refusedCalls, (peopledGraph.settled.perform c).2.toOption = none := by decide +kernel
  refine ⟨h, hrefused, fun c hc => ?_⟩
  rcases ho : (peopledGraph.settled.perform c).2 with e | r
  · exact (refused_call_changes_nothing h ho).1
  · have := hrefused c hc
    rw [ho] at this
    cases this

end Graph

end Dataflow
