import Dataflow.Proofs.Incremental
import Dataflow.Proofs.Lookups
import Dataflow.Proofs.Spelled

/-!
# Instances are recalled by key

A node remembers an instance under the key that a substitution spells for the parameters of the node. So as long as no node is edited and
nothing is released, whoever asks again is given the same instance exactly when the keys are the same.

Bindings are told apart by their keys where no bound name has a semicolon. With semicolons they need not be: a placeholder may be called what
the key of two others reads.
-/

namespace Dataflow

namespace Graph

variable {g g' : Graph} {n : NodeId} {d : DataNode} {c : Call} {calls : List Call}

/-! ## What neither edits nor releases -/

/-- An outlet that has to rebuild holds nothing that it would give back first. -/
def Unburdened (g : Graph) (id : OutletId) : Prop := ∀ o : Outlet, g.outlets[id]? = some o → o.status = .needsStructure → o.held = none

/-- A call that edits no node and releases nothing. -/
def Steady (g : Graph) : Call → Prop
  | .createEntry _ | .createPayload .. | .setPayload .. | .setImage .. | .setLoading .. | .synchronize _ | .acquireInstance .. | .process _
    | .createRequest .. | .watchRequest .. => True
  | .pull r => ∀ q : Request, g.requests[r]? = some q → g.Unburdened q.outlet
  | .pullNode n names => ∀ id ∈ (g.data? n).bind fun d => d.outlets[outletKey (sortNames names)]?, g.Unburdened id
  | _ => False

/-- A graph that is authored alike, in which every instance is still live. -/
structure Undisturbed (g g' : Graph) : Prop extends SameDesign g g' where
  lastId : g.lastId ≤ g'.lastId
  instances : ∀ (id : InstanceId) (i : Instance), id ≤ g.lastId → g.instances[id]? = some i → ∃ i', g'.instances[id]? = some i' ∧ i'.place = i.place

namespace Undisturbed

theorem refl (g : Graph) : g.Undisturbed g := ⟨.refl g, Nat.le_refl _, fun _ i _ hi => ⟨i, hi, rfl⟩⟩

theorem trans {g'' : Graph} (h : g.Undisturbed g') (h' : g'.Undisturbed g'') : g.Undisturbed g'' := by
  refine ⟨h.toSameDesign.trans h'.toSameDesign, h.lastId.trans h'.lastId, fun id i hle hi => ?_⟩
  obtain ⟨i', hi', hp⟩ := h.instances id i hle hi
  obtain ⟨i'', hi'', hp'⟩ := h'.instances id i' (hle.trans h.lastId) hi'
  exact ⟨i'', hi'', hp'.trans hp⟩

/-- No instance is touched. -/
theorem of_instances (hd : g.SameDesign g') (hl : g.lastId ≤ g'.lastId) (hi : g'.instances = g.instances) : g.Undisturbed g' :=
  ⟨hd, hl, fun _ i _ h => ⟨i, (congrArg (fun t : IdMap Instance => t[_]?) hi).trans h, rfl⟩⟩

theorem of_nodes_eq (hn : g'.nodes = g.nodes) (hr : g'.registry = g.registry) (hl : g.lastId ≤ g'.lastId) (hi : g'.instances = g.instances) :
    g.Undisturbed g' := by
  have hnode : ∀ m, g'.node? m = g.node? m := fun m => congrArg (Arena.get? · m) hn
  exact of_instances ⟨fun m => by rw [design?, design?, data?, data?, hnode], fun m => by rw [leaf?, leaf?, hnode], hr⟩ hl hi

theorem of_derived {P : Wiring → Wiring → Prop} (h : g.Derived P g') (hi : g'.instances = g.instances) : g.Undisturbed g' :=
  of_instances (h.rewired.sameDesign h.registry) h.lastId hi

theorem of_derives (h : g.Derives g') : g.Undisturbed g' := of_derived h.derived h.instances

theorem of_restated (h : g.Restated g') : g.Undisturbed g' := by
  obtain ⟨_, _, _, _, _, _, rfl⟩ := h.rest
  exact of_nodes_eq rfl rfl (Nat.le_refl _) rfl

theorem foldl {α : Type} {f : Graph → α → Graph} (hf : ∀ (g : Graph) a, g.Undisturbed (f g a)) :
    ∀ (l : List α) (g : Graph), g.Undisturbed (l.foldl f g)
  | [], g => .refl g
  | a :: l, g => (hf g a).trans (foldl hf l (f g a))

end Undisturbed

/-! ## Acquiring -/

theorem undisturbed_modifyWiring (g : Graph) (n : NodeId) (f : Wiring → Wiring) : g.Undisturbed (g.modifyWiring n f) :=
  .of_derived (P := fun _ _ => True) (.of_modifyWiring _ n fun _ => trivial) rfl

theorem undisturbed_rewire (g : Graph) (n : NodeId) (d : DataNode) : g.Undisturbed (g.rewire n d) := by
  rw [rewire]
  refine .trans (.trans ?_ (undisturbed_modifyWiring _ n _)) (.of_derives (derives_check ..))
  split
  · exact .of_derives (derives_notice ..)
  · exact .refl _

theorem undisturbed_syncWithin : ∀ (k : Nat) (g : Graph) (n : NodeId), g.Undisturbed (syncWithin k g n)
  | 0, g, _ => .refl g
  | k + 1, g, n => by
    rw [syncWithin]
    split
    · exact .refl g
    · split
      · exact (Undisturbed.foldl (undisturbed_syncWithin k) _ g).trans (undisturbed_rewire _ n _)
      · exact .refl g

/-- An instance is used once more. -/
theorem undisturbed_reuse {id : InstanceId} {i : Instance} (hi : g.instances[id]? = some i) :
    g.Undisturbed { g with instances := g.instances.insert id { i with uses := i.uses + 1 } } := by
  refine ⟨(SameDesign.refl g).trans ⟨fun _ => rfl, fun _ => rfl, rfl⟩, Nat.le_refl _, fun id' i' _ hi' => ?_⟩
  dsimp only
  rw [Table.get_insert]
  split
  · rename_i he
    rw [he, hi] at hi'
    cases hi'
    exact ⟨_, rfl, rfl⟩
  · exact ⟨i', hi', rfl⟩

/-- An instance is remembered under an id that was drawn since. -/
theorem Undisturbed.remember (h : (g.drawId).1.Undisturbed g') (i : Instance) : g.Undisturbed (g'.remember (g.drawId).2 i) := by
  have hg : g.Undisturbed g' := (Undisturbed.of_derives (derives_drawId g)).trans h
  have hder := derived_remember g' (g.drawId).2 i
  refine ⟨hg.toSameDesign.trans (hder.rewired.sameDesign hder.registry), hg.lastId.trans hder.lastId, fun id j hle hj => ?_⟩
  obtain ⟨j', hj', hp⟩ := hg.instances id j hle hj
  refine ⟨j', (Table.get_insert ..).trans ((if_neg ?_).trans hj'), hp⟩
  rintro rfl
  exact Nat.not_succ_le_self _ hle

theorem builds_undisturbed : Builds Undisturbed := .of_derives .refl (fun _ _ _ h h' => h.trans h') fun _ _ h => .of_derives h

theorem undisturbed_acquireWithin : ∀ (k : Nat) (g : Graph) (n : NodeId) (s : Substitution), g.Undisturbed (acquireWithin k g n s).1
  | 0, g, _, _ => .refl g
  | k + 1, g, n, s => by
    have hsync : g.Undisturbed (g.synchronize n) := undisturbed_syncWithin _ g n
    rw [acquireWithin]
    dsimp only
    split
    · exact hsync
    · split
      · rename_i hmemo
        obtain ⟨id', -, hid⟩ := Option.bind_eq_some_iff.1 hmemo
        obtain ⟨i', hi', he⟩ := Option.map_eq_some_iff.1 hid
        cases he
        exact hsync.trans ((undisturbed_reuse hi').trans (.of_derives (derives_check ..)))
      · exact hsync.trans (.remember (rel_build builds_undisturbed (undisturbed_acquireWithin k) ..) _)

/-- An outlet that holds nothing is rebuilt. -/
theorem undisturbed_rebuild {id : OutletId} {o : Outlet} (ho : g.outlets[id]? = some o) (hh : o.held = none) : g.Undisturbed (g.rebuild id o) := by
  have hun : g.Undisturbed (g.unsubscribe id) := by
    rw [unsubscribe, ho]
    exact .of_nodes_eq rfl rfl (Nat.le_refl _) rfl
  have hrel : (g.unsubscribe id).releaseHeld id = g.unsubscribe id := by
    rw [releaseHeld, outlets_unsubscribe, ho]
    simp only [Option.map_some, Option.bind_some, hh]
  have hacq : (g.unsubscribe id).Undisturbed ((g.unsubscribe id).acquireInstance o.owner .empty).1 := undisturbed_acquireWithin ..
  rw [rebuild, hrel]
  exact hun.trans (hacq.trans (.of_nodes_eq rfl rfl (Nat.le_refl _) rfl))

theorem undisturbed_resolve {id : OutletId} (hid : g.Unburdened id) : g.Undisturbed (g.resolve id) := by
  rw [Graph.resolve]
  split
  · exact .refl g
  · rename_i o ho
    split
    · exact .refl g
    · exact .of_restated (restated_refresh ..)
    · rename_i hs
      exact (undisturbed_rebuild ho (hid o ho hs)).trans (.of_restated (restated_refresh ..))

/-! ## Steady calls -/

theorem undisturbed_openOutlet (g : Graph) (n : NodeId) (filter : List String) : g.Undisturbed (g.openOutlet n filter) :=
  .of_instances (sameDesign_openOutlet g n filter) (Nat.le_succ _) rfl

theorem undisturbed_createRequest (g : Graph) (n : NodeId) (names : List String) : g.Undisturbed (g.createRequest n names).1 := by
  have henroll : ∀ (g : Graph) id, g.Undisturbed (g.enroll id) := fun g id => .of_nodes_eq rfl rfl (Nat.le_succ _) rfl
  rw [createRequest_eq]
  rcases outletFor_cases g n names with ⟨e, he⟩ | ⟨d, -, ⟨id, -, he⟩ | ⟨-, he⟩⟩ <;> rw [he]
  · exact .refl g
  · exact henroll g id
  · exact (undisturbed_openOutlet g n _).trans (henroll _ _)

theorem undisturbed_pullNode {names : List String} (h : g.Steady (.pullNode n names)) : g.Undisturbed (g.pullNode n names).1 := by
  have hpin : ∀ (g : Graph) id, g.Unburdened id → g.Undisturbed ((g.pin id).resolve id) := by
    intro g id hid
    refine .trans (.of_nodes_eq rfl rfl (Nat.le_refl _) rfl : g.Undisturbed (g.pin id)) (undisturbed_resolve fun o ho => ?_)
    rw [pin, get_outlets_modifyOutlet, if_pos rfl] at ho
    obtain ⟨o', ho', rfl⟩ := Option.map_eq_some_iff.1 ho
    exact hid o' ho'
  rw [Graph.pullNode]
  rcases outletFor_cases g n names with ⟨e, he⟩ | ⟨d, hd, ⟨id, hk, he⟩ | ⟨-, he⟩⟩ <;> rw [he]
  · exact .refl g
  · exact hpin g id (h id (by rw [hd]; exact hk))
  · refine (undisturbed_openOutlet g n _).trans (hpin _ _ fun o ho _ => ?_)
    rw [get_outlets_openOutlet, if_pos rfl] at ho
    exact Option.some.inj ho ▸ rfl

/-- Steady calls disturb nothing. -/
theorem Steady.undisturbed (h : g.Steady c) : g.Undisturbed (g.step c) := by
  refine .trans (.of_nodes_eq rfl rfl (Nat.le_refl _) rfl : g.Undisturbed g.settled) ?_
  cases c with
  | createEntry e => exact .of_nodes_eq rfl rfl (Nat.le_refl _) rfl
  | createPayload type payload =>
    show g.settled.Undisturbed (g.settled.createPayload type payload).1
    rcases createPayload_cases g.settled type payload with ⟨e, heq⟩ | ⟨x, heq⟩ <;> rw [heq]
    · exact .refl _
    · exact .of_nodes_eq rfl rfl (Nat.le_refl _) rfl
  | setPayload e payload => exact .of_restated (restated_updateEntry _ e fun _ _ => Entry.type_of_setPayload)
  | setImage e image => exact .of_restated (restated_updateEntry _ e fun _ _ => Entry.type_of_mapTexture)
  | setLoading e loading => exact .of_restated (restated_updateEntry _ e fun _ _ => Entry.type_of_mapTexture)
  | synchronize n => exact undisturbed_syncWithin _ _ n
  | acquireInstance n s => exact undisturbed_acquireWithin (g.settled.nodes.size + 1) g.settled n s
  | process id => exact .of_restated (restated_runAll _ _)
  | createRequest n names => exact undisturbed_createRequest _ n names
  | watchRequest r tag => exact .of_restated (restated_watchRequest _ r tag)
  | pull r =>
    show g.settled.Undisturbed (g.settled.pull r).1
    rw [Graph.pull]
    split
    · exact .refl _
    · rename_i q hq
      exact undisturbed_resolve (h q hq)
  | pullNode n names => exact undisturbed_pullNode h
  | _ => exact h.elim

theorem undisturbed_after (h : g.Throughout Steady calls) : g.Undisturbed (g.after calls) := by
  induction calls generalizing g with
  | nil => exact .refl g
  | cons c calls ih => exact h.1.undisturbed.trans (ih h.2)

/-! ## Recalling an instance -/

/-- The names of the parameters of a data node, as the authored graph lists them. -/
abbrev paramNames (g : Graph) (n : NodeId) : NameSet := (g.authoredTables n).input.all

/-- What was acquired of a data node is remembered under the key that the substitution spells for the parameters of the node. -/
theorem instanceAt?_step_acquireInstance (h : g.Reachable) (hd : g.data? n = some d) (s : Substitution) :
    ∃ id, (g.settled.perform (.acquireInstance n s)).2 = .ok (.acquired (some id)) ∧
      (g.step (.acquireInstance n s)).instanceAt? n (s.restrict (g.paramNames n)).fullKey = some id := by
  obtain ⟨e, id, he, hk, hr⟩ := instanceAt?_acquireInstance (g := g.settled) hd s
  refine ⟨id, congrArg (fun r => Except.ok (Reply.acquired r)) hr, ?_⟩
  have hr' : (g.step (.synchronize n)).Reachable := h.after [.synchronize n]
  obtain ⟨a, ho⟩ := h.orderly
  obtain ⟨a', ho'⟩ := hr'.orderly
  have hw : g.settled.Wired := fun m d hm hs => { ho.tidy.framed.wired_of_settled (τ := a.work) rfl m d hm hs with }
  have hw' := ho'.tidy.framed.wired_of_settled (τ := a'.work) rfl
  have hs : e.wiring.outOfSync = false := (synchronize_spec (g := g.settled) { ho.authored with } hw n).2.2.1 e he
  have hsame : g.SameDesign (g.step (.synchronize n)) := (Steady.undisturbed (c := .synchronize n) trivial).toSameDesign
  have hparams : e.wiring.params = g.paramNames n := by
    rw [(hw' n e he hs).params, paramNames, ← hsame.authoredTables_eq ho.authored ho'.authored n,
      ← hw'.tables_eq_authored ho'.authored ((g.step (.synchronize n)).rank n + 1) n e (Nat.lt_succ_self _) he hs]
    rfl
  rw [← hparams]
  exact hk

/-- Between calls, a live instance of a data node is what the node remembers under its key. -/
theorem Reachable.instanceAt?_iff (h : g.Reachable) {k : String} {id : InstanceId} :
    g.instanceAt? n k = some id ↔ ∃ i, g.instances[id]? = some i ∧ i.place = (n, k) := by
  obtain ⟨a, ho⟩ := h.orderly
  refine ⟨ho.tidy.kept.instances.sound n k id, fun ⟨i, hi, hp⟩ => ?_⟩
  have := ho.tidy.kept.instances.listed id i hi
  rw [hp, Work.leftInstances_of_none rfl] at this
  exact this.resolve_right List.not_mem_nil

/-- Whoever acquires an instance of a data node after another one did, when in between no node was edited and nothing was released, is given the same
instance exactly when both substitutions spell the same key for the parameters of the node. Where they bind no name with a semicolon, that is exactly
when they bind these parameters to the same channels. -/
theorem same_instance_iff (h : g.Reachable) (hd : g.data? n = some d) (a b : Substitution)
    (hc : (g.step (.acquireInstance n a)).Throughout Steady calls) :
    ∃ i j, (g.settled.perform (.acquireInstance n a)).2 = .ok (.acquired (some i)) ∧
      (((g.step (.acquireInstance n a)).after calls).settled.perform (.acquireInstance n b)).2 = .ok (.acquired (some j)) ∧
      (i = j ↔ (a.restrict (g.paramNames n)).fullKey = (b.restrict (g.paramNames n)).fullKey) ∧
      (a.restrict (g.paramNames n) = b.restrict (g.paramNames n) → i = j) ∧
      ((a.restrict (g.paramNames n)).Spelled → (b.restrict (g.paramNames n)).Spelled →
        (i = j ↔ a.restrict (g.paramNames n) = b.restrict (g.paramNames n))) := by
  have h₁ : (g.step (.acquireInstance n a)).Reachable := h.after [_]
  have h₂ := h₁.after calls
  have h₃ : (((g.step (.acquireInstance n a)).after calls).step (.acquireInstance n b)).Reachable := h₂.after [_]
  have hund : (g.step (.acquireInstance n a)).Undisturbed ((g.step (.acquireInstance n a)).after calls) := undisturbed_after hc
  have hund' := hund.trans (Steady.undisturbed (c := .acquireInstance n b) trivial)
  have hsame : g.SameDesign ((g.step (.acquireInstance n a)).after calls) :=
    (Steady.undisturbed (c := .acquireInstance n a) trivial).toSameDesign.trans hund.toSameDesign
  obtain ⟨e, he⟩ : ∃ e, ((g.step (.acquireInstance n a)).after calls).data? n = some e := by
    have hdes := hsame.design n
    rw [design?, design?, hd] at hdes
    exact (Option.map_eq_some_iff.1 hdes).imp fun _ he => he.1
  obtain ⟨i, hi, hki⟩ := instanceAt?_step_acquireInstance h hd a
  obtain ⟨j, hj, hkj⟩ := instanceAt?_step_acquireInstance h₂ he b
  have hnames : ((g.step (.acquireInstance n a)).after calls).paramNames n = g.paramNames n := by
    obtain ⟨_, ho⟩ := h.orderly
    obtain ⟨_, ho'⟩ := h₂.orderly
    rw [paramNames, hsame.authoredTables_eq ho.authored ho'.authored n]
  rw [hnames] at hkj
  -- the first instance is live where the second one is remembered
  have hki' : (((g.step (.acquireInstance n a)).after calls).step (.acquireInstance n b)).instanceAt? n (a.restrict (g.paramNames n)).fullKey =
      some i := by
    obtain ⟨_, ho⟩ := h₁.orderly
    obtain ⟨x, hx, hp⟩ := h₁.instanceAt?_iff.1 hki
    obtain ⟨x', hx', hp'⟩ := hund'.instances i x (ho.tidy.kept.instanceId i x hx) hx
    exact h₃.instanceAt?_iff.2 ⟨x', hx', hp'.trans hp⟩
  have hiff : i = j ↔ (a.restrict (g.paramNames n)).fullKey = (b.restrict (g.paramNames n)).fullKey := by
    refine ⟨fun he => ?_, fun he => ?_⟩
    · subst he
      obtain ⟨x, hx, hp⟩ := h₃.instanceAt?_iff.1 hki'
      obtain ⟨y, hy, hq⟩ := h₃.instanceAt?_iff.1 hkj
      rw [hx] at hy
      cases hy
      exact (Prod.mk.inj (hp.symm.trans hq)).2
    · rw [he, hkj] at hki'
      exact (Option.some.inj hki').symm
  refine ⟨i, j, hi, hj, hiff, fun he => hiff.2 (congrArg Substitution.fullKey he), fun ha hb => hiff.trans ⟨?_, congrArg _⟩⟩
  exact ha.restrict_eq hb

/-- A node over placeholders, of which one is called what the key of the two others may read. -/
def clashingNames : List Call :=
  [.createData false, .createLeaf, .setName 1 "a", .setParam 1 true, .appendChild 0 1, .createLeaf, .setName 2 "b", .setParam 2 true,
    .appendChild 0 2, .createLeaf, .setName 3 "a>1;b", .setParam 3 true, .appendChild 0 3]

/-- Another channel for a placeholder makes another instance; one for a name that is no placeholder does not. -/
theorem same_instance_iff_rebound : ∃ i j k,
    (((new Registry.empty {}).after clashingNames).settled.perform (.acquireInstance 0 (.ofList [("a", 1)]))).2 = .ok (.acquired (some i)) ∧
    ((((new Registry.empty {}).after clashingNames).step (.acquireInstance 0 (.ofList [("a", 1)]))).settled.perform
      (.acquireInstance 0 (.ofList [("a", 1), ("z", 4)]))).2 = .ok (.acquired (some j)) ∧
    (((((new Registry.empty {}).after clashingNames).step (.acquireInstance 0 (.ofList [("a", 1)]))).after
      [.acquireInstance 0 .empty, .synchronize 0]).settled.perform
      (.acquireInstance 0 (.ofList [("a", 2)]))).2 = .ok (.acquired (some k)) ∧ i = j ∧ i ≠ k := by
  have hr : ((new Registry.empty {}).after clashingNames).Reachable := ⟨_, _, _, rfl⟩
  obtain ⟨d, hd⟩ : ∃ d, ((new Registry.empty {}).after clashingNames).data? 0 = some d := by
    refine Option.isSome_iff_exists.1 ?_
    decide +kernel
  have hnames : ((new Registry.empty {}).after clashingNames).paramNames 0 = (∅ : NameSet).insertMany ["a", "a>1;b", "b"] := by decide +kernel
  have hnone : (((new Registry.empty {}).after clashingNames).step (.acquireInstance 0 (.ofList [("a", 1)]))).Throughout Steady [] := trivial
  have htwo : (((new Registry.empty {}).after clashingNames).step (.acquireInstance 0 (.ofList [("a", 1)]))).Throughout Steady
      [.acquireInstance 0 .empty, .synchronize 0] := ⟨trivial, trivial, trivial⟩
  obtain ⟨i, j, hi, hj, hij, -⟩ := same_instance_iff hr hd (.ofList [("a", 1)]) (.ofList [("a", 1), ("z", 4)]) hnone
  obtain ⟨i', k, hi', hk, hik, -⟩ := same_instance_iff hr hd (.ofList [("a", 1)]) (.ofList [("a", 2)]) htwo
  rw [hi] at hi'
  cases hi'
  rw [hnames] at hij hik
  refine ⟨i, j, k, hi, hj, hk, hij.2 (by decide +kernel), fun he => ?_⟩
  exact absurd (hik.1 he) (by decide +kernel)

/-- Two substitutions that bind different placeholders are given one instance. -/
theorem keys_clash :
    (((new Registry.empty {}).after clashingNames).settled.perform (.acquireInstance 0 (.ofList [("a", 1), ("b", 2)]))).2 =
      .ok (.acquired (some 1)) ∧
    ((((new Registry.empty {}).after clashingNames).step (.acquireInstance 0 (.ofList [("a", 1), ("b", 2)]))).settled.perform
      (.acquireInstance 0 (.ofList [("a>1;b", 2)]))).2 = .ok (.acquired (some 1)) ∧
    (Substitution.ofList [("a", 1), ("b", 2)]).restrict (((new Registry.empty {}).after clashingNames).paramNames 0) ≠
      (Substitution.ofList [("a>1;b", 2)]).restrict (((new Registry.empty {}).after clashingNames).paramNames 0) := by
  decide +kernel

end Graph

end Dataflow
