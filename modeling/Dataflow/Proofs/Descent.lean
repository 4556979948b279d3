import Dataflow.Proofs.Posted

/-!
# Descent: no cycle is closed, and so all that goes down a graph comes to an end

A reference is refused as closing a cycle exactly when it would close one, so no node is ever below itself. The searches and recursions
over a graph go down its references, or take instances away; so each of them, unfolded often enough, leaves nothing to be unfolded.
-/

namespace Dataflow

/-- The node that a call lets refer to another, and that other node. -/
def Call.reference? : Call → Option (NodeId × NodeId)
  | .appendChild parent child => some (parent, child)
  | .insertBefore parent child _ => some (parent, child)
  | .setSource node (some source) => some (node, source)
  | .setProto node (some proto) => some (node, proto)
  | _ => none

namespace Graph

variable {g g' : Graph} {p c n : NodeId}

/-! ## Refusals -/

/-- Nothing but a cycle is to be said against what the call refers to: the nodes are there and of the kinds that are asked for, and a node
does not get both a source and children. -/
def Admits (g : Graph) : Call → Prop
  | .appendChild parent child => (∃ d, g.data? parent = some d ∧ d.source = none) ∧ (g.node? child).isSome
  | .insertBefore parent child before =>
    (∃ d, g.data? parent = some d ∧ d.source = none ∧ before ∈ d.children) ∧ (g.node? child).isSome
  | .setSource node (some source) => (∃ d, g.data? node = some d ∧ d.children = []) ∧ (g.data? source).isSome
  | .setProto node (some proto) => (g.data? node).isSome ∧ (g.data? proto).isSome
  | _ => True

/-- The search for a cycle finds one exactly when there is one. -/
theorem Authored.closesCycle_iff (ha : g.Authored) : g.closesCycle p c = true ↔ g.Below c p := by
  rw [closesCycle, List.contains_iff_mem]
  constructor
  · intro h
    obtain ⟨t, ht, hl⟩ := reachable_sound h
    rwa [List.mem_singleton.1 ht] at hl
  · exact ha.mem_descendants

theorem requireData_of_data? {d : DataNode} (h : g.data? n = some d) : g.requireData n = .ok d := by
  obtain ⟨x, hx, hd⟩ := Option.bind_eq_some_iff.1 h
  rw [requireData, hx]
  simp only [hd]

theorem checkReference_of_node (hc : (g.node? c).isSome) :
    g.checkReference p c = if g.closesCycle p c then .error .cycle else .ok () := by
  obtain ⟨x, hx⟩ := Option.isSome_iff_exists.1 hc
  simp only [checkReference, hx, Option.isNone_some, Bool.false_eq_true, if_false]

theorem checkChild_of_admitted {d : DataNode} (hd : g.data? p = some d) (hs : d.source = none) (hc : (g.node? c).isSome) :
    g.checkChild p c = if g.closesCycle p c then .error .cycle else .ok () := by
  rw [← checkReference_of_node hc, checkChild, requireData_of_data? hd]
  simp only [hs, bind, Except.bind, Option.isSome_none, Bool.false_eq_true, if_false]

theorem checkData_of_admitted (hc : (g.data? c).isSome) :
    g.checkData p c = if g.closesCycle p c then .error .cycle else .ok () := by
  obtain ⟨d, hd⟩ := Option.isSome_iff_exists.1 hc
  rw [← checkReference_of_node (isSome_node?_of_data? hc), checkData]
  simp only [hd, bind, Except.bind, Option.isNone_some, Bool.false_eq_true, if_false]

/-- Of a reference to which nothing else is to be said, the answer is a cycle exactly when the search finds one. -/
theorem refused_iff_closesCycle {call : Call} (hr : call.reference? = some (p, c)) (hadm : g.Admits call) :
    (g.perform call).2 = .error .cycle ↔ g.closesCycle p c = true := by
  cases call with
  | appendChild parent child =>
    obtain ⟨rfl, rfl⟩ := Prod.mk.inj (Option.some.inj hr)
    obtain ⟨⟨d, hd, hs⟩, hc⟩ := hadm
    rw [perform, done, appendChild, checkChild_of_admitted hd hs hc]
    by_cases h : g.closesCycle parent child = true <;> simp [h, Except.map]
  | insertBefore parent child before =>
    obtain ⟨rfl, rfl⟩ := Prod.mk.inj (Option.some.inj hr)
    obtain ⟨⟨d, hd, hs, -⟩, hc⟩ := hadm
    rw [perform, done, insertBefore, checkChild_of_admitted hd hs hc]
    by_cases h : g.closesCycle parent child = true
    · simp [h, Except.map]
    · rw [if_neg h]
      dsimp only
      split <;> simp [h, Except.map]
  | setSource node source =>
    cases source with
    | none => cases hr
    | some source =>
      obtain ⟨rfl, rfl⟩ := Prod.mk.inj (Option.some.inj hr)
      obtain ⟨⟨d, hd, hs⟩, hc⟩ := hadm
      rw [perform, done, setSource, requireData_of_data? hd]
      simp only [hs, checkData_of_admitted hc]
      by_cases h : g.closesCycle node source = true <;> simp [h, Except.map]
  | setProto node proto =>
    cases proto with
    | none => cases hr
    | some proto =>
      obtain ⟨rfl, rfl⟩ := Prod.mk.inj (Option.some.inj hr)
      obtain ⟨hn, hc⟩ := hadm
      obtain ⟨d, hd⟩ := Option.isSome_iff_exists.1 hn
      rw [perform, done, setProto, requireData_of_data? hd]
      simp only [checkData_of_admitted hc]
      by_cases h : g.closesCycle node proto = true <;> simp [h, Except.map]
  | _ => cases hr

/-- A node is below another or is that node itself. -/
theorem below_iff {m : NodeId} : g.Below n m ↔ n = m ∨ g.StrictlyBelow n m := by
  rw [Below, Leads, Relation.reflTransGen_iff_eq_or_transGen, eq_comm]
  rfl

/-! ## One unfolding of each recursion -/

/-- One unfolding of the search: the first id that waits and was not met is put by, and `rest` goes on with what it links to. -/
def visitStep (next : Nat → List Nat) (rest : List Nat → List Nat → List Nat) (seen todo : List Nat) : List Nat :=
  match todo.dropWhile (seen.contains ·) with
  | [] => seen
  | i :: todo => rest (seen ++ [i]) ((next i).reverse ++ todo)

/-- One unfolding of synchronizing: `rest` puts what a node out of sync refers to in sync. -/
def syncStep (rest : Graph → NodeId → Graph) (g : Graph) (node : NodeId) : Graph :=
  match g.data? node with
  | none => g
  | some d => if d.wiring.outOfSync then (d.references.foldl rest g).rewire node d else g

/-- One unfolding of acquiring: an instance that the node does not remember is built, and `rest` acquires what it needs. -/
def acquireStep (rest : Acquire) : Acquire := fun g node sub =>
  let g := g.synchronize node
  match g.data? node with
  | none => (g, none)
  | some d =>
    let sub := sub.restrict d.wiring.params
    let key := sub.fullKey
    match (d.wiring.instances[key]?).bind fun id => (g.instances[id]?).map (id, ·) with
    | some (id, i) =>
      let g := { g with instances := g.instances.insert id { i with uses := i.uses + 1 } }
      (g.check .memoized (i.owner = node && i.key = key) "get_substitution_node", some id)
    | none =>
      let (g, id) := g.drawId
      let (g, i) := build rest g node d sub key
      (g.remember id i, some id)

/-- One unfolding of releasing: with its last user an instance goes, and `rest` releases what it used. -/
def releaseStep (rest : Graph → InstanceId → Graph) (g : Graph) (id : InstanceId) : Graph :=
  match g.instances[id]? with
  | none => g
  | some i =>
    if 1 < i.uses then { g with instances := g.instances.insert id { i with uses := i.uses - 1 } }
    else ((usedBy i).foldl rest ((g.dismantle id i).giveBack i.process)).check .teardownSymmetric
      (!((usedBy i).foldl rest ((g.dismantle id i).giveBack i.process)).remembers i.owner i.key id) "release_substitution_node"

theorem syncWithin_succ (k : Nat) : syncWithin (k + 1) = syncStep (syncWithin k) := rfl

theorem acquireWithin_succ (k : Nat) : acquireWithin (k + 1) = acquireStep (acquireWithin k) := rfl

theorem releaseWithin_succ (k : Nat) : releaseWithin (k + 1) = releaseStep (releaseWithin k) := rfl

/-! ## Nothing is left to unfold -/

section Fold

variable {α β : Type} {f f' : β → α → β}

/-- Two folds agree when their steps agree along the way. -/
theorem foldl_eq_of_steps {P : β → Prop} : ∀ (l : List α) (b : β), (∀ b, ∀ a ∈ l, P b → f b a = f' b a) → (∀ b, ∀ a ∈ l, P b → P (f' b a)) →
    P b → l.foldl f b = l.foldl f' b := by
  intro l
  induction l with
  | nil => exact fun _ _ _ _ => rfl
  | cons a l ih =>
    intro b hf hP hb
    rw [List.foldl_cons, List.foldl_cons, hf b a List.mem_cons_self hb]
    exact ih _ (fun b x hx => hf b x (List.mem_cons_of_mem a hx)) (fun b x hx => hP b x (List.mem_cons_of_mem a hx))
      (hP b a List.mem_cons_self hb)

end Fold

/-- A search that may still put by all of a closed list leaves nothing to be unfolded: every unfolding puts one id by. -/
theorem iterate_visitStep {next : Nat → List Nat} {all : List Nat} (hall : ∀ i ∈ all, ∀ j ∈ next i, j ∈ all)
    (rest : List Nat → List Nat → List Nat) : ∀ (k k' : Nat) (seen todo : List Nat), seen.Nodup → seen ⊆ all → todo ⊆ all →
      all.length < k + seen.length → all.length ≤ k' + seen.length → (visitStep next)^[k] rest seen todo = visit next k' seen todo := by
  intro k
  induction k with
  | zero =>
    intro k' seen todo hnd hseen _ hk _
    have := (hnd.subperm hseen).length_le
    omega
  | succ k ih =>
    intro k' seen todo hnd hseen htodo hk hk'
    rw [Function.iterate_succ_apply', visitStep]
    rcases hd : todo.dropWhile (seen.contains ·) with _ | ⟨i, todo'⟩
    · cases k' with
      | zero => rfl
      | succ k' => simp only [visit, hd]
    · have hi : i ∈ todo.dropWhile (seen.contains ·) := by rw [hd]; exact List.mem_cons_self
      have hiall : i ∈ all := htodo (ReachAux.mem_of_dropWhile hi)
      have hnew : i ∉ seen := by
        have := List.head_dropWhile_not (seen.contains ·) (l := todo) (by rw [hd]; exact List.cons_ne_nil _ _)
        simp only [hd, List.head_cons] at this
        simpa using this
      have hnd' : (seen ++ [i]).Nodup := by
        rw [List.nodup_append]
        exact ⟨hnd, List.nodup_singleton i, fun a ha b hb => by rintro rfl; exact hnew (List.mem_singleton.1 hb ▸ ha)⟩
      have hseen' : seen ++ [i] ⊆ all := List.append_subset.2 ⟨hseen, List.cons_subset.2 ⟨hiall, List.nil_subset _⟩⟩
      have hlen := (hnd'.subperm hseen').length_le
      have hone : (seen ++ [i]).length = seen.length + 1 := by simp
      obtain ⟨k', rfl⟩ : ∃ j, k' = j + 1 := ⟨k' - 1, by omega⟩
      simp only [visit, hd]
      refine ih k' _ _ hnd' hseen' (List.append_subset.2 ⟨fun j hj => hall i hiall j (List.mem_reverse.1 hj), fun j hj => ?_⟩) (by omega) (by omega)
      have hj' : j ∈ todo.dropWhile (seen.contains ·) := by rw [hd]; exact List.mem_cons_of_mem i hj
      exact htodo (ReachAux.mem_of_dropWhile hj')

/-- Synchronizing goes down references, which do not change on the way. -/
theorem iterate_syncStep {ρ : NodeId → Nat} (rest : Graph → NodeId → Graph) : ∀ (k k' : Nat) (g : Graph) (n : NodeId), g.Ranked ρ →
    ρ n < k → ρ n < k' → syncStep^[k] rest g n = syncWithin k' g n := by
  intro k
  induction k with
  | zero => exact fun k' g n _ h => absurd h (Nat.not_lt_zero _)
  | succ k ih =>
    intro k' g n hρ hk hk'
    obtain ⟨k', rfl⟩ : ∃ j, k' = j + 1 := ⟨k' - 1, by omega⟩
    rw [Function.iterate_succ_apply', syncWithin_succ, syncStep, syncStep]
    rcases hd : g.data? n with _ | d
    · rfl
    · have hlower : ∀ r ∈ d.references, ρ r < ρ n := fun r hr => hρ n r (by rwa [references_of_data? hd])
      have hfold : d.references.foldl (syncStep^[k] rest) g = d.references.foldl (syncWithin k') g := by
        refine foldl_eq_of_steps (P := fun g => g.Ranked ρ) _ g (fun g r hr hρ => ?_) (fun g r _ hρ => ?_) hρ
        · have := hlower r hr
          exact ih k' g r hρ (by omega) (by omega)
        · exact (derived_syncWithin k' g r).rewired.ranked hρ
      simp only [hfold]

section Build

variable {ρ : NodeId → Nat} {acquire acquire' : Acquire} (hder : ∀ (g : Graph) n s, g.Derived (fun _ _ => True) (acquire' g n s).1)
include hder

/-- Building looks no further than to what is below the node. -/
theorem build_congr {d : DataNode} (heq : ∀ g, ∀ r ∈ d.references, ∀ s, g.Ranked ρ → acquire g r s = acquire' g r s) (hρ : g.Ranked ρ)
    (node : NodeId) (sub : Substitution) (key : String) : build acquire g node d sub key = build acquire' g node d sub key := by
  have hkeep : ∀ g g' : Graph, g.Derives g' → g.Ranked ρ → g'.Ranked ρ := fun g g' h hρ => h.derived.rewired.ranked hρ
  have hacq : ∀ g n s, g.Ranked ρ → (acquire' g n s).1.Ranked ρ := fun g n s hρ => (hder g n s).rewired.ranked hρ
  have hb : Builds fun g g' => g.Ranked ρ → g'.Ranked ρ := .of_derives (fun _ h => h) (fun _ _ _ h h' hρ => h' (h hρ)) hkeep
  have hrel : ∀ g n s, Graph.Ranked g ρ → (mergeInputs acquire' n s g d).1.Ranked ρ := fun g n s => rel_mergeInputs hb hacq n s g d
  have houtputs : ∀ g, ∀ r ∈ d.references, g.Ranked ρ → mergeOutputs acquire node sub g r = mergeOutputs acquire' node sub g r := by
    intro g r hr hρ
    rw [mergeOutputs, mergeOutputs, heq g r hr sub hρ]
  have hinputs : mergeInputs acquire node sub g d = mergeInputs acquire' node sub g d := by
    rcases hs : d.source with _ | r
    · simp only [mergeInputs, hs]
      refine foldl_eq_of_steps (P := fun x => x.1.Ranked ρ) _ (g, []) (fun x r hr hρ => ?_) (fun x r hr hρ => ?_) hρ
      · rcases hl : x.1.leaf? r with _ | l
        · simp only [houtputs x.1 r (by simp [DataNode.references, hr]) hρ]
        · rfl
      · rcases hl : x.1.leaf? r with _ | l
        · exact rel_mergeOutputs hb hacq node sub x.1 r hρ
        · exact hkeep _ _ (derives_mergeLeaf node sub x.1 l) hρ
    · simp only [mergeInputs, hs]
      exact houtputs g r (by simp [DataNode.references, hs]) hρ
  have htemplate : ∀ (g : Graph) (s : Substitution), g.Ranked ρ → acquireTemplate acquire g d s = acquireTemplate acquire' g d s := by
    intro g s hρ
    rcases hp : d.proto with _ | p
    · simp only [acquireTemplate, hp]
    · simp only [acquireTemplate, hp, heq g p (by simp [DataNode.references, hp]) s hρ]
  simp only [build, hinputs]
  rw [htemplate]
  exact hkeep _ _ (derives_mergeExtended ..) (hkeep _ _ (derives_acquireProcess ..) (hrel _ _ _ hρ))

end Build

/-- Acquiring goes down references, which do not change on the way. -/
theorem iterate_acquireStep {ρ : NodeId → Nat} (rest : Acquire) : ∀ (k k' : Nat) (g : Graph) (n : NodeId) (s : Substitution), g.Ranked ρ →
    ρ n < k → ρ n < k' → acquireStep^[k] rest g n s = acquireWithin k' g n s := by
  intro k
  induction k with
  | zero => exact fun k' g n s _ h => absurd h (Nat.not_lt_zero _)
  | succ k ih =>
    intro k' g n s hρ hk hk'
    obtain ⟨k', rfl⟩ : ∃ j, k' = j + 1 := ⟨k' - 1, by omega⟩
    rw [Function.iterate_succ_apply', acquireWithin_succ, acquireStep, acquireStep]
    have hρ' : (g.synchronize n).Ranked ρ := (derived_synchronize g n).rewired.ranked hρ
    generalize g.synchronize n = g₁ at hρ' ⊢
    rcases hd : g₁.data? n with _ | d
    · rfl
    · have hlower : ∀ r ∈ d.references, ρ r < ρ n := fun r hr => hρ' n r (by rwa [references_of_data? hd])
      have heq : ∀ g : Graph, ∀ r ∈ d.references, ∀ s, g.Ranked ρ → acquireStep^[k] rest g r s = acquireWithin k' g r s := fun g r hr s hρ => by
        have := hlower r hr
        exact ih k' g r s hρ (by omega) (by omega)
      have hdraw : g₁.drawId.1.Ranked ρ := (derives_drawId g₁).derived.rewired.ranked hρ'
      simp only [build_congr (derived_acquireWithin k') heq hdraw]

/-- Releasing takes instances away, one with every unfolding that leaves something to be unfolded. -/
theorem iterate_releaseStep (rest : Graph → InstanceId → Graph) : ∀ (k k' : Nat) (g : Graph) (id : InstanceId), g.instances.size < k →
    g.instances.size < k' → releaseStep^[k] rest g id = releaseWithin k' g id := by
  intro k
  induction k with
  | zero => exact fun k' g id h => absurd h (Nat.not_lt_zero _)
  | succ k ih =>
    intro k' g id hk hk'
    obtain ⟨k', rfl⟩ : ∃ j, k' = j + 1 := ⟨k' - 1, by omega⟩
    rw [Function.iterate_succ_apply', releaseWithin_succ, releaseStep, releaseStep]
    rcases hi : g.instances[id]? with _ | i
    · rfl
    · have hsize : ((g.dismantle id i).giveBack i.process).instances.size < g.instances.size := by
        rw [instances_giveBack, instances_dismantle]
        exact size_erase_lt hi
      have hfold : (usedBy i).foldl (releaseStep^[k] rest) ((g.dismantle id i).giveBack i.process) =
          (usedBy i).foldl (releaseWithin k') ((g.dismantle id i).giveBack i.process) := by
        refine foldl_eq_of_steps (P := fun h => h.instances.size < g.instances.size) _ _ (fun h j _ hh => ?_) (fun h j _ hh => ?_) hsize
        · exact ih k' h j (by omega) (by omega)
        · exact Nat.lt_of_le_of_lt (drops_releaseWithin k' h j).size hh
      simp only [hfold]

/-! ## Acyclic graphs -/

/-- The searches and recursions over a graph come to an end: unfolded as often as there are nodes and once or twice more, or as there are
instances and once more, each has its result, whatever `rest` would give for what is left to be unfolded. -/
structure Terminating (g : Graph) : Prop where
  search : ∀ n k rest, g.nodes.size + 1 < k → (visitStep g.references)^[k] rest [] [n] = g.descendants n
  synchronize : ∀ n k rest, g.nodes.size < k → syncStep^[k] rest g n = g.synchronize n
  acquire : ∀ n s k rest, g.nodes.size < k → acquireStep^[k] rest g n s = g.acquireInstance n s
  release : ∀ id k rest, g.instances.size < k → releaseStep^[k] rest g id = g.releaseInstance id

theorem Authored.terminating (ha : g.Authored) : g.Terminating := by
  refine ⟨fun n k rest hk => ?_, fun n k rest hk => ?_, fun n s k rest hk => ?_, fun id k rest hk => ?_⟩
  · have hlen : (n :: g.nodes.items.keys).length = g.nodes.size + 1 := by
      rw [List.length_cons, Std.ExtTreeMap.length_keys]
      rfl
    refine @iterate_visitStep g.references (n :: g.nodes.items.keys) (fun i _ j hj => ?_) rest k _ [] [n] List.nodup_nil (List.nil_subset _)
      (by simp) (by rw [hlen]; exact hk) (Nat.le_of_eq hlen)
    exact List.mem_cons_of_mem _ (Table.mem_keys.2 (Option.isSome_iff_exists.1 (ha.live i j hj)))
  · have := g.rank_le_size n
    exact iterate_syncStep rest k _ g n ha.ranked (by omega) (by omega)
  · have := g.rank_le_size n
    exact iterate_acquireStep rest k _ g n s ha.ranked (by omega) (by omega)
  · exact iterate_releaseStep rest k _ g id hk (Nat.lt_succ_self _)

/-- In every graph that calls lead to no node is below itself, a reference is refused as a cycle exactly when it would close one, and all
searches and recursions come to an end. -/
theorem acyclic_and_terminating (h : g.Reachable) :
    (∀ n, ¬ g.StrictlyBelow n n) ∧
    (∀ call p c, call.reference? = some (p, c) → g.Admits call →
      ((g.perform call).2 = .error .cycle ↔ c = p ∨ g.StrictlyBelow c p)) ∧
    g.Terminating := by
  obtain ⟨_, ho⟩ := h.orderly
  have ha := ho.authored
  refine ⟨ha.acyclic, fun call p c hr hadm => ?_, ha.terminating⟩
  rw [refused_iff_closesCycle hr hadm, ha.closesCycle_iff, below_iff]

/-- A node that is the child of another. -/
def chainGraph : Graph := (new Registry.empty {}).after [.createData false, .createData false, .appendChild 1 0]

/-- The child may not have its parent as a source, for the parent is above it; the parent may have the child as a template. -/
theorem acyclic_and_terminating_chain :
    chainGraph.Reachable ∧
    (chainGraph.perform (.setSource 0 (some 1))).2 = .error .cycle ∧ chainGraph.Admits (.setSource 0 (some 1)) ∧
    (1 = 0 ∨ chainGraph.StrictlyBelow 1 0) ∧
    chainGraph.Admits (.setProto 1 (some 0)) ∧ ¬ (0 = 1 ∨ chainGraph.StrictlyBelow 0 1) ∧
    (∀ n, ¬ chainGraph.StrictlyBelow n n) ∧ chainGraph.Terminating := by
  have h : chainGraph.Reachable := ⟨_, _, _, rfl⟩
  obtain ⟨hacyclic, hcycle, hend⟩ := acyclic_and_terminating h
  have hdata : ∀ n : NodeId, n < 2 → ((chainGraph.data? n).map fun d => (d.children, d.source)) = some (if n = 0 then [] else [0], none) := by
    decide +kernel
  have hsome : ∀ n : NodeId, n < 2 → (chainGraph.data? n).isSome := fun n hn => by
    have := congrArg Option.isSome (hdata n hn)
    rwa [Option.isSome_map] at this
  have hsource : chainGraph.Admits (.setSource 0 (some 1)) := by
    obtain ⟨d, hd, hc⟩ := Option.map_eq_some_iff.1 (hdata 0 (by decide))
    exact ⟨⟨d, hd, congrArg Prod.fst hc⟩, hsome 1 (by decide)⟩
  have hproto : chainGraph.Admits (.setProto 1 (some 0)) := ⟨hsome 1 (by decide), hsome 0 (by decide)⟩
  have hrefused : (chainGraph.perform (.setSource 0 (some 1))).2 = .error .cycle :=
    (refused_iff_closesCycle rfl hsource).2 (by decide +kernel)
  refine ⟨h, hrefused, hsource, (hcycle _ 0 1 rfl hsource).1 hrefused, hproto, fun hb => ?_, hacyclic, hend⟩
  have hfound : chainGraph.closesCycle 1 0 = true := (refused_iff_closesCycle rfl hproto).1 ((hcycle _ 1 0 rfl hproto).2 hb)
  exact absurd hfound (by decide +kernel)

end Graph

end Dataflow
