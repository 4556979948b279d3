import Dataflow.Graph.Publish
import Dataflow.Proofs.Operate

/-!
# Derived parts: what building and taking down leave alone

Instances, processes and channels are built and taken down without a change of what is authored, of the outlets and of the requests.
What happens to the wiring of the nodes on the way is told by a preorder: merging, marking and processes keep what a node remembers
of its instances, and taking down only forgets.
-/

namespace Dataflow

/-- A relation that changes of wirings may be chained along. -/
structure Chains (P : Wiring → Wiring → Prop) : Prop where
  refl : ∀ w, P w w
  trans : ∀ w w' w'', P w w' → P w' w'' → P w w''

namespace Wiring

/-- A wiring with other channels and processes: its place in the graph and its instances are the same. -/
structure Keeps (w w' : Wiring) : Prop where
  outOfSync : w'.outOfSync = w.outOfSync
  params : w'.params = w.params
  instances : w'.instances = w.instances

/-- A wiring that remembers no instance that the other one does not. -/
def Forgets (w w' : Wiring) : Prop := ∀ (k : String) (id : InstanceId), w'.instances[k]? = some id → w.instances[k]? = some id

theorem chains_keeps : Chains Keeps :=
  ⟨fun _ => ⟨rfl, rfl, rfl⟩, fun _ _ _ h h' =>
    ⟨h'.outOfSync.trans h.outOfSync, h'.params.trans h.params, h'.instances.trans h.instances⟩⟩

theorem chains_forgets : Chains Forgets := ⟨fun _ _ _ h => h, fun _ _ _ h h' k id hk => h k id (h' k id hk)⟩

theorem chains_true : Chains fun _ _ => True := ⟨fun _ => trivial, fun _ _ _ _ _ => trivial⟩

theorem Keeps.forgets {w w' : Wiring} (h : w.Keeps w') : w.Forgets w' := fun k id hk => by rwa [h.instances] at hk

theorem keeps_setMap (w : Wiring) (port : Port) (m : ChannelMap) : w.Keeps (w.setMap port m) := by
  cases port <;> exact ⟨rfl, rfl, rfl⟩

end Wiring

namespace Graph

/-- A graph with other derived parts, in which wirings changed along `P`. -/
structure Derived (P : Wiring → Wiring → Prop) (g g' : Graph) : Prop where
  rest : ∃ nodes store instances processes lastId journal,
    g' = { g with nodes, store, instances, processes, lastId, journal }
  lastId : g.lastId ≤ g'.lastId
  rewired : Rewired (fun _ => P) g g'

/-- A graph with other channels and processes: every instance is the same. -/
structure Derives (g g' : Graph) : Prop where
  derived : g.Derived Wiring.Keeps g'
  instances : g'.instances = g.instances

/-- Rewirings along a relation that chains. -/
theorem Rewired.chain {P : Wiring → Wiring → Prop} (hP : Chains P) {g g' g'' : Graph} (h : Rewired (fun _ => P) g g')
    (h' : Rewired (fun _ => P) g' g'') : Rewired (fun _ => P) g g'' :=
  h.trans h' (fun _ _ _ h => h) (fun _ _ _ h => h) fun _ => hP.trans

namespace Derived

variable {P Q : Wiring → Wiring → Prop} {g g' g'' : Graph}

theorem refl (P : Wiring → Wiring → Prop) (g : Graph) : g.Derived P g :=
  ⟨⟨_, _, _, _, _, _, rfl⟩, Nat.le_refl _, .refl g⟩

theorem trans (hP : Chains P) (h : g.Derived P g') (h' : g'.Derived P g'') : g.Derived P g'' := by
  refine ⟨?_, Nat.le_trans h.lastId h'.lastId, h.rewired.chain hP h'.rewired⟩
  obtain ⟨_, _, _, _, _, _, rfl⟩ := h.rest
  obtain ⟨_, _, _, _, _, _, rfl⟩ := h'.rest
  exact ⟨_, _, _, _, _, _, rfl⟩

theorem mono (h : g.Derived P g') (hPQ : ∀ w w', P w w' → Q w w') : g.Derived Q g' :=
  ⟨h.rest, h.lastId, h.rewired.mono fun _ => hPQ⟩

section Rest

variable (h : g.Derived P g')

include h

theorem outlets : g'.outlets = g.outlets := by
  obtain ⟨_, _, _, _, _, _, rfl⟩ := h.rest
  rfl

theorem requests : g'.requests = g.requests := by
  obtain ⟨_, _, _, _, _, _, rfl⟩ := h.rest
  rfl

theorem registry : g'.registry = g.registry := by
  obtain ⟨_, _, _, _, _, _, rfl⟩ := h.rest
  rfl

theorem config : g'.config = g.config := by
  obtain ⟨_, _, _, _, _, _, rfl⟩ := h.rest
  rfl

theorem plans : g'.plans = g.plans := by
  obtain ⟨_, _, _, _, _, _, rfl⟩ := h.rest
  rfl

end Rest

/-- The nodes do not change. -/
theorem of_nodes_eq (h : ∃ store instances processes lastId journal,
    g' = { g with store, instances, processes, lastId, journal }) (hid : g.lastId ≤ g'.lastId) : g.Derived P g' := by
  obtain ⟨_, _, _, _, _, rfl⟩ := h
  exact ⟨⟨_, _, _, _, _, _, rfl⟩, hid, .of_nodes_eq rfl⟩

/-- One wiring changes. -/
theorem of_modifyWiring (g : Graph) (n : NodeId) {f : Wiring → Wiring} (hf : ∀ w, P w (f w)) : g.Derived P (g.modifyWiring n f) :=
  ⟨⟨_, _, _, _, _, _, rfl⟩, Nat.le_refl _, (rewired_modifyWiring g n f).mono fun _ w _ h => h.2 ▸ hf w⟩

theorem foldl (hP : Chains P) {α : Type} {f : Graph → α → Graph} (hf : ∀ (g : Graph) a, g.Derived P (f g a)) :
    ∀ (l : List α) (g : Graph), g.Derived P (l.foldl f g)
  | [], g => .refl P g
  | a :: l, g => (hf g a).trans hP (foldl hP hf l (f g a))

end Derived

namespace Derives

variable {g g' g'' : Graph}

theorem refl (g : Graph) : g.Derives g := ⟨.refl _ g, rfl⟩

theorem trans (h : g.Derives g') (h' : g'.Derives g'') : g.Derives g'' :=
  ⟨h.derived.trans Wiring.chains_keeps h'.derived, h'.instances.trans h.instances⟩

/-- Neither nodes nor instances change. -/
theorem of_nodes_eq (h : ∃ store processes lastId journal, g' = { g with store, processes, lastId, journal })
    (hid : g.lastId ≤ g'.lastId) : g.Derives g' := by
  obtain ⟨_, _, _, _, rfl⟩ := h
  exact ⟨.of_nodes_eq ⟨_, _, _, _, _, rfl⟩ hid, rfl⟩

theorem of_modifyWiring (g : Graph) (n : NodeId) {f : Wiring → Wiring} (hf : ∀ w : Wiring, w.Keeps (f w)) : g.Derives (g.modifyWiring n f) :=
  ⟨.of_modifyWiring g n hf, rfl⟩

theorem foldl {α : Type} {f : Graph → α → Graph} (hf : ∀ (g : Graph) a, g.Derives (f g a)) :
    ∀ (l : List α) (g : Graph), g.Derives (l.foldl f g)
  | [], g => .refl g
  | a :: l, g => (hf g a).trans (foldl hf l (f g a))

theorem forgets (h : g.Derives g') : g.Derived Wiring.Forgets g' := h.derived.mono fun _ _ => Wiring.Keeps.forgets

end Derives

/-! ## Merging and marking -/

theorem derives_drawId (g : Graph) : g.Derives (g.drawId).1 := .of_nodes_eq ⟨_, _, _, _, rfl⟩ (Nat.le_succ _)

theorem derives_check (g : Graph) (i : Invariant) (b : Bool) (t : String) : g.Derives (g.check i b t) :=
  .of_nodes_eq ⟨_, _, _, _, rfl⟩ (Nat.le_refl _)

theorem derives_notice (g : Graph) (n : Notice) : g.Derives (g.notice n) := .of_nodes_eq ⟨_, _, _, _, rfl⟩ (Nat.le_refl _)

theorem derives_addSlots (g : Graph) (id : ChannelId) (l : List (Slot Float32)) : g.Derives (g.addSlots id l) := by
  obtain ⟨j, h⟩ := addSlots_eq g id l
  exact .of_nodes_eq ⟨_, _, _, _, h⟩ (by rw [h])

theorem derives_setChannel (g : Graph) (n : NodeId) (port : Port) (x : String) (s : Substitution) (c : Cell) (ch : ChannelId) :
    g.Derives (g.setChannel n port x s c ch) := .of_modifyWiring g n fun w => w.keeps_setMap port _

theorem derives_createChannel (g : Graph) (m : MapId) (l : List (Slot Float32)) : g.Derives (g.createChannel m l).1 := by
  obtain ⟨j, h⟩ := createChannel_eq g m l
  rw [h]
  exact .of_nodes_eq ⟨_, _, _, _, rfl⟩ (Nat.le_refl _)

theorem derives_ownChannel (g : Graph) (m : MapId) (c : ChannelId) : g.Derives (g.ownChannel m c).1 := by
  obtain ⟨j, h⟩ := ownChannel_eq g m c
  rw [h]
  exact .of_nodes_eq ⟨_, _, _, _, rfl⟩ (Nat.le_refl _)

theorem derives_store (g : Graph) (s : Store) : g.Derives { g with store := s } :=
  .of_nodes_eq ⟨_, _, _, _, rfl⟩ (Nat.le_refl _)

theorem derives_processes (g : Graph) (s : Store) (ps : IdMap Process) : g.Derives { g with processes := ps, store := s } :=
  .of_nodes_eq ⟨_, _, _, _, rfl⟩ (Nat.le_refl _)

theorem derives_mergeFeed (g : Graph) (n : NodeId) (port : Port) (s : Substitution) (x : String) (f : Feed) :
    g.Derives (g.mergeFeed n port s x f) := by
  rcases f with c | y <;> simp only [mergeFeed]
  · rw [mergeChannel]
    split
    · exact .refl g
    · dsimp only
      split
      · exact .refl g
      · split
        · exact derives_setChannel ..
        · split
          · exact derives_check ..
          · split
            · exact ((derives_ownChannel ..).trans (derives_addSlots ..)).trans (derives_setChannel ..)
            · exact (derives_store ..).trans (derives_setChannel ..)
  · rw [mergeSlot]
    split
    · exact .refl g
    · dsimp only
      split
      · exact .refl g
      · split
        · exact (derives_createChannel ..).trans (derives_setChannel ..)
        · split
          · exact ((derives_ownChannel ..).trans (derives_addSlots _ _ [y])).trans (derives_setChannel ..)
          · exact ((derives_store ..).trans (derives_createChannel ..)).trans (derives_setChannel ..)

theorem derives_mergeFeeds (g : Graph) (n : NodeId) (port : Port) (s : Substitution) (fs : List (String × Feed)) :
    g.Derives (g.mergeFeeds n port s fs) := by
  rw [mergeFeeds]
  exact .foldl (fun g e => derives_mergeFeed g n port s e.1 e.2) fs g

theorem derives_mergeChannels (g : Graph) (n : NodeId) (port : Port) (s : Substitution) (l : List (String × ChannelId)) :
    g.Derives (g.mergeChannels n port s l) := by
  rw [mergeChannels_eq]
  exact derives_mergeFeeds ..

theorem derives_mergeSlots (g : Graph) (n : NodeId) (port : Port) (s : Substitution) (l : List (String × Slot Float32)) :
    g.Derives (g.mergeSlots n port s l) := by
  rw [mergeSlots_eq]
  exact derives_mergeFeeds ..

theorem derives_markUsed (g : Graph) (n : NodeId) (s : Substitution) : g.Derives (g.markUsed n s) :=
  .of_modifyWiring g n fun _ => ⟨rfl, rfl, rfl⟩

theorem derives_markUnused (g : Graph) (n : NodeId) (s : Substitution) (port : Port) : g.Derives (g.markUnused n s port) := by
  rw [markUnused]
  split
  · exact .refl g
  · exact (derives_store g _).trans (.of_modifyWiring _ n fun w => w.keeps_setMap port _)

theorem derives_clearPort (g : Graph) (n : NodeId) (port : Port) : g.Derives (g.clearPort n port) := by
  rw [clearPort]
  split
  · exact .refl g
  · exact (derives_store g _).trans (.of_modifyWiring _ n fun w => w.keeps_setMap port _)

/-! ## Processes -/

theorem derives_destroyProcess (g : Graph) (id : ProcessId) : g.Derives (g.destroyProcess id) := by
  rw [destroyProcess]
  split
  · exact .refl g
  · rename_i p _
    dsimp only
    refine .trans (derives_processes g _ _) (.of_modifyWiring _ p.owner fun w => ?_)
    split
    · exact ⟨rfl, rfl, rfl⟩
    · exact Wiring.chains_keeps.refl w

theorem derives_releaseProcess (g : Graph) (id : ProcessId) : g.Derives (g.releaseProcess id) := by
  rw [releaseProcess]
  split
  · exact .refl g
  · split
    · exact derives_destroyProcess g id
    · exact .of_nodes_eq ⟨_, _, _, _, rfl⟩ (Nat.le_refl _)

theorem derives_acquireProcess (g : Graph) (n : NodeId) (s : Substitution) : g.Derives (g.acquireProcess n s).1 := by
  rw [acquireProcess]
  split
  · exact .refl g
  · split
    · dsimp only
      split
      · exact .of_nodes_eq ⟨_, _, _, _, rfl⟩ (Nat.le_refl _)
      · simp only [createOutputs_eq, drawId]
        refine .trans (.of_nodes_eq ⟨_, _, _, _, rfl⟩ ?_) (.of_modifyWiring _ n fun w => ?_)
        · exact Nat.le_succ _
        · exact ⟨rfl, rfl, rfl⟩
    · exact .refl g

theorem derives_mergeExtended (g : Graph) (n : NodeId) (s : Substitution) (p : Option ProcessId) :
    g.Derives (g.mergeExtended n s p) := (derives_mergeChannels ..).trans (derives_mergeSlots ..)

/-! ## Instances -/

/-- The graph in which an instance no longer is, nor what its owner cached for it; what it used is not given back yet. -/
def dismantle (g : Graph) (id : InstanceId) (i : Instance) : Graph :=
  let g := { g with instances := g.instances.erase id }
  let g := [Port.output, .extended, .input].foldl (fun g port => g.markUnused i.owner i.substitution port) g
  g.modifyWiring i.owner fun w => if w.instances[i.key]? = some id then { w with instances := w.instances.erase i.key } else w

/-- The graph in which the process of an instance that goes has one user less. -/
def giveBack (g : Graph) (p : Option ProcessId) : Graph :=
  match p with
  | some p => g.releaseProcess p
  | none => g

theorem releaseWithin_none {k : Nat} {g : Graph} {id : InstanceId} (h : g.instances[id]? = none) : releaseWithin (k + 1) g id = g := by
  rw [releaseWithin, h]

theorem releaseWithin_used {k : Nat} {g : Graph} {id : InstanceId} {i : Instance} (h : g.instances[id]? = some i) (hu : 1 < i.uses) :
    releaseWithin (k + 1) g id = { g with instances := g.instances.insert id { i with uses := i.uses - 1 } } := by
  rw [releaseWithin, h]
  exact if_pos hu

/-- The last user of an instance leaves. -/
theorem releaseWithin_last {k : Nat} {g : Graph} {id : InstanceId} {i : Instance} (h : g.instances[id]? = some i) (hu : ¬ 1 < i.uses) :
    releaseWithin (k + 1) g id = ((usedBy i).foldl (releaseWithin k) ((g.dismantle id i).giveBack i.process)).check .teardownSymmetric
      (!((usedBy i).foldl (releaseWithin k) ((g.dismantle id i).giveBack i.process)).remembers i.owner i.key id)
      "release_substitution_node" := by
  rw [releaseWithin, h]
  exact (if_neg hu).trans (by rcases i.process <;> simp only [dismantle, giveBack])

theorem derived_instances {P : Wiring → Wiring → Prop} (g : Graph) (t : IdMap Instance) : g.Derived P { g with instances := t } :=
  .of_nodes_eq ⟨_, _, _, _, _, rfl⟩ (Nat.le_refl _)

theorem derived_dismantle (g : Graph) (id : InstanceId) (i : Instance) : g.Derived Wiring.Forgets (g.dismantle id i) := by
  have hf := Wiring.chains_forgets
  rw [dismantle]
  refine .trans hf (.trans hf (derived_instances g _)
    (.foldl hf (fun g port => (derives_markUnused g i.owner i.substitution port).forgets) _ _))
    (.of_modifyWiring _ i.owner fun w k id' h => ?_)
  split at h
  · rw [Table.get_erase] at h
    split at h
    · cases h
    · exact h
  · exact h

theorem derives_giveBack (g : Graph) (p : Option ProcessId) : g.Derives (g.giveBack p) := by
  rcases p with _ | p
  · exact .refl g
  · exact derives_releaseProcess g p

theorem derived_releaseWithin : ∀ (k : Nat) (g : Graph) (id : InstanceId), g.Derived Wiring.Forgets (releaseWithin k g id)
  | 0, g, _ => .refl _ g
  | k + 1, g, id => by
    have hf := Wiring.chains_forgets
    rcases hi : g.instances[id]? with _ | i
    · rw [releaseWithin_none hi]
      exact .refl _ g
    · by_cases hu : 1 < i.uses
      · rw [releaseWithin_used hi hu]
        exact derived_instances g _
      · have hb := releaseWithin_last (k := k) hi hu
        rw [hb]
        exact (((derived_dismantle g id i).trans hf (derives_giveBack _ _).forgets).trans hf
          (.foldl hf (derived_releaseWithin k) _ _)).trans hf (derives_check ..).forgets

theorem derived_releaseInstance (g : Graph) (id : InstanceId) : g.Derived Wiring.Forgets (g.releaseInstance id) :=
  derived_releaseWithin ..

theorem derived_discardInstance (g : Graph) (id : InstanceId) : g.Derived Wiring.Forgets (g.discardInstance id) := by
  rw [discardInstance]
  split
  · exact .refl _ g
  · exact .trans Wiring.chains_forgets (derived_instances g _) (.foldl Wiring.chains_forgets derived_releaseInstance _ _)

theorem derived_resetWiring (g : Graph) (n : NodeId) : g.Derived Wiring.Forgets (g.resetWiring n) := by
  rw [resetWiring]
  split
  · exact .refl _ g
  · have hf := Wiring.chains_forgets
    refine .trans hf (.trans hf (.trans hf (.of_modifyWiring g n fun w k id h => ?_)
      (.foldl hf (fun g id => (derives_destroyProcess g id).forgets) _ _))
      (.foldl hf derived_discardInstance _ _)) (.foldl hf (fun g port => (derives_clearPort g n port).forgets) _ _)
    rw [Std.ExtTreeMap.getElem?_empty] at h
    cases h

/-! ## Building -/

theorem derives_mergeLeaf (n : NodeId) (s : Substitution) (g : Graph) (l : Leaf) : g.Derives (mergeLeaf n s g l) := by
  rw [mergeLeaf]
  split
  · exact derives_mergeFeed g n .input s l.name (.channel _)
  · exact derives_mergeFeed g n .input s l.name (.slot _)
  · exact .refl g

/-- A relation that building goes along, apart from what it acquires: merging at the ports, acquiring the process, and marking. -/
structure Builds (Q : Graph → Graph → Prop) : Prop where
  refl : ∀ g, Q g g
  trans : ∀ g g' g'', Q g g' → Q g' g'' → Q g g''
  channels : ∀ (g : Graph) n port s l, Q g (g.mergeChannels n port s l)
  leaf : ∀ (g : Graph) n s r l, g.leaf? r = some l → Q g (mergeLeaf n s g l)
  process : ∀ (g : Graph) n s, Q g (g.acquireProcess n s).1
  slots : ∀ (g : Graph) n s (p : Process) id, Q g (g.mergeSlots n .extended s (p.slots id))
  used : ∀ (g : Graph) n s, Q g (g.markUsed n s)

/-- What every change of channels and processes keeps. -/
theorem Builds.of_derives {Q : Graph → Graph → Prop} (hrefl : ∀ g, Q g g) (htrans : ∀ g g' g'', Q g g' → Q g' g'' → Q g g'')
    (hkeep : ∀ g g', g.Derives g' → Q g g') : Builds Q where
  refl := hrefl
  trans := htrans
  channels _ _ _ _ _ := hkeep _ _ (derives_mergeChannels ..)
  leaf _ _ _ _ _ _ := hkeep _ _ (derives_mergeLeaf ..)
  process _ _ _ := hkeep _ _ (derives_acquireProcess ..)
  slots _ _ _ _ _ := hkeep _ _ (derives_mergeSlots ..)
  used _ _ _ := hkeep _ _ (derives_markUsed ..)

section Build

variable {Q : Graph → Graph → Prop} (hb : Builds Q) {acquire : Acquire} (hacq : ∀ g n s, Q g (acquire g n s).1)

include hb

theorem rel_mergeExtended (g : Graph) (n : NodeId) (s : Substitution) (p : Option ProcessId) : Q g (g.mergeExtended n s p) := by
  have hslots : ∀ g : Graph, Q g (g.mergeSlots n .extended s []) := fun g => hb.refl g
  unfold mergeExtended
  refine hb.trans _ _ _ (hb.channels g n .extended s (((g.wiring? n).map (·.input.resolve s)).getD [])) ?_
  rcases p with _ | id
  · exact hslots _
  · rcases hp : g.processes[id]? with _ | p <;> simp only [hp]
    · exact hslots _
    · exact hb.slots _ n s p id

include hacq

theorem rel_mergeOutputs (n : NodeId) (s : Substitution) (g : Graph) (r : NodeId) : Q g (mergeOutputs acquire n s g r).1 := by
  have h := hacq g r s
  rw [mergeOutputs]
  split
  · rename_i heq
    rw [heq] at h
    exact h
  · rename_i heq
    rw [heq] at h
    exact hb.trans _ _ _ h (hb.channels ..)

theorem rel_mergeInputs (n : NodeId) (s : Substitution) (g : Graph) (d : DataNode) : Q g (mergeInputs acquire n s g d).1 := by
  rw [mergeInputs]
  split
  · exact rel_mergeOutputs hb hacq ..
  · refine List.foldlRecOn (motive := fun e : Graph × List InstanceId => Q g e.1) d.children _ (hb.refl g) fun e h r _ => hb.trans _ _ _ h ?_
    dsimp only
    rcases hl : e.1.leaf? r with _ | l
    · exact rel_mergeOutputs hb hacq ..
    · exact hb.leaf _ n s r _ hl

theorem rel_acquireTemplate (g : Graph) (d : DataNode) (s : Substitution) : Q g (acquireTemplate acquire g d s).1 := by
  rw [acquireTemplate]
  split
  · exact hb.refl g
  · rename_i p _
    have h := hacq g p s
    split <;> (rename_i heq; rw [heq] at h; exact h)

/-- What acquiring and the steps of building keep, building keeps. -/
theorem rel_build (g : Graph) (n : NodeId) (d : DataNode) (s : Substitution) (key : String) : Q g (build acquire g n d s key).1 := by
  rw [build]
  dsimp only
  exact hb.trans _ _ _ (hb.trans _ _ _ (hb.trans _ _ _ (rel_mergeInputs hb hacq n s g d)
    (hb.trans _ _ _ (hb.process ..) (rel_mergeExtended hb ..))) (rel_acquireTemplate hb hacq ..))
    (hb.trans _ _ _ (hb.channels ..) (hb.used ..))

end Build

/-! ## Synchronizing and acquiring -/

theorem derived_rewire (g : Graph) (n : NodeId) (d : DataNode) : g.Derived (fun _ _ => True) (g.rewire n d) := by
  rw [rewire]
  refine (Derived.trans Wiring.chains_true ?_ (.of_modifyWiring _ n fun _ => trivial)).trans Wiring.chains_true
    ((derives_check _ _ _ _).derived.mono fun _ _ _ => trivial)
  split
  · exact (derives_notice g _).derived.mono fun _ _ _ => trivial
  · exact .refl _ g

theorem derived_syncWithin : ∀ (k : Nat) (g : Graph) (n : NodeId), g.Derived (fun _ _ => True) (syncWithin k g n)
  | 0, g, _ => .refl _ g
  | k + 1, g, n => by
    rw [syncWithin]
    split
    · exact .refl _ g
    · split
      · exact (Derived.foldl Wiring.chains_true (derived_syncWithin k) _ g).trans Wiring.chains_true (derived_rewire _ n _)
      · exact .refl _ g

theorem derived_synchronize (g : Graph) (n : NodeId) : g.Derived (fun _ _ => True) (g.synchronize n) := derived_syncWithin _ g n

theorem derived_remember (g : Graph) (id : InstanceId) (i : Instance) : g.Derived (fun _ _ => True) (g.remember id i) :=
  (derived_instances _ _).trans Wiring.chains_true (.of_modifyWiring _ _ fun _ => trivial)

theorem builds_derived : Builds (Derived fun _ _ => True) :=
  .of_derives (fun g => .refl _ g) (fun _ _ _ h h' => h.trans Wiring.chains_true h') fun _ _ h => h.derived.mono fun _ _ _ => trivial

theorem derived_acquireWithin : ∀ (k : Nat) (g : Graph) (n : NodeId) (s : Substitution), g.Derived (fun _ _ => True) (acquireWithin k g n s).1
  | 0, g, _, _ => .refl _ g
  | k + 1, g, n, s => by
    have hsync := derived_synchronize g n
    rw [acquireWithin]
    dsimp only
    split
    · exact hsync
    · split
      · exact hsync.trans Wiring.chains_true ((derived_instances _ _).trans Wiring.chains_true
          ((derives_check _ _ _ _).derived.mono fun _ _ _ => trivial))
      · have hbuild : ∀ (g : Graph) d s key, g.Derived (fun _ _ => True) (build (acquireWithin k) g n d s key).1 := fun g =>
          rel_build builds_derived (derived_acquireWithin k) g n
        exact hsync.trans Wiring.chains_true (((derives_drawId _).derived.mono fun _ _ _ => trivial).trans Wiring.chains_true
          ((hbuild _ _ _ _).trans Wiring.chains_true (derived_remember _ _ _)))

end Graph

end Dataflow
