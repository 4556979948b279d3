import Dataflow.Proofs.Calls

/-!
# Steps that bring no slots

Only merging puts slots into channels. Everything else that a call does takes channels away or leaves their slots alone, keeps the keys of
leaves, and notes no violation of an invariant that it does not check. Whatever is noted, the first violation stands.
-/

namespace Dataflow

/-- Whether an invariant is checked only where slots are put into a channel or a result is published. -/
def Invariant.late : Invariant → Bool
  | .sequenceOrdered | .resultResolved => true
  | _ => false

theorem Invariant.ne_of_late {i k : Invariant} (hi : i.late = true) (hk : k.late = false) : k ≠ i := by
  rintro rfl
  exact Bool.noConfusion (hi.symm.trans hk)

namespace Journal

variable {i k : Invariant} {j j' j'' : Journal}

/-- A later journal: the violation that was noted stands, and none of `i` was noted since. -/
structure Passes (i : Invariant) (j j' : Journal) : Prop where
  kept : ∀ v, j.violation = some v → j'.violation = some v
  unseen : ∀ v, j'.violation = some v → v.invariant = i → j.violation = some v

theorem Passes.of_violation_eq (h : j'.violation = j.violation) : j.Passes i j' :=
  ⟨fun _ hv => h.trans hv, fun _ hv _ => h.symm.trans hv⟩

theorem Passes.refl (i : Invariant) (j : Journal) : j.Passes i j := .of_violation_eq rfl

theorem Passes.trans (h : j.Passes i j') (h' : j'.Passes i j'') : j.Passes i j'' :=
  ⟨fun v hv => h'.kept v (h.kept v hv), fun v hv hi => h.unseen v (h'.unseen v hv hi) hi⟩

theorem passes_event (i : Invariant) (j : Journal) (e : Event) : j.Passes i (j.event e) := by
  rw [event]
  split <;> exact .of_violation_eq rfl

theorem passes_notice (i : Invariant) (j : Journal) (n : Notice) : j.Passes i (j.notice n) := by
  rw [notice]
  split <;> exact .of_violation_eq rfl

theorem passes_invoke (i : Invariant) (j : Journal) (is : List Invocation) : j.Passes i (j.invoke is) := by
  rw [invoke]
  split <;> exact .of_violation_eq rfl

/-- Another invariant is checked, or one that holds. -/
theorem passes_check (j : Journal) {b : Bool} (h : k ≠ i ∨ b = true) (t : String) : j.Passes i (j.check k b t) := by
  rw [check]
  split
  · exact .refl i j
  · rename_i hv
    rw [Bool.not_eq_true, Option.isSome_eq_false_iff, Option.isNone_iff_eq_none] at hv
    split
    · exact .of_violation_eq rfl
    · rename_i hb
      refine ⟨fun v h' => ?_, fun v h' hi => ?_⟩
      · rw [hv] at h'
        cases h'
      · cases h'
        exact absurd hi (h.resolve_right hb)

end Journal

namespace Store

variable {s s' s'' : Store}

/-- A store without some channels, the others with their slots. -/
structure Trims (s s' : Store) : Prop where
  tolerance : s'.tolerance = s.tolerance
  wires : ∀ c w, s'.wire? c = some w → s.wire? c = some w

theorem Trims.refl (s : Store) : s.Trims s := ⟨rfl, fun _ _ h => h⟩

theorem Trims.trans (h : s.Trims s') (h' : s'.Trims s'') : s.Trims s'' :=
  ⟨h'.tolerance.trans h.tolerance, fun c w hw => h.wires c w (h'.wires c w hw)⟩

theorem Trims.foldl {α : Type} {f : Store → α → Store} (hf : ∀ (s : Store) a, s.Trims (f s a)) :
    ∀ (l : List α) (s : Store), s.Trims (l.foldl f s)
  | [], s => .refl s
  | a :: l, s => (hf s a).trans (foldl hf l (f s a))

theorem Trims.of_channels_eq (ht : s'.tolerance = s.tolerance) (hc : s'.channels = s.channels) : s.Trims s' :=
  ⟨ht, fun c w hw => by rwa [wire?, channel?, hc] at hw⟩

theorem trims_release (s : Store) (c : ChannelId) (m : MapId) : s.Trims (s.release c m) := by
  refine ⟨(later_release s c m).tolerance, fun c' w hw => ?_⟩
  rw [wire?_release] at hw
  split at hw
  · cases hw
  · exact hw

theorem trims_listen (s : Store) (c : ChannelId) (l : Listener) : s.Trims (s.listen c l) :=
  ⟨rfl, fun _ _ hw => (wire?_listen ..).symm.trans hw⟩

theorem trims_unlisten (s : Store) (c : ChannelId) (l : Listener) : s.Trims (s.unlisten c l) :=
  ⟨rfl, fun _ _ hw => (wire?_unlisten ..).symm.trans hw⟩

theorem trims_freeEntry (s : Store) (e : EntryId) : s.Trims (s.freeEntry e) := .of_channels_eq rfl rfl

theorem trims_pushEntry (s : Store) (e : Entry) : s.Trims (s.pushEntry e) := .of_channels_eq rfl rfl

theorem trims_modifyEntry (s : Store) (e : EntryId) (f : Entry → Entry) : s.Trims (s.modifyEntry e f) := .of_channels_eq rfl rfl

end Store

namespace Graph

variable {i : Invariant} {g g' g'' : Graph}

/-- A step that brings no slots and no keys, and notes no violation of `i`. -/
structure Trims (i : Invariant) (g g' : Graph) : Prop where
  journal : g.journal.Passes i g'.journal
  store : g.store.Trims g'.store
  leaves : ∀ n l, g'.leaf? n = some l → ∃ l', g.leaf? n = some l' ∧ l.key = l'.key

namespace Trims

theorem refl (i : Invariant) (g : Graph) : Trims i g g := ⟨.refl i _, .refl _, fun _ l hl => ⟨l, hl, rfl⟩⟩

theorem trans (h : Trims i g g') (h' : Trims i g' g'') : Trims i g g'' := by
  refine ⟨h.journal.trans h'.journal, h.store.trans h'.store, fun n l hl => ?_⟩
  obtain ⟨l', hl', he'⟩ := h'.leaves n l hl
  obtain ⟨l'', hl'', he''⟩ := h.leaves n l' hl'
  exact ⟨l'', hl'', he'.trans he''⟩

theorem foldl {α : Type} {f : Graph → α → Graph} (hf : ∀ (g : Graph) a, Trims i g (f g a)) :
    ∀ (l : List α) (g : Graph), Trims i g (l.foldl f g)
  | [], g => refl i g
  | a :: l, g => (hf g a).trans (foldl hf l (f g a))

/-- The nodes do not change. -/
theorem of_nodes_eq (hn : g'.nodes = g.nodes) (hj : g.journal.Passes i g'.journal) (hs : g.store.Trims g'.store) : Trims i g g' := by
  refine ⟨hj, hs, fun n l hl => ⟨l, ?_, rfl⟩⟩
  rw [leaf?, node?, hn] at hl
  exact hl

/-- Nodes, store and journal do not change. -/
theorem aside (hn : g'.nodes = g.nodes) (hs : g'.store = g.store) (hj : g'.journal = g.journal) : Trims i g g' :=
  of_nodes_eq hn (hj ▸ .refl i _) (hs ▸ .refl _)

/-- A step after one that changes neither nodes nor journal. -/
theorem of_store (h : Trims i g' g'') (hn : g'.nodes = g.nodes) (hj : g'.journal = g.journal) (hs : g.store.Trims g'.store) : Trims i g g'' :=
  (of_nodes_eq hn (hj ▸ .refl i _) hs).trans h

end Trims

theorem trims_journal {j : Journal} (h : g.journal.Passes i j) : Trims i g { g with journal := j } := .of_nodes_eq rfl h (.refl _)

theorem trims_store {s : Store} (h : g.store.Trims s) : Trims i g { g with store := s } := .of_nodes_eq rfl (.refl i _) h

theorem trims_check (g : Graph) {k : Invariant} {b : Bool} (h : k ≠ i ∨ b = true) (t : String) : Trims i g (g.check k b t) :=
  trims_journal (Journal.passes_check _ h t)

theorem trims_notice (g : Graph) (n : Notice) : Trims i g (g.notice n) := trims_journal (Journal.passes_notice i _ n)

/-! ## Nodes -/

theorem trims_modifyData (g : Graph) (n : NodeId) (f : DataNode → DataNode) : Trims i g (g.modifyData n f) :=
  ⟨.refl i _, .refl _, fun m l hl => ⟨l, (leaf?_modifyData g n m f).symm.trans hl, rfl⟩⟩

theorem trims_modifyWiring (g : Graph) (n : NodeId) (f : Wiring → Wiring) : Trims i g (g.modifyWiring n f) := trims_modifyData ..

theorem trims_modifyParents (g : Graph) (n : NodeId) (f : List NodeId → List NodeId) : Trims i g (g.modifyParents n f) :=
  ⟨.refl i _, .refl _, fun m l hl => ⟨l, (leaf?_modifyParents g n m f).symm.trans hl, rfl⟩⟩

/-- An edit of a leaf that keeps its key. -/
theorem trims_modifyLeaf (g : Graph) (n : NodeId) {f : Leaf → Leaf} (hf : ∀ l, (f l).key = l.key) : Trims i g (g.modifyLeaf n f) := by
  refine ⟨.refl i _, .refl _, fun m l hl => ?_⟩
  rw [leaf?_modifyLeaf] at hl
  split at hl
  · obtain ⟨l', hl', rfl⟩ := Option.map_eq_some_iff.1 hl
    exact ⟨l', hl', hf l'⟩
  · exact ⟨l, hl, rfl⟩

/-! ## Taking down -/

theorem trims_markUnused (g : Graph) (n : NodeId) (s : Substitution) (port : Port) : Trims i g (g.markUnused n s port) := by
  rw [markUnused]
  split
  · exact .refl i g
  · exact (trims_store (.foldl (fun s c => s.trims_release c _) _ _)).trans (trims_modifyWiring ..)

theorem trims_clearPort (g : Graph) (n : NodeId) (port : Port) : Trims i g (g.clearPort n port) := by
  rw [clearPort]
  split
  · exact .refl i g
  · exact (trims_store (.foldl (fun s c => s.trims_release c _) _ _)).trans (trims_modifyWiring ..)

theorem trims_destroyProcess (g : Graph) (id : ProcessId) : Trims i g (g.destroyProcess id) := by
  rw [destroyProcess]
  split
  · exact .refl i g
  · rename_i p _
    refine (trims_modifyWiring _ p.owner _).of_store rfl rfl (Store.Trims.trans (.foldl (fun s c => ?_) p.inputs _)
      (.foldl (fun s (e : String × EntryId) => s.trims_freeEntry e.2) p.outputs _))
    split
    · exact s.trims_unlisten ..
    · exact .refl s

theorem trims_releaseProcess (g : Graph) (id : ProcessId) : Trims i g (g.releaseProcess id) := by
  rw [releaseProcess]
  split
  · exact .refl i g
  · split
    · exact trims_destroyProcess g id
    · exact .aside rfl rfl rfl

theorem trims_giveBack (g : Graph) (p : Option ProcessId) : Trims i g (g.giveBack p) := by
  rcases p with _ | p
  · exact .refl i g
  · exact trims_releaseProcess g p

theorem trims_dismantle (g : Graph) (id : InstanceId) (x : Instance) : Trims i g (g.dismantle id x) := by
  have herase : Trims i g { g with instances := g.instances.erase id } := .aside rfl rfl rfl
  rw [dismantle]
  exact (herase.trans (.foldl (fun g port => trims_markUnused g x.owner x.substitution port) _ _)).trans (trims_modifyWiring _ x.owner _)

section Late

variable (hi : i.late = true)

include hi

theorem trims_releaseWithin : ∀ (k : Nat) (g : Graph) (id : InstanceId), Trims i g (releaseWithin k g id)
  | 0, g, _ => .refl i g
  | k + 1, g, id => by
    rcases hx : g.instances[id]? with _ | x
    · rw [releaseWithin_none hx]
      exact .refl i g
    · by_cases hu : 1 < x.uses
      · rw [releaseWithin_used hx hu]
        exact .aside rfl rfl rfl
      · rw [releaseWithin_last (k := k) hx hu]
        exact (((trims_dismantle g id x).trans (trims_giveBack _ _)).trans (.foldl (trims_releaseWithin k) _ _)).trans
          (trims_check _ (.inl (Invariant.ne_of_late hi rfl)) _)

theorem trims_releaseInstance (g : Graph) (id : InstanceId) : Trims i g (g.releaseInstance id) := trims_releaseWithin hi ..

theorem trims_discardInstance (g : Graph) (id : InstanceId) : Trims i g (g.discardInstance id) := by
  rw [discardInstance]
  split
  · exact .refl i g
  · have herase : Trims i g { g with instances := g.instances.erase id } := .aside rfl rfl rfl
    exact herase.trans (.foldl (trims_releaseInstance hi) _ _)

theorem trims_resetWiring (g : Graph) (n : NodeId) : Trims i g (g.resetWiring n) := by
  rw [resetWiring]
  split
  · exact .refl i g
  · exact (((trims_modifyWiring ..).trans (.foldl trims_destroyProcess _ _)).trans (.foldl (trims_discardInstance hi) _ _)).trans
      (.foldl (fun g port => trims_clearPort g n port) _ _)

/-! ## Telling -/

omit hi in
theorem trims_unsubscribe (g : Graph) (id : OutletId) : Trims i g (g.unsubscribe id) := by
  rw [unsubscribe]
  split
  · exact .refl i g
  · exact .of_nodes_eq rfl (.refl i _) (.foldl (fun s c => s.trims_unlisten c _) _ _)

omit hi in
theorem trims_staleStructure (g : Graph) (n : NodeId) : Trims i g (g.staleStructure n) := by
  rw [staleStructure]
  refine .foldl (fun g id => ?_) _ g
  exact (trims_unsubscribe g id).trans (.aside rfl rfl rfl)

omit hi in
theorem trims_fire (g : Graph) (rs : List RequestId) (c : Change) : Trims i g (g.fire rs c) := by
  rw [fire]
  refine .foldl (fun g r => ?_) _ g
  split
  · exact trims_journal (Journal.passes_event i _ _)
  · exact .refl i g

theorem trims_structureChanged (g : Graph) (n : NodeId) : Trims i g (g.structureChanged n) :=
  Trims.trans (.foldl (fun g m => (trims_resetWiring hi g m).trans (trims_staleStructure _ m)) _ g) (trims_fire ..)

theorem trims_dataChanged (g : Graph) (e : EntryId) : Trims i g (g.dataChanged e) := by
  have hstale : ∀ (g : Graph) (ids : List OutletId), Trims i g (g.staleData ids) := fun g ids => by
    rw [staleData]
    refine .foldl (fun _ _ => ?_) ids g
    exact .aside rfl rfl rfl
  have hunprocess : ∀ (g : Graph) (ps : List ProcessId), Trims i g (g.unprocess ps) := fun _ _ => .aside rfl rfl rfl
  exact (((hunprocess ..).trans (hstale ..)).trans (trims_check _ (.inl (Invariant.ne_of_late hi rfl)) _)).trans (trims_fire ..)

/-! ## Synchronizing -/

theorem trims_synchronize (g : Graph) (n : NodeId) : Trims i g (g.synchronize n) := by
  have hrewire : ∀ (g : Graph) n d, Trims i g (g.rewire n d) := fun g n d => by
    rw [rewire]
    refine (Trims.trans ?_ (trims_modifyWiring ..)).trans (trims_check _ (.inl (Invariant.ne_of_late hi rfl)) _)
    split
    · exact trims_notice ..
    · exact .refl i g
  have key : ∀ (k : Nat) (g : Graph) n, Trims i g (syncWithin k g n) := by
    intro k
    induction k with
    | zero => exact fun g _ => .refl i g
    | succ k ih =>
      intro g n
      rw [syncWithin]
      split
      · exact .refl i g
      · split
        · exact (Trims.foldl ih _ g).trans (hrewire ..)
        · exact .refl i g
  exact key _ g n

/-! ## Running -/

omit hi in
theorem trims_runKernel (g : Graph) (p : Process) (views : List View) (it : Iteration) : Trims i g (g.runKernel p views it).1 := by
  have hwrite : ∀ (g : Graph) (xs : List Payload), Trims i g (g.writeOutputs p xs) := fun g xs =>
    trims_store (.foldl (fun s (e : (String × EntryId) × Payload) => s.trims_modifyEntry e.1.2 _) _ _)
  have hplan : Trims i g (g.planFor p.operator it.advancing).1 := by
    obtain ⟨_, he⟩ := planFor_rest g p.operator it.advancing
    rw [he]
    exact .aside rfl rfl rfl
  rw [runKernel]
  dsimp only
  split
  · exact (hplan.trans (hwrite ..)).trans (trims_journal (Journal.passes_invoke i _ _))
  · split
    · exact (hwrite ..).trans (trims_journal (Journal.passes_invoke i _ _))
    · exact trims_journal (Journal.passes_invoke i _ _)

theorem trims_applyOperator (g : Graph) (p : Process) : Trims i g (g.applyOperator p).1 := by
  have hresize : ∀ (g : Graph) alloc n, Trims i g (g.resizeOutputs p alloc n) := fun g _ _ =>
    trims_store (.foldl (fun s (e : (String × EntryId) × Nat) => s.trims_modifyEntry e.1.2 _) _ _)
  have hnotice : ∀ (b : Bool) (x : Notice), Trims i g (if b = true then g.notice x else g) := fun b x => by
    split
    · exact trims_notice ..
    · exact .refl i g
  exact ((((hnotice _ _).trans (trims_check _ (.inl (Invariant.ne_of_late hi rfl)) _)).trans
    (trims_check _ (.inl (Invariant.ne_of_late hi rfl)) _)).trans (hresize ..)).trans
    (trims_runKernel ..)

theorem trims_runAll (g : Graph) (roots : List ProcessId) : Trims i g (g.runAll roots) := by
  have hstate : ∀ (g : Graph) (id : ProcessId) s, Trims i g (g.setState id s) := fun _ _ _ => .aside rfl rfl rfl
  rw [runAll]
  split
  · refine .foldl (fun g id => ?_) _ g
    rw [runProcess]
    split
    · exact .refl i g
    · rename_i p _
      split
      · exact .refl i g
      · split
        · exact (trims_notice ..).trans (hstate ..)
        · have happly := trims_applyOperator hi g p
          split <;> (rename_i heq; rw [heq] at happly)
          · exact happly.trans (hstate ..)
          · exact (happly.trans (trims_notice ..)).trans (hstate ..)
  · exact .refl i g

/-! ## Editing -/

omit hi in
theorem trims_link (g : Graph) (p c : NodeId) : Trims i g (g.link p c) := trims_modifyParents ..

omit hi in
theorem trims_unlink (g : Graph) (p c : NodeId) : Trims i g (g.unlink p c) := trims_modifyParents ..

theorem trims_accepted (g : Graph) (p c : NodeId) : Trims i g (g.accepted p c) := trims_check _ (.inl (Invariant.ne_of_late hi rfl)) _

theorem trims_addChild (g : Graph) (p c : NodeId) : Trims i g (g.appendChild p c).1 := by
  rw [appendChild]
  split
  · exact .refl i g
  · exact (((trims_accepted hi ..).trans (trims_modifyData ..)).trans (trims_link ..)).trans (trims_structureChanged hi ..)

theorem trims_insertBefore (g : Graph) (p c b : NodeId) : Trims i g (g.insertBefore p c b).1 := by
  rw [insertBefore]
  split
  · exact .refl i g
  · dsimp only
    split
    · exact trims_accepted hi ..
    · exact (((trims_accepted hi ..).trans (trims_modifyData ..)).trans (trims_link ..)).trans (trims_structureChanged hi ..)

theorem trims_removeChild (g : Graph) (p c : NodeId) : Trims i g (g.removeChild p c).1 := by
  rw [removeChild]
  split
  · exact .refl i g
  · split
    · exact ((trims_modifyData ..).trans (trims_unlink ..)).trans (trims_structureChanged hi ..)
    · exact .refl i g

theorem trims_clearChildren (g : Graph) (p : NodeId) : Trims i g (g.clearChildren p).1 := by
  rw [clearChildren]
  split
  · exact .refl i g
  · exact ((trims_modifyData ..).trans (.foldl (fun g c => trims_unlink g p c) _ _)).trans (trims_structureChanged hi ..)

theorem trims_detach (g : Graph) (n : NodeId) : Trims i g (g.detachFromParents n).1 := by
  rw [detachFromParents]
  split
  · exact .refl i g
  · refine .foldl (fun g p => ?_) _ g
    exact ((trims_modifyData ..).trans (trims_modifyParents ..)).trans (trims_structureChanged hi ..)

theorem trims_relink (g : Graph) (n : NodeId) (old new : Option NodeId) : Trims i g (g.relink n old new) := by
  rcases old with _ | old <;> rcases new with _ | new
  · exact trims_structureChanged hi ..
  · exact (trims_link ..).trans (trims_structureChanged hi ..)
  · exact (trims_unlink ..).trans (trims_structureChanged hi ..)
  · exact ((trims_unlink ..).trans (trims_link ..)).trans (trims_structureChanged hi ..)

theorem trims_refer (g : Graph) (n : NodeId) (f : DataNode → DataNode) (old new : Option NodeId) :
    Trims i g ((g.modifyData n f).relink n old new) := (trims_modifyData g n f).trans (trims_relink hi _ n old new)

theorem trims_referTo (g : Graph) (n r : NodeId) (f : DataNode → DataNode) (old : Option NodeId) :
    Trims i g (((g.modifyData n f).accepted n r).relink n old (some r)) :=
  ((trims_modifyData g n f).trans (trims_accepted hi _ n r)).trans (trims_relink hi _ n old (some r))

theorem trims_setSource (g : Graph) (n : NodeId) (source : Option NodeId) : Trims i g (g.setSource n source).1 := by
  rw [setSource]
  split
  · exact .refl i g
  · rename_i d _
    rcases source with _ | r <;> dsimp only
    · exact trims_refer hi g n _ d.source none
    · split
      · exact .refl i g
      · split
        · exact .refl i g
        · exact trims_referTo hi g n r _ d.source

theorem trims_setProto (g : Graph) (n : NodeId) (proto : Option NodeId) : Trims i g (g.setProto n proto).1 := by
  rw [setProto]
  split
  · exact .refl i g
  · rename_i d _
    rcases proto with _ | r <;> dsimp only
    · exact trims_refer hi g n _ d.proto none
    · split
      · exact .refl i g
      · exact trims_referTo hi g n r _ d.proto

theorem trims_updateData (g : Graph) (n : NodeId) (f : DataNode → DataNode) : Trims i g (g.updateData n f).1 := by
  rw [updateData]
  split
  · exact .refl i g
  · exact (trims_modifyData ..).trans (trims_structureChanged hi ..)

theorem trims_setFilter (g : Graph) (n : NodeId) (text : String) : Trims i g (g.setFilter n text).1 := by
  rw [setFilter]
  split
  · exact trims_updateData hi ..
  · exact (trims_notice ..).trans (trims_updateData hi ..)

theorem trims_setCompute (g : Graph) (n : NodeId) (text : String) : Trims i g (g.setCompute n text).1 := by
  rw [setCompute]
  split
  · exact trims_updateData hi ..
  · exact (trims_notice ..).trans (trims_updateData hi ..)

theorem trims_updateLeaf (g : Graph) (n : NodeId) {f : Leaf → Leaf} (hf : ∀ l, (f l).key = l.key) : Trims i g (g.updateLeaf n f).1 := by
  rw [updateLeaf]
  split
  · exact .refl i g
  · exact (trims_modifyLeaf g n hf).trans (trims_structureChanged hi ..)

theorem trims_removeNode (g : Graph) (n : NodeId) : Trims i g (g.removeNode n).1 := by
  have hdrop : ∀ g : Graph, Trims i g (g.dropOutlets n) := fun g => (trims_staleStructure g n).trans (.aside rfl rfl rfl)
  have herase : ∀ g : Graph, Trims i g { g with nodes := g.nodes.erase n } := fun g => by
    refine ⟨.refl i _, .refl _, fun m l hl => ⟨l, ?_, rfl⟩⟩
    rw [leaf?, node?, Arena.get?_erase] at hl
    split at hl
    · cases hl
    · exact hl
  rw [removeNode_eq]
  split
  · exact ((((trims_detach hi g n).trans (.foldl (fun g c => trims_unlink g n c) _ _)).trans (trims_resetWiring hi ..)).trans
      (hdrop _)).trans (herase _)
  · exact .refl i g

omit hi in
theorem trims_createData (g : Graph) (isProto : Bool) : Trims i g (g.createData isProto) := by
  refine ⟨.refl i _, .of_channels_eq rfl rfl, fun m l hl => ⟨l, ?_, rfl⟩⟩
  rw [leaf?, node?, createData, Arena.get?_push] at hl
  split at hl
  · cases hl
  · exact hl

omit hi in
theorem trims_createEntry (g : Graph) (e : Entry) : Trims i g (g.createEntry e).1 := trims_store (g.store.trims_pushEntry e)

theorem trims_updateEntry (g : Graph) (e : EntryId) (f : Entry → Except Error Entry) : Trims i g (g.updateEntry e f).1 := by
  rw [updateEntry]
  split
  · exact .refl i g
  · split
    · exact .refl i g
    · exact (trims_store (Store.trims_modifyEntry ..)).trans (trims_dataChanged hi ..)

/-! ## Requests -/

omit hi in
theorem trims_outletFor (g : Graph) (n : NodeId) (names : List String) : Trims i g (g.outletFor n names).1 := by
  rcases outletFor_cases g n names with ⟨e, h⟩ | ⟨d, -, ⟨id, -, h⟩ | ⟨-, h⟩⟩ <;> rw [h]
  · exact .refl i g
  · exact .refl i g
  · have hout : Trims i g { g with lastId := g.lastId + 1, outlets := g.outlets.insert (g.lastId + 1) { owner := n, filter := sortNames names } } :=
      .aside rfl rfl rfl
    exact hout.trans (trims_modifyData ..)

omit hi in
theorem trims_createRequest (g : Graph) (n : NodeId) (names : List String) : Trims i g (g.createRequest n names).1 := by
  have houtlet := trims_outletFor (i := i) g n names
  rw [createRequest_eq]
  generalize g.outletFor n names = r at houtlet ⊢
  obtain ⟨g₁, _ | id⟩ := r
  · exact houtlet
  · exact houtlet.trans (.aside rfl rfl rfl)

theorem trims_releaseHeld (g : Graph) (id : OutletId) : Trims i g (g.releaseHeld id) := by
  rw [releaseHeld]
  split
  · exact .refl i g
  · exact (trims_releaseInstance hi _ _).of_store rfl rfl (.refl _)

theorem trims_dropOutlet (g : Graph) (id : OutletId) (o : Outlet) : Trims i g (g.dropOutlet id o) := by
  have herase : ∀ g : Graph, Trims i g { g with outlets := g.outlets.erase id } := fun g => .aside rfl rfl rfl
  rw [dropOutlet]
  refine Trims.trans (((trims_unsubscribe g id).trans (herase _)).trans ?_) (trims_modifyData ..)
  split
  · exact trims_releaseInstance hi ..
  · exact .refl i _

theorem trims_releaseRequest (g : Graph) (r : RequestId) : Trims i g (g.releaseRequest r) := by
  rcases releaseRequest_cases g r with ⟨heq, -⟩ | ⟨q, -, h⟩
  · rw [heq]
    exact .refl i g
  · have hwithdraw : Trims i g (g.withdraw r q.outlet) := .aside rfl rfl rfl
    rcases h with ⟨heq, -⟩ | ⟨o, -, -, -, heq⟩ <;> rw [heq]
    · exact hwithdraw
    · exact hwithdraw.trans (trims_dropOutlet hi ..)

/-- Publishing notes whether what is published is there. -/
theorem trims_refresh (g : Graph) (id : OutletId) (n : NodeId) (h : i ≠ .resultResolved) : Trims i g (g.refresh id n) :=
  ((trims_runAll hi g _).trans (trims_check _ (.inl h.symm) _)).trans (.aside rfl rfl rfl)

end Late

/-! ## Calls -/

end Graph

/-- Whether a call may bring slots, or a key for a leaf. -/
def Call.brings : Call → Bool
  | .createLeaf | .setKey .. | .acquireInstance .. | .pull _ | .pullNode .. => true
  | _ => false

namespace Graph

variable {i : Invariant} {g : Graph}

/-- Every call that may not bring any brings no slots and no keys. -/
theorem trims_perform (hi : i.late = true) (g : Graph) {c : Call} (hc : c.brings = false) : Trims i g (g.perform c).1 := by
  cases c with
  | createLeaf => cases hc
  | createData isProto => exact trims_createData g isProto
  | createEntry e => exact trims_createEntry g e
  | createPayload type payload =>
    rcases createPayload_cases g type payload with ⟨e, heq⟩ | ⟨x, heq⟩ <;> simp only [Graph.perform, heq]
    · exact .refl i g
    · exact trims_createEntry g x
  | appendChild p c => exact trims_addChild hi g p c
  | insertBefore p c b => exact trims_insertBefore hi g p c b
  | removeChild p c => exact trims_removeChild hi g p c
  | clearChildren p => exact trims_clearChildren hi g p
  | detach n => exact trims_detach hi g n
  | remove n => exact trims_removeNode hi g n
  | setSource n s => exact trims_setSource hi g n s
  | setProto n p => exact trims_setProto hi g n p
  | setFilter n t => exact trims_setFilter hi g n t
  | setCompute n t => exact trims_setCompute hi g n t
  | setName n x => exact trims_updateLeaf hi g n fun _ => rfl
  | setKey n k => cases hc
  | setParam n b => exact trims_updateLeaf hi g n fun _ => rfl
  | setData n e => exact trims_updateLeaf hi g n fun _ => rfl
  | setPayload e x => exact trims_updateEntry hi g e _
  | setImage e x => exact trims_updateEntry hi g e _
  | setLoading e x => exact trims_updateEntry hi g e _
  | touch n => exact trims_structureChanged hi g n
  | synchronize n => exact trims_synchronize hi g n
  | acquireInstance n s => cases hc
  | releaseInstance id => exact trims_releaseInstance hi g id
  | process id => exact trims_runAll hi g [id]
  | createRequest n names => exact trims_createRequest g n names
  | watchRequest r tag => exact .aside rfl rfl rfl
  | pull r => cases hc
  | pullNode n names => cases hc
  | releaseRequest r => exact trims_releaseRequest hi g r

end Graph

end Dataflow
