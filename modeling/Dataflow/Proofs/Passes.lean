import Dataflow.Proofs.Trims

/-!
# What acquiring keeps

Building an instance consists of merging and of steps that bring no slots. Merging checks the order of channels, and nothing of results.
-/

namespace Dataflow

namespace Graph

variable {i : Invariant} {g g' : Graph}

/-! ## Acquiring -/

theorem trims_withProcess (g : Graph) (n : NodeId) (s : Substitution) (c : Compute) (op : Operator) : Trims i g (g.withProcess n s c op) := by
  rw [withProcess]
  refine (trims_modifyWiring _ n _).of_store rfl rfl ?_
  exact Store.Trims.trans (.foldl (fun s c => s.trims_listen c _) _ _) (.foldl (fun s _ => s.trims_pushEntry _) _ _)

theorem trims_acquireProcess (g : Graph) (n : NodeId) (s : Substitution) : Trims i g (g.acquireProcess n s).1 := by
  rcases acquireProcess_cases g n s with he | ⟨id, p, -, -, he⟩ | ⟨c, op, -, -, he⟩ <;> rw [he]
  · exact .refl i g
  · exact .aside rfl rfl rfl
  · exact trims_withProcess g n s c op

theorem trims_markUsed (g : Graph) (n : NodeId) (s : Substitution) : Trims i g (g.markUsed n s) := trims_modifyWiring ..

theorem trims_remember (g : Graph) (id : InstanceId) (x : Instance) : Trims i g (g.remember id x) :=
  (trims_modifyWiring { g with instances := g.instances.insert id x } x.owner _).of_store rfl rfl (.refl _)

section Acquire

variable {Q : Graph → Graph → Prop} (hb : Builds Q) (hi : i.late = true) (htrims : ∀ g g', Trims i g g' → Q g g')

include hb hi htrims

/-- What building keeps, and every step that brings no slots, acquiring keeps. -/
theorem rel_acquireWithin : ∀ (k : Nat) (g : Graph) (n : NodeId) (s : Substitution), Q g (acquireWithin k g n s).1
  | 0, g, _, _ => hb.refl g
  | k + 1, g, n, s => by
    have hsync := htrims _ _ (trims_synchronize hi g n)
    rw [acquireWithin]
    dsimp only
    split
    · exact hsync
    · split
      · have hcheck : ∀ (g : Graph) b t, Trims i g (g.check .memoized b t) := fun g b t => trims_check g (.inl (Invariant.ne_of_late hi rfl)) t
        exact hb.trans _ _ _ hsync (htrims _ _ ((hcheck _ _ _).of_store rfl rfl (.refl _)))
      · have hdraw : ∀ g : Graph, Q g g.drawId.1 := fun g => htrims _ _ (.aside rfl rfl rfl)
        have hbuild : ∀ (g : Graph) d s key, Q g (build (acquireWithin k) g n d s key).1 := fun g =>
          rel_build hb (rel_acquireWithin k) g n
        exact hb.trans _ _ _ hsync (hb.trans _ _ _ (hdraw _) (hb.trans _ _ _ (hbuild _ _ _ _) (htrims _ _ (trims_remember ..))))

theorem rel_acquireInstance (g : Graph) (n : NodeId) (s : Substitution) : Q g (g.acquireInstance n s).1 :=
  rel_acquireWithin hb hi htrims ..

theorem rel_rebuild (g : Graph) (id : OutletId) (o : Outlet) : Q g (g.rebuild id o) := by
  refine hb.trans _ _ _ (htrims _ _ ((trims_unsubscribe g id).trans (trims_releaseHeld hi _ id))) (hb.trans _ _ _
    (rel_acquireInstance hb hi htrims _ o.owner .empty) (htrims _ _ ?_))
  exact .of_nodes_eq rfl (.refl i _) (.foldl (fun s c => s.trims_listen c _) _ _)

end Acquire

/-! ## Merging -/

section Merge

variable (hi : i ≠ .sequenceOrdered)

include hi

theorem passes_addSlots (g : Graph) (id : ChannelId) (l : List (Slot Float32)) : g.journal.Passes i (g.addSlots id l).journal := by
  induction l generalizing g with
  | nil => exact .refl i _
  | cons x l ih =>
    refine .trans ?_ (ih (g.addSlot id x))
    rw [addSlot]
    split
    · exact .refl i _
    · exact Journal.passes_check _ (.inl hi.symm) _

theorem passes_createChannel (g : Graph) (m : MapId) (l : List (Slot Float32)) : g.journal.Passes i (g.createChannel m l).1.journal :=
  passes_addSlots hi { g with store := g.store.pushChannel m } g.store.channels.next l

theorem passes_ownChannel (g : Graph) (m : MapId) (c : ChannelId) : g.journal.Passes i (g.ownChannel m c).1.journal := by
  rw [ownChannel]
  split
  · exact .refl i _
  · exact passes_createChannel hi ..

theorem passes_mergeFeed (hid : i ≠ .mergeIdentity) (g : Graph) (n : NodeId) (port : Port) (s : Substitution) (x : String) (f : Feed) :
    g.journal.Passes i (g.mergeFeed n port s x f).journal := by
  rcases f with c | y <;> simp only [mergeFeed]
  · rw [mergeChannel]
    split
    · exact .refl i _
    · dsimp only
      split
      · exact .refl i _
      · split
        · exact .refl i _
        · split
          · exact Journal.passes_check _ (.inl hid.symm) _
          · split
            · exact (passes_ownChannel hi ..).trans (passes_addSlots hi ..)
            · exact .refl i _
  · rw [mergeSlot]
    split
    · exact .refl i _
    · rename_i w _
      dsimp only
      split
      · exact .refl i _
      · split
        · exact passes_createChannel hi g _ [y]
        · rename_i current _
          split
          · exact (passes_ownChannel hi ..).trans (passes_addSlots hi _ _ [y])
          · exact passes_createChannel hi { g with store := g.store.release current (w.map port).id } _ [y]

theorem passes_mergeFeeds (hid : i ≠ .mergeIdentity) (g : Graph) (n : NodeId) (port : Port) (s : Substitution) (fs : List (String × Feed)) :
    g.journal.Passes i (g.mergeFeeds n port s fs).journal := by
  induction fs generalizing g with
  | nil => exact .refl i _
  | cons e fs ih => exact (passes_mergeFeed hi hid ..).trans (ih _)

end Merge

/-- Building checks no more of results than that what is published is there. -/
theorem builds_passes : Builds fun g g' => g.journal.Passes .resultResolved g'.journal where
  refl _ := .refl _ _
  trans _ _ _ := .trans
  channels g n port s l := by
    rw [mergeChannels_eq]
    exact passes_mergeFeeds (by decide) (by decide) ..
  leaf g n s r l hl := by
    rw [mergeLeaf]
    split
    · exact passes_mergeFeed (by decide) (by decide) g n .input s l.name (.channel _)
    · exact passes_mergeFeed (by decide) (by decide) g n .input s l.name (.slot _)
    · exact .refl _ _
  process g n s := (trims_acquireProcess g n s).journal
  slots g n s p id := by
    rw [mergeSlots_eq]
    exact passes_mergeFeeds (by decide) (by decide) ..
  used g n s := (trims_markUsed g n s).journal

theorem passes_acquireWithin (k : Nat) (g : Graph) (n : NodeId) (s : Substitution) :
    g.journal.Passes .resultResolved (acquireWithin k g n s).1.journal :=
  rel_acquireWithin builds_passes (i := .resultResolved) rfl (fun _ _ h => h.journal) k g n s

end Graph

end Dataflow
