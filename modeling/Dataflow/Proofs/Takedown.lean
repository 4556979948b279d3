import Dataflow.Proofs.Moves

/-!
# Taking down, move by move

Releases, resets and the telling of a change of structure are runs of moves. A release ends the use in hand; a reset leaves nothing in
hand that was not there before; telling leaves no node to be told.
-/

namespace Dataflow

theorem Work.holdAll_nil (τ : Work) : τ.holdAll [] = τ := by
  rw [holdAll, Multiset.coe_nil, zero_add]

theorem Work.holdAll_cons (τ : Work) (id : InstanceId) (ids : List InstanceId) : τ.holdAll (id :: ids) = (τ.holdAll ids).hold id := by
  rw [holdAll, hold, holdAll, ← Multiset.cons_coe, Multiset.cons_add]

theorem Work.holdAll_toList (τ : Work) (id : InstanceId) : τ.holdAll (some id).toList = τ.hold id := by
  rw [Option.toList_some, holdAll_cons, holdAll_nil]

namespace Graph

variable {κ : Call} {τ : Work} {g : Graph} {n : NodeId}

/-! ## Releases -/

theorem instances_giveBack (g : Graph) (p : Option ProcessId) : (g.giveBack p).instances = g.instances := (derives_giveBack g p).instances

/-- The releases of a list, from a graph with few enough instances. -/
theorem moves_releases {k : Nat}
    (ih : ∀ (g : Graph) id (τ : Work), τ.jobs = [] → g.instances.size < k → Moves κ (τ.hold id) g τ (releaseWithin k g id)) :
    ∀ (l : List InstanceId) (g : Graph) (τ : Work), τ.jobs = [] → g.instances.size < k →
      Moves κ (τ.holdAll l) g τ (l.foldl (releaseWithin k) g)
  | [], g, τ, _, _ => by
    rw [Work.holdAll_nil]
    exact .refl τ g
  | id :: l, g, τ, hτ, hk => by
    rw [Work.holdAll_cons, List.foldl_cons]
    exact (ih g id (τ.holdAll l) hτ hk).trans
      (moves_releases ih l _ τ hτ (Nat.lt_of_le_of_lt (drops_releaseWithin k g id).size hk))

theorem size_erase_lt {id : InstanceId} {i : Instance} (hi : g.instances[id]? = some i) :
    (g.instances.erase id).size < g.instances.size := by
  rw [Table.size_eq_of_get hi]
  exact Nat.lt_succ_self _

/-- A release ends a use that is in hand. -/
theorem moves_releaseWithin : ∀ (k : Nat) (g : Graph) (id : InstanceId) (τ : Work), τ.jobs = [] → g.instances.size < k →
    Moves κ (τ.hold id) g τ (releaseWithin k g id) := by
  intro k
  induction k with
  | zero => exact fun g id τ _ hk => absurd hk (Nat.not_lt_zero _)
  | succ k ih =>
    intro g id τ hτ hk
    rcases hi : g.instances[id]? with _ | i
    · rw [releaseWithin_none hi]
      exact (Move.miss hi).moves
    · by_cases hu : 1 < i.uses
      · rw [releaseWithin_used hi hu]
        exact (Move.lessen hτ hi hu).moves
      · have hb := releaseWithin_last (k := k) hi hu
        have hsize : ((g.dismantle id i).giveBack i.process).instances.size < k := by
          rw [instances_giveBack, instances_dismantle]
          exact Nat.lt_of_lt_of_le (size_erase_lt hi) (Nat.le_of_lt_succ hk)
        rw [hb]
        exact .head (.dismantle hτ hi hu) (.head (.giveBack i.process hτ)
          ((moves_releases ih (usedBy i) _ τ hτ hsize).trans (moves_check ..)))

theorem moves_releaseInstance (id : InstanceId) (hτ : τ.jobs = []) : Moves κ (τ.hold id) g τ (g.releaseInstance id) :=
  moves_releaseWithin _ g id τ hτ (Nat.lt_succ_self _)

theorem moves_releaseAll (hτ : τ.jobs = []) : ∀ (l : List InstanceId) (g : Graph), Moves κ (τ.holdAll l) g τ (l.foldl releaseInstance g)
  | [], g => by
    rw [Work.holdAll_nil]
    exact .refl τ g
  | id :: l, g => by
    rw [Work.holdAll_cons, List.foldl_cons]
    exact (moves_releaseInstance (τ := τ.holdAll l) id hτ).trans (moves_releaseAll hτ l _)

/-! ## Resets -/

theorem moves_destroyAll {is : List InstanceId} : ∀ (ps : List ProcessId) (g : Graph) (τ : Work), τ.jobs = [] → τ.tear = some ⟨n, ps, is⟩ →
    Moves κ τ g (τ.tearing (some ⟨n, [], is⟩)) (ps.foldl destroyProcess g)
  | [], g, τ, _, ht => by
    rw [Work.tearing_self ht]
    exact .refl τ g
  | p :: ps, g, τ, hτ, ht => .head (.destroy hτ ht) (moves_destroyAll ps _ (τ.tearing (some ⟨n, ps, is⟩)) hτ rfl)

theorem moves_discardAll : ∀ (is : List InstanceId) (g : Graph) (τ : Work), τ.jobs = [] → τ.tear = some ⟨n, [], is⟩ →
    Moves κ τ g (τ.tearing (some ⟨n, [], []⟩)) (is.foldl discardInstance g)
  | [], g, τ, _, ht => by
    rw [Work.tearing_self ht]
    exact .refl τ g
  | id :: is, g, τ, hτ, ht => by
    have hrest := moves_discardAll is (g.discardInstance id) (τ.tearing (some ⟨n, [], is⟩)) hτ rfl
    rw [List.foldl_cons]
    rcases hi : g.instances[id]? with _ | i
    · rw [discardInstance, hi] at hrest ⊢
      exact .head (.pass hτ ht hi) hrest
    · rw [discardInstance, hi] at hrest ⊢
      exact .head (.discard hτ ht hi) ((moves_releaseAll (τ := τ.tearing (some ⟨n, [], is⟩)) hτ (usedBy i) _).trans hrest)

/-- A node that has to be told, or to which nobody refers, is reset. -/
theorem moves_resetWiring (hτ : τ.jobs = []) (ht : τ.tear = none) (hup : n ∈ τ.stale ∨ ∀ m, n ∉ g.references m) :
    Moves κ τ g τ (g.resetWiring n) := by
  rcases hw : g.wiring? n with _ | w
  · rw [resetWiring_none hw]
    exact .refl τ g
  · rw [resetWiring_eq hw]
    have hclear : Move κ (τ.tearing (some ⟨n, [], []⟩)) (w.instances.values.foldl discardInstance (w.processes.values.foldl destroyProcess
      (g.modifyWiring n Wiring.unwired))) ((τ.tearing (some ⟨n, [], []⟩)).tearing none) _ := .empty hτ rfl
    rw [show (τ.tearing (some ⟨n, [], []⟩)).tearing none = τ from Work.tearing_self ht] at hclear
    have hjobs : ∀ t, (τ.tearing t).jobs = [] := fun _ => hτ
    exact .head (.unwire hτ ht hw hup) ((moves_destroyAll _ _ _ (hjobs _) rfl).trans ((moves_discardAll _ _ _ (hjobs _) rfl).tail hclear))

theorem drops_discardInstance (g : Graph) (id : InstanceId) : g.Drops (g.discardInstance id) := by
  rw [discardInstance]
  rcases g.instances[id]? with _ | i
  · exact .refl g
  · exact (drops_erase g id).trans (.foldl (fun g j => drops_releaseWithin _ g j) _ _)

theorem clears_clearPorts (n : NodeId) : ∀ (l : List Port) (g : Graph), g.Clears (l.foldl (fun g port => g.clearPort n port) g)
  | [], g => .refl g
  | port :: l, g => (clears_clearPort g n port).trans (clears_clearPorts n l _)

/-- After a node was put out of sync a reset only takes away. -/
theorem clears_reset {w : Wiring} (hw : g.wiring? n = some w) : (g.modifyWiring n Wiring.unwired).Clears (g.resetWiring n) := by
  rw [resetWiring_eq hw]
  exact ((Drops.foldl drops_destroyProcess _ _).clears.trans (Drops.foldl drops_discardInstance _ _).clears).trans (clears_clearPorts n _ _)

theorem clears_resetWiring (g : Graph) (n : NodeId) : g.Clears (g.resetWiring n) := by
  rcases hw : g.wiring? n with _ | w
  · rw [resetWiring_none hw]
    exact .refl g
  · exact (clears_modifyWiring g n clears_unwired).trans (clears_reset hw)

/-- After a reset a node is not in sync. -/
theorem unsynced_resetWiring (g : Graph) (n : NodeId) : (g.resetWiring n).Unsynced n := by
  intro w' hw'
  rcases hw : g.wiring? n with _ | w
  · rw [resetWiring_none hw, hw] at hw'
    cases hw'
  · have hun : (g.modifyWiring n Wiring.unwired).wiring? n = some w.unwired := by
      rw [wiring?_modifyWiring, if_pos rfl, hw]
      rfl
    obtain ⟨w₁, hcl, hw₁⟩ := (clears_reset hw).wiring hw'
    rw [hun] at hw₁
    cases hw₁
    exact hcl.stale rfl

/-! ## Telling -/

theorem sameNodes_hush (g : Graph) (id : OutletId) : g.SameNodes (g.hush id) := (sameNodes_unsubscribe g id).trans ⟨rfl, rfl, rfl⟩

/-- The outlets of a node that was reset have to rebuild. -/
theorem moves_staleStructure (ht : τ.tear = none) (hc : τ.closing = none) (hs : g.Unsynced n) : Moves κ τ g τ (g.staleStructure n) := by
  rw [staleStructure_eq]
  rcases hd : g.data? n with _ | d
  · have : g.outletsOf n = [] := by rw [outletsOf, hd]; rfl
    rw [this]
    exact .refl τ g
  · have hids : g.outletsOf n = d.outlets.values := by rw [outletsOf, hd]; rfl
    rw [hids]
    have key : ∀ (l : List OutletId) (g : Graph), g.data? n = some d → (∀ id ∈ l, id ∈ d.outlets.values) → Moves κ τ g τ (l.foldl hush g) := by
      intro l
      induction l with
      | nil => exact fun g _ _ => .refl τ g
      | cons id l ih =>
        intro g hd hl
        refine .head (.hush ht hc hd (hs _ (wiring?_of_data? ‹_›)) (hl id (List.mem_cons_self ..)))
          (ih _ ?_ fun id' h' => hl id' (List.mem_cons_of_mem _ h'))
        rw [data?, node?, (sameNodes_hush g id).nodes]
        exact hd
    exact key _ g hd fun _ h => h

theorem Unsynced.of_nodes_eq {g g' : Graph} (h : g.Unsynced n) (hn : g'.nodes = g.nodes) : g'.Unsynced n := by
  intro w hw
  rw [wiring?, data?, node?, hn] at hw
  exact h w hw

/-- All nodes that have to be told are told. -/
theorem moves_tell : ∀ (l : List NodeId) (g : Graph) (τ : Work), τ.jobs = [] → τ.tear = none → τ.closing = none → τ.stale = l →
    Moves κ τ g (τ.telling []) (l.foldl (fun g id => (g.resetWiring id).staleStructure id) g)
  | [], g, τ, _, _, _, hs => by
    rw [Work.telling_self hs]
    exact .refl τ g
  | n :: l, g, τ, hτ, ht, hc, hs => by
    have hun := unsynced_resetWiring g n
    exact (moves_resetWiring hτ ht (.inl (hs ▸ List.mem_cons_self ..))).trans ((moves_staleStructure ht hc hun).trans
      (.head (.told hs ht (hun.of_nodes_eq (sameNodes_staleStructure ..).nodes)) (moves_tell l _ (τ.telling l) hτ ht hc rfl)))

theorem restated_fire (g : Graph) (rs : List RequestId) (c : Change) : g.Restated (g.fire rs c) := by
  obtain ⟨j, hj⟩ := fire_eq g rs c
  rw [hj]
  exact restated_aside g j

/-- The edit of a node, and the telling of it. -/
theorem moves_touched {g' : Graph} (hs : τ.Settled) (hτ : τ.jobs = []) (hc : τ.closing = none) (h : Touched κ g g' n) :
    Moves κ τ g τ (g'.structureChanged n) := by
  have htell : Moves κ (τ.telling (g'.ancestors n)) g' ((τ.telling (g'.ancestors n)).telling []) _ :=
    moves_tell (g'.ancestors n) g' _ hτ hs.tear hc rfl
  rw [show (τ.telling (g'.ancestors n)).telling [] = τ from Work.telling_self hs.stale] at htell
  exact .head (.edit hs hτ h) (htell.tail (.restate (restated_fire ..)))

theorem moves_revised {g' : Graph} (hs : τ.Settled) (hτ : τ.jobs = []) (hc : τ.closing = none) (h : Revised κ g g') : Moves κ τ g τ g' := by
  induction h with
  | done j _ => exact (Move.restate (restated_aside _ j)).moves
  | change ht _ _ ih => exact (moves_touched hs hτ hc ht).trans ih

end Graph

end Dataflow
