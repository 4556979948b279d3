import Dataflow.Proofs.Takedown

/-!
# Making instances, move by move

Acquiring an instance is a run of moves: the node gets in sync, and either the instance that it remembers has one user more, or a job
begins, merges what flows in, acquires a process, merges what that adds, acquires the template, selects what is exposed, and is done.
What is acquired on the way is the innermost job's, and nothing of it stays in hand.
-/

namespace Dataflow

theorem Work.holdAll_append (τ : Work) (a b : List InstanceId) : τ.holdAll (a ++ b) = (τ.holdAll a).holdAll b := by
  have h : (↑(a ++ b) : Multiset InstanceId) + τ.hands = ↑b + (↑a + τ.hands) := by
    rw [← Multiset.coe_add, add_comm (a : Multiset InstanceId), add_assoc]
  simp only [holdAll, h]

/-- The work after an attempt to acquire an instance of a node. -/
def Work.took (τ : Work) (n : NodeId) : Option InstanceId → Work
  | none => τ
  | some id => τ.take id n

namespace Graph

variable {κ : Call} {τ : Work} {g g' : Graph} {n : NodeId} {s : Substitution} {J : Job} {jobs : List Job}

/-- Acquiring is a run of moves, for a node that the innermost job refers to, under what that job grants. -/
def Acquiring (κ : Call) (acquire : Acquire) : Prop := ∀ (g : Graph) n s (τ : Work), τ.Settled → g.Authored →
  (∀ J ∈ τ.jobs.head?, n ∈ J.data.references) → (∀ x c, s.get? x = some c → τ.Grants κ c) →
  Moves κ τ g (τ.took n (acquire g n s).2) (acquire g n s).1 ∧ g.Derived (fun _ _ => True) (acquire g n s).1

/-- A job grants what it is under. -/
theorem grants_sub (hj : τ.jobs = J :: jobs) (x : String) (c : ChannelId) (hc : J.sub.get? x = some c) : τ.Grants κ c :=
  .inr ⟨J, by rw [hj]; rfl, x, .inl hc⟩

/-- Of a node that was acquired for a job, only the use is noted. -/
theorem moves_hold {i : InstanceId} {τ' : Work} (h : Moves κ τ' g (τ.take i n) g') : Moves κ τ' g (τ.hold i) g' :=
  h.tail (.disclaim (List.subset_cons_self (i, n) τ.claims))

/-! ## What flows in -/

theorem moves_mergeChannels {port : Port} {l : List (String × ChannelId)} (hj : τ.jobs = J :: jobs)
    (ho : g.Offers J port (l.map fun e => (e.1, .channel e.2))) : Moves κ τ g τ (g.mergeChannels J.node port J.sub l) := by
  rw [mergeChannels_eq]
  exact (Move.merge hj ho).moves

theorem moves_mergeLeaf {r : NodeId} {l : Leaf} (hj : τ.jobs = J :: jobs) (hr : r ∈ inflow J.data.design) (hl : g.leaf? r = some l) :
    Moves κ τ g τ (mergeLeaf J.node J.sub g l) := by
  rw [mergeLeaf]
  split
  · rename_i c heq
    have hc : J.sub.get? l.name = some c := by
      split at heq
      · exact heq
      · cases heq
    exact (Move.merge hj (.bound hr hl hc)).moves
  · rename_i e _ he
    exact (Move.merge hj (.leaf hr hl he)).moves
  · exact .refl τ g

section Build

variable {acquire : Acquire} (hacq : Acquiring κ acquire) (hτ : τ.Settled)

include hacq hτ

theorem moves_mergeOutputs {r : NodeId} (hj : τ.jobs = J :: jobs) (ha : g.Authored) (hr : r ∈ inflow J.data.design)
    (hl : g.leaf? r = none) :
    Moves κ τ g (τ.holdAll (mergeOutputs acquire J.node J.sub g r).2) (mergeOutputs acquire J.node J.sub g r).1 := by
  have hnest : ∀ J' ∈ τ.jobs.head?, r ∈ J'.data.references := by
    rw [hj]
    rintro J' hJ'
    obtain rfl := Option.some.inj hJ'
    exact mem_references_of_mem_inflow hr
  obtain ⟨h, hd⟩ := hacq g r J.sub τ hτ ha hnest (grants_sub hj)
  rw [mergeOutputs]
  rcases hres : acquire g r J.sub with ⟨g₁, _ | i⟩ <;> rw [hres] at h hd <;> dsimp only
  · rw [Work.holdAll_nil]
    exact h
  · have hl₁ : g₁.leaf? r = none := (hd.rewired.leaf? r).trans hl
    rw [Work.holdAll_cons, Work.holdAll_nil]
    exact (moves_hold h).trans (moves_mergeChannels hj (.exposed hr hl₁))

/-- Everything that comes in is merged, and the instances that bring it are in hand. -/
theorem moves_mergeInputs (hj : τ.jobs = J :: jobs) (ha : g.Authored) (hd : g.data? J.node = some J.data) :
    Moves κ τ g (τ.holdAll (mergeInputs acquire J.node J.sub g J.data).2) (mergeInputs acquire J.node J.sub g J.data).1 := by
  have hder : ∀ (g : Graph) r, g.Authored → (g.Derived (fun _ _ => True) (mergeOutputs acquire J.node J.sub g r).1 ∨
      ¬ r ∈ inflow J.data.design) := by
    intro g r ha
    by_cases hr : r ∈ inflow J.data.design
    · refine .inl ?_
      have hnest : ∀ J' ∈ τ.jobs.head?, r ∈ J'.data.references := by
        rw [hj]
        rintro J' hJ'
        obtain rfl := Option.some.inj hJ'
        exact mem_references_of_mem_inflow hr
      have h := (hacq g r J.sub τ hτ ha hnest (grants_sub hj)).2
      rw [mergeOutputs]
      rcases hres : acquire g r J.sub with ⟨g₁, _ | i⟩ <;> rw [hres] at h <;> dsimp only
      · exact h
      · exact h.trans Wiring.chains_true ((derives_mergeChannels ..).derived.mono fun _ _ _ => trivial)
    · exact .inr hr
  rw [mergeInputs]
  rcases hs : J.data.source with _ | r <;> dsimp only
  · have hflow : inflow J.data.design = J.data.children := by rw [inflow, DataNode.design, hs]
    rw [hflow] at hder
    -- along the children, what was acquired so far is in hand
    refine (List.foldlRecOn (motive := fun e : Graph × List InstanceId => e.1.Authored ∧ Moves κ τ g (τ.holdAll e.2) e.1) J.data.children _
      ⟨ha, by rw [Work.holdAll_nil]; exact .refl _ _⟩ fun e he r hmem => ?_).2
    obtain ⟨ha, h⟩ := he
    have hr : r ∈ inflow J.data.design := by
      rw [hflow]
      exact hmem
    rcases hl : e.1.leaf? r with _ | l
    · refine ⟨?_, h.trans ?_⟩
      · rcases hder e.1 r ha with h | h
        · exact h.rewired.authored ha
        · exact absurd hmem h
      · rw [Work.holdAll_append]
        exact moves_mergeOutputs hacq (τ := τ.holdAll e.2) ⟨hτ.stale, hτ.tear⟩ hj ha hr hl
    · exact ⟨(derives_mergeLeaf J.node J.sub e.1 l).derived.rewired.authored ha,
        h.trans (moves_mergeLeaf (τ := τ.holdAll e.2) hj hr hl)⟩
  · have hr : r ∈ inflow J.data.design := by
      rw [inflow, DataNode.design, hs]
      exact List.mem_singleton_self r
    exact moves_mergeOutputs hacq hτ hj ha hr (ha.leaf?_source hd hs)

theorem moves_acquireTemplate (hj : τ.jobs = J :: jobs) (ha : g.Authored) {t : Substitution}
    (ht : ∀ x c, t.get? x = some c → (x, c) ∈ J.shown) :
    Moves κ τ g (τ.holdAll (acquireTemplate acquire g J.data t).2.1.toList) (acquireTemplate acquire g J.data t).1 ∧
    ((acquireTemplate acquire g J.data t).2.2 = [] ∨ ∃ p s, J.data.proto = some p ∧
      (acquireTemplate acquire g J.data t).2.2 = (acquireTemplate acquire g J.data t).1.finalChannels p s) := by
  rw [acquireTemplate]
  rcases hp : J.data.proto with _ | p <;> dsimp only
  · rw [Option.toList_none, Work.holdAll_nil]
    exact ⟨.refl τ g, .inl rfl⟩
  · have hnest : ∀ J' ∈ τ.jobs.head?, p ∈ J'.data.references := by
      rw [hj]
      rintro J' hJ'
      obtain rfl := Option.some.inj hJ'
      exact mem_references_of_proto (d := J.data.design) hp
    obtain ⟨h, -⟩ := hacq g p t τ hτ ha hnest fun x c hc => .inr ⟨J, by rw [hj]; rfl, x, .inr (ht x c hc)⟩
    rcases hres : acquire g p t with ⟨g₁, _ | i⟩ <;> rw [hres] at h <;> dsimp only
    · rw [Option.toList_none, Work.holdAll_nil]
      exact ⟨h, .inl rfl⟩
    · rw [Work.holdAll_toList]
      exact ⟨moves_hold h, .inr ⟨p, t, rfl, rfl⟩⟩

/-- A job that has begun is brought to its end. -/
theorem moves_build (hj : τ.jobs = J :: jobs) (ha : g.Authored) (hd : g.data? J.node = some J.data)
    (hder : ∀ (g : Graph) n s, g.Derived (fun _ _ => True) (acquire g n s).1) :
    Moves κ τ g ((τ.doing jobs).take J.id J.node)
      ((build acquire g J.node J.data J.sub J.sub.fullKey).1.remember J.id (build acquire g J.node J.data J.sub J.sub.fullKey).2) := by
  have hin := rel_mergeInputs builds_derived hder J.node J.sub g J.data
  have h₁ := moves_mergeInputs hacq hτ hj ha hd
  simp only [build]
  generalize mergeInputs acquire J.node J.sub g J.data = r₁ at hin h₁ ⊢
  obtain ⟨g₁, js⟩ := r₁
  have ha₁ : g₁.Authored := hin.rewired.authored ha
  -- the process and the extended port
  have hop := derives_acquireProcess g₁ J.node J.sub
  have h₂ := Move.operate (κ := κ) (τ := τ.holdAll js) (g := g₁) hj
  generalize g₁.acquireProcess J.node J.sub = r₂ at hop h₂ ⊢
  obtain ⟨g₂, p⟩ := r₂
  have ha₂ : g₂.Authored := hop.derived.rewired.authored ha₁
  have h₃ := Move.merge (κ := κ) (τ := ((τ.holdAll js).doing ({ J with process := p } :: jobs)).run p) (g := g₂)
    (J := { J with process := p }) rfl .extended
  rw [← mergeExtended_eq] at h₃
  have ha₃ : (g₂.mergeExtended J.node J.sub p).Authored := (derives_mergeExtended ..).derived.rewired.authored ha₂
  generalize g₂.mergeExtended J.node J.sub p = g₃ at h₃ ha₃ ⊢
  have h₄ := Move.view (κ := κ) (τ := ((τ.holdAll js).doing ({ J with process := p } :: jobs)).run p) (g := g₃) rfl
  dsimp only at h₄
  generalize ((g₃.wiring? J.node).map (·.extended.resolve J.sub)).getD [] = shown at h₄ ⊢
  -- the template and the output
  obtain ⟨h₅, ht⟩ := moves_acquireTemplate (J := { J with process := p, shown })
    (τ := (((τ.holdAll js).doing ({ J with process := p } :: jobs)).run p).doing ({ J with process := p, shown } :: jobs)) hacq
    ⟨hτ.stale, hτ.tear⟩ rfl ha₃ (t := .ofList shown) fun x c hc => mem_of_get_tableOf hc
  have htm := rel_acquireTemplate builds_derived hder g₃ J.data (.ofList shown)
  dsimp only at h₅ ht htm
  generalize acquireTemplate acquire g₃ J.data (.ofList shown) = r₅ at h₅ ht htm ⊢
  obtain ⟨g₅, o, template⟩ := r₅
  have ha₅ : g₅.Authored := htm.rewired.authored ha₃
  dsimp only at h₅ ht ⊢
  have h₆ := moves_mergeChannels (κ := κ) (τ := ((((τ.holdAll js).doing ({ J with process := p } :: jobs)).run p).doing
    ({ J with process := p, shown } :: jobs)).holdAll o.toList) (g := g₅) (J := { J with process := p, shown }) rfl (.output ht)
  have ha₆ := (derives_mergeChannels g₅ J.node .output J.sub (selectChannels J.data.filter
    (Dataflow.tableOf (shown ++ template)))).derived.rewired.authored ha₅
  have hhands : (((((τ.holdAll js).doing ({ J with process := p } :: jobs)).run p).doing
      ({ J with process := p, shown } :: jobs)).holdAll o.toList).hands = ↑(usedBy (Job.made { J with process := p, shown } js o)) + τ.hands := by
    simp only [Work.holdAll, Work.run, Work.doing, usedBy, Job.made, ← Multiset.coe_add, add_assoc]
  have h₇ := Move.finish (κ := κ) js o rfl ha₆ hhands rfl
  exact h₁.trans (.head h₂ (.head h₃ (.head h₄ (h₅.trans (h₆.tail h₇)))))

end Build

/-! ## Acquiring -/

/-- A node that was put in sync is in sync. -/
theorem sync_synchronize (g : Graph) (n : NodeId) {d : DataNode} (hd : (g.synchronize n).data? n = some d) : d.wiring.outOfSync = false := by
  rw [synchronize, syncWithin] at hd
  rcases hd₀ : g.data? n with _ | d₀
  · simp only [hd₀] at hd
    cases hd
  · simp only [hd₀] at hd
    split at hd
    · rw [data?_rewire, if_pos rfl] at hd
      obtain ⟨e, -, rfl⟩ := Option.map_eq_some_iff.1 hd
      rfl
    · rename_i hs
      rw [hd₀] at hd
      cases hd
      exact Bool.eq_false_iff.2 hs

theorem acquiring_acquireWithin (κ : Call) : ∀ k, Acquiring κ (acquireWithin k) := by
  intro k
  induction k with
  | zero => exact fun g n s τ _ _ _ _ => ⟨.refl τ g, .refl _ g⟩
  | succ k ih =>
    intro g n s τ hτ ha hnest hgrant
    refine ⟨?_, derived_acquireWithin ..⟩
    have hsync := Move.sync (κ := κ) n hτ ha
    have ha₁ : (g.synchronize n).Authored := (derived_synchronize g n).rewired.authored ha
    have hin := fun {d} => sync_synchronize g n (d := d)
    rw [acquireWithin]
    dsimp only
    generalize g.synchronize n = g₁ at hsync ha₁ hin ⊢
    rcases hd : g₁.data? n with _ | d <;> dsimp only
    · exact hsync.moves
    · have hs := hin hd
      rcases hmemo : (d.wiring.instances[(s.restrict d.wiring.params).fullKey]?).bind fun id => (g₁.instances[id]?).map (id, ·) with
        _ | ⟨id, i⟩ <;> dsimp only
      · have hnone : ∀ id, d.wiring.instances[(s.restrict d.wiring.params).fullKey]? = some id → g₁.instances[id]? = none := by
          intro id hk
          rw [hk, Option.bind_some, Option.map_eq_none_iff] at hmemo
          exact hmemo
        have hstart := Move.start (κ := κ) (s := s) hτ ha₁ hd hs hnone hnest hgrant
        have hbuild := moves_build (J := { id := g₁.lastId + 1, node := n, data := d, sub := s.restrict d.wiring.params })
          (τ := τ.doing ({ id := g₁.lastId + 1, node := n, data := d, sub := s.restrict d.wiring.params } :: τ.jobs)) (g := (g₁.drawId).1)
          ih ⟨hτ.stale, hτ.tear⟩ rfl ((derives_drawId g₁).derived.rewired.authored ha₁) hd (derived_acquireWithin k)
        exact .head hsync (.head hstart hbuild)
      · obtain ⟨id', hk, hi⟩ := Option.bind_eq_some_iff.1 hmemo
        obtain ⟨i', hi', he⟩ := Option.map_eq_some_iff.1 hi
        obtain ⟨rfl, rfl⟩ := Prod.mk.inj he
        exact .head hsync (.head (.reuse hτ hd hs hk hi') (moves_check ..))

/-- Acquiring an instance is a run of moves. -/
theorem moves_acquireInstance (hτ : τ.Settled) (hj : τ.jobs = []) (ha : g.Authored) (n : NodeId) (s : Substitution)
    (hgrant : ∀ x c, s.get? x = some c → τ.Grants κ c) :
    Moves κ τ g (τ.took n (g.acquireInstance n s).2) (g.acquireInstance n s).1 := by
  have hnest : ∀ J ∈ τ.jobs.head?, n ∈ J.data.references := by
    rw [hj]
    exact fun J hJ => absurd hJ (Option.not_mem_none J)
  have h := (acquiring_acquireWithin κ (g.nodes.size + 1) g n s τ hτ ha hnest hgrant).1
  unfold acquireInstance
  exact h

end Graph

end Dataflow
