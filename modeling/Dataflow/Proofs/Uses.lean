import Dataflow.Proofs.Posted

/-!
# Use counts

Whoever uses an instance counts: the live instances that were made of it, the outlets that hold it, and those who acquired it and have it
in hand. In the middle of a call the uses that are about to be passed on or given up are in hand too, so every move either changes a count
together with what it counts, or passes a use from one to another. A use that was given up without having been acquired is owed.
-/

namespace Dataflow

namespace Graph

variable {κ : Call} {owed : Multiset InstanceId} {τ τ' : Work} {g g' : Graph} {n : NodeId} {id j : InstanceId} {i : Instance} {J : Job}
  {pid : ProcessId} {p : Process} {q : Option ProcessId} {oid : OutletId} {o : Outlet}

/-- The id was drawn, and what it was drawn for is made. -/
structure Born (τ : Work) (g : Graph) (id : InstanceId) : Prop where
  drawn : id ≤ g.lastId
  made : ∀ J ∈ τ.jobs, J.id ≠ id

/-- In the middle of a call: nobody uses what is not made yet, uses follow an order, and an outlet or an instance has what its own node
made. -/
structure Sourced (owed : Multiset InstanceId) (τ : Work) (g : Graph) : Prop where
  used : ∀ (id : InstanceId) (i : Instance), g.instances[id]? = some i → ∀ j ∈ usedBy i, Born τ g j
  ranked : ∃ rank : InstanceId → Nat, ∀ (id : InstanceId) (i : Instance), g.instances[id]? = some i → ∀ j ∈ usedBy i, rank j < rank id
  held : ∀ (id : OutletId) (o : Outlet), g.outlets[id]? = some o → ∀ j ∈ o.held, Born τ g j ∧
    ∀ i : Instance, g.instances[j]? = some i → i.owner = o.owner
  claims : ∀ c ∈ τ.claims, Born τ g c.1 ∧ ∀ i : Instance, g.instances[c.1]? = some i → i.owner = c.2
  hands : ∀ j ∈ τ.hands, Born τ g j
  due : ∀ j ∈ owed, Born τ g j
  process : ∀ (id : InstanceId) (i : Instance), g.instances[id]? = some i → ∀ p ∈ i.process, p ≤ g.lastId ∧
    ∀ q : Process, g.processes[p]? = some q → q.owner = i.owner
  busy : ∀ p ∈ τ.busy, p ≤ g.lastId

/-- In the middle of a call: the counts of live instances and processes are those of their users. -/
structure Balanced (owed : Multiset InstanceId) (τ : Work) (g : Graph) : Prop extends Sourced owed τ g where
  uses : ∀ (id : InstanceId) (i : Instance), g.instances[id]? = some i →
    0 < i.uses ∧ i.uses + owed.count id = g.useCount id + g.held.count id + τ.hands.count id
  runs : ∀ (id : ProcessId) (p : Process), g.processes[id]? = some p → 0 < p.uses ∧ p.uses = g.runCount id + τ.busy.count id

theorem Born.mono (h : Born τ g j) (hl : g.lastId ≤ g'.lastId) (hj : ∀ J ∈ τ'.jobs, ∃ K ∈ τ.jobs, K.id = J.id) : Born τ' g' j :=
  ⟨Nat.le_trans h.drawn hl, fun J hJ => by
    obtain ⟨K, hK, he⟩ := hj J hJ
    exact he ▸ h.made K hK⟩

/-- What is live was made. -/
theorem Kept.born (h : Kept τ g) (hi : g.instances[id]? = some i) : Born τ g id :=
  ⟨h.instanceId id i hi, fun J hJ he => by
    obtain ⟨-, hnone, -⟩ := h.job J hJ
    rw [he, hi] at hnone
    cases hnone⟩

theorem jobs_of_eq (h : τ'.jobs = τ.jobs) : ∀ J ∈ τ'.jobs, ∃ K ∈ τ.jobs, K.id = J.id := fun J hJ => ⟨J, h ▸ hJ, rfl⟩

/-! ## Counting -/

theorem Sourced.useCount_of_unborn (h : Sourced owed τ g) (hj : ¬ Born τ g j) : g.useCount j = 0 :=
  Table.tally_eq_zero.2 fun id i hi => List.count_eq_zero.2 fun hm => hj (h.used id i hi j hm)

theorem Sourced.count_held_of_unborn (h : Sourced owed τ g) (hj : ¬ Born τ g j) : g.held.count j = 0 :=
  List.count_eq_zero.2 fun hm => by
    obtain ⟨id, o, ho, hh⟩ := mem_held.1 hm
    exact hj (h.held id o ho j hh).1

theorem Sourced.runCount_of_undrawn (h : Sourced owed τ g) (hp : g.lastId < pid) : g.runCount pid = 0 :=
  Table.tally_eq_zero.2 fun id i hi => if_neg fun hc => absurd (h.process id i hi pid hc).1 (Nat.not_le.2 hp)

theorem count_holdAll (τ : Work) (ids : List InstanceId) (j : InstanceId) :
    (τ.holdAll ids).hands.count j = ids.count j + τ.hands.count j := by
  rw [Work.holdAll, Multiset.count_add, Multiset.coe_count]

theorem count_hold (τ : Work) (id j : InstanceId) : (τ.hold id).hands.count j = τ.hands.count j + if j = id then 1 else 0 :=
  Multiset.count_cons ..

theorem count_run (τ : Work) (o : Option ProcessId) (p : ProcessId) : (τ.run o).busy.count p = o.toList.count p + τ.busy.count p := by
  rw [Work.run, Multiset.count_add, Multiset.coe_count]

theorem count_toList {α : Type} [DecidableEq α] (o : Option α) (a : α) : o.toList.count a = if o = some a then 1 else 0 := by
  rcases o with _ | b
  · rfl
  · rw [Option.toList_some, List.count_singleton]
    simp only [beq_iff_eq, Option.some.injEq]

theorem mem_holdAll {ids : List InstanceId} : j ∈ (τ.holdAll ids).hands ↔ j ∈ ids ∨ j ∈ τ.hands := by
  rw [Work.holdAll, Multiset.mem_add, Multiset.mem_coe]

theorem mem_run {q : Option ProcessId} : pid ∈ (τ.run q).busy ↔ q = some pid ∨ pid ∈ τ.busy := by
  rw [Work.run, Multiset.mem_add, Multiset.mem_coe, Option.mem_toList]

theorem useCount_congr (hi : g'.instances = g.instances) (j : InstanceId) : g'.useCount j = g.useCount j := by
  rw [useCount, hi, useCount]

theorem runCount_congr (hi : g'.instances = g.instances) (p : ProcessId) : g'.runCount p = g.runCount p := by
  rw [runCount, hi, runCount]

theorem count_held_eq (ho : g'.outlets = g.outlets) : g'.held.count j = g.held.count j := by
  rw [held, ho, held]

theorem count_held_modify (store : Store) {f : Outlet → Outlet} (ho : g.outlets[oid]? = some o) :
    ({ g with store }.modifyOutlet oid f).held.count j + (if o.held = some j then 1 else 0) =
      g.held.count j + if (f o).held = some j then 1 else 0 := by
  rw [count_held, count_held, ← Table.tally_insert (f o) (fun _ (o : Outlet) => if o.held = some j then 1 else 0) ho]
  refine congrArg (· + _) (Table.tally_ext fun k => ?_)
  rw [get_outlets_modifyOutlet, Table.get_insert]
  split
  · subst k
    rw [ho, Option.map_some]
  · rfl

theorem count_held_erase (ho : g.outlets[oid]? = some o) :
    (if o.held = some j then 1 else 0) + ({ g with outlets := g.outlets.erase oid } : Graph).held.count j = g.held.count j := by
  rw [count_held, count_held]
  exact (Table.tally_erase (fun _ (o : Outlet) => if o.held = some j then 1 else 0) ho).symm

/-! ## Who uses what -/

/-- Instances only go or change their counts, processes keep their owners, and outlets hold what outlets of the same node held or what was
acquired for that node. -/
theorem Sourced.change (h : Sourced owed τ g)
    (hi : ∀ (id : InstanceId) (i' : Instance), g'.instances[id]? = some i' → ∃ u, g.instances[id]? = some { i' with uses := u })
    (hp : ∀ (id : ProcessId) (p' : Process), g'.processes[id]? = some p' →
      (∃ p, g.processes[id]? = some p ∧ p.owner = p'.owner) ∨ g.lastId < id)
    (ho : ∀ (id : OutletId) (o' : Outlet), g'.outlets[id]? = some o' → ∀ j ∈ o'.held,
      (∃ (a : OutletId) (o : Outlet), g.outlets[a]? = some o ∧ o.held = some j ∧ o.owner = o'.owner) ∨ (j, o'.owner) ∈ τ.claims)
    (hl : g.lastId ≤ g'.lastId) (hjobs : ∀ J ∈ τ'.jobs, ∃ K ∈ τ.jobs, K.id = J.id)
    (hclaims : ∀ c ∈ τ'.claims, c ∈ τ.claims ∨ Born τ g c.1 ∧ ∀ i : Instance, g.instances[c.1]? = some i → i.owner = c.2)
    (hhands : ∀ j ∈ τ'.hands, j ∈ τ.hands ∨ Born τ g j) (hbusy : ∀ p ∈ τ'.busy, p ∈ τ.busy ∨ p ≤ g'.lastId) : Sourced owed τ' g' := by
  have hb : ∀ {j}, Born τ g j → Born τ' g' j := fun hj => hj.mono hl hjobs
  have hown : ∀ {j : InstanceId} {n : NodeId}, (∀ i : Instance, g.instances[j]? = some i → i.owner = n) →
      ∀ i' : Instance, g'.instances[j]? = some i' → i'.owner = n := fun hj i' hi' => by
    obtain ⟨u, hu⟩ := hi _ i' hi'
    exact hj { i' with uses := u } hu
  refine ⟨fun id i' hi' j hj => ?_, ?_, fun id o' ho' j hj => ?_, fun c hc => ?_, fun j hj => ?_, fun j hj => hb (h.due j hj),
    fun id i' hi' p hpi => ?_, fun p hpb => ?_⟩
  · obtain ⟨u, hu⟩ := hi id i' hi'
    exact hb (h.used id _ hu j hj)
  · obtain ⟨rank, hrank⟩ := h.ranked
    refine ⟨rank, fun id i' hi' j hj => ?_⟩
    obtain ⟨u, hu⟩ := hi id i' hi'
    exact hrank id _ hu j hj
  · rcases ho id o' ho' j hj with ⟨a, o, hoa, hh, hoo⟩ | hc
    · obtain ⟨h₁, h₂⟩ := h.held a o hoa j hh
      exact ⟨hb h₁, hown (hoo ▸ h₂)⟩
    · obtain ⟨h₁, h₂⟩ := h.claims _ hc
      exact ⟨hb h₁, hown h₂⟩
  · rcases hclaims c hc with hc | ⟨h₁, h₂⟩
    · obtain ⟨h₁, h₂⟩ := h.claims c hc
      exact ⟨hb h₁, hown h₂⟩
    · exact ⟨hb h₁, hown h₂⟩
  · rcases hhands j hj with hj | hj
    · exact hb (h.hands j hj)
    · exact hb hj
  · obtain ⟨u, hu⟩ := hi id i' hi'
    obtain ⟨h₁, h₂⟩ := h.process id _ hu p hpi
    refine ⟨Nat.le_trans h₁ hl, fun q' hq' => ?_⟩
    rcases hp p q' hq' with ⟨q, hq, hqo⟩ | hlt
    · exact hqo.symm.trans (h₂ q hq)
    · exact absurd h₁ (Nat.not_le.2 hlt)
  · rcases hbusy p hpb with hpb | hpb
    · exact Nat.le_trans (h.busy p hpb) hl
    · exact hpb

/-! ## Steps that pass uses on -/

section Same
variable (h : Balanced owed τ g) (hi : g'.instances = g.instances) (hl : g.lastId ≤ g'.lastId) (hbusy : τ'.busy = τ.busy)
  (hjobs : τ'.jobs = τ.jobs) (hclaims : τ'.claims ⊆ τ.claims)
include h hi hl hbusy hjobs hclaims

/-- Instances stay, processes may go, and what outlets hold less, they have handed out. -/
theorem Balanced.pass
    (hp : ∀ (id : ProcessId) (p' : Process), g'.processes[id]? = some p' →
      ∃ p, g.processes[id]? = some p ∧ p.uses = p'.uses ∧ p.owner = p'.owner)
    (ho : ∀ (id : OutletId) (o' : Outlet), g'.outlets[id]? = some o' → ∀ j ∈ o'.held,
      (∃ (a : OutletId) (o : Outlet), g.outlets[a]? = some o ∧ o.held = some j ∧ o.owner = o'.owner) ∨ (j, o'.owner) ∈ τ.claims)
    (hhands : ∀ j ∈ τ'.hands, j ∈ τ.hands ∨ Born τ g j)
    (hcount : ∀ (j : InstanceId) (i : Instance), g.instances[j]? = some i →
      g'.held.count j + τ'.hands.count j = g.held.count j + τ.hands.count j) : Balanced owed τ' g' where
  toSourced := h.toSourced.change (fun id i' hi' => ⟨i'.uses, hi ▸ hi'⟩) (fun id p' hp' => .inl ((hp id p' hp').imp fun _ hp => ⟨hp.1, hp.2.2⟩)) ho hl
    (jobs_of_eq hjobs) (fun c hc => .inl (hclaims hc)) hhands fun p hp => .inl (hbusy ▸ hp)
  uses id i hid := by
    rw [hi] at hid
    have huses := h.uses id i hid
    have := hcount id i hid
    rw [useCount_congr hi]
    omega
  runs id p' hp' := by
    obtain ⟨p, hpp, hu, -⟩ := hp id p' hp'
    rw [runCount_congr hi, hbusy, ← hu]
    exact h.runs id p hpp

/-- Instances stay, processes may go, and outlets hold the same. -/
theorem Balanced.congr (hhands : τ'.hands = τ.hands)
    (hp : ∀ (id : ProcessId) (p' : Process), g'.processes[id]? = some p' →
      ∃ p, g.processes[id]? = some p ∧ p.uses = p'.uses ∧ p.owner = p'.owner)
    (ho : ∀ id : OutletId, (g'.outlets[id]?).bind (fun o => o.held.map (o.owner, ·)) =
      (g.outlets[id]?).bind fun o => o.held.map (o.owner, ·)) : Balanced owed τ' g' := by
  have hof : ∀ {g g' : Graph}, (∀ id : OutletId, (g'.outlets[id]?).bind (fun o => o.held.map (o.owner, ·)) =
      (g.outlets[id]?).bind fun o => o.held.map (o.owner, ·)) → ∀ {id : OutletId} {o' : Outlet} {j : InstanceId},
      g'.outlets[id]? = some o' → o'.held = some j → ∃ o : Outlet, g.outlets[id]? = some o ∧ o.held = some j ∧ o.owner = o'.owner := by
    intro g g' ho id o' j ho' hj
    have := ho id
    rw [ho', Option.bind_some, hj, Option.map_some, eq_comm, Option.bind_eq_some_iff] at this
    obtain ⟨o, hoo, hpair⟩ := this
    obtain ⟨j', hj', he⟩ := Option.map_eq_some_iff.1 hpair
    obtain ⟨h₁, rfl⟩ := Prod.mk.injEq .. ▸ he
    exact ⟨o, hoo, hj', h₁⟩
  refine h.pass hi hl hbusy hjobs hclaims hp (fun id o' ho' j hj => .inl ⟨id, hof ho ho' hj⟩) (fun j hj => .inl (hhands ▸ hj)) fun j i hj => ?_
  rw [hhands]
  refine congrArg (· + _) (count_held_congr fun id => ?_)
  simp only [Option.bind_eq_some_iff]
  exact ⟨fun ⟨o', ho', hh⟩ => (hof ho ho' hh).imp fun _ ho => ⟨ho.1, ho.2.1⟩,
    fun ⟨o, hoo, hh⟩ => (hof (fun id => (ho id).symm) hoo hh).imp fun _ ho => ⟨ho.1, ho.2.1⟩⟩

/-- Neither instances nor processes nor outlets nor uses in hand change. -/
theorem Balanced.same (hhands : τ'.hands = τ.hands) (hp : g'.processes = g.processes) (ho : g'.outlets = g.outlets) : Balanced owed τ' g' :=
  h.congr hi hl hbusy hjobs hclaims hhands (fun id p' hp' => ⟨p', hp ▸ hp', rfl, rfl⟩) fun id => by rw [ho]

end Same

/-! ## Instances -/

/-- A live instance has another count, and so many more or fewer of its uses are in hand. -/
theorem Balanced.recount (h : Balanced owed τ g) (hk : Kept τ g) (hi : g.instances[id]? = some i) {u : Nat} (hu : 0 < u)
    (hjobs : τ'.jobs = τ.jobs) (hbusy : τ'.busy = τ.busy) (hclaims : ∀ c ∈ τ'.claims, c ∈ τ.claims ∨ c = (id, i.owner))
    (hhands : ∀ j, τ'.hands.count j + (if j = id then i.uses else 0) = τ.hands.count j + if j = id then u else 0) :
    Balanced owed τ' { g with instances := g.instances.insert id { i with uses := u } } := by
  generalize hg : ({ g with instances := g.instances.insert id { i with uses := u } } : Graph) = g'
  have hinst : g'.instances = g.instances.insert id { i with uses := u } := by rw [← hg]
  have hout : g'.outlets = g.outlets := by rw [← hg]
  have hproc : g'.processes = g.processes := by rw [← hg]
  have hl : g'.lastId = g.lastId := by rw [← hg]
  have huse : ∀ j, g'.useCount j = g.useCount j := fun j => by
    have := Table.tally_insert { i with uses := u } (fun _ (i : Instance) => (usedBy i).count j) hi
    rw [useCount, hinst]
    exact Nat.add_right_cancel this
  have hrun : ∀ p, g'.runCount p = g.runCount p := fun p => by
    have := Table.tally_insert { i with uses := u } (fun _ (i : Instance) => if i.process = some p then 1 else 0) hi
    rw [runCount, hinst]
    exact Nat.add_right_cancel this
  have hof : ∀ (j : InstanceId) (i' : Instance), g'.instances[j]? = some i' →
      (j = id ∧ i' = { i with uses := u }) ∨ (j ≠ id ∧ g.instances[j]? = some i') := fun j i' hi' => by
    rw [hinst, Table.get_insert] at hi'
    split at hi'
    · exact .inl ⟨‹_›, (Option.some.inj hi').symm⟩
    · exact .inr ⟨‹_›, hi'⟩
  refine ⟨h.toSourced.change (fun j i' hi' => ?_) (fun p q hq => .inl ⟨q, hproc ▸ hq, rfl⟩)
    (fun a o ho k hk => .inl ⟨a, o, hout ▸ ho, hk, rfl⟩) (Nat.le_of_eq hl.symm) (jobs_of_eq hjobs) (fun c hc => ?_) (fun k hk' => ?_)
    fun p hp => .inl (hbusy ▸ hp), fun j i' hi' => ?_, fun p q hq => ?_⟩
  · rcases hof j i' hi' with ⟨rfl, rfl⟩ | ⟨-, hi'⟩
    · exact ⟨i.uses, hi⟩
    · exact ⟨i'.uses, hi'⟩
  · refine (hclaims c hc).imp_right fun he => ?_
    subst he
    refine ⟨hk.born hi, fun i' hi' => ?_⟩
    rw [hi] at hi'
    cases hi'
    rfl
  · by_cases hid : k = id
    · exact .inr (hid ▸ hk.born hi)
    · have hcount := hhands k
      rw [if_neg hid, if_neg hid] at hcount
      exact .inl (Multiset.count_pos.1 (Nat.add_right_cancel hcount ▸ Multiset.count_pos.2 hk'))
  · have hcount := hhands j
    rw [huse, count_held_eq hout]
    rcases hof j i' hi' with ⟨rfl, rfl⟩ | ⟨hne, hi'⟩
    · have huses := h.uses j i hi
      simp only [if_true] at hcount
      exact ⟨hu, by simp only; omega⟩
    · have huses := h.uses j i' hi'
      rw [if_neg hne, if_neg hne] at hcount
      omega
  · rw [hproc] at hq
    rw [hrun, hbusy]
    exact h.runs p q hq

/-- A live instance has one use more, which is in hand. -/
theorem Balanced.reuse (h : Balanced owed τ g) (hk : Kept τ g) (hi : g.instances[id]? = some i) :
    Balanced owed (τ.take id i.owner) { g with instances := g.instances.insert id { i with uses := i.uses + 1 } } := by
  refine h.recount hk hi (Nat.succ_pos _) rfl rfl (fun c hc => (List.mem_cons.1 hc).symm) fun j => ?_
  rw [show (τ.take id i.owner).hands.count j = _ from count_hold τ id j]
  split <;> omega

/-- A live instance has one use less, which was in hand. -/
theorem Balanced.lessen (h : Balanced owed (τ.hold id) g) (hk : Kept (τ.hold id) g) (hi : g.instances[id]? = some i) (hu : 1 < i.uses) :
    Balanced owed τ { g with instances := g.instances.insert id { i with uses := i.uses - 1 } } := by
  refine h.recount hk hi (Nat.sub_pos_of_lt hu) rfl rfl (fun c hc => .inl hc) fun j => ?_
  rw [count_hold]
  split <;> omega

/-- An instance goes, and what it used is in hand. -/
theorem Balanced.erase (h : Balanced owed τ g) (hi : g.instances[id]? = some i) (hinst : g'.instances = g.instances.erase id)
    (hout : g'.outlets = g.outlets) (hproc : g'.processes = g.processes) (hl : g'.lastId = g.lastId) (hjobs : τ'.jobs = τ.jobs)
    (hclaims : τ'.claims ⊆ τ.claims) (hmem : ∀ j ∈ τ'.hands, j ∈ τ.hands ∨ j ∈ usedBy i)
    (hhands : ∀ j, j ≠ id → τ'.hands.count j = τ.hands.count j + (usedBy i).count j) (hsub : ∀ p ∈ τ'.busy, p ∈ τ.busy ∨ i.process = some p)
    (hbusy : ∀ (p : ProcessId) (q : Process), g.processes[p]? = some q → τ'.busy.count p = τ.busy.count p + if i.process = some p then 1 else 0) :
    Balanced owed τ' g' := by
  have hof : ∀ (j : InstanceId) (i' : Instance), g'.instances[j]? = some i' → j ≠ id ∧ g.instances[j]? = some i' := fun j i' hi' => by
    rw [hinst, Table.get_erase] at hi'
    split at hi'
    · cases hi'
    · exact ⟨‹_›, hi'⟩
  refine ⟨h.toSourced.change (fun j i' hi' => ⟨i'.uses, (hof j i' hi').2⟩) (fun p q hq => .inl ⟨q, hproc ▸ hq, rfl⟩)
    (fun a o ho k hk => .inl ⟨a, o, hout ▸ ho, hk, rfl⟩) (Nat.le_of_eq hl.symm) (jobs_of_eq hjobs) (fun c hc => .inl (hclaims hc))
    (fun j hj => (hmem j hj).imp_right (h.used id i hi j)) (fun p hp => (hsub p hp).imp_right fun hp => hl ▸ (h.process id i hi p hp).1),
    fun j i' hi' => ?_, fun p q hq => ?_⟩
  · obtain ⟨hne, hi'⟩ := hof j i' hi'
    have huses := h.uses j i' hi'
    have hcount : g.useCount j = (usedBy i).count j + g'.useCount j := by
      rw [useCount_erase hi, useCount, useCount, hinst]
    rw [count_held_eq hout, hhands j hne]
    omega
  · rw [hproc] at hq
    have hruns := h.runs p q hq
    have hcount : g.runCount p = (if i.process = some p then 1 else 0) + g'.runCount p := by
      rw [runCount, Table.tally_erase (fun _ (i : Instance) => if i.process = some p then 1 else 0) hi, runCount, hinst]
    rw [hbusy p q hq]
    omega

theorem Balanced.dismantle (h : Balanced owed (τ.hold id) g) (hi : g.instances[id]? = some i) :
    Balanced owed ((τ.holdAll (usedBy i)).run i.process) (g.dismantle id i) := by
  have hd := drops_dismantle g id i
  refine h.erase hi (instances_dismantle g id i) hd.derived.outlets (processes_dismantle g id i) hd.lastId rfl (List.Subset.refl _)
    (fun j hj => ?_) (fun j hj => ?_) (fun p hp => (mem_run.1 hp).symm) fun p q hq => ?_
  · exact (mem_holdAll.1 hj).symm.imp_left (Multiset.mem_cons_of_mem)
  · rw [show ((τ.holdAll (usedBy i)).run i.process).hands.count j = _ from count_holdAll τ _ j, count_hold, if_neg hj, Nat.add_zero, Nat.add_comm]
  · rw [count_run, count_toList]
    exact Nat.add_comm ..

/-- An instance of a node that is being reset goes: its process has gone before. -/
theorem Balanced.discard (h : Balanced owed τ g) (hd : Tidy τ g) {is : List InstanceId} (ht : τ.tear = some ⟨n, [], id :: is⟩)
    (hi : g.instances[id]? = some i) :
    Balanced owed ((τ.tearing (some ⟨n, [], is⟩)).holdAll (usedBy i)) { g with instances := g.instances.erase id } := by
  have hleft : id ∈ τ.leftInstances n := by
    simp only [Work.leftInstances, ht, if_true]
    exact List.mem_cons_self ..
  have hgone : ∀ p ∈ i.process, g.processes[p]? = none := fun p hp => by
    rcases hq : g.processes[p]? with _ | q
    · rfl
    · have hqn : q.owner = n := ((h.process id i hi p hp).2 q hq).trans ((hd.kept.instances.apart n id hleft).2 i hi)
      obtain ⟨f, hf, hs, -⟩ := hd.framed.torn _ ht
      rcases hd.kept.processes.listed p q hq with hl | hl
      · rw [show q.place.1 = n from hqn, (hd.kept.stale n f hf hs).2] at hl
        cases hl
      · simp only [Work.leftProcesses, ht] at hl
        split at hl <;> cases hl
  refine h.erase hi rfl rfl rfl rfl rfl (List.Subset.refl _) (fun j hj => (mem_holdAll.1 hj).symm) (fun j _ => ?_) (fun p hp => .inl hp)
    fun p q hq => ?_
  · rw [count_holdAll]
    exact Nat.add_comm ..
  · rw [if_neg fun hp => by rw [hgone p hp] at hq; cases hq]
    rfl

/-! ## Building -/

/-- An id is drawn for an instance that is going to be made. -/
theorem Balanced.start (h : Balanced owed τ g) (J : Job) (hJ : J.id = g.lastId + 1) : Balanced owed (τ.doing (J :: τ.jobs)) (g.drawId).1 := by
  have hb : ∀ {j}, Born τ g j → Born (τ.doing (J :: τ.jobs)) (g.drawId).1 j := fun hj =>
    ⟨Nat.le_succ_of_le hj.drawn, fun K hK => by
      rcases List.mem_cons.1 hK with rfl | hK
      · rw [hJ]
        exact fun he => absurd hj.drawn (Nat.not_le.2 (he ▸ Nat.lt_succ_self _))
      · exact hj.made K hK⟩
  exact ⟨⟨fun id i hi j hj => hb (h.used id i hi j hj), h.ranked,
    fun id o ho j hj => ⟨hb (h.held id o ho j hj).1, (h.held id o ho j hj).2⟩, fun c hc => ⟨hb (h.claims c hc).1, (h.claims c hc).2⟩,
    fun j hj => hb (h.hands j hj), fun j hj => hb (h.due j hj),
    fun id i hi p hp => ⟨Nat.le_succ_of_le (h.process id i hi p hp).1, (h.process id i hi p hp).2⟩,
    fun p hp => Nat.le_succ_of_le (h.busy p hp)⟩, h.uses, h.runs⟩

/-- The users of live processes change, and so many more or fewer are in hand. -/
theorem Balanced.engage (h : Balanced owed τ g) (hl : g.lastId ≤ g'.lastId) (hjobs : ∀ J ∈ τ'.jobs, ∃ K ∈ τ.jobs, K.id = J.id)
    (hi : g'.instances = g.instances) (ho : g'.outlets = g.outlets) (hclaims : τ'.claims = τ.claims) (hhands : τ'.hands = τ.hands)
    (hp : ∀ (id : ProcessId) (p' : Process), g'.processes[id]? = some p' →
      (0 < p'.uses ∧ p'.uses = g.runCount id + τ'.busy.count id) ∧ ((∃ p, g.processes[id]? = some p ∧ p.owner = p'.owner) ∨ g.lastId < id))
    (hbusy : ∀ p ∈ τ'.busy, p ∈ τ.busy ∨ p ≤ g'.lastId) : Balanced owed τ' g' where
  toSourced := h.toSourced.change (fun id i' hi' => ⟨i'.uses, hi ▸ hi'⟩) (fun id p' hp' => (hp id p' hp').2)
    (fun a o hoa k hk => .inl ⟨a, o, ho ▸ hoa, hk, rfl⟩) hl hjobs (fun c hc => .inl (hclaims ▸ hc)) (fun j hj => .inl (hhands ▸ hj)) hbusy
  uses id i hid := by
    rw [hi] at hid
    rw [useCount_congr hi, count_held_eq ho, hhands]
    exact h.uses id i hid
  runs id p' hp' := by
    rw [runCount_congr hi]
    exact (hp id p' hp').1

theorem Balanced.operate (h : Balanced owed τ g) (hk : Kept τ g) {jobs : List Job} (hj : τ.jobs = J :: jobs) :
    Balanced owed ((τ.doing ({ J with process := (g.acquireProcess J.node J.sub).2 } :: jobs)).run (g.acquireProcess J.node J.sub).2)
      (g.acquireProcess J.node J.sub).1 := by
  have hder := derives_acquireProcess g J.node J.sub
  have hjobs : ∀ q, ∀ K ∈ ({ J with process := q } :: jobs : List Job), ∃ L ∈ τ.jobs, L.id = K.id := fun q K hK => by
    rw [hj]
    rcases List.mem_cons.1 hK with rfl | hK
    · exact ⟨J, List.mem_cons_self .., rfl⟩
    · exact ⟨K, List.mem_cons_of_mem _ hK, rfl⟩
  refine h.engage hder.derived.lastId (hjobs _) hder.instances hder.derived.outlets rfl rfl (fun a q hq => ?_) fun a ha => ?_
  · rw [count_run, count_toList]
    change (0 < q.uses ∧ q.uses = g.runCount a + (_ + τ.busy.count a)) ∧ _
    rcases acquireProcess_cases g J.node J.sub with he | ⟨b, p, -, hp, he⟩ | ⟨c, op, -, -, he⟩ <;> rw [he] at hq ⊢
    · have hruns := h.runs a q hq
      exact ⟨by simpa using hruns, .inl ⟨q, hq, rfl⟩⟩
    · have hget : (if a = b then some { p with uses := p.uses + 1 } else g.processes[a]?) = some q := (Table.get_insert ..).symm.trans hq
      clear hq
      split at hget
      · subst a
        obtain rfl := Option.some.inj hget
        have hruns := h.runs b p hp
        rw [if_pos rfl]
        exact ⟨⟨Nat.succ_pos _, by simp only; omega⟩, .inl ⟨p, hp, rfl⟩⟩
      · rename_i hne
        have hruns := h.runs a q hget
        rw [if_neg fun hc => hne (Option.some.inj hc).symm, Nat.zero_add]
        exact ⟨hruns, .inl ⟨q, hget, rfl⟩⟩
    · rw [processes_withProcess] at hq
      split at hq
      · subst a
        obtain rfl := Option.some.inj hq
        have hfresh : τ.busy.count (g.lastId + 1) = 0 := Multiset.count_eq_zero.2 fun hm => absurd (h.busy _ hm) (Nat.not_succ_le_self _)
        rw [h.runCount_of_undrawn (Nat.lt_succ_self g.lastId), hfresh, if_pos rfl]
        exact ⟨⟨Nat.one_pos, rfl⟩, .inr (Nat.lt_succ_self _)⟩
      · rename_i hne
        have hruns := h.runs a q hq
        rw [if_neg fun hc => hne (Option.some.inj hc).symm, Nat.zero_add]
        exact ⟨hruns, .inl ⟨q, hq, rfl⟩⟩
  · rcases mem_run.1 ha with ha | ha
    · refine .inr ?_
      rcases acquireProcess_cases g J.node J.sub with he | ⟨b, p, -, hp, he⟩ | ⟨c, op, -, -, he⟩ <;> rw [he] at ha ⊢
      · cases ha
      · cases ha
        exact hk.processId _ p hp
      · cases ha
        exact Nat.le_refl _
    · exact .inl ha

/-- An instance becomes live: what it uses was in hand, and its own first use is. -/
theorem Balanced.finish (h : Balanced owed τ g) (hd : Tidy τ g) {jobs : List Job} {hands : Multiset InstanceId} {busy : Multiset ProcessId}
    {children : List InstanceId} {proto : Option InstanceId} (hj : τ.jobs = J :: jobs)
    (hh : τ.hands = ↑(usedBy (J.made children proto)) + hands) (hb : τ.busy = ↑J.process.toList + busy) :
    Balanced owed ({ τ with hands, busy, jobs }.take J.id J.node) (g.enlist J.id (J.made children proto)) := by
  have hmem : J ∈ τ.jobs := hj ▸ List.mem_cons_self ..
  obtain ⟨hdrawn, hnone, -⟩ := hd.kept.job J hmem
  have hrel : g.Derived (fun _ _ => True) (g.enlist J.id (J.made children proto)) :=
    ((derives_markUsed ..).derived.mono fun _ _ _ => trivial).trans Wiring.chains_true (derived_remember ..)
  have hproc : (g.enlist J.id (J.made children proto)).processes = g.processes := rfl
  have hinst := instances_enlist g J.id (J.made children proto)
  have huse := useCount_enlist (g := g) (i := J.made children proto) hnone
  have hrun := runCount_enlist (g := g) (i := J.made children proto) hnone
  generalize g.enlist J.id (J.made children proto) = g' at hrel hproc hinst huse hrun ⊢
  have hnot : ∀ {k}, Born τ g k → k ≠ J.id := fun hk he => hk.made J hmem he.symm
  have hbo : ∀ {k}, Born τ g k → Born ({ τ with hands, busy, jobs }.take J.id J.node) g' k := fun hk =>
    hk.mono hrel.lastId fun K hK => ⟨K, hj ▸ List.mem_cons_of_mem _ hK, rfl⟩
  have hself : Born ({ τ with hands, busy, jobs }.take J.id J.node) g' J.id := by
    refine ⟨Nat.le_trans hdrawn hrel.lastId, fun K hK he => ?_⟩
    have hnodup := hd.kept.apart
    rw [hj, List.map_cons, List.nodup_cons] at hnodup
    exact hnodup.1 (List.mem_map.2 ⟨K, hK, he⟩)
  have hmade : ∀ k ∈ usedBy (J.made children proto), Born τ g k := fun k hk =>
    h.hands k (hh ▸ Multiset.mem_add.2 (.inl (Multiset.mem_coe.2 hk)))
  have hof : ∀ {k : InstanceId} {i' : Instance}, g'.instances[k]? = some i' →
      (k = J.id ∧ i' = J.made children proto) ∨ (k ≠ J.id ∧ g.instances[k]? = some i') := fun {k i'} hi' => by
    rw [hinst] at hi'
    split at hi'
    · exact .inl ⟨‹_›, (Option.some.inj hi').symm⟩
    · exact .inr ⟨‹_›, hi'⟩
  have hown : ∀ {k : InstanceId} {n : NodeId}, Born τ g k → (∀ i : Instance, g.instances[k]? = some i → i.owner = n) →
      ∀ i' : Instance, g'.instances[k]? = some i' → i'.owner = n := fun hk hn i' hi' => by
    rcases hof hi' with ⟨he, -⟩ | ⟨-, hi'⟩
    · exact absurd he (hnot hk)
    · exact hn i' hi'
  have hcount : ∀ k, τ.hands.count k = (usedBy (J.made children proto)).count k + hands.count k := fun k => by
    rw [hh, Multiset.count_add, Multiset.coe_count]
  have hcount' : ∀ k, ({ τ with hands, busy, jobs }.take J.id J.node).hands.count k = hands.count k + if k = J.id then 1 else 0 :=
    fun k => Multiset.count_cons ..
  refine ⟨⟨fun k i' hi' l hl => ?_, ?_, fun a o ho l hl => ?_, fun c hc => ?_, fun l hl => ?_, fun l hl => hbo (h.due l hl),
    fun k i' hi' p hp => ?_, fun p hp => ?_⟩, fun k i' hi' => ?_, fun p q hq => ?_⟩
  · rcases hof hi' with ⟨-, rfl⟩ | ⟨-, hi'⟩
    · exact hbo (hmade l hl)
    · exact hbo (h.used k i' hi' l hl)
  · obtain ⟨rank, hrank⟩ := h.ranked
    -- the new instance comes after all that it uses, and nothing uses it yet
    refine ⟨fun k => if k = J.id then (usedBy (J.made children proto)).foldr (fun l m => max (rank l + 1) m) 0 else rank k, fun k i' hi' l hl => ?_⟩
    rcases hof hi' with ⟨rfl, rfl⟩ | ⟨hne, hi'⟩
    · simp only [if_neg (hnot (hmade l hl)), if_true]
      generalize usedBy (J.made children proto) = ls at hl
      induction ls with
      | nil => cases hl
      | cons a ls ih =>
        rw [List.foldr_cons]
        rcases List.mem_cons.1 hl with rfl | hl
        · exact Nat.lt_of_lt_of_le (Nat.lt_succ_self _) (Nat.le_max_left ..)
        · exact Nat.lt_of_lt_of_le (ih hl) (Nat.le_max_right ..)
    · simp only [if_neg (hnot (h.used k i' hi' l hl)), if_neg hne]
      exact hrank k i' hi' l hl
  · obtain ⟨h₁, h₂⟩ := h.held a o (hrel.outlets ▸ ho) l hl
    exact ⟨hbo h₁, hown h₁ h₂⟩
  · rcases List.mem_cons.1 hc with rfl | hc
    · refine ⟨hself, fun i' hi' => ?_⟩
      rcases hof hi' with ⟨-, rfl⟩ | ⟨hne, -⟩
      · rfl
      · exact absurd rfl hne
    · obtain ⟨h₁, h₂⟩ := h.claims c hc
      exact ⟨hbo h₁, hown h₁ h₂⟩
  · rcases Multiset.mem_cons.1 hl with rfl | hl
    · exact hself
    · exact hbo (h.hands l (hh ▸ Multiset.mem_add.2 (.inr hl)))
  · rcases hof hi' with ⟨-, rfl⟩ | ⟨-, hi'⟩
    · obtain ⟨q, hq, hqo⟩ := (hd.staffed.jobs J hmem).process p hp
      refine ⟨Nat.le_trans (hd.kept.processId p q hq) hrel.lastId, fun q' hq' => ?_⟩
      rw [hproc, hq] at hq'
      obtain rfl := Option.some.inj hq'
      exact hqo
    · obtain ⟨h₁, h₂⟩ := h.process k i' hi' p hp
      exact ⟨Nat.le_trans h₁ hrel.lastId, fun q hq => h₂ q (hproc ▸ hq)⟩
  · exact Nat.le_trans (h.busy p (hb ▸ Multiset.mem_add.2 (.inr hp))) hrel.lastId
  · rw [huse, count_held_eq hrel.outlets, hcount']
    rcases hof hi' with ⟨rfl, rfl⟩ | ⟨hne, hi'⟩
    · have hun : ¬ Born τ g J.id := fun hb => hb.made J hmem rfl
      have h₁ : (usedBy (J.made children proto)).count J.id = 0 := List.count_eq_zero.2 fun hm => hun (hmade _ hm)
      have h₂ : τ.hands.count J.id = 0 := Multiset.count_eq_zero.2 fun hm => hun (h.hands _ hm)
      have h₃ : owed.count J.id = 0 := Multiset.count_eq_zero.2 fun hm => hun (h.due _ hm)
      have h₄ := hcount J.id
      rw [h₁, h₃, h.useCount_of_unborn hun, h.count_held_of_unborn hun, if_pos rfl]
      exact ⟨Nat.one_pos, by change 1 + 0 = _; omega⟩
    · have huses := h.uses k i' hi'
      have := hcount k
      rw [if_neg hne]
      omega
  · have hruns := h.runs p q (hproc ▸ hq)
    rw [hb, Multiset.count_add, Multiset.coe_count, count_toList] at hruns
    rw [hrun]
    change _ ∧ _ = (if J.process = some p then 1 else 0) + g.runCount p + busy.count p
    omega

/-! ## Processes -/

/-- A use of a process that was in hand ends, and the process goes with the last one. -/
theorem Balanced.giveBack (h : Balanced owed (τ.run q) g) : Balanced owed τ (g.giveBack q) := by
  have hder := derives_giveBack g q
  refine h.engage hder.derived.lastId (jobs_of_eq rfl) hder.instances hder.derived.outlets rfl rfl (fun a r hr => ?_)
    fun p hp => .inl (mem_run.2 (.inr hp))
  have hruns : ∀ {b : ProcessId} {p : Process}, g.processes[b]? = some p →
      0 < p.uses ∧ p.uses = g.runCount b + ((if q = some b then 1 else 0) + τ.busy.count b) := fun {b p} hp => by
    have := h.runs b p hp
    rwa [count_run, count_toList] at this
  have hkeep : g.processes[a]? = some r → q ≠ some a →
      (0 < r.uses ∧ r.uses = g.runCount a + τ.busy.count a) ∧ ((∃ p, g.processes[a]? = some p ∧ p.owner = r.owner) ∨ g.lastId < a) :=
    fun hr hne => by
      have := hruns hr
      rw [if_neg hne, Nat.zero_add] at this
      exact ⟨this, .inl ⟨r, hr, rfl⟩⟩
  rcases q with _ | b
  · exact hkeep hr nofun
  · rw [Graph.giveBack, releaseProcess] at hr
    rcases hb : g.processes[b]? with _ | p
    · simp only [hb] at hr
      exact hkeep hr fun hc => by rw [Option.some.inj hc, hr] at hb; cases hb
    · simp only [hb] at hr
      split at hr
      · rw [processes_destroyProcess hb, Table.get_erase] at hr
        split at hr
        · cases hr
        · exact hkeep hr fun hc => absurd (Option.some.inj hc).symm ‹_›
      · have hget : (if a = b then some { p with uses := p.uses - 1 } else g.processes[a]?) = some r := (Table.get_insert ..).symm.trans hr
        clear hr
        split at hget
        · subst a
          obtain rfl := Option.some.inj hget
          have := hruns hb
          rw [if_pos rfl] at this
          exact ⟨by simp only; omega, .inl ⟨p, hb, rfl⟩⟩
        · exact hkeep hget fun hc => absurd (Option.some.inj hc).symm ‹_›

/-! ## Outlets -/

/-- An outlet of a node that is not in sync holds nothing that is live. -/
theorem dead_of_unsynced (hk : Kept τ g) (hf : Sourced owed τ g) (ht : τ.tear = none) (hs : g.Unsynced n) (ho : g.outlets[oid]? = some o)
    (hn : o.owner = n) (hh : o.held = some j) : g.instances[j]? = none := by
  rcases hi : g.instances[j]? with _ | i
  · rfl
  · obtain ⟨f, hf', hin⟩ := inSync_iff.1 (hk.inSync_instance ht hi)
    rw [(hf.held oid o ho j hh).2 i hi, hn] at hf'
    rw [unsynced_iff.1 hs f hf'] at hin
    cases hin

/-- An outlet holds something else, and what it held or holds is in hand. -/
theorem Balanced.modifyHeld (h : Balanced owed τ g) (store : Store) {f : Outlet → Outlet} (ho : g.outlets[oid]? = some o)
    (hown : (f o).owner = o.owner) (hheld : ∀ j, (f o).held = some j → o.held = some j ∨ (j, o.owner) ∈ τ.claims) (hbusy : τ'.busy = τ.busy)
    (hjobs : τ'.jobs = τ.jobs) (hclaims : τ'.claims ⊆ τ.claims) (hhands : ∀ j ∈ τ'.hands, j ∈ τ.hands ∨ Born τ g j)
    (hcount : ∀ (j : InstanceId) (i : Instance), g.instances[j]? = some i →
      (if (f o).held = some j then 1 else 0) + τ'.hands.count j = (if o.held = some j then 1 else 0) + τ.hands.count j) :
    Balanced owed τ' ({ g with store }.modifyOutlet oid f) := by
  refine h.pass rfl (Nat.le_refl _) hbusy hjobs hclaims (fun id p hp => ⟨p, hp, rfl, rfl⟩) (fun id o' ho' j hj => ?_) hhands fun j i hi => ?_
  · rw [get_outlets_modifyOutlet] at ho'
    split at ho'
    · subst id
      obtain ⟨o₀, ho₀, rfl⟩ := Option.map_eq_some_iff.1 ho'
      rw [show g.outlets[oid]? = some o₀ from ho₀] at ho
      obtain rfl := Option.some.inj ho
      exact (hheld j hj).imp (fun hh => ⟨oid, o₀, ho₀, hh, hown.symm⟩) fun hc => hown ▸ hc
    · exact .inl ⟨id, o', ho', hj, rfl⟩
  · have := count_held_modify (j := j) store (f := f) ho
    have := hcount j i hi
    omega

/-- An outlet changes, but not its node and what it holds. -/
theorem Balanced.modifyOutlet (h : Balanced owed τ g) (store : Store) (requests : IdMap Request) {lastId : Nat} {f : Outlet → Outlet}
    (hl : g.lastId ≤ lastId) (hf : ∀ o, (f o).owner = o.owner ∧ (f o).held = o.held) (hhands : τ'.hands = τ.hands) (hbusy : τ'.busy = τ.busy)
    (hjobs : τ'.jobs = τ.jobs) (hclaims : τ'.claims ⊆ τ.claims) :
    Balanced owed τ' ({ g with store, requests, lastId }.modifyOutlet oid f) := by
  refine h.congr rfl hl hbusy hjobs hclaims hhands (fun id p hp => ⟨p, hp, rfl, rfl⟩) fun id => ?_
  rw [get_outlets_modifyOutlet]
  split
  · change (Option.map f g.outlets[id]?).bind _ = _
    rw [Option.bind_map]
    exact congrArg _ (funext fun o => by rw [Function.comp_apply, (hf o).1, (hf o).2])
  · rfl

theorem Balanced.unsubscribe (h : Balanced owed τ g) (id : OutletId) : Balanced owed τ (g.unsubscribe id) := by
  rw [Graph.unsubscribe]
  split
  · exact h
  · exact h.modifyOutlet _ g.requests (Nat.le_refl _) (fun _ => ⟨rfl, rfl⟩) rfl rfl rfl (List.Subset.refl _)

/-- An outlet of a node that is not in sync lets go of an instance that has gone already. -/
theorem Balanced.hush (h : Balanced owed τ g) (hd : Tidy τ g) (hp : Posted τ g) (ht : τ.tear = none) (hc : τ.closing = none)
    {d : DataNode} (hdn : g.data? n = some d) (hs : d.wiring.outOfSync = true) (hid : oid ∈ d.outlets.values) : Balanced owed τ (g.hush oid) := by
  rcases ho : g.outlets[oid]? with _ | o
  · rw [hush_none ho]
    exact h
  · obtain ⟨k, hk⟩ := Table.mem_values.1 hid
    have hown := hp.homed hc n d k oid o hdn hk ho
    have hun : g.Unsynced n := fun w hw => by
      rw [wiring?_of_data? hdn] at hw
      obtain rfl := Option.some.inj hw
      exact hs
    refine (h.unsubscribe oid).modifyHeld (g.unsubscribe oid).store ((outlets_unsubscribe g oid).trans (by rw [ho]; rfl)) rfl (fun _ hj => by cases hj) rfl rfl
      (List.Subset.refl _) (fun j hj => .inl hj) fun j i hi => ?_
    have hinst : (g.unsubscribe oid).instances = g.instances := by
      rw [Graph.unsubscribe]
      split <;> rfl
    have hdead : o.held ≠ some j := fun hh => by
      rw [hinst, dead_of_unsynced hd.kept h.toSourced ht hun ho hown hh] at hi
      cases hi
    rw [if_neg hdead, if_neg (Option.some_ne_none j).symm]

theorem balanced_move (m : Move κ τ g τ' g') (hd : Tidy τ g) (hp : Posted τ g) (h : Balanced owed τ g) : Balanced owed τ' g' := by
  have hsame : ∀ {g'' : Graph} {τ'' : Work}, g''.instances = g.instances → g''.processes = g.processes → g''.outlets = g.outlets →
      g.lastId ≤ g''.lastId → τ''.hands = τ.hands → τ''.busy = τ.busy → τ''.jobs = τ.jobs → τ''.claims ⊆ τ.claims →
      Balanced owed τ'' g'' := fun hi hp ho hl hh hb hj hc => h.same hi hl hb hj hc hh hp ho
  have hsub : τ.claims ⊆ τ.claims := List.Subset.refl _
  cases m with
  | restate hr =>
    have hrest := hr.rest
    refine h.congr ?_ ?_ rfl rfl hsub rfl (fun id p' hp' => ?_) fun id => ?_
    · obtain ⟨_, _, _, _, _, _, rfl⟩ := hrest
      rfl
    · obtain ⟨_, _, _, _, _, _, rfl⟩ := hrest
      exact Nat.le_refl _
    · have := hr.processes id
      rw [hp', Option.map_some, eq_comm, Option.map_eq_some_iff] at this
      obtain ⟨p, hp, he⟩ := this
      exact ⟨p, hp, congrArg (·.uses) he, congrArg (·.owner) he⟩
    · have := congrArg (fun x => x.bind fun o => o.held.map (o.owner, ·)) (hr.outlets id)
      simp only [Option.bind_map] at this
      exact this
  | reparent hn =>
    obtain ⟨_, rfl⟩ := hn.rest
    exact hsame rfl rfl rfl (Nat.le_refl _) rfl rfl rfl hsub
  | sync n hτ ha =>
    obtain ⟨_, _, he⟩ := (synchronize_spec ha (hd.framed.wired_of_settled hτ.stale) n).1.rest
    rw [he]
    exact hsame rfl rfl rfl (Nat.le_refl _) rfl rfl rfl hsub
  | reuse hτ hdn hs hk hi =>
    rename_i n d key id i
    have hat : g.instanceAt? n key = some id := (instanceAt?_of_wiring? (wiring?_of_data? hdn)).trans hk
    obtain ⟨i', hi', hplace⟩ := hd.kept.instances.sound n key id hat
    obtain rfl := Option.some.inj (hi.symm.trans hi')
    have hown : i.owner = n := congrArg Prod.fst hplace
    exact hown ▸ h.reuse hd.kept hi
  | start hτ ha hdn hs hk hnest => exact h.start _ rfl
  | merge hj ho =>
    obtain ⟨_, _, _, he⟩ := (hd.recached_merge hj ho).rest
    rw [he]
    exact hsame rfl rfl rfl (Nat.le_refl _) rfl rfl rfl hsub
  | operate hj => exact h.operate hd.kept hj
  | view hj =>
    refine h.engage (Nat.le_refl _) (fun K hK => ?_) rfl rfl rfl rfl (fun a q hq => ⟨h.runs a q hq, .inl ⟨q, hq, rfl⟩⟩) fun p hp => .inl hp
    rw [hj]
    rcases List.mem_cons.1 hK with rfl | hK
    · exact ⟨_, List.mem_cons_self .., rfl⟩
    · exact ⟨K, List.mem_cons_of_mem _ hK, rfl⟩
  | finish children proto hj ha hh hb => exact h.finish hd hj hh hb
  | lessen hτ hi hu => exact h.lessen hd.kept hi hu
  | dismantle hτ hi hu => exact h.dismantle hi
  | miss hi =>
    refine h.pass rfl (Nat.le_refl _) rfl rfl hsub (fun id p hp => ⟨p, hp, rfl, rfl⟩) (fun id o ho j hj => .inl ⟨id, o, ho, hj, rfl⟩)
      (fun j hj => .inl (Multiset.mem_cons_of_mem hj)) fun j i hj => ?_
    rw [count_hold, if_neg fun he => by rw [he, hi] at hj; cases hj]
    rfl
  | giveBack p hτ => exact h.giveBack
  | unwire hτ ht hw hup => exact hsame rfl rfl rfl (Nat.le_refl _) rfl rfl rfl hsub
  | destroy hτ ht =>
    rename_i n b ps is
    refine h.congr (instances_destroyProcess ..) (derives_destroyProcess ..).derived.lastId rfl rfl hsub rfl (fun a r hr => ?_)
      fun id => by rw [(derives_destroyProcess ..).derived.outlets]
    rcases hb : g.processes[b]? with _ | p
    · rw [destroyProcess, hb] at hr
      exact ⟨r, hr, rfl, rfl⟩
    · rw [processes_destroyProcess hb, Table.get_erase] at hr
      split at hr
      · cases hr
      · exact ⟨r, hr, rfl, rfl⟩
  | discard hτ ht hi => exact h.discard hd ht hi
  | pass hτ ht hi => exact hsame rfl rfl rfl (Nat.le_refl _) rfl rfl rfl hsub
  | empty hτ ht =>
    obtain ⟨f, hf, -, -⟩ := hd.framed.torn _ ht
    obtain ⟨w, hw, -⟩ := Option.map_eq_some_iff.1 hf
    rw [clearPorts_eq hw]
    exact hsame rfl rfl rfl (Nat.le_refl _) rfl rfl rfl hsub
  | hush ht hc hdn hs hid => exact h.hush hd hp ht hc hdn hs hid
  | told hst ht hs => exact hsame rfl rfl rfl (Nat.le_refl _) rfl rfl rfl hsub
  | edit hτ hj ht =>
    obtain ⟨_, _, rfl⟩ := ht.rest
    exact hsame rfl rfl rfl (Nat.le_refl _) rfl rfl rfl hsub
  | addLeaf hτ => exact hsame rfl rfl rfl (Nat.le_refl _) rfl rfl rfl hsub
  | addData b hτ => exact hsame rfl rfl rfl (Nat.le_refl _) rfl rfl rfl hsub
  | addEntry e => exact hsame rfl rfl rfl (Nat.le_refl _) rfl rfl rfl hsub
  | openOutlet hτ hc hdn hk =>
    refine h.congr rfl (Nat.le_succ _) rfl rfl hsub rfl (fun id p hp => ⟨p, hp, rfl, rfl⟩) fun id => ?_
    rw [get_outlets_openOutlet]
    split
    · subst id
      rw [hp.fresh]
      rfl
    · rfl
  | enroll ho hb =>
    exact h.modifyOutlet g.store _ (Nat.le_succ _) (fun _ => ⟨rfl, rfl⟩) rfl rfl rfl hsub
  | pin hc hb =>
    exact h.modifyOutlet g.store g.requests (Nat.le_refl _) (fun _ => ⟨rfl, rfl⟩) rfl rfl rfl hsub
  | unsubscribe id => exact h.unsubscribe id
  | giveUp ho hh =>
    refine h.modifyHeld g.store ho rfl (fun _ hj => by cases hj) rfl rfl hsub (fun j hj => ?_) fun j i hi => ?_
    · rcases Multiset.mem_cons.1 hj with rfl | hj
      · exact .inr (h.held _ _ ho _ hh).1
      · exact .inl hj
    · rw [count_hold, hh, Nat.add_comm]
      simp only [reduceCtorEq, if_false, Option.some.injEq, eq_comm]
      omega
  | attach ho hn hc hcl =>
    refine h.modifyHeld _ ho rfl (fun j hj => .inr (hcl j hj)) rfl rfl hsub (fun j hj => .inl (mem_holdAll.2 (.inr hj))) fun j i hi => ?_
    rw [count_holdAll, count_toList, hn]
    simp only [reduceCtorEq, if_false]
    omega
  | withdraw hτ hr =>
    exact h.modifyOutlet g.store _ (Nat.le_refl _) (fun _ => ⟨rfl, rfl⟩) rfl rfl rfl hsub
  | unasked hr => exact hsame rfl rfl rfl (Nat.le_refl _) rfl rfl rfl hsub
  | keep hb ho => exact hsame rfl rfl rfl (Nat.le_refl _) rfl rfl rfl hsub
  | close hb hτ ho he hpin hc =>
    refine h.pass rfl (Nat.le_refl _) rfl rfl hsub (fun id p hp => ⟨p, hp, rfl, rfl⟩) (fun id o' ho' j hj => .inl ⟨id, o', ?_, hj, rfl⟩)
      (fun j hj => (mem_holdAll.1 hj).symm.imp_right fun hm => ?_) fun j i hi => ?_
    · rw [Table.get_erase] at ho'
      split at ho'
      · cases ho'
      · exact ho'
    · exact (h.held _ _ ho j (Option.mem_toList.1 hm)).1
    · have hheld := count_held_erase (j := j) ho
      rw [count_holdAll, count_toList, ← hheld]
      exact (Nat.add_left_comm ..).trans (Nat.add_assoc ..).symm
  | forget hc => exact hsame rfl rfl rfl (Nat.le_refl _) rfl rfl rfl hsub
  | uproot hτ hj hc hrefs hs hidle =>
    refine h.congr rfl (Nat.le_refl _) rfl rfl hsub rfl (fun id p hp => ⟨p, hp, rfl, rfl⟩) fun id => ?_
    rw [show (g.cutOff _).outlets[id]? = _ from get_eraseAll ..]
    split
    · rename_i hid
      rcases ho : g.outlets[id]? with _ | o
      · rfl
      · rw [Option.bind_none, Option.bind_some, (hidle id hid o ho).1]
        rfl
    · rfl
  | disclaim hsub => exact hsame rfl rfl rfl (Nat.le_refl _) rfl rfl rfl hsub

end Graph

end Dataflow
