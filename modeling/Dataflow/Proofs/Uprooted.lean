import Dataflow.Proofs.Posted
import Dataflow.Proofs.Withdrawn

/-!
# Removing a node

A node that is removed is detached from all that refer to it, and then goes with everything derived from it, with its outlets and with
their requests. What is left is consistent.
-/

namespace Dataflow

namespace Graph

variable {g g' : Graph} {n : NodeId} {new : List String → Prop}

/-- What is posted and is not being closed is enrolled. -/
theorem Posted.toEnrolled {τ : Work} (h : Posted τ g) (hc : τ.closing = none) : g.Enrolled := by
  have hat : ∀ {m d} {k : String}, g.data? m = some d → g.outletAt? m k = d.outlets[k]? := fun hd => outletAt?_of_data? hd
  refine ⟨fun m d k id hd hk => ?_, fun id o ho => ?_, fun id o ho => ?_, h.requestId, h.enrolled, h.known⟩
  · rcases h.memo m k id ((hat hd).trans hk) with hcl | ⟨o, ho, hp⟩
    · rw [hc] at hcl
      cases hcl
    · exact ⟨o, ho, congrArg Prod.fst hp, congrArg Prod.snd hp⟩
  · have hk := h.home id o ho
    rcases hd : g.data? o.owner with _ | d
    · rw [show o.place = (o.owner, outletKey o.filter) from rfl, outletAt?, hd] at hk
      cases hk
    · exact ⟨d, rfl, (hat hd).symm.trans hk⟩
  · exact h.outletId _ _ id (h.home id o ho)

/-- The outlets that a node keeps are its own, and it keeps all of them. -/
theorem Enrolled.mem_outletsOf (h : g.Enrolled) {id : OutletId} {o : Outlet} (ho : g.outlets[id]? = some o) :
    id ∈ g.outletsOf n ↔ o.owner = n := by
  constructor
  · intro hid
    rw [outletsOf] at hid
    rcases hd : g.data? n with _ | d
    · rw [hd] at hid
      cases hid
    · rw [hd] at hid
      obtain ⟨k, hk⟩ := Table.mem_values.1 hid
      obtain ⟨o', ho', hown, -⟩ := h.memo n d k id hd hk
      cases ho.symm.trans ho'
      exact hown
  · rintro rfl
    obtain ⟨d, hd, hk⟩ := h.home id o ho
    rw [outletsOf, hd]
    exact Table.mem_values.2 ⟨_, hk⟩

theorem node?_cutOff (g : Graph) (n m : NodeId) : (g.cutOff n).node? m = if m = n then none else g.node? m := Arena.get?_erase ..

theorem data?_cutOff (g : Graph) (n m : NodeId) : (g.cutOff n).data? m = if m = n then none else g.data? m := by
  rw [data?, node?_cutOff]
  split <;> rfl

theorem leaf?_cutOff (g : Graph) (n m : NodeId) : (g.cutOff n).leaf? m = if m = n then none else g.leaf? m := by
  rw [leaf?, node?_cutOff]
  split <;> rfl

/-- A graph is sound but for a node that nobody refers to and from which nothing is derived; without it, the graph is sound. -/
theorem SoundBut.cutOff {hands : List InstanceId} (h : SoundBut (· = n) hands g) (hb : g.Blank n) (ha : (g.cutOff n).Authored) :
    SoundBut (fun _ => False) hands (g.cutOff n) := by
  have hdata := data?_cutOff g n
  have hleaf := leaf?_cutOff g n
  have hmap : ∀ m q o, (g.cutOff n).mapId m q = some o → m ≠ n ∧ g.mapId m q = some o := by
    intro m q o ho
    rw [mapId, wiring?, hdata] at ho
    split at ho
    · cases ho
    · exact ⟨‹_›, ho⟩
  have hrefs : ∀ m r, r ∈ (g.cutOff n).references m → m ≠ n ∧ r ∈ g.references m := by
    intro m r hr
    rw [references, hdata] at hr
    split at hr
    · cases hr
    · exact ⟨‹_›, hr⟩
  have hsp : Spares (· = n) g (g.cutOff n) :=
    { Spares.refl (· = n) g with
      data := fun m hm => by rw [inner?, hdata, if_neg hm, inner?]
      leaf := fun m hm => (hleaf m).trans (if_neg hm)
      mapIn := by
        rintro o - ⟨m, q, hm, ho⟩
        exact absurd hm (hmap m q o ho).1
      bounded := fun hall m q o ho => hall m q o (hmap m q o ho).2
      apart := fun hall m q m' q' o ho ho' => hall m q m' q' o (hmap m q o ho).2 (hmap m' q' o ho').2 }
  have hs : SoundBut (· = n) hands (g.cutOff n) := by
    refine h.spared hsp ha.founded (fun m d hd => ?_) (fun m r hr hD => ?_) (fun m l e hl he => ?_) h.mirrored h.uses
    · rw [design?, hdata] at hd
      split at hd
      · cases hd
      · exact h.plain m d hd
    · obtain ⟨-, hr⟩ := hrefs m r hr
      exact h.upward m r hr hD
    · rw [hleaf] at hl
      split at hl
      · cases hl
      · exact h.leaves m l e hl he
  refine hs.shrink (fun _ _ _ h => h) (fun m d _ hd hst => ?_) fun m hm _ => ?_
  · by_cases hm : m = n
    · rw [hdata, if_pos hm] at hd
      cases hd
    · exact hs.wired m d hm hd hst
  · have hnone : (g.cutOff n).wiring? m = none := by rw [wiring?, hdata, if_pos hm]; rfl
    subst hm
    refine ⟨hb.vacant.instances, hb.vacant.processes, fun port x k => by rw [cell?, hnone]; rfl, fun w k hw => ?_⟩
    rw [hnone] at hw
    cases hw

/-- A node that nobody refers to goes, with its outlets and their requests, and the other outlets see nothing of it. -/
theorem Consistent.uproot (h : g.Consistent) (hn : ∀ m, n ∉ g.references m) (he : (g.uproot n).Enrolled) :
    Upholds new g (g.uproot n) ∧ g.Retains (g.uproot n) := by
  have ha := authored_uproot h.tended.authored hn
  have hnoted := Noted.unlinkAll n (g.references n) g
  rw [Graph.uproot] at he ha ⊢
  generalize (g.references n).foldl (fun g child => g.unlink n child) g = g₁ at hnoted he ha ⊢
  have hinner : ∀ m, g₁.inner? m = g.inner? m := fun m => by rw [inner?, hnoted.data, inner?]
  have hrefs : ∀ m, g₁.references m = g.references m := fun m => by rw [references, hnoted.data, references]
  have hleaf := hnoted.leaf
  have hids : g₁.outletsOf n = g.outletsOf n := by rw [outletsOf, hnoted.data, outletsOf]
  rw [dropOutlets_eq] at he ha ⊢
  obtain ⟨nodes, rfl⟩ := hnoted.rest
  have hsound : SoundBut (fun _ => False) g.held { g with nodes } :=
    h.tended.sound.calm (spares_noted ⟨_, _, _, _, _, rfl⟩ (Nat.le_refl _) hinner hleaf) rfl h.tended.sound.mirrored
  have hupward : Upward { g with nodes } (· = n) := by
    rintro m r hr rfl
    exact absurd (hrefs m ▸ hr) (hn m)
  have hown : ∀ id ∈ outletsOf { g with nodes } n, ∀ o : Outlet, g.outlets[id]? = some o → o.owner = n := fun id hid o ho =>
    (h.tended.enrolled.mem_outletsOf ho).1 (hids ▸ hid)
  obtain ⟨hc, hb⟩ := (hsound.weaken (fun _ hm => hm.elim) hupward).cleared_resetWiring hsound.listed rfl
  obtain ⟨hc', -⟩ := hc.sound.cleared_staleStructure (n := n) hc.listed fun id hid o ho => by
    obtain ⟨o', ho', hsame, -⟩ := hc.owner ho
    rw [← hsame]
    exact hown id (hc.outletsOf n ▸ hid) o' ho'
  have hall := hc.trans hc'
  have hb' := hb.of_fades hc'.fades
  have hids' := hall.outletsOf n
  generalize (Graph.resetWiring { g with nodes } n).staleStructure n = g₃ at hall hb' hids' he ha ⊢
  have hdesign : g.SameDesign g₃ := (SameDesign.of_inner hinner hleaf rfl).trans (hall.fades.rewired.sameDesign hall.rest.2.1)
  have hbelow : ∀ m, m ≠ n → g.SameBelow (g₃.cutOff n) m := fun m hm =>
    (hdesign.sameBelow m).trans (sameBelow_of_apart (fun hb => not_below_of_unreferenced hn hm (hdesign.below.1 hb))
      (fun m hm => by rw [data?_cutOff, if_neg hm]) fun m hm => by rw [leaf?_cutOff, if_neg hm])
  have hout : ∀ (id : OutletId) (o : Outlet), (g₃.cutOff n).outlets[id]? = some o → g.outlets[id]? = some o ∧ o.owner ≠ n := by
    intro id o ho
    have ho := (get_eraseAll (g₃.outletsOf n) g₃.outlets id).symm.trans ho
    split at ho
    · cases ho
    rename_i hid
    rw [hids', hids] at hid
    rcases hall.outlets id with hsame | ⟨o', ho', hD, -⟩
    · have ho' : g.outlets[id]? = some o := hsame ▸ ho
      exact ⟨ho', fun hn => hid ((h.tended.enrolled.mem_outletsOf ho').2 hn)⟩
    · exact absurd ((h.tended.enrolled.mem_outletsOf ho').2 hD) hid
  have hto : ∀ (id : OutletId) (o : Outlet), g.outlets[id]? = some o → o.owner ≠ n → (g₃.cutOff n).outlets[id]? = some o := by
    intro id o ho hne
    refine (get_eraseAll (g₃.outletsOf n) g₃.outlets id).trans ?_
    rw [if_neg fun hid => hne ((h.tended.enrolled.mem_outletsOf ho).1 (hids ▸ hids' ▸ hid))]
    rcases hall.outlets id with hsame | ⟨o', ho', hD, -⟩
    · exact hsame.trans ho
    · cases ho.symm.trans ho'
      exact absurd hD hne
  have hwanes : g.Wanes (g₃.cutOff n) := { hall.fades.toWanes with }
  have hgone : ∀ {id : InstanceId} {i : Instance}, (g₃.cutOff n).instances[id]? = some i → i.owner ≠ n := fun hi => hb'.vacant.instances _ _ hi
  have htended := h.tended.waned ha (hall.sound.cutOff hb' ha) he (fun j i hi => count_held_congr fun k => ?_) fun id o ho => ?_
  · refine ⟨⟨⟨htended, h.current.wanes h.tended.sound htended hwanes hall.rest.2.2.2 hall.rest.2.1 fun id o ho hr =>
      ⟨o, (hout id o ho).1, hr, rfl, rfl⟩, ?_⟩, ⟨Nat.le_of_eq hwanes.lastId.symm, fun r q hq => .inl ⟨q, ?_, rfl⟩,
      fun id o ho => .inl ⟨o, (hout id o ho).1, rfl, rfl⟩⟩, hall.rest.2.1, hwanes.tolerance⟩, hwanes.concurs, fun id o ho _ =>
      ⟨o, (hout id o ho).1, .refl o, hbelow o.owner (hout id o ho).2⟩⟩
    · exact hall.rest.2.1 ▸ h.named
    · have hq := (get_eraseAll ((g₃.outletsOf n).flatMap g₃.requestsAt) g₃.requests r).symm.trans hq
      split at hq
      · cases hq
      · exact hall.rest.1 ▸ hq
  · -- an outlet that went held the node's own instance
    constructor
    · intro hk
      obtain ⟨o, ho, hj⟩ := Option.bind_eq_some_iff.1 hk
      rw [(hout k o ho).1, Option.bind_some, hj]
    · intro hk
      obtain ⟨o, ho, hj⟩ := Option.bind_eq_some_iff.1 hk
      obtain ⟨i', hi', hown'⟩ := ((h.tended.outlet k o ho).serves hj).exists_instance
      have hne : i.owner ≠ n := hgone hi
      obtain ⟨u, hu⟩ := hwanes.instancesOf j i hi
      cases hi'.symm.trans hu
      rw [hto k o ho (hown' ▸ hne), Option.bind_some, hj]
  · obtain ⟨ho', hne⟩ := hout id o ho
    refine .inr ⟨ho', fun j i hj hi hown' => ?_, fun c hl hw => hall.listens c id o ho' hne hl hw⟩
    obtain ⟨u, hu⟩ := hall.kept j (mem_held.2 ⟨id, o, ho', hj⟩) i hi (by rw [hown']; exact hne)
    refine ⟨⟨u, hu⟩, ?_⟩
    have hin := hall.data j _ hu (by rw [hown']; exact hne)
    have hnode : (g₃.cutOff n).node? o.owner = g₃.node? o.owner := (node?_cutOff ..).trans (if_neg hne)
    rw [wiring?, data?, hnode, wiring?_eq, ← hinner, ← hown', ← hin, ← wiring?_eq]
    rfl

/-- Removing a node keeps the graph consistent, if outlets and requests stay enrolled. -/
theorem Consistent.removeNode (h : g.Consistent) (he : (g.removeNode n).1.Enrolled) : Upholds new g (g.removeNode n).1 := by
  rw [removeNode_eq] at he ⊢
  split at he
  · rename_i hn
    rw [if_pos hn]
    have hd : Upholds new g (g.detachFromParents n).1 := (revised_detach h.tended.authored (.remove n)).upholds nofun nofun h
    exact hd.trans (hd.consistent.uproot (not_mem_references_detach h.tended.authored hn) he).1
  · rename_i hn
    rw [if_neg hn]
    exact h.upholds

end Graph

end Dataflow
