import Dataflow.Proofs.Aging
import Dataflow.Proofs.Current

/-!
# What an outlet sees stays

What is built and what is taken down leave the entries, channels and processes that both graphs have. An outlet that is ready afterwards
was ready before and shows the same, and what is authored at and below its node is the same: an edit there would have been told.
-/

namespace Dataflow

/-- The outlet shows what it showed before: the same channels and the same result of the same node, in the same state. -/
structure Outlet.Echoes (o o' : Outlet) : Prop where
  owner : o'.owner = o.owner
  channels : o'.channels = o.channels
  result : o'.result = o.result
  status : o'.status = o.status

theorem Outlet.Echoes.refl (o : Outlet) : o.Echoes o := ⟨rfl, rfl, rfl, rfl⟩

theorem Outlet.Echoes.trans {o o' o'' : Outlet} (h : o.Echoes o') (h' : o'.Echoes o'') : o.Echoes o'' :=
  ⟨h'.owner.trans h.owner, h'.channels.trans h.channels, h'.result.trans h.result, h'.status.trans h.status⟩

namespace Graph

variable {g g' : Graph} {n m p : NodeId}

/-! ## What is below a node -/

/-- What is at or below a node is authored the same. -/
def SameBelow (g g' : Graph) (n : NodeId) : Prop := ∀ m, g.Below n m → g'.design? m = g.design? m ∧ g'.leaf? m = g.leaf? m

theorem SameDesign.sameBelow (h : g.SameDesign g') (n : NodeId) : g.SameBelow g' n := fun m _ => ⟨h.design m, h.leaf m⟩

theorem SameDesign.of_inner (hinner : ∀ m, g'.inner? m = g.inner? m) (hleaf : ∀ m, g'.leaf? m = g.leaf? m)
    (hreg : g'.registry = g.registry) : g.SameDesign g' :=
  ⟨fun m => by rw [design?_eq, hinner, design?_eq], hleaf, hreg⟩

/-- A change of one node is not seen below the nodes that it is not below. -/
theorem sameBelow_of_apart (hn : ¬ g.Below n p) (hd : ∀ m, m ≠ p → g'.data? m = g.data? m) (hl : ∀ m, m ≠ p → g'.leaf? m = g.leaf? m) :
    g.SameBelow g' n := by
  intro m hm
  have hne : m ≠ p := by
    rintro rfl
    exact hn hm
  exact ⟨by rw [design?, hd m hne, design?], hl m hne⟩

theorem Upward.of_below {D : NodeId → Prop} (h : g.Upward D) (hb : g.Below n m) (hm : D m) : D n := by
  induction hb using Relation.ReflTransGen.head_induction_on with
  | refl => exact hm
  | head hr _ ih => exact h _ _ hr ih

/-- Nothing else is above a node that nobody refers to. -/
theorem not_below_of_unreferenced (hp : ∀ m, p ∉ g.references m) (hn : n ≠ p) : ¬ g.Below n p := by
  intro hb
  cases hb with
  | refl => exact hn rfl
  | tail _ hr => exact hp _ hr

theorem SameBelow.references (h : g.SameBelow g' n) (hm : g.Below n m) : g'.references m = g.references m := by
  rw [references_eq, references_eq, (h m hm).1]

theorem SameBelow.below_iff (h : g.SameBelow g' n) : g'.Below n m ↔ g.Below n m := by
  constructor
  · intro hb
    induction hb with
    | refl => exact Leads.refl n
    | tail _ hr ih => exact Leads.tail ih (h.references ih ▸ hr)
  · intro hb
    induction hb with
    | refl => exact Leads.refl n
    | @tail a b ha hr ih =>
      have ha : g.Below n a := ha
      exact Leads.tail ih (by rw [h.references ha]; exact hr)

theorem SameBelow.trans {g'' : Graph} (h : g.SameBelow g' n) (h' : g'.SameBelow g'' n) : g.SameBelow g'' n := fun m hm =>
  ⟨(h' m (h.below_iff.2 hm)).1.trans (h m hm).1, (h' m (h.below_iff.2 hm)).2.trans (h m hm).2⟩

/-! ## What both graphs have -/

/-- Entries, channels and processes that both graphs have are the same, up to the uses of these, and new channels have new ids. -/
structure Concurs (g g' : Graph) : Prop where
  entries : ∀ e x x', g.entryAt? e = some x → g'.entryAt? e = some x' → x' = x
  lasts : g.store.Lasts g'.store
  processes : ∀ (k : ProcessId) (p p' : Process), g.processes[k]? = some p → g'.processes[k]? = some p' → ∃ u, p' = { p with uses := u }

theorem Wanes.concurs (h : g.Wanes g') : g.Concurs g' := by
  refine ⟨fun e x x' hx hx' => ?_, ⟨Nat.le_of_eq h.next.symm, fun c w hw _ => h.wiresOf c w hw⟩, fun k p p' hk hk' => ?_⟩
  · exact Option.some.inj ((h.entriesOf e x' hx').symm.trans hx)
  · obtain ⟨u, hu⟩ := h.processesOf k p' hk'
    cases hk.symm.trans hu
    exact ⟨p'.uses, rfl⟩

/-- What was there stays. -/
theorem Concurs.of_more (he : ∀ e x, g.entryAt? e = some x → g'.entryAt? e = some x)
    (hl : g.store.Lasts g'.store)
    (hp : ∀ (k : ProcessId) (p : Process), g.processes[k]? = some p → ∃ u, g'.processes[k]? = some { p with uses := u }) : g.Concurs g' := by
  refine ⟨fun e x x' hx hx' => ?_, hl, fun k p p' hk hk' => ?_⟩
  · exact Option.some.inj (hx'.symm.trans (he e x hx))
  · obtain ⟨u, hu⟩ := hp k p hk
    exact ⟨u, Option.some.inj (hk'.symm.trans hu)⟩

/-- What both graphs have is the same, and so is what ready outlets show, and what is authored below their nodes. -/
structure Retains (g g' : Graph) : Prop where
  concurs : g.Concurs g'
  ready : ∀ (id : OutletId) (o' : Outlet), g'.outlets[id]? = some o' → o'.status = .ready →
    ∃ o : Outlet, g.outlets[id]? = some o ∧ o.Echoes o' ∧ g.SameBelow g' o.owner

theorem Retains.refl (g : Graph) : g.Retains g :=
  ⟨(Wanes.refl g).concurs, fun _ o' ho' _ => ⟨o', ho', .refl o', (SameDesign.refl g).sameBelow _⟩⟩

/-- A change of what is noted of outlets and requests alone. -/
theorem retains_of_echoes (hrest : ∃ nodes nextMap outlets requests lastId journal,
      g' = { g with nodes, store := { g.store with nextMap }, outlets, requests, lastId, journal })
    (hout : ∀ (id : OutletId) (o' : Outlet), g'.outlets[id]? = some o' → o'.status = .ready →
      ∃ o : Outlet, g.outlets[id]? = some o ∧ o.Echoes o' ∧ g.SameBelow g' o.owner) : g.Retains g' := by
  refine ⟨?_, hout⟩
  obtain ⟨_, _, _, _, _, _, rfl⟩ := hrest
  exact .of_more (fun _ _ hx => hx) (.of_channels rfl) fun _ p hp => ⟨p.uses, hp⟩

end Graph

end Dataflow
