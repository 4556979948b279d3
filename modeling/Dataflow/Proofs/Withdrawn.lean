import Dataflow.Proofs.Resolved

/-!
# Releasing requests

A request that is released is forgotten by its outlet, and an outlet that nobody asks for any more goes: it stops listening, the instance
that it held is released, and its node forgets it. What is left is consistent.
-/

namespace Dataflow

namespace Graph

variable {g g' : Graph} {id : OutletId} {o : Outlet} {r : RequestId} {new : List String → Prop}

/-! ## Dropping an outlet -/

/-- The graph without an outlet, when its node has yet to forget it and what it held is yet to be released. -/
def closed (g : Graph) (id : OutletId) (o : Outlet) : Graph :=
  { g with store := g.store.unlistenAll (.outlet id) (o.channels.values.map some), outlets := g.outlets.erase id }

theorem dropOutlet_eq (ho : g.outlets[id]? = some o) :
    g.dropOutlet id o = (o.held.toList.foldl releaseInstance (g.closed id o)).modifyData o.owner
      fun d => { d with outlets := d.outlets.erase (outletKey o.filter) } := by
  have hclosed : { g.unsubscribe id with outlets := (g.unsubscribe id).outlets.erase id } = g.closed id o := by
    have hout : ((g.outlets.modify id ({ · with channels := ∅ })).erase id : IdMap Outlet) = g.outlets.erase id := by
      refine Std.ExtTreeMap.ext_getElem? fun {k} => ?_
      rw [Table.get_erase, Table.get_erase, Table.get_modify]
      split <;> rfl
    rw [unsubscribe, ho, closed, Store.unlistenAll, List.foldl_map, ← hout]
    rfl
  rw [dropOutlet, hclosed]
  rcases o.held with _ | j <;> rfl

theorem count_held_closed (ho : g.outlets[id]? = some o) (j : InstanceId) :
    g.held.count j = o.held.toList.count j + (g.closed id o).held.count j := by
  have hothers : ∀ k : OutletId, k ≠ id → (g.closed id o).outlets[k]? = g.outlets[k]? := fun k hk => (Table.get_erase ..).trans (if_neg hk)
  have hcount := count_held_add hothers j
  have hgone : (g.closed id o).outlets[id]? = none := (Table.get_erase ..).trans (if_pos rfl)
  have hnone : (if (none : Option InstanceId) = some j then 1 else 0) = 0 := if_neg fun hn => by cases hn
  rw [hgone, ho, Option.bind_some, Option.bind_none, hnone] at hcount
  have hown : o.held.toList.count j = if o.held = some j then 1 else 0 := by
    rcases o.held with _ | k <;> simp [List.count_singleton]
  omega

/-- Dropping an outlet keeps the graph consistent, if the other outlets and their requests stay enrolled, and they see nothing of it. -/
theorem Consistent.dropOutlet (h : g.Consistent) (ho : g.outlets[id]? = some o) (he : (g.dropOutlet id o).Enrolled) :
    Upholds new g (g.dropOutlet id o) ∧ g.Retains (g.dropOutlet id o) := by
  have hsp := spares_unlisten (fun _ => False) g id (o.channels.values.map some)
  have hf := fades_unlisten g id (o.channels.values.map some)
  have h₁ : SoundBut (fun _ => False) (o.held.toList ++ (g.closed id o).held) (g.closed id o) := by
    have h₀ := (h.tended.sound.of_wanes hsp hf.toWanes hf.rewired h.tended.sound.uses).aside (g.outlets.erase id) g.requests g.plans g.journal
    refine { h₀ with uses := fun j i hi hD => ?_ }
    rw [List.count_append, ← count_held_closed ho]
    exact h₀.uses j i hi hD
  have hw₁ : g.Wanes (g.closed id o) := { hf.toWanes with }
  obtain ⟨h₂, hdrops, hkept, hdata⟩ := released_foldl (f := releaseInstance) (k := g.instances.size + 1)
    (fun h _ => releaseWithin_spec _ h (Nat.lt_succ_self _)) o.held.toList h₁ (Nat.lt_succ_self _)
  rw [dropOutlet_eq ho] at he ⊢
  generalize o.held.toList.foldl releaseInstance (g.closed id o) = g₂ at he h₂ hdrops hkept hdata ⊢
  have hinner : ∀ m, (g₂.modifyData o.owner fun d => { d with outlets := d.outlets.erase (outletKey o.filter) }).inner? m = g₂.inner? m :=
    fun m => inner?_modifyOutlets g₂ o.owner m (·.erase _)
  have hleaf : ∀ m, (g₂.modifyData o.owner fun d => { d with outlets := d.outlets.erase (outletKey o.filter) }).leaf? m = g₂.leaf? m :=
    fun m => leaf?_modifyData g₂ o.owner m _
  have hsp₂ : Spares (fun _ => False) g₂ (g₂.modifyData o.owner fun d => { d with outlets := d.outlets.erase (outletKey o.filter) }) :=
    spares_noted ⟨_, _, _, _, _, rfl⟩ (Nat.le_refl _) hinner hleaf
  have hout : ∀ k : OutletId, g₂.outlets[k]? = if k = id then none else g.outlets[k]? := by
    intro k
    rw [hdrops.derived.outlets]
    exact Table.get_erase ..
  have ha : g₂.Authored := hdrops.derived.rewired.authored (g := g.closed id o) { h.tended.authored with }
  have hwanes : g.Wanes (g₂.modifyData o.owner fun d => { d with outlets := d.outlets.erase (outletKey o.filter) }) :=
    (hw₁.trans hdrops.toWanes).trans { Wanes.refl g₂ with }
  have hof : ∀ {k : OutletId} {p : Outlet}, g₂.outlets[k]? = some p → k ≠ id ∧ g.outlets[k]? = some p := by
    intro k p hp
    rw [hout] at hp
    split at hp
    · cases hp
    · exact ⟨‹_›, hp⟩
  have hrest : g₂.held = (g.closed id o).held := held_of_outlets_eq hdrops.derived.outlets
  have htended := h.tended.waned (ha.modifyOutlets o.owner (·.erase (outletKey o.filter))) (h₂.calm hsp₂ rfl h₂.mirrored) he
    (fun j i hi => congrArg (List.count j) hrest) fun k p hp => ?_
  · have hdesign : g.SameDesign g₂ := ⟨hdrops.sameDesign.design, hdrops.sameDesign.leaf, hdrops.sameDesign.registry⟩
    refine ⟨⟨⟨htended, h.current.wanes h.tended.sound htended hwanes hdrops.derived.plans hdrops.derived.registry fun k p hp hr =>
      ⟨p, (hof hp).2, hr, rfl, rfl⟩, ?_⟩, ⟨Nat.le_of_eq hwanes.lastId.symm, fun r q hq => .inl ⟨q, hdrops.derived.requests ▸ hq, rfl⟩,
      fun k p hp => .inl ⟨p, (hof hp).2, rfl, rfl⟩⟩, hdrops.derived.registry, hwanes.tolerance⟩, hwanes.concurs, fun k p hp _ =>
      ⟨p, (hof hp).2, .refl p, (hdesign.trans (.of_inner hinner hleaf rfl)).sameBelow _⟩⟩
    exact hdrops.derived.registry ▸ h.named
  · obtain ⟨hk, hp'⟩ := hof hp
    refine .inr ⟨hp', fun j i hj hi hown => ?_, fun c hl hw => ?_⟩
    · have hmem : j ∈ (g.closed id o).held := mem_held.2 ⟨k, p, (Table.get_erase ..).trans ((if_neg hk).trans hp'), hj⟩
      obtain ⟨u, hu⟩ := hkept j hmem i hi not_false
      refine ⟨⟨u, hu⟩, ?_⟩
      have hinner := hdata j _ hu not_false
      rw [wiring?_eq, inner?_modifyOutlets g₂ o.owner p.owner (·.erase (outletKey o.filter)), wiring?_eq, ← hown]
      exact congrArg (Option.map Prod.snd) hinner
    · exact hdrops.outlets c k (g.store.listens_unlistenAll (fun he => hk (by cases he; rfl)) _ hl) hw

/-! ## Releasing a request -/

/-- A request that goes is forgotten by its outlet. -/
theorem Consistent.withdrawn (h : g.Consistent) {q : Request} (hq : g.requests[r]? = some q) : Upholds new g (g.withdraw r q.outlet) := by
  have he := h.tended.enrolled
  have hreq : ∀ r' : RequestId, (g.requests.erase r)[r']? = if r' = r then none else g.requests[r']? := fun r' => Table.get_erase ..
  have hout : ∀ k : OutletId, (g.withdraw r q.outlet).outlets[k]? =
      if k = q.outlet then (g.outlets[k]?).map fun o => { o with requests := o.requests.erase r } else g.outlets[k]? :=
    fun k => get_outlets_modifyOutlet ..
  have hmem : ∀ (o : Outlet) r', r' ∈ o.requests.erase r ↔ r' ≠ r ∧ r' ∈ o.requests := fun o r' => by
    rw [Std.ExtTreeSet.mem_erase, ne_eq, Std.LawfulEqCmp.compare_eq_iff_eq, eq_comm]
  have hof : ∀ {k : OutletId} {p' : Outlet}, (g.withdraw r q.outlet).outlets[k]? = some p' → ∃ p : Outlet, g.outlets[k]? = some p ∧
      p.owner = p'.owner ∧ p.filter = p'.filter ∧ ∀ r', r' ∈ p'.requests ↔ (k = q.outlet → r' ≠ r) ∧ r' ∈ p.requests := by
    intro k p' hp'
    rw [hout] at hp'
    split at hp'
    · obtain ⟨p, hp, rfl⟩ := Option.map_eq_some_iff.1 hp'
      exact ⟨p, hp, rfl, rfl, fun r' => by rw [hmem]; simp [*]⟩
    · exact ⟨p', hp', rfl, rfl, fun r' => by simp [*]⟩
  have hto : ∀ {k : OutletId} {p : Outlet}, g.outlets[k]? = some p → ∃ p' : Outlet, (g.withdraw r q.outlet).outlets[k]? = some p' ∧
      p'.owner = p.owner ∧ p'.filter = p.filter ∧ ∀ r', r' ≠ r → r' ∈ p.requests → r' ∈ p'.requests := by
    intro k p hp
    rw [hout, hp]
    split
    · exact ⟨_, rfl, rfl, rfl, fun r' hne hr => (hmem p r').2 ⟨hne, hr⟩⟩
    · exact ⟨p, rfl, rfl, rfl, fun r' _ hr => hr⟩
  refine h.modifyOutlet (Nat.le_refl g.lastId) (fun o => ⟨⟨rfl, rfl, rfl, rfl, Iff.rfl⟩, rfl, rfl⟩) (fun r' q' hq' => ?_)
    ⟨fun m d k id hd hk => ?_, fun k p hp => ?_, fun k p hp => ?_, fun r' q' hq' => ?_, fun r' q' hq' => ?_, fun k p r' hp hr => ?_⟩
  · rw [hreq] at hq'
    split at hq'
    · cases hq'
    · exact .inl ⟨q', hq', rfl⟩
  · obtain ⟨p, hp, hown, hkey⟩ := he.memo m d k id hd hk
    obtain ⟨p', hp', hown', hf, -⟩ := hto hp
    exact ⟨p', hp', hown'.trans hown, by rw [hf]; exact hkey⟩
  · obtain ⟨p', hp', hown, hf, -⟩ := hof hp
    rw [← hown, ← hf]
    exact he.home k p' hp'
  · obtain ⟨p', hp', -⟩ := hof hp
    exact he.outletId k p' hp'
  · have hq' := (hreq r').symm.trans hq'
    split at hq'
    · cases hq'
    · exact he.requestId r' q' hq'
  · have hq' := (hreq r').symm.trans hq'
    split at hq'
    · cases hq'
    · obtain ⟨p, hp, hr⟩ := he.asked r' q' hq'
      obtain ⟨p', hp', -, -, hall⟩ := hto hp
      exact ⟨p', hp', hall r' ‹_› hr⟩
  · obtain ⟨p', hp', -, -, hall⟩ := hof hp
    obtain ⟨hne, hr⟩ := (hall r').1 hr
    obtain ⟨q', hq', hk⟩ := he.known k p' r' hp' hr
    refine ⟨q', (hreq r').trans ((if_neg fun hrr => ?_).trans hq'), hk⟩
    rw [hrr, hq] at hq'
    cases hq'
    exact hne hk.symm hrr

/-- Releasing a request keeps the graph consistent, if outlets and requests stay enrolled. -/
theorem Consistent.releaseRequest (h : g.Consistent) (he : (g.releaseRequest r).Enrolled) : Upholds new g (g.releaseRequest r) := by
  rcases releaseRequest_cases g r with ⟨heq, -⟩ | ⟨q, hq, ⟨heq, -⟩ | ⟨o, ho, -, -, heq⟩⟩ <;> rw [heq] at he ⊢
  · exact h.upholds
  · exact h.withdrawn hq
  · have hw : Upholds new g (g.withdraw r q.outlet) := h.withdrawn hq
    exact hw.trans (hw.consistent.dropOutlet ho he).1

end Graph

end Dataflow
