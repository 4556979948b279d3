import Dataflow.Proofs.Counts

/-!
# Indexed graphs: what is derived is listed where it belongs

Instances, processes, outlets and requests are held by the graph under their ids, and listed once more where they belong: instances,
processes and outlets at their nodes, under their keys, and requests at their outlets. Between calls the two sides agree, whatever was
built, released, reset or removed; and with a node goes all that is derived from it.
-/

namespace Dataflow

/-- Removing a node asks for nothing. -/
theorem Account.asked_book_remove (a : Account) (n : NodeId) (answer : Except Error Reply) : (a.book (.remove n) answer).asked ⊆ a.asked := by
  rcases answer with e | reply
  · exact fun _ h => h
  · exact List.filter_subset_self _

namespace Graph

variable {g : Graph} {n : NodeId} {a : Account}

/-- Both sides of every listing agree, and owners of instances are in sync. -/
structure Indexed (g : Graph) : Prop where
  instances : ∀ (id : InstanceId) (i : Instance), g.instances[id]? = some i →
    ∃ w, g.wiring? i.owner = some w ∧ w.outOfSync = false ∧ w.instances[i.key]? = some id
  remembered : ∀ n w (k : String) (id : InstanceId), g.wiring? n = some w → w.instances[k]? = some id →
    ∃ i, g.instances[id]? = some i ∧ i.owner = n ∧ i.key = k
  single : ∀ (id id' : InstanceId) (i i' : Instance), g.instances[id]? = some i → g.instances[id']? = some i' →
    i.owner = i'.owner → i.key = i'.key → id = id'
  processes : ∀ (id : ProcessId) (p : Process), g.processes[id]? = some p →
    ∃ w, g.wiring? p.owner = some w ∧ w.processes[p.key]? = some id
  registered : ∀ n w (k : String) (id : ProcessId), g.wiring? n = some w → w.processes[k]? = some id →
    ∃ p, g.processes[id]? = some p ∧ p.owner = n ∧ p.key = k
  outlets : ∀ (id : OutletId) (o : Outlet), g.outlets[id]? = some o →
    ∃ d, g.data? o.owner = some d ∧ d.outlets[outletKey o.filter]? = some id
  opened : ∀ n d (k : String) (id : OutletId), g.data? n = some d → d.outlets[k]? = some id →
    ∃ o, g.outlets[id]? = some o ∧ o.owner = n ∧ outletKey o.filter = k
  requests : ∀ (r : RequestId) (q : Request), g.requests[r]? = some q → ∃ o, g.outlets[q.outlet]? = some o ∧ r ∈ o.requests
  asked : ∀ (id : OutletId) (o : Outlet) (r : RequestId), g.outlets[id]? = some o → r ∈ o.requests →
    ∃ q, g.requests[r]? = some q ∧ q.outlet = id

/-- Nothing is derived from a node: it has no instance, no process, no outlet, and no request is made of it. -/
structure Bereft (g : Graph) (n : NodeId) : Prop where
  instances : ∀ (id : InstanceId) (i : Instance), g.instances[id]? = some i → i.owner ≠ n
  processes : ∀ (id : ProcessId) (p : Process), g.processes[id]? = some p → p.owner ≠ n
  outlets : ∀ (id : OutletId) (o : Outlet), g.outlets[id]? = some o → o.owner ≠ n
  requests : ∀ (r : RequestId) (q : Request) (o : Outlet), g.requests[r]? = some q → g.outlets[q.outlet]? = some o → o.owner ≠ n

/-- The request is made of the node. -/
def AskedOf (g : Graph) (r : RequestId) (n : NodeId) : Prop :=
  ∃ (q : Request) (o : Outlet), g.requests[r]? = some q ∧ g.outlets[q.outlet]? = some o ∧ o.owner = n

/-! ## Between calls -/

theorem exists_wiring_of_instanceAt? {k : String} {id : InstanceId} (h : g.instanceAt? n k = some id) :
    ∃ w, g.wiring? n = some w ∧ w.instances[k]? = some id :=
  Option.bind_eq_some_iff.1 h

theorem exists_wiring_of_processAt? {k : String} {id : ProcessId} (h : g.processAt? n k = some id) :
    ∃ w, g.wiring? n = some w ∧ w.processes[k]? = some id :=
  Option.bind_eq_some_iff.1 h

theorem exists_data_of_outletAt? {k : String} {id : OutletId} (h : g.outletAt? n k = some id) :
    ∃ d, g.data? n = some d ∧ d.outlets[k]? = some id :=
  Option.bind_eq_some_iff.1 h

/-- A graph in order is indexed: between calls no reset has anything left to take away, and no outlet is being closed. -/
theorem Orderly.indexed (h : Orderly a g) : g.Indexed := by
  have hk := h.tidy.kept
  have hp := h.posted
  refine ⟨?_, ?_, ?_, ?_, ?_, ?_, ?_, hp.enrolled, hp.known⟩
  · intro id i hi
    obtain ⟨v, hv, hs⟩ := hk.inSync_instance rfl hi
    rcases hk.instances.listed id i hi with hm | hm
    · obtain ⟨w, hw, hid⟩ := exists_wiring_of_instanceAt? hm
      obtain rfl : w = v := Option.some.inj (hw.symm.trans hv)
      exact ⟨w, hw, hs, hid⟩
    · cases hm
  · intro n w k id hw hid
    obtain ⟨i, hi, hplace⟩ := hk.instances.sound n k id ((instanceAt?_of_wiring? hw).trans hid)
    exact ⟨i, hi, congrArg Prod.fst hplace, congrArg Prod.snd hplace⟩
  · intro id id' i i' hi hi' ho hkey
    rcases hk.instances.listed id i hi with hm | hm
    · rcases hk.instances.listed id' i' hi' with hm' | hm'
      · have hplace : i.place = i'.place := by simp only [Instance.place, ho, hkey]
        rw [hplace, hm'] at hm
        exact (Option.some.inj hm).symm
      · cases hm'
    · cases hm
  · intro id p hid
    rcases hk.processes.listed id p hid with hm | hm
    · exact exists_wiring_of_processAt? hm
    · cases hm
  · intro n w k id hw hid
    obtain ⟨p, hid, hplace⟩ := hk.processes.sound n k id ((processAt?_of_wiring? hw).trans hid)
    exact ⟨p, hid, congrArg Prod.fst hplace, congrArg Prod.snd hplace⟩
  · exact fun id o ho => exists_data_of_outletAt? (hp.home id o ho)
  · intro n d k id hd hid
    rcases hp.memo n k id ((outletAt?_of_data? hd).trans hid) with hc | ⟨o, ho, hplace⟩
    · cases hc
    · exact ⟨o, ho, congrArg Prod.fst hplace, congrArg Prod.snd hplace⟩

/-- Nothing is derived from a node that is no data node. -/
theorem Indexed.bereft (h : g.Indexed) (hn : g.data? n = none) : g.Bereft n := by
  have hw : g.wiring? n = none := by rw [wiring?, hn]; rfl
  have hout : ∀ (id : OutletId) (o : Outlet), g.outlets[id]? = some o → o.owner ≠ n := by
    rintro id o ho rfl
    obtain ⟨d, hd, -⟩ := h.outlets id o ho
    cases hn.symm.trans hd
  refine ⟨?_, ?_, hout, fun r q o _ ho => hout q.outlet o ho⟩
  · rintro id i hi rfl
    obtain ⟨w, hiw, -⟩ := h.instances id i hi
    cases hw.symm.trans hiw
  · rintro id p hp rfl
    obtain ⟨w, hpw, -⟩ := h.processes id p hp
    cases hw.symm.trans hpw

/-! ## Requests of a node that goes -/

/-- The requests that there are, each with the node that it is made of. -/
def census (g : Graph) : List (RequestId × NodeId) :=
  g.requests.toList.filterMap fun e => (g.outlets[e.2.outlet]?).map fun o => (e.1, o.owner)

theorem mem_census {r : RequestId} : (r, n) ∈ g.census ↔ g.AskedOf r n := by
  rw [census, List.mem_filterMap]
  constructor
  · rintro ⟨⟨r', q⟩, hq, hr⟩
    obtain ⟨o, ho, he⟩ := Option.map_eq_some_iff.1 hr
    obtain ⟨rfl, hn⟩ := Prod.mk.inj he
    exact ⟨q, o, Std.ExtTreeMap.mem_toList_iff_getElem?_eq_some.1 hq, ho, hn⟩
  · rintro ⟨q, o, hq, ho, rfl⟩
    exact ⟨(r, q), Std.ExtTreeMap.mem_toList_iff_getElem?_eq_some.2 hq, by simp [ho]⟩

/-- An account may list exactly the requests that there are. -/
theorem Orderly.counted (h : Orderly a g) : Orderly { a with asked := g.census } g := by
  refine ⟨h.authored, (Quiet.refl g).tidy h.tidy rfl rfl rfl, ?_⟩
  have hp := h.posted
  exact ⟨hp.memo, hp.home, hp.closed, hp.outletId, hp.requestId, hp.enrolled, hp.known, hp.bare,
    fun r q o hq ho => mem_census.2 ⟨q, o, hq, ho, rfl⟩⟩

/-- A node that is removed is no longer there. -/
theorem data?_removeNode (g : Graph) (n : NodeId) : (g.removeNode n).1.data? n = none := by
  rw [removeNode_eq]
  split
  · rw [uproot, data?, node?, Arena.get?_erase, if_pos rfl]
    rfl
  · rename_i h
    rw [data?, Option.not_isSome_iff_eq_none.1 h]
    rfl

/-- The requests that were made of a node go with it. -/
theorem Orderly.requests_removed (h : Orderly a g) {r : RequestId} (hr : g.AskedOf r n) : (g.step (.remove n)).requests[r]? = none := by
  obtain ⟨q, o, hq, ho, rfl⟩ := id hr
  have hstep := h.counted.step (c := .remove o.owner) nofun
  rcases hq' : (g.step (.remove o.owner)).requests[r]? with _ | q'
  · rfl
  · exfalso
    obtain ⟨o', ho', -⟩ := hstep.posted.enrolled r q' hq'
    have hasked := hstep.posted.asked r q' o' hq' ho'
    -- whoever still asks is one of those who asked before, and asks the same node
    have howner : o'.owner = o.owner := by
      obtain ⟨q₁, o₁, hq₁, ho₁, he⟩ := mem_census.1 (Account.asked_book_remove _ _ _ hasked)
      rw [hq] at hq₁
      obtain rfl := Option.some.inj hq₁
      rw [ho] at ho₁
      obtain rfl := Option.some.inj ho₁
      exact he.symm
    have hgone := hstep.indexed.bereft (data?_removeNode g.settled o.owner)
    exact hgone.requests r q' o' hq' ho' howner

/-! ## Every graph that calls lead to -/

/-- In every graph that calls lead to, what is derived is listed where it belongs and nothing else is; and when a node is taken away,
nothing that was derived from it stays. -/
theorem derived_objects_indexed (h : g.Reachable) :
    g.Indexed ∧ ∀ n, (g.step (.remove n)).Bereft n ∧ ∀ r, g.AskedOf r n → (g.step (.remove n)).requests[r]? = none := by
  obtain ⟨a, ha⟩ := h.orderly
  refine ⟨ha.indexed, fun n => ⟨?_, fun r hr => ha.requests_removed hr⟩⟩
  have hstep := ha.step (c := .remove n) nofun
  exact hstep.indexed.bereft (data?_removeNode g.settled n)

/-- The graph of shared instances. -/
def sharingGraph : Graph := (new ⟨(∅ : NameMap Operator).insert "keep" keepOperator⟩ {}).after sharingCalls

theorem reachable_sharingGraph : sharingGraph.Reachable := ⟨_, _, _, rfl⟩

/-- The graph of shared instances has all kinds of derived objects, and with its topmost node go the instance that its outlet holds, the
outlet, and the request. -/
theorem derived_objects_indexed_sharing :
    sharingGraph.instances.keys = [1, 2, 4] ∧ sharingGraph.processes.keys = [3] ∧ sharingGraph.outlets.keys = [5] ∧
      sharingGraph.requests.keys = [6] ∧ sharingGraph.Reachable ∧ sharingGraph.Indexed ∧
      (sharingGraph.step (.remove 2)).instances.keys = [1, 2] ∧ (sharingGraph.step (.remove 2)).Bereft 2 ∧
      sharingGraph.AskedOf 6 2 ∧ (sharingGraph.step (.remove 2)).requests[6]? = none := by
  have hasked : sharingGraph.AskedOf 6 2 := mem_census.1 (by decide +kernel)
  obtain ⟨hindexed, hremoved⟩ := derived_objects_indexed reachable_sharingGraph
  exact ⟨by decide +kernel, by decide +kernel, by decide +kernel, by decide +kernel, reachable_sharingGraph, hindexed, by decide +kernel,
    (hremoved 2).1, hasked, (hremoved 2).2 6 hasked⟩

end Graph

end Dataflow
