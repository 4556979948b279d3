import Dataflow.Proofs.Carried
import Dataflow.Proofs.Invalidated

/-!
# Whoever is no longer ready was called back

Telling of a change of structure sends outlets back to rebuild, and invokes the callbacks of their requests; so does telling of a change of
data. No other call takes an outlet that was ready back. So a regular call after which an outlet is no longer ready has invoked the
callbacks of its requests.
-/

namespace Dataflow

namespace Graph

variable {g g' g'' : Graph} {n p : NodeId} {id : OutletId} {o o' : Outlet} {c : Call}

/-- The requests of an outlet that had a callback were called back. -/
def CalledBack (g g' : Graph) (id : OutletId) : Prop :=
  ∀ (r : RequestId) (q : Request) tag, g.requests[r]? = some q → q.outlet = id → q.tag = some tag → ∃ change, ⟨r, change, tag⟩ ∈ g'.journal.events

/-- Outlets stay as they are, or have to rebuild and were called back. -/
structure Alerts (g g' : Graph) : Prop where
  sound : g'.journal.violation = none
  events : ∀ e ∈ g.journal.events, e ∈ g'.journal.events
  requests : g'.requests = g.requests
  outlets : ∀ (id : OutletId) (o' : Outlet), g'.outlets[id]? = some o' → g.outlets[id]? = some o' ∨ g.CalledBack g' id

theorem CalledBack.mono (h : g.CalledBack g' id) (he : ∀ e ∈ g'.journal.events, e ∈ g''.journal.events) : g.CalledBack g'' id :=
  fun r q tag hq hid ht => (h r q tag hq hid ht).imp fun _ hm => he _ hm

theorem Alerts.trans (h : g.Alerts g') (h' : g'.Alerts g'') : g.Alerts g'' := by
  refine ⟨h'.sound, fun e he => h'.events e (h.events e he), h'.requests.trans h.requests, fun id o' ho' => ?_⟩
  rcases h'.outlets id o' ho' with hsame | hcalled
  · exact (h.outlets id o' hsame).imp_right (·.mono h'.events)
  · refine .inr ?_
    rw [CalledBack, ← h.requests]
    exact hcalled

/-- Telling of an edit calls back whom it sends back. -/
theorem Touched.alerts {g₁ : Graph} (ht : Touched c g g₁ p) (hs : g.journal.Silent g₁.journal) (he : g.Enrolled)
    (hv : g.journal.violation = none) : g.Alerts (g₁.structureChanged p) := by
  obtain ⟨hout, hreq⟩ : g₁.outlets = g.outlets ∧ g₁.requests = g.requests := by
    obtain ⟨_, _, rfl⟩ := ht.rest
    exact ⟨rfl, rfl⟩
  have htold := toldAll_tellAll (g₁.ancestors p) g₁
  have hsound := htold.silent.violation (hs.violation hv)
  have hfire : g₁.structureChanged p = _ := fire_of_sound (g₁.tellAll (g₁.ancestors p))
    (((g₁.ancestors p).flatMap g₁.outletsOf).flatMap g₁.requestsAt) .structure hsound
  have hevents := htold.silent.events.trans hs.events
  have hrequests := htold.requests.trans hreq
  rw [hfire]
  refine ⟨hsound, fun e hm => List.mem_append_left _ (hevents ▸ hm), hrequests, fun id o' ho' => ?_⟩
  have ho' := (htold.outlets id).symm.trans ho'
  rw [hout] at ho'
  split at ho'
  · rename_i hid
    refine .inr fun r q tag hq hqid ht => ⟨.structure, List.mem_append_right _ ?_⟩
    obtain ⟨o, ho, hr⟩ := he.asked r q hq
    have hmem : r ∈ ((g₁.ancestors p).flatMap g₁.outletsOf).flatMap g₁.requestsAt := by
      refine List.mem_flatMap.2 ⟨id, hid, ?_⟩
      rw [requestsAt, hout, ← hqid, ho]
      exact Std.ExtTreeSet.mem_toList.2 hr
    refine List.mem_filterMap.2 ⟨r, mem_inOrder.2 hmem, ?_⟩
    rw [hrequests, hq, Option.bind_some, ht]
    rfl
  · exact .inl ho'

/-- What amounts to edits that are told of calls back whom it sends back. -/
theorem Revised.alerts (hr : Revised c g g') (hproto : ∀ q r, c ≠ .setProto q (some r)) (hentry : ∀ q e, c ≠ .setData q (some e))
    (hg : g.Consistent) (hv : g.journal.violation = none) : g.Alerts g' := by
  induction hr with
  | done journal hs => exact ⟨hs.violation hv, fun e he => hs.events ▸ he, rfl, fun _ _ ho => .inl ho⟩
  | @change g g₁ _ p ht hs _ ih =>
    obtain ⟨htold, -⟩ : Upholds (fun _ => False) g (g₁.structureChanged p) ∧ _ := hg.told ht hproto fun l e => hg.grounded_of_touched ht hentry
    have halert := ht.alerts hs hg.tended.enrolled hv
    exact halert.trans (ih htold.consistent halert.sound)

theorem Amends.alerts {out : Outcome Unit} (h : Amends c g p out) (he : g.Enrolled) (hv : g.journal.violation = none) : g.Alerts out.1 := by
  cases h with
  | refused journal hs e => exact ⟨hs.violation hv, fun e he => hs.events ▸ he, rfl, fun _ _ ho => .inl ho⟩
  | made ht hs => exact ht.alerts hs he hv

/-! ## Taking away -/

/-- Outlets that are left when a node goes are as they were. -/
theorem uproot_spec (g : Graph) (n : NodeId) :
    (∀ (id : OutletId) (o : Outlet), (g.uproot n).outlets[id]? = some o → g.outlets[id]? = some o) ∧
      (g.uproot n).journal.events = g.journal.events := by
  have hnoted := Noted.unlinkAll n (g.references n) g
  rw [Graph.uproot]
  generalize (g.references n).foldl (fun g child => g.unlink n child) g = g₁ at hnoted ⊢
  have hsame : g₁.outlets = g.outlets ∧ g₁.journal = g.journal := by
    obtain ⟨_, rfl⟩ := hnoted.rest
    exact ⟨rfl, rfl⟩
  have hreset := clears_resetWiring g₁ n
  rw [dropOutlets_eq]
  refine ⟨fun id o ho => ?_, ?_⟩
  · have ho := (get_eraseAll _ _ id).symm.trans ho
    split at ho
    · cases ho
    · rename_i hid
      have hids : ((g₁.resetWiring n).staleStructure n).outletsOf n = (g₁.resetWiring n).outletsOf n := by
        rw [outletsOf, data?, node?, (sameNodes_staleStructure (g₁.resetWiring n) n).nodes]
        rfl
      rw [outlets_staleStructure, if_neg (hids ▸ hid), hreset.outlets, hsame.1] at ho
      exact ho
  · show ((g₁.resetWiring n).staleStructure n).journal.events = _
    rw [staleStructure_eq, journal_foldl journal_hush, (silent_resetWiring g₁ n).events, hsame.2]

theorem outlets_dropOutlet (ho : g.outlets[id]? = some o) (k : OutletId) :
    (g.dropOutlet id o).outlets[k]? = if k = id then none else g.outlets[k]? := by
  have hrel : ∀ (l : List InstanceId) (g : Graph), (l.foldl releaseInstance g).outlets = g.outlets := fun l g =>
    (Derived.foldl Wiring.chains_forgets (fun g j => derived_releaseWithin _ g j) l g).outlets
  rw [dropOutlet_eq ho]
  show (o.held.toList.foldl releaseInstance (g.closed id o)).outlets[k]? = _
  rw [hrel]
  exact Table.get_erase ..

theorem Enrolled.repeats_createRequest (h : g.Enrolled) (n : NodeId) (names : List String) : g.Repeats (g.createRequest n names).1 := by
  have hfor := h.repeats_outletFor n names
  rw [createRequest_eq]
  generalize g.outletFor n names = out at hfor ⊢
  obtain ⟨g₁, e | k⟩ := out
  · exact hfor
  · exact hfor.trans (repeats_modifyOutlet (f := fun o => { o with requests := o.requests.insert (g₁.lastId + 1) }) g₁ k fun _ => ⟨rfl, rfl, rfl, rfl⟩)

/-- An outlet that is left when a request is released shows what it did. -/
theorem repeated_releaseRequest {r : RequestId} (ho : g.outlets[id]? = some o) (ho' : (g.releaseRequest r).outlets[id]? = some o') : o.Echoes o' := by
  have hwithdraw : ∀ (q : Request) o₁, (g.withdraw r q.outlet).outlets[id]? = some o₁ → o.Echoes o₁ := fun q o₁ ho₁ => by
    have ho₁ := (get_outlets_modifyOutlet ..).symm.trans ho₁
    rw [show ({ g with requests := g.requests.erase r } : Graph).outlets[id]? = some o from ho] at ho₁
    split at ho₁ <;> cases ho₁
    · exact ⟨rfl, rfl, rfl, rfl⟩
    · exact .refl o
  rcases releaseRequest_cases g r with ⟨heq, -⟩ | ⟨q, -, ⟨heq, -⟩ | ⟨o₁, ho₁, -, -, heq⟩⟩ <;> rw [heq] at ho'
  · cases ho.symm.trans ho'
    exact .refl o
  · exact hwithdraw q o' ho'
  · rw [outlets_dropOutlet ho₁] at ho'
    split at ho'
    · cases ho'
    · exact hwithdraw q o' ho'

/-! ## Every call -/

/-- A regular call after which an outlet is no longer ready called back its requests. -/
theorem Maintained.calledBack (hg : g.Maintained) (hc : g.Regular c) (ho : g.outlets[id]? = some o) (hr : o.status = .ready)
    (ho' : (g.step c).outlets[id]? = some o') (hn : o'.status ≠ .ready) : g.CalledBack (g.step c) id := by
  have hs := hg.consistent.settled
  have hauth := hs.tended.authored
  have he := hs.tended.enrolled
  have ho : g.settled.outlets[id]? = some o := ho
  -- calls that leave outlets that are left alone
  have hleft : (∀ o' : Outlet, (g.step c).outlets[id]? = some o' → g.settled.outlets[id]? = some o') → g.CalledBack (g.step c) id := fun h => by
    cases ho.symm.trans (h o' ho')
    exact absurd hr hn
  have hsteady : (g.step c).outlets = g.settled.outlets → g.CalledBack (g.step c) id := fun h => hleft fun o' ho' => h ▸ ho'
  -- calls that change outlets only where they tell of it
  have halert : g.settled.Alerts (g.step c) → g.CalledBack (g.step c) id := fun h => by
    rcases h.outlets id o' ho' with hsame | hcalled
    · cases ho.symm.trans hsame
      exact absurd hr hn
    · exact hcalled
  have hupdate : ∀ e f, c.update = some (e, f) → g.CalledBack (g.step c) id := fun e f hup => by
    rcases hg.update_cases hup with heq | ⟨hspread, -⟩
    · exact hsteady (congrArg Graph.outlets heq)
    · by_cases hconcerned : g.Concerned e id
      · exact fun r q tag hq hid ht => ⟨.data, (hspread.reported.exactly ⟨r, .data, tag⟩).2 ⟨rfl, q, hq, ht, hid ▸ hconcerned⟩⟩
      · exact hleft fun o' ho' => hspread.unconcerned id hconcerned ▸ ho'
  have hpull : c.pulls = true → g.CalledBack (g.step c) id := fun hp => by
    obtain ⟨g₁, hg₁, hrepeats, -, hend⟩ := hs.pulls_cases hp
    obtain ⟨o₁, ho₁, hsame⟩ := hrepeats id o ho
    have hout : (g.step c).outlets[id]? = some o₁ := by
      rcases hend with heq | ⟨k, ok, hk, heq⟩
      · exact (congrArg (fun g : Graph => g.outlets[id]?) heq).trans ho₁
      · refine (congrArg (fun g : Graph => g.outlets[id]?) heq).trans ((hg₁.outlets_resolve hk ?_).trans ho₁)
        by_cases hid : id = k
        · subst hid
          cases ho₁.symm.trans hk
          exact .inr (hsame.status.trans hr)
        · exact .inl hid
    cases hout.symm.trans ho'
    exact absurd (hsame.status.trans hr) hn
  have hrevised : Revised c g.settled (g.step c) → (∀ q r, c ≠ .setProto q (some r)) → (∀ q e, c ≠ .setData q (some e)) →
      g.CalledBack (g.step c) id := fun h hp hd => halert (h.alerts hp hd hs rfl)
  cases c with
  | createLeaf => exact hsteady rfl
  | createData isProto => exact hsteady rfl
  | createEntry x => exact hsteady rfl
  | createPayload type payload =>
    refine hsteady (show (g.settled.createPayload type payload).1.outlets = _ from ?_)
    rcases createPayload_cases g.settled type payload with ⟨e, heq⟩ | ⟨x, heq⟩ <;> rw [heq]
    rfl
  | appendChild p c => exact hrevised (amends_appendChild hauth).revised nofun nofun
  | insertBefore p c before => exact hrevised (amends_insertBefore hauth before).revised nofun nofun
  | removeChild p c => exact hrevised (amends_removeChild hauth).revised nofun nofun
  | clearChildren p => exact hrevised (amends_clearChildren hauth).revised nofun nofun
  | detach n => exact hrevised (revised_detach hauth (.detach n)) nofun nofun
  | remove n =>
    have hdetach := (revised_detach (n := n) hauth (.remove n)).alerts nofun nofun hs rfl
    obtain ⟨houtlets, hevents⟩ := uproot_spec (g.settled.detachFromParents n).1 n
    have heq : g.step (.remove n) = if (g.settled.node? n).isSome then (g.settled.detachFromParents n).1.uproot n else g.settled :=
      removeNode_eq g.settled n
    split at heq
    · rw [heq] at ho' ⊢
      rcases hdetach.outlets id o' (houtlets id o' ho') with hsame | hcalled
      · cases ho.symm.trans hsame
        exact absurd hr hn
      · exact hcalled.mono fun e hm => hevents ▸ hm
    · exact hsteady (congrArg Graph.outlets heq)
  | setSource n source => exact hrevised (amends_setSource hauth source).revised nofun nofun
  | setProto n proto => exact halert ((amends_setProto hauth proto).alerts he rfl)
  | setFilter n text => exact hrevised (amends_setFilter hauth text).revised nofun nofun
  | setCompute n text => exact hrevised (amends_setCompute hauth text).revised nofun nofun
  | setName n name => exact hrevised (amends_updateLeaf hauth (.setName n name)).revised nofun nofun
  | setKey n key => exact hrevised (amends_updateLeaf hauth (.setKey n key)).revised nofun nofun
  | setParam n param => exact hrevised (amends_updateLeaf hauth (.setParam n param)).revised nofun nofun
  | setData n entry => exact halert ((amends_updateLeaf hauth (.setData n entry)).alerts he rfl)
  | setPayload e payload => exact hupdate e _ rfl
  | setImage e image => exact hupdate e _ rfl
  | setLoading e loading => exact hupdate e _ rfl
  | touch n => exact halert ((touched_self hauth n).alerts (.refl _) he rfl)
  | synchronize n => exact hsteady (derived_synchronize g.settled n).outlets
  | acquireInstance n s => exact hc.elim
  | releaseInstance id => exact hc.elim
  | process k =>
    obtain ⟨hran, -, -⟩ := hs.current.runAll hs.tended.sound hs.named [k]
    exact hsteady hran.outlets
  | createRequest n names =>
    obtain ⟨o₁, ho₁, hsame⟩ := he.repeats_createRequest n names id o ho
    cases (show (g.step (.createRequest n names)).outlets[id]? = some o₁ from ho₁).symm.trans ho'
    exact absurd (hsame.status.trans hr) hn
  | watchRequest r tag => exact hsteady rfl
  | pull r => exact hpull rfl
  | pullNode n names => exact hpull rfl
  | releaseRequest r => exact absurd ((repeated_releaseRequest ho ho').status.trans hr) hn

end Graph

end Dataflow
