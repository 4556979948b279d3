import Dataflow.Proofs.Candid

/-!
# When results say whether something is loading

Whether a texture is loading at or below a node, or among what a request publishes, is looked up when the request's outlet is refreshed. A
change of a texture tells the outlets that listen to a channel that holds it, but textures that a request does not publish count as well.
So the answer to a pull is right exactly as long as the outlet hears of every change of what is loading for it.
-/

namespace Dataflow

namespace Graph

variable {g : Graph} {n : NodeId} {id : OutletId} {o : Outlet} {c : Call} {calls : List Call} {r : RequestId} {filter : List String}

/-! ## Histories -/

theorem heardAt_of_update_eq_none (hc : c.update = none) : g.HeardAt c id := fun e f h => by
  rw [hc] at h
  cases h

/-- Who is told of no change of an entry hears of all of them. -/
theorem Throughout.heardAt (hc : g.Throughout Regular calls) (hu : ∀ c ∈ calls, c.update = none) :
    g.Throughout (fun g c => g.Regular c ∧ g.HeardAt c id) calls := by
  induction calls generalizing g with
  | nil => trivial
  | cons c calls ih =>
    exact ⟨⟨hc.1, heardAt_of_update_eq_none (hu c (List.mem_cons_self ..))⟩, ih hc.2 fun c hc => hu c (List.mem_cons_of_mem _ hc)⟩

/-- Regular calls keep an outlet candid that hears of all that they change. -/
theorem Candid.after (h : g.Candid id) (hg : g.Maintained) (hc : g.Throughout (fun g c => g.Regular c ∧ g.HeardAt c id) calls) :
    (g.after calls).Candid id := by
  induction calls generalizing g with
  | nil => exact h
  | cons c calls ih => exact ih (h.step hg hc.1.1 hc.1.2) (hg.step hc.1.1).1 hc.2

theorem candid_new (registry : Registry) (config : Config) (id : OutletId) : (new registry config).Candid id :=
  ⟨rested_new registry config id, fun o ho => absurd ho (get_outlets_new registry config id o)⟩

/-! ## Pulling -/

/-- The outlet that a pull delivers is the request's. -/
theorem Delivers.outlet_eq (h : Delivers g r n filter id o) (hg : g.Consistent) {q : Request} (hq : g.requests[r]? = some q) : q.outlet = id := by
  obtain ⟨q', hq', rfl⟩ := h.request
  exact (h.upholds.serving.outlet_eq hg.tended.enrolled hq hq').symm

/-- What a candid outlet delivers says whether something is loading. -/
theorem Candid.delivers (h : g.Candid id) (hg : g.Maintained) (hd : Delivers g r n filter id o) :
    o.result.loading = (g.step (.pull r)).pending n o.result.outputs := by
  have hflag := (h.step hg (c := .pull r) trivial (heardAt_of_update_eq_none rfl)).flag o hd.outlet hd.ready
  rwa [hd.owner] at hflag

/-- An outlet that is ready delivers what it shows. -/
theorem Delivers.of_ready (h : Delivers g r n filter id o) {q : Request} (hq : g.requests[r]? = some q) (hid : q.outlet = id) {o' : Outlet}
    (ho : g.outlets[id]? = some o') (hr : o'.status = .ready) : g.step (.pull r) = g.settled ∧ o' = o := by
  have hpull : g.step (.pull r) = g.settled := by
    show (g.settled.pull r).1 = g.settled
    rw [Graph.pull, show g.settled.requests[r]? = some q from hq]
    exact resolve_of_ready (o := o') (hid ▸ ho) hr
  have hout := h.outlet
  rw [hpull] at hout
  exact ⟨hpull, Option.some.inj (ho.symm.trans hout)⟩

/-- A candid outlet still says what is loading when a call was made of which it heard nothing only if there was nothing to hear. -/
theorem Candid.heardAt (h : g.Candid id) (hg : g.Maintained) (hd : Delivers (g.step c) r n filter id o) {q : Request}
    (hq : (g.step c).requests[r]? = some q) (hid : q.outlet = id)
    (hflag : o.result.loading = ((g.step c).step (.pull r)).pending n o.result.outputs) : g.HeardAt c id := by
  intro e f hc o' ho' hready hconcern
  obtain ⟨a, ha⟩ := hg.attended
  have hstep : g.step c = (g.settled.updateEntry e f).1 := congrArg Prod.fst (perform_of_update g.settled hc)
  rcases updateEntry_cases g.settled e f with heq | hok
  · rw [hstep, heq]
    rfl
  · have hs := (ha.update hok).1
    rw [← hstep] at hs
    -- the outlet was not told, so the pull looked nothing up
    obtain ⟨hpull, rfl⟩ := hd.of_ready hq hid ((hs.unconcerned id hconcern).trans ho') hready
    rw [hpull, ← hd.owner] at hflag
    exact hflag.symm.trans (h.flag o' ho' hready)

/-! ## Whether the flag is right -/

/-- Take any regular history, of which the outlet of a live request heard all changes of what is loading for it, and any regular call after
it. Then a pull of the request is answered, and the answer says whether a texture is loading at or below the request's node or among what is
published exactly if the outlet heard of that call too, if it changed any of this. -/
theorem loading_flag_current_iff {descriptors : List (String × Descriptor)} {registry : Registry} {log : List Notice}
    (hreg : Registry.empty.registerAll descriptors = .ok (registry, log)) (config : Config) {calls : List Call} {c : Call} {r : RequestId}
    {q : Request} (hcalls : (new registry config).Throughout (fun g c => g.Regular c ∧ g.HeardAt c q.outlet) calls)
    (hc : ((new registry config).after calls).Regular c) (hq : (((new registry config).after calls).step c).requests[r]? = some q) :
    ∃ n filter res, (((new registry config).after calls).step c).Asks r n filter ∧
      ((((new registry config).after calls).step c).settled.perform (.pull r)).2 = .ok (.pulled (some res)) ∧
      (res.loading = ((((new registry config).after calls).step c).step (.pull r)).pending n res.outputs ↔
        ((new registry config).after calls).HeardAt c q.outlet) := by
  have hnew := maintained_new registry config (Registry.wellNamed_empty.registerAll hreg)
  have hcandid := (candid_new registry config q.outlet).after hnew hcalls
  obtain ⟨hg, -⟩ := hnew.after (hcalls.mono fun _ _ h => h.1)
  generalize (new registry config).after calls = g at hc hq hcandid hg ⊢
  obtain ⟨hg', -⟩ := hg.step hc
  obtain ⟨o, ho, -⟩ := hg'.consistent.tended.enrolled.asked r q hq
  have hasks : (g.step c).Asks r o.owner o.filter := ⟨q, o, hq, ho, rfl, rfl⟩
  obtain ⟨id, o', hd⟩ := hg'.consistent.delivers hasks
  obtain rfl := hd.outlet_eq hg'.consistent hq
  exact ⟨o.owner, o.filter, o'.result, hasks, hd.reply, fun hflag => hcandid.heardAt hg hd hq rfl hflag,
    fun hheard => (hcandid.step hg hc hheard).delivers hg' hd⟩

/-- A node has a number and a texture; a request for the number alone is pulled. -/
def numberOnlyCalls : List Call :=
  [.createLeaf, .setName 0 "a", .createPayload .int (.ints [1]), .setData 0 (some 0), .createLeaf, .setName 1 "b",
    .createEntry (.ofTexture {}), .setData 1 (some 1), .createData false, .appendChild 2 0, .appendChild 2 1, .createRequest 2 ["a"], .pull 2]

/-- The texture that the request does not publish starts to load. -/
theorem loading_flag_current_iff_numberOnly :
    ∃ n filter res, (((new Registry.empty {}).after numberOnlyCalls).step (.setLoading 1 true)).Asks 2 n filter ∧
      ((((new Registry.empty {}).after numberOnlyCalls).step (.setLoading 1 true)).settled.perform (.pull 2)).2 = .ok (.pulled (some res)) ∧
      (res.loading = ((((new Registry.empty {}).after numberOnlyCalls).step (.setLoading 1 true)).step (.pull 2)).pending n res.outputs ↔
        ((new Registry.empty {}).after numberOnlyCalls).HeardAt (.setLoading 1 true) 1) := by
  have hcalls : (new Registry.empty {}).Throughout Regular numberOnlyCalls := by decide +kernel
  have hquiet : ∀ c ∈ numberOnlyCalls, c.update = none := by decide
  have hc : ((new Registry.empty {}).after numberOnlyCalls).Regular (.setLoading 1 true) := by decide +kernel
  have hq : (((new Registry.empty {}).after numberOnlyCalls).step (.setLoading 1 true)).requests[2]? = some { outlet := 1 } := by decide +kernel
  have hreg : Registry.empty.registerAll [] = .ok (Registry.empty, []) := rfl
  exact loading_flag_current_iff hreg {} (hcalls.heardAt hquiet) hc hq

/-- The texture loads, and the request, pulled again, says that nothing does. -/
theorem unheard_loading :
    ∃ res, ((((new Registry.empty {}).after numberOnlyCalls).step (.setLoading 1 true)).settled.perform (.pull 2)).2 = .ok (.pulled (some res)) ∧
      res.loading = false ∧
      ((((new Registry.empty {}).after numberOnlyCalls).step (.setLoading 1 true)).step (.pull 2)).pending 2 res.outputs = true := by
  refine ⟨{ outputs := (∅ : NameMap EntryId).insert "a" 0, loading := false, valid := true }, by decide +kernel, rfl, ?_⟩
  have hloading : ((((new Registry.empty {}).after numberOnlyCalls).step (.setLoading 1 true)).step (.pull 2)).isLoading 2 = true := by
    decide +kernel
  rw [pending, hloading, Bool.true_or]

end Graph

end Dataflow
