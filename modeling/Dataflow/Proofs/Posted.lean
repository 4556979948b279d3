import Dataflow.Proofs.Tidied

/-!
# Outlets and requests in the middle of a call

Nodes know their outlets and outlets know their requests, and the other way round, but for an outlet that is being closed. An outlet
without requests is pinned, or about to get a request or to be closed. And every request was asked for at the node of its outlet.
-/

namespace Dataflow

/-- The instance that a call releases. -/
def Call.released : Call → Option InstanceId
  | .releaseInstance id => some id
  | _ => none

theorem Call.released_eq_some {c : Call} {id : InstanceId} : c.released = some id ↔ c = .releaseInstance id := by
  cases c <;> simp [released, eq_comm]

/-- Where an outlet is kept. -/
def Outlet.place (o : Outlet) : NodeId × String := (o.owner, Graph.outletKey o.filter)

/-- The outlet without what it publishes: where it is kept, its requests, and whether it is pinned. -/
def Outlet.post (o : Outlet) : Outlet := { o.unread with held := none, channels := ∅ }

theorem Outlet.post_eq {o o' : Outlet} (h : o'.post = o.post) :
    o'.owner = o.owner ∧ o'.filter = o.filter ∧ o'.requests = o.requests ∧ o'.pinned = o.pinned := by
  simp only [post, unread, Outlet.mk.injEq] at h
  exact ⟨h.1, h.2.1, h.2.2.2.2.2.2.1, h.2.2.2.2.2.2.2⟩

theorem Outlet.place_eq {o o' : Outlet} (h : o'.post = o.post) : o'.place = o.place := by
  rw [place, place, (post_eq h).1, (post_eq h).2.1]

namespace Graph

variable {κ : Call} {τ τ' : Work} {g g' : Graph} {n m : NodeId} {k : String} {id : OutletId} {o : Outlet}

/-- In the middle of a call: nodes know their outlets and outlets their requests, and the other way round, but for an outlet that is being
closed; an outlet that nobody asks for is pinned or the one in hand; and the requests were asked for. -/
structure Posted (τ : Work) (g : Graph) : Prop where
  memo : ∀ n k (id : OutletId), g.outletAt? n k = some id →
    τ.closing = some (n, k) ∨ ∃ o : Outlet, g.outlets[id]? = some o ∧ o.place = (n, k)
  home : ∀ (id : OutletId) (o : Outlet), g.outlets[id]? = some o → g.outletAt? o.place.1 o.place.2 = some id
  closed : ∀ x ∈ τ.closing, ∀ (id : OutletId) (o : Outlet), g.outlets[id]? = some o → o.place ≠ x
  outletId : ∀ n k (id : OutletId), g.outletAt? n k = some id → id ≤ g.lastId
  requestId : ∀ (r : RequestId) (q : Request), g.requests[r]? = some q → r ≤ g.lastId
  enrolled : ∀ (r : RequestId) (q : Request), g.requests[r]? = some q → ∃ o : Outlet, g.outlets[q.outlet]? = some o ∧ r ∈ o.requests
  known : ∀ (id : OutletId) (o : Outlet) (r : RequestId), g.outlets[id]? = some o → r ∈ o.requests →
    ∃ q : Request, g.requests[r]? = some q ∧ q.outlet = id
  bare : ∀ (id : OutletId) (o : Outlet), g.outlets[id]? = some o → o.requests.isEmpty = true → o.pinned = false → τ.bare = some id
  asked : ∀ (r : RequestId) (q : Request) (o : Outlet), g.requests[r]? = some q → g.outlets[q.outlet]? = some o → (r, o.owner) ∈ τ.asked

theorem outletAt?_of_data? {d : DataNode} (hd : g.data? n = some d) : g.outletAt? n k = d.outlets[k]? := by
  rw [outletAt?, hd]
  rfl

/-- Between calls the outlets that a node keeps are its own. -/
theorem Posted.homed (h : Posted τ g) (hc : τ.closing = none) : g.Homed := by
  intro n d k id o hd hk ho
  rcases h.memo n k id ((outletAt?_of_data? hd).trans hk) with hcl | ⟨o', ho', hp⟩
  · rw [hc] at hcl
    cases hcl
  · rw [ho] at ho'
    cases ho'
    exact congrArg Prod.fst hp

theorem Posted.fresh (h : Posted τ g) : g.outlets[g.lastId + 1]? = none := by
  rcases ho : g.outlets[g.lastId + 1]? with _ | o
  · rfl
  · exact absurd (h.outletId _ _ _ (h.home _ o ho)) (Nat.not_succ_le_self _)

/-! ## Steps that leave the outlets -/

/-- The graphs have the same outlets at the same nodes, with the same requests. -/
structure SamePosts (g g' : Graph) : Prop where
  memo : ∀ n k, g'.outletAt? n k = g.outletAt? n k
  outlets : ∀ id : OutletId, (g'.outlets[id]?).map Outlet.post = (g.outlets[id]?).map Outlet.post
  requests : ∀ r : RequestId, (g'.requests[r]?).map (·.outlet) = (g.requests[r]?).map (·.outlet)
  lastId : g.lastId ≤ g'.lastId

namespace SamePosts

theorem refl (g : Graph) : g.SamePosts g := ⟨fun _ _ => rfl, fun _ => rfl, fun _ => rfl, Nat.le_refl _⟩

theorem of_data (hd : ∀ n, (g'.data? n).map (·.outlets) = (g.data? n).map (·.outlets)) (ho : g'.outlets = g.outlets)
    (hr : g'.requests = g.requests) (hl : g.lastId ≤ g'.lastId) : g.SamePosts g' := by
  have hat : ∀ (g : Graph) n k, g.outletAt? n k = ((g.data? n).map (·.outlets)).bind (·[k]?) := fun g n k => by
    rw [outletAt?, Option.bind_map]
    rfl
  exact ⟨fun n k => by rw [hat, hd, hat], fun _ => by rw [ho], fun _ => by rw [hr], hl⟩

theorem of_derived {P : Wiring → Wiring → Prop} (h : g.Derived P g') : g.SamePosts g' :=
  of_data h.rewired.outletsOf h.outlets h.requests h.lastId

theorem of_outlets (h : ∃ store outlets, g' = { g with store, outlets })
    (ho : ∀ id : OutletId, (g'.outlets[id]?).map Outlet.post = (g.outlets[id]?).map Outlet.post) : g.SamePosts g' := by
  obtain ⟨store, outlets, rfl⟩ := h
  exact ⟨fun _ _ => rfl, ho, fun _ => rfl, Nat.le_refl _⟩

theorem of_modifyOutlet (g : Graph) (store : Store) (id : OutletId) {f : Outlet → Outlet} (hf : ∀ o, (f o).post = o.post) :
    g.SamePosts ({ g with store }.modifyOutlet id f) := by
  refine of_outlets ⟨_, _, rfl⟩ fun j => ?_
  rw [get_outlets_modifyOutlet]
  split
  · rw [Option.map_map, show Outlet.post ∘ f = Outlet.post from funext hf]
  · rfl

theorem of_restated (h : g.Restated g') : g.SamePosts g' := by
  have ho : ∀ x : Option Outlet, x.map Outlet.post = (x.map Outlet.unread).map Outlet.post := fun x => by
    rw [Option.map_map]
    rfl
  have hnodes : g'.nodes = g.nodes ∧ g'.lastId = g.lastId := by
    obtain ⟨_, _, _, _, _, _, he⟩ := h.rest
    rw [he]
    exact ⟨rfl, rfl⟩
  refine ⟨fun n k => ?_, fun id => ?_, h.requests, Nat.le_of_eq hnodes.2.symm⟩
  · rw [outletAt?, data?, node?, hnodes.1, outletAt?, data?, node?]
  · rw [ho, h.outlets, ← ho]

theorem of_noted (h : g.Noted g') : g.SamePosts g' := by
  have hd := h.data
  obtain ⟨_, rfl⟩ := h.rest
  exact of_data (fun n => by rw [hd]) rfl rfl (Nat.le_refl _)

variable (h : g.SamePosts g')

include h

theorem outlet_of {o' : Outlet} (ho' : g'.outlets[id]? = some o') : ∃ o, g.outlets[id]? = some o ∧ o.post = o'.post := by
  have := h.outlets id
  rw [ho', Option.map_some, eq_comm] at this
  exact Option.map_eq_some_iff.1 this

theorem outlet_to (ho : g.outlets[id]? = some o) : ∃ o', g'.outlets[id]? = some o' ∧ o'.post = o.post := by
  have := h.outlets id
  rw [ho, Option.map_some] at this
  exact Option.map_eq_some_iff.1 this

theorem request_of {r : RequestId} {q' : Request} (hq' : g'.requests[r]? = some q') : ∃ q, g.requests[r]? = some q ∧ q.outlet = q'.outlet := by
  have := h.requests r
  rw [hq', Option.map_some, eq_comm] at this
  exact Option.map_eq_some_iff.1 this

theorem request_to {r : RequestId} {q : Request} (hq : g.requests[r]? = some q) : ∃ q', g'.requests[r]? = some q' ∧ q'.outlet = q.outlet := by
  have := h.requests r
  rw [hq, Option.map_some] at this
  exact Option.map_eq_some_iff.1 this

theorem posted (hp : Posted τ g) (hc : τ'.closing = τ.closing) (hb : τ'.bare = τ.bare) (ha : τ'.asked = τ.asked) : Posted τ' g' where
  memo n k id hk := by
    rw [h.memo] at hk
    rcases hp.memo n k id hk with hcl | ⟨o, ho, hplace⟩
    · exact .inl (hc.trans hcl)
    · obtain ⟨o', ho', hpost⟩ := h.outlet_to ho
      exact .inr ⟨o', ho', (Outlet.place_eq hpost).trans hplace⟩
  home id o' ho' := by
    obtain ⟨o, ho, hpost⟩ := h.outlet_of ho'
    rw [h.memo, ← Outlet.place_eq hpost]
    exact hp.home id o ho
  closed x hx id o' ho' := by
    obtain ⟨o, ho, hpost⟩ := h.outlet_of ho'
    rw [← Outlet.place_eq hpost]
    exact hp.closed x (hc ▸ hx) id o ho
  outletId n k id hk := Nat.le_trans (hp.outletId n k id (h.memo n k ▸ hk)) h.lastId
  requestId r q' hq' := by
    obtain ⟨q, hq, -⟩ := h.request_of hq'
    exact Nat.le_trans (hp.requestId r q hq) h.lastId
  enrolled r q' hq' := by
    obtain ⟨q, hq, he⟩ := h.request_of hq'
    obtain ⟨o, ho, hr⟩ := hp.enrolled r q hq
    obtain ⟨o', ho', hpost⟩ := h.outlet_to ho
    exact ⟨o', he ▸ ho', (Outlet.post_eq hpost).2.2.1 ▸ hr⟩
  known id o' r ho' hr := by
    obtain ⟨o, ho, hpost⟩ := h.outlet_of ho'
    obtain ⟨q, hq, he⟩ := hp.known id o r ho ((Outlet.post_eq hpost).2.2.1 ▸ hr)
    obtain ⟨q', hq', he'⟩ := h.request_to hq
    exact ⟨q', hq', he'.trans he⟩
  bare id o' ho' he hpin := by
    obtain ⟨o, ho, hpost⟩ := h.outlet_of ho'
    obtain ⟨-, -, h₁, h₂⟩ := Outlet.post_eq hpost
    exact hb.trans (hp.bare id o ho (h₁ ▸ he) (h₂ ▸ hpin))
  asked r q' o' hq' ho' := by
    obtain ⟨q, hq, he⟩ := h.request_of hq'
    obtain ⟨o, ho, hpost⟩ := h.outlet_of ho'
    rw [ha, ← (Outlet.post_eq hpost).1]
    exact hp.asked r q o hq (he ▸ ho)

end SamePosts

theorem samePosts_unsubscribe (g : Graph) (id : OutletId) : g.SamePosts (g.unsubscribe id) := by
  rw [unsubscribe]
  split
  · exact .refl g
  · exact .of_modifyOutlet g _ id fun _ => rfl

theorem samePosts_hush (g : Graph) (id : OutletId) : g.SamePosts (g.hush id) := by
  refine .of_outlets ?_ fun j => ?_
  · rcases ho : g.outlets[id]? with _ | o
    · rw [hush_none ho]
      exact ⟨_, _, rfl⟩
    · rw [hush_eq ho]
      exact ⟨_, _, rfl⟩
  · rw [outlets_hush]
    split
    · rw [Option.map_map]
      rfl
    · rfl

/-- A node is made that keeps no outlets. -/
theorem samePosts_push {x : Node} (hnodes : g'.nodes = g.nodes.push x) (hrest : g'.outlets = g.outlets ∧ g'.requests = g.requests ∧
    g'.lastId = g.lastId) (hx : ∀ d, x.data? = some d → d.outlets = ∅) : g.SamePosts g' := by
  refine ⟨fun n k => ?_, fun _ => by rw [hrest.1], fun _ => by rw [hrest.2.1], Nat.le_of_eq hrest.2.2.symm⟩
  rw [outletAt?, data?, node?_push hnodes]
  split
  · rename_i hn
    have hnone : g.node? n = none := hn ▸ Arena.get?_next _
    rw [outletAt?, data?, hnone]
    rcases hd : x.data? with _ | d
    · simp only [Option.bind_some, hd, Option.bind_none]
    · simp only [Option.bind_some, hd, hx d hd, Option.bind_none]
      exact Std.ExtTreeMap.getElem?_empty
  · rfl

/-! ## Opening -/

theorem Posted.openOutlet (h : Posted τ g) (hb : τ.bare = none) (hc : τ.closing = none) {d : DataNode} {filter : List String}
    (hd : g.data? n = some d) (hk : ∀ id, d.outlets[outletKey filter]? = some id → g.outlets[id]? = none) :
    Posted (τ.baring (some (g.lastId + 1))) (g.openOutlet n filter) := by
  have hfree : g.outletAt? n (outletKey filter) = none := by
    rcases hid : g.outletAt? n (outletKey filter) with _ | id
    · rfl
    · rcases h.memo _ _ _ hid with hcl | ⟨o, ho, -⟩
      · rw [hc] at hcl
        cases hcl
      · rw [outletAt?_of_data? hd] at hid
        rw [hk id hid] at ho
        cases ho
  have hmemo : ∀ m k, (g.openOutlet n filter).outletAt? m k =
      if m = n ∧ k = outletKey filter then some (g.lastId + 1) else g.outletAt? m k := fun m k => by
    rw [outletAt?, data?_openOutlet]
    by_cases hm : m = n
    · subst hm
      rw [if_pos rfl, hd, Option.map_some, Option.bind_some, Table.get_insert, outletAt?_of_data? hd]
      simp only [true_and]
    · rw [if_neg hm, if_neg fun hc => hm hc.1]
      rfl
  have hfresh := h.fresh
  have hne : ∀ (id : OutletId) o, g.outlets[id]? = some o → id ≠ g.lastId + 1 := by
    rintro id o ho rfl
    rw [hfresh] at ho
    cases ho
  have hplace : ∀ (id : OutletId) o, g.outlets[id]? = some o → o.place ≠ (n, outletKey filter) := fun id o ho hp => by
    have := h.home id o ho
    rw [hp, hfree] at this
    cases this
  have hout : ∀ (id : OutletId) o, (g.openOutlet n filter).outlets[id]? = some o →
      (id = g.lastId + 1 ∧ o = { owner := n, filter }) ∨ (id ≠ g.lastId + 1 ∧ g.outlets[id]? = some o) := fun id o ho => by
    rw [get_outlets_openOutlet] at ho
    split at ho
    · exact .inl ⟨‹_›, (Option.some.inj ho).symm⟩
    · exact .inr ⟨‹_›, ho⟩
  have hto : ∀ {id : OutletId} {o}, g.outlets[id]? = some o → (g.openOutlet n filter).outlets[id]? = some o := fun {id o} ho => by
    rw [get_outlets_openOutlet, if_neg (hne id o ho), ho]
  refine ⟨fun m k id hid => .inr ?_, fun id o ho => ?_, fun x hx => ?_, fun m k id hid => ?_, fun r q hq => Nat.le_succ_of_le (h.requestId r q hq),
    fun r q hq => ?_, fun id o r ho hr => ?_, fun id o ho he hp => ?_, fun r q o hq ho => ?_⟩
  · rw [hmemo] at hid
    split at hid
    · rename_i hmk
      cases hid
      exact ⟨_, (get_outlets_openOutlet ..).trans (if_pos rfl), by rw [hmk.1, hmk.2]; rfl⟩
    · rcases h.memo m k id hid with hcl | ⟨o, ho, hp⟩
      · rw [hc] at hcl
        cases hcl
      · exact ⟨o, hto ho, hp⟩
  · rcases hout id o ho with ⟨rfl, rfl⟩ | ⟨-, ho⟩
    · exact (hmemo ..).trans (if_pos ⟨rfl, rfl⟩)
    · rw [hmemo, if_neg fun hc => hplace id o ho (Prod.ext hc.1 hc.2)]
      exact h.home id o ho
  · have hx : x ∈ τ.closing := hx
    rw [hc] at hx
    cases hx
  · rw [hmemo] at hid
    split at hid
    · cases hid
      exact Nat.le_refl _
    · exact Nat.le_succ_of_le (h.outletId m k id hid)
  · obtain ⟨o, ho, hr⟩ := h.enrolled r q hq
    exact ⟨o, hto ho, hr⟩
  · rcases hout id o ho with ⟨-, rfl⟩ | ⟨-, ho⟩
    · exact absurd hr Std.ExtTreeSet.not_mem_empty
    · exact h.known id o r ho hr
  · rcases hout id o ho with ⟨rfl, -⟩ | ⟨-, ho⟩
    · rfl
    · have := h.bare id o ho he hp
      rw [hb] at this
      cases this
  · obtain ⟨o', ho', -⟩ := h.enrolled r q hq
    rcases hout _ o ho with ⟨hid, -⟩ | ⟨-, ho⟩
    · exact absurd hid (hne _ o' ho')
    · exact h.asked r q o hq ho

/-! ## Requests -/

/-- The requests at one outlet change. -/
theorem Posted.modifyRequests (h : Posted τ g) {f : IdSet → IdSet} {requests : IdMap Request} {lastId : Nat} (hl : g.lastId ≤ lastId)
    (hc : τ'.closing = τ.closing)
    (hid : ∀ (r : RequestId) q, requests[r]? = some q → r ≤ lastId)
    (henrolled : ∀ (r : RequestId) q, requests[r]? = some q → ∃ o : Outlet, g.outlets[q.outlet]? = some o ∧
      (if q.outlet = id then r ∈ f o.requests else r ∈ o.requests) ∧ (r, o.owner) ∈ τ'.asked)
    (hknown : ∀ (j : OutletId) (o : Outlet) (r : RequestId), g.outlets[j]? = some o → (if j = id then r ∈ f o.requests else r ∈ o.requests) →
      ∃ q : Request, requests[r]? = some q ∧ q.outlet = j)
    (hbare : ∀ (j : OutletId) (o : Outlet), g.outlets[j]? = some o → (if j = id then (f o.requests).isEmpty = true else o.requests.isEmpty = true) →
      o.pinned = false → τ'.bare = some j) :
    Posted τ' (Graph.modifyOutlet { g with requests, lastId } id fun o => { o with requests := f o.requests }) := by
  have hget : ∀ j : OutletId, (Graph.modifyOutlet { g with requests, lastId } id fun o => { o with requests := f o.requests }).outlets[j]? =
      if j = id then (g.outlets[j]?).map (fun o => { o with requests := f o.requests }) else g.outlets[j]? := fun j => get_outlets_modifyOutlet ..
  have hof : ∀ {j : OutletId} {o' : Outlet}, (Graph.modifyOutlet { g with requests, lastId } id fun o => { o with requests := f o.requests }).outlets[j]? =
      some o' → ∃ o, g.outlets[j]? = some o ∧ o'.place = o.place ∧ o'.owner = o.owner ∧ o'.pinned = o.pinned ∧
        o'.requests = if j = id then f o.requests else o.requests := fun {j o'} ho' => by
    rw [hget] at ho'
    split at ho'
    · rename_i hj
      obtain ⟨o, ho, rfl⟩ := Option.map_eq_some_iff.1 ho'
      exact ⟨o, ho, rfl, rfl, rfl, (if_pos hj).symm⟩
    · rename_i hj
      exact ⟨o', ho', rfl, rfl, rfl, (if_neg hj).symm⟩
  have hto : ∀ {j : OutletId} {o : Outlet}, g.outlets[j]? = some o →
      ∃ o', (Graph.modifyOutlet { g with requests, lastId } id fun o => { o with requests := f o.requests }).outlets[j]? = some o' ∧
        o'.place = o.place ∧ o'.requests = if j = id then f o.requests else o.requests := fun {j o} ho => by
    rw [hget, ho]
    split
    · exact ⟨_, rfl, rfl, rfl⟩
    · exact ⟨_, rfl, rfl, rfl⟩
  refine ⟨fun m k j hj => ?_, fun j o' ho' => ?_, fun x hx j o' ho' => ?_, fun m k j hj => Nat.le_trans (h.outletId m k j hj) hl, hid,
    fun r q hq => ?_, fun j o' r ho' hr => ?_, fun j o' ho' he hp => ?_, fun r q o' hq ho' => ?_⟩
  · rcases h.memo m k j hj with hcl | ⟨o, ho, hp⟩
    · exact .inl (hc.trans hcl)
    · obtain ⟨o', ho', hplace, -⟩ := hto ho
      exact .inr ⟨o', ho', hplace.trans hp⟩
  · obtain ⟨o, ho, hplace, -⟩ := hof ho'
    rw [hplace]
    exact h.home j o ho
  · obtain ⟨o, ho, hplace, -⟩ := hof ho'
    rw [hplace]
    exact h.closed x (hc ▸ hx) j o ho
  · obtain ⟨o, ho, hr, -⟩ := henrolled r q hq
    obtain ⟨o', ho', -, hreq⟩ := hto ho
    refine ⟨o', ho', ?_⟩
    rw [hreq]
    split at hr
    · rwa [if_pos ‹_›]
    · rwa [if_neg ‹_›]
  · obtain ⟨o, ho, -, -, -, hreq⟩ := hof ho'
    refine hknown j o r ho ?_
    rw [hreq] at hr
    split
    · rwa [if_pos ‹_›] at hr
    · rwa [if_neg ‹_›] at hr
  · obtain ⟨o, ho, -, -, hpin, hreq⟩ := hof ho'
    refine hbare j o ho ?_ (hpin ▸ hp)
    rw [hreq] at he
    split
    · rwa [if_pos ‹_›] at he
    · rwa [if_neg ‹_›] at he
  · obtain ⟨o, ho, -, hown, -⟩ := hof ho'
    obtain ⟨o₀, ho₀, -, hask⟩ := henrolled r q hq
    rw [ho] at ho₀
    cases ho₀
    rwa [hown]

theorem Posted.enroll (h : Posted τ g) (ho : g.outlets[id]? = some o) (hb : ∀ b ∈ τ.bare, b = id) :
    Posted { τ with bare := none, asked := (g.lastId + 1, o.owner) :: τ.asked } (g.enroll id) := by
  refine h.modifyRequests (f := fun s => s.insert (g.lastId + 1)) (Nat.le_succ _) rfl (fun r q hq => ?_) (fun r q hq => ?_)
    (fun j o' r ho' hr => ?_) fun j o' ho' he hp => ?_
  · rw [Table.get_insert] at hq
    split at hq
    · rename_i hr
      exact Nat.le_of_eq hr
    · exact Nat.le_succ_of_le (h.requestId r q hq)
  · rw [Table.get_insert] at hq
    split at hq
    · rename_i hr
      cases hq
      refine ⟨o, ho, ?_, hr ▸ List.mem_cons_self ..⟩
      rw [if_pos rfl, hr]
      exact Std.ExtTreeSet.mem_insert_self
    · obtain ⟨o', ho', hr⟩ := h.enrolled r q hq
      refine ⟨o', ho', ?_, List.mem_cons_of_mem _ (h.asked r q o' hq ho')⟩
      split
      · exact Std.ExtTreeSet.mem_insert.2 (.inr hr)
      · exact hr
  · rw [Table.get_insert]
    have hold : r ∈ o'.requests → ∃ q : Request, (if r = g.lastId + 1 then some { outlet := id } else g.requests[r]?) = some q ∧ q.outlet = j :=
      fun hr => by
        obtain ⟨q, hq, he⟩ := h.known j o' r ho' hr
        have hne : r ≠ g.lastId + 1 := fun hr' => Nat.not_succ_le_self _ (hr' ▸ h.requestId r q hq)
        rw [if_neg hne]
        exact ⟨q, hq, he⟩
    split at hr
    · rename_i hj
      rcases Std.ExtTreeSet.mem_insert.1 hr with hr | hr
      · have hr : g.lastId + 1 = r := Std.LawfulEqCmp.compare_eq_iff_eq.1 hr
        rw [if_pos hr.symm]
        exact ⟨_, rfl, hj.symm⟩
      · exact hold hr
    · exact hold hr
  · split at he
    · rw [Std.ExtTreeSet.isEmpty_iff] at he
      exact absurd (he ▸ Std.ExtTreeSet.mem_insert_self) Std.ExtTreeSet.not_mem_empty
    · rename_i hj
      exact absurd (hb j (h.bare j o' ho' he hp)) hj

theorem Posted.withdraw (h : Posted τ g) (hb : τ.bare = none) {r : RequestId} {q : Request} (hr : g.requests[r]? = some q) :
    Posted { τ with bare := some q.outlet, asked := τ.asked.filter (·.1 ≠ r) } (g.withdraw r q.outlet) := by
  refine h.modifyRequests (f := fun s => s.erase r) (Nat.le_refl g.lastId) rfl (fun r' q' hq' => ?_) (fun r' q' hq' => ?_)
    (fun j o r' ho hr' => ?_) fun j o ho he hp => ?_
  · rw [Table.get_erase] at hq'
    split at hq'
    · cases hq'
    · exact h.requestId r' q' hq'
  · rw [Table.get_erase] at hq'
    split at hq'
    · cases hq'
    · rename_i hne
      obtain ⟨o, ho, hmem⟩ := h.enrolled r' q' hq'
      refine ⟨o, ho, ?_, List.mem_filter.2 ⟨h.asked r' q' o hq' ho, by simpa using hne⟩⟩
      split
      · exact Std.ExtTreeSet.mem_erase.2 ⟨fun hc => hne (Std.LawfulEqCmp.compare_eq_iff_eq.1 hc).symm, hmem⟩
      · exact hmem
  · have hmem : r' ∈ o.requests ∧ (j = q.outlet → r' ≠ r) := by
      split at hr'
      · obtain ⟨h₁, h₂⟩ := Std.ExtTreeSet.mem_erase.1 hr'
        exact ⟨h₂, fun _ he => h₁ (Std.LawfulEqCmp.compare_eq_iff_eq.2 he.symm)⟩
      · exact ⟨hr', fun hj => absurd hj ‹_›⟩
    obtain ⟨q', hq', he⟩ := h.known j o r' ho hmem.1
    refine ⟨q', ?_, he⟩
    rw [Table.get_erase, if_neg]
    · exact hq'
    · rintro rfl
      rw [hr] at hq'
      cases hq'
      exact hmem.2 he.symm rfl
  · split at he
    · rename_i hj
      rw [hj]
    · have := h.bare j o ho he hp
      rw [hb] at this
      cases this

/-- Requests that are not there are no longer asked for. -/
theorem Posted.unasked (h : Posted τ g) {r : RequestId} (hr : g.requests[r]? = none) :
    Posted { τ with asked := τ.asked.filter (·.1 ≠ r) } g :=
  { h with
    asked := fun r' q o hq ho => List.mem_filter.2 ⟨h.asked r' q o hq ho, by
      have hne : r' ≠ r := by
        rintro rfl
        rw [hr] at hq
        cases hq
      simpa using hne⟩ }

/-! ## Closing -/

theorem Posted.keep (h : Posted τ g) (hb : τ.bare = some id)
    (ho : ∀ o : Outlet, g.outlets[id]? = some o → o.requests.isEmpty = false ∨ o.pinned = true) : Posted (τ.baring none) g :=
  { h with
    bare := fun j o hj he hp => by
      have := h.bare j o hj he hp
      rw [hb] at this
      cases this
      rcases ho o hj with ho | ho
      · rw [he] at ho
        cases ho
      · rw [hp] at ho
        cases ho }

theorem Posted.pin (h : Posted τ g) (hb : ∀ b ∈ τ.bare, b = id) : Posted (τ.baring none) (g.modifyOutlet id ({ · with pinned := true })) := by
  have hof : ∀ {j : OutletId} {o' : Outlet}, (g.modifyOutlet id ({ · with pinned := true })).outlets[j]? = some o' →
      ∃ o, g.outlets[j]? = some o ∧ o'.place = o.place ∧ o'.owner = o.owner ∧ o'.requests = o.requests ∧
        (o'.pinned = false → j ≠ id ∧ o.pinned = false) := fun {j o'} ho' => by
    rw [get_outlets_modifyOutlet] at ho'
    split at ho'
    · obtain ⟨o, ho, rfl⟩ := Option.map_eq_some_iff.1 ho'
      exact ⟨o, ho, rfl, rfl, rfl, nofun⟩
    · rename_i hj
      exact ⟨o', ho', rfl, rfl, rfl, fun hp => ⟨hj, hp⟩⟩
  have hto : ∀ {j : OutletId} {o : Outlet}, g.outlets[j]? = some o → ∃ o', (g.modifyOutlet id ({ · with pinned := true })).outlets[j]? = some o' ∧
      o'.place = o.place ∧ o'.requests = o.requests := fun {j o} ho => by
    rw [get_outlets_modifyOutlet, ho]
    split
    · exact ⟨_, rfl, rfl, rfl⟩
    · exact ⟨_, rfl, rfl, rfl⟩
  refine ⟨fun m k j hj => ?_, fun j o' ho' => ?_, fun x hx j o' ho' => ?_, h.outletId, h.requestId,
    fun r q hq => ?_, fun j o' r ho' hr => ?_, fun j o' ho' he hp => ?_, fun r q o' hq ho' => ?_⟩
  · refine (h.memo m k j hj).imp_right fun ⟨o, ho, hp⟩ => ?_
    obtain ⟨o', ho', hplace, -⟩ := hto ho
    exact ⟨o', ho', hplace.trans hp⟩
  · obtain ⟨o, ho, hplace, -⟩ := hof ho'
    rw [hplace]
    exact h.home j o ho
  · obtain ⟨o, ho, hplace, -⟩ := hof ho'
    rw [hplace]
    exact h.closed x hx j o ho
  · obtain ⟨o, ho, hr⟩ := h.enrolled r q hq
    obtain ⟨o', ho', -, hreq⟩ := hto ho
    exact ⟨o', ho', hreq ▸ hr⟩
  · obtain ⟨o, ho, -, -, hreq, -⟩ := hof ho'
    exact h.known j o r ho (hreq ▸ hr)
  · obtain ⟨o, ho, -, -, hreq, hpin⟩ := hof ho'
    obtain ⟨hj, hp⟩ := hpin hp
    exact absurd (hb j (h.bare j o ho (hreq ▸ he) hp)) hj
  · obtain ⟨o, ho, -, hown, -⟩ := hof ho'
    rw [hown]
    exact h.asked r q o hq ho

theorem Posted.close (h : Posted τ g) (hb : τ.bare = some id) (hc : τ.closing = none) (ho : g.outlets[id]? = some o)
    (he : o.requests.isEmpty = true) (hclosing : τ'.closing = some o.place) (hask : τ'.asked = τ.asked) :
    Posted τ' { g with outlets := g.outlets.erase id } := by
  have hof : ∀ {j : OutletId} {o' : Outlet}, (g.outlets.erase id)[j]? = some o' → j ≠ id ∧ g.outlets[j]? = some o' := fun {j o'} ho' => by
    rw [Table.get_erase] at ho'
    split at ho'
    · cases ho'
    · exact ⟨‹_›, ho'⟩
  have hto : ∀ {j : OutletId} {o' : Outlet}, j ≠ id → g.outlets[j]? = some o' → (g.outlets.erase id)[j]? = some o' := fun {j o'} hj ho' => by
    rw [Table.get_erase, if_neg hj, ho']
  refine ⟨fun m k j hj => ?_, fun j o' ho' => h.home j o' (hof ho').2, fun x hx j o' ho' hp => ?_, h.outletId, h.requestId,
    fun r q hq => ?_, fun j o' r ho' hr => h.known j o' r (hof ho').2 hr, fun j o' ho' he' hp => ?_, fun r q o' hq ho' => ?_⟩
  · rcases h.memo m k j hj with hcl | ⟨o', ho', hp⟩
    · rw [hc] at hcl
      cases hcl
    · by_cases hji : j = id
      · subst hji
        rw [ho] at ho'
        cases ho'
        exact .inl (hclosing.trans (congrArg some hp))
      · exact .inr ⟨o', hto hji ho', hp⟩
  · rw [hclosing] at hx
    cases hx
    obtain ⟨hj, ho'⟩ := hof ho'
    have h₁ := h.home j o' ho'
    rw [hp, h.home id o ho] at h₁
    exact hj (Option.some.inj h₁).symm
  · obtain ⟨o', ho', hr⟩ := h.enrolled r q hq
    refine ⟨o', hto (fun hj => ?_) ho', hr⟩
    rw [hj, ho] at ho'
    cases ho'
    exact Std.ExtTreeSet.not_mem_empty (Std.ExtTreeSet.isEmpty_iff.1 he ▸ hr)
  · obtain ⟨hj, ho'⟩ := hof ho'
    have := h.bare j o' ho' he' hp
    rw [hb] at this
    exact absurd (Option.some.inj this).symm hj
  · rw [hask]
    exact h.asked r q o' hq (hof ho').2

theorem Posted.forget (h : Posted τ g) (hc : τ.closing = some (n, k)) :
    Posted { τ with closing := none } (g.modifyData n fun d => { d with outlets := d.outlets.erase k }) := by
  have hmemo : ∀ m j, (g.modifyData n fun d => { d with outlets := d.outlets.erase k }).outletAt? m j =
      if m = n ∧ j = k then none else g.outletAt? m j := fun m j => by
    rw [outletAt?, data?_modifyData]
    by_cases hm : m = n
    · subst hm
      rw [if_pos rfl, Option.bind_map, outletAt?]
      rcases g.data? m with _ | d
      · simp only [Option.bind_none, ite_self]
      · refine (Table.get_erase ..).trans ?_
        simp only [true_and]
        rfl
    · rw [if_neg hm, if_neg fun hc => hm hc.1]
      rfl
  refine ⟨fun m j id hid => .inr ?_, fun id o ho => ?_, fun x hx => absurd hx (Option.not_mem_none x), fun m j id hid => ?_, h.requestId, h.enrolled,
    h.known, h.bare, h.asked⟩
  · rw [hmemo] at hid
    split at hid
    · cases hid
    · rename_i hne
      rcases h.memo m j id hid with hcl | hlive
      · rw [hc] at hcl
        cases hcl
        exact absurd ⟨rfl, rfl⟩ hne
      · exact hlive
  · rw [hmemo, if_neg]
    · exact h.home id o ho
    · rintro ⟨h₁, h₂⟩
      exact h.closed (n, k) hc id o ho (Prod.ext h₁ h₂)
  · rw [hmemo] at hid
    split at hid
    · cases hid
    · exact h.outletId m j id hid

theorem get_eraseAll {α : Type} (l : List Nat) (t : IdMap α) (j : Nat) :
    (l.foldl (fun t id => t.erase id) t)[j]? = if j ∈ l then none else t[j]? := by
  induction l generalizing t with
  | nil => rfl
  | cons a l ih =>
    rw [List.foldl_cons, ih, Table.get_erase]
    by_cases hj : j ∈ l
    · rw [if_pos hj, if_pos (List.mem_cons_of_mem _ hj)]
    · by_cases ha : j = a
      · rw [if_neg hj, if_pos ha, if_pos (ha ▸ List.mem_cons_self ..)]
      · rw [if_neg hj, if_neg ha, if_neg fun hm => (List.mem_cons.1 hm).elim ha hj]

theorem mem_outletsOf : id ∈ g.outletsOf n ↔ ∃ k, g.outletAt? n k = some id := by
  rw [outletsOf]
  rcases hd : g.data? n with _ | d
  · simp only [Option.map_none, Option.getD_none, List.not_mem_nil, false_iff, not_exists, outletAt?, hd, Option.bind_none]
    exact fun _ hk => by cases hk
  · simp only [Option.map_some, Option.getD_some, outletAt?_of_data? hd]
    exact Table.mem_values

/-- A node keeps the outlets that it owns. -/
theorem Posted.mem_outletsOf (h : Posted τ g) (hc : τ.closing = none) {o : Outlet} (ho : g.outlets[id]? = some o) :
    id ∈ g.outletsOf n ↔ o.owner = n := by
  rw [Graph.mem_outletsOf]
  constructor
  · rintro ⟨k, hk⟩
    rcases h.memo _ _ _ hk with hcl | ⟨o', ho', hp⟩
    · rw [hc] at hcl
      cases hcl
    · rw [ho] at ho'
      cases ho'
      exact congrArg Prod.fst hp
  · rintro rfl
    exact ⟨_, h.home id o ho⟩

/-- A node goes, with its outlets and their requests. -/
theorem Posted.cutOff (h : Posted τ g) (hc : τ.closing = none) :
    Posted { τ with asked := τ.asked.filter (·.2 ≠ n) } (g.cutOff n) := by
  have hlive : ∀ {m k} {id : OutletId}, g.outletAt? m k = some id → ∃ o : Outlet, g.outlets[id]? = some o ∧ o.place = (m, k) := fun hid =>
    (h.memo _ _ _ hid).resolve_left fun hcl => by
      rw [hc] at hcl
      cases hcl
  have hmem : ∀ {id : OutletId} {o : Outlet}, g.outlets[id]? = some o → (id ∈ g.outletsOf n ↔ o.owner = n) := h.mem_outletsOf hc
  have hout : ∀ id : OutletId, (g.cutOff n).outlets[id]? = if id ∈ g.outletsOf n then none else g.outlets[id]? := fun id => get_eraseAll ..
  have hreq : ∀ r : RequestId, (g.cutOff n).requests[r]? = if r ∈ (g.outletsOf n).flatMap g.requestsAt then none else g.requests[r]? :=
    fun r => get_eraseAll ..
  have hmemo : ∀ m k, (g.cutOff n).outletAt? m k = if m = n then none else g.outletAt? m k := fun m k => by
    have hget : (g.cutOff n).node? m = if m = n then none else g.node? m := Arena.get?_erase ..
    rw [outletAt?, data?, hget]
    split <;> rfl
  have hof : ∀ {id : OutletId} {o : Outlet}, (g.cutOff n).outlets[id]? = some o → g.outlets[id]? = some o ∧ o.owner ≠ n := fun {id o} ho => by
    rw [hout] at ho
    split at ho
    · cases ho
    · rename_i hno
      exact ⟨ho, fun hn => hno ((hmem ho).2 hn)⟩
  have hto : ∀ {id : OutletId} {o : Outlet}, g.outlets[id]? = some o → o.owner ≠ n → (g.cutOff n).outlets[id]? = some o := fun {id o} ho hn => by
    rw [hout, if_neg fun hm => hn ((hmem ho).1 hm), ho]
  have hcut : ∀ {r : RequestId} {q : Request}, g.requests[r]? = some q → ∀ {o : Outlet}, g.outlets[q.outlet]? = some o → r ∈ o.requests →
      (r ∈ (g.outletsOf n).flatMap g.requestsAt ↔ o.owner = n) := fun {r q} hq {o} ho hr => by
    rw [List.mem_flatMap]
    constructor
    · rintro ⟨id, hid, hr'⟩
      rw [requestsAt] at hr'
      rcases ho' : g.outlets[id]? with _ | o'
      · rw [ho'] at hr'
        cases hr'
      · rw [ho', Option.map_some, Option.getD_some, Std.ExtTreeSet.mem_toList] at hr'
        obtain ⟨q', hq', he⟩ := h.known id o' r ho' hr'
        rw [hq] at hq'
        cases hq'
        rw [he, ho'] at ho
        cases ho
        exact (hmem ho').1 hid
    · intro hn
      refine ⟨q.outlet, (hmem ho).2 hn, ?_⟩
      rw [requestsAt, ho]
      exact Std.ExtTreeSet.mem_toList.2 hr
  refine ⟨fun m k id hid => .inr ?_, fun id o ho => ?_, fun x hx => ?_, fun m k id hid => ?_, fun r q hq => ?_, fun r q hq => ?_,
    fun id o r ho hr => ?_, fun id o ho => h.bare id o (hof ho).1, fun r q o hq ho => ?_⟩
  · rw [hmemo] at hid
    split at hid
    · cases hid
    · rename_i hm
      obtain ⟨o, ho, hp⟩ := hlive hid
      exact ⟨o, hto ho (by rw [show o.owner = m from congrArg Prod.fst hp]; exact hm), hp⟩
  · obtain ⟨ho, hn⟩ := hof ho
    rw [hmemo, if_neg (show ¬ o.place.1 = n from hn)]
    exact h.home id o ho
  · have hx : x ∈ τ.closing := hx
    rw [hc] at hx
    cases hx
  · rw [hmemo] at hid
    split at hid
    · cases hid
    · exact h.outletId m k id hid
  · rw [hreq] at hq
    split at hq
    · cases hq
    · exact h.requestId r q hq
  · rw [hreq] at hq
    split at hq
    · cases hq
    · rename_i hno
      obtain ⟨o, ho, hr⟩ := h.enrolled r q hq
      exact ⟨o, hto ho fun hn => hno ((hcut hq ho hr).2 hn), hr⟩
  · obtain ⟨ho, hn⟩ := hof ho
    obtain ⟨q, hq, he⟩ := h.known id o r ho hr
    refine ⟨q, ?_, he⟩
    rw [hreq, if_neg fun hm => hn ((hcut hq (he ▸ ho) hr).1 hm), hq]
  · obtain ⟨ho, hn⟩ := hof ho
    rw [hreq] at hq
    split at hq
    · cases hq
    · exact List.mem_filter.2 ⟨h.asked r q o hq ho, by simpa using hn⟩

/-! ## All moves -/

/-- Every move keeps outlets and requests in order. -/
theorem posted_move (m : Move κ τ g τ' g') (h : Posted τ g) : Posted τ' g' := by
  have hsame : ∀ {g'' : Graph} {τ'' : Work}, g.SamePosts g'' → τ''.closing = τ.closing → τ''.bare = τ.bare → τ''.asked = τ.asked →
      Posted τ'' g'' := fun hs => hs.posted h
  cases m with
  | restate hr => exact hsame (.of_restated hr) rfl rfl rfl
  | reparent hn => exact hsame (.of_noted hn) rfl rfl rfl
  | sync n hτ ha => exact hsame (.of_derived (derived_synchronize g n)) rfl rfl rfl
  | reuse hτ hd hs hk hi => exact hsame (.of_data (fun _ => rfl) rfl rfl (Nat.le_refl _)) rfl rfl rfl
  | start hτ ha hd hs hk hnest => exact hsame (.of_derived (derives_drawId g).derived) rfl rfl rfl
  | merge hj ho => exact hsame (.of_derived (derives_mergeFeeds ..).derived) rfl rfl rfl
  | operate hj => exact hsame (.of_derived (derives_acquireProcess ..).derived) rfl rfl rfl
  | view hj => exact hsame (.refl g) rfl rfl rfl
  | finish children proto hj ha hh hb =>
    exact hsame (.of_derived (((derives_markUsed ..).derived.mono fun _ _ _ => trivial).trans Wiring.chains_true (derived_remember ..))) rfl rfl rfl
  | lessen hτ hi hu => exact hsame (.of_data (fun _ => rfl) rfl rfl (Nat.le_refl _)) rfl rfl rfl
  | dismantle hτ hi hu => exact hsame (.of_derived (derived_dismantle ..)) rfl rfl rfl
  | miss hi => exact hsame (.refl g) rfl rfl rfl
  | giveBack p hτ => exact hsame (.of_derived (derives_giveBack g p).derived) rfl rfl rfl
  | unwire hτ ht hw hup => exact hsame (.of_derived (.of_modifyWiring (P := fun _ _ => True) g _ fun _ => trivial)) rfl rfl rfl
  | destroy hτ ht => exact hsame (.of_derived (derives_destroyProcess ..).derived) rfl rfl rfl
  | discard hτ ht hi => exact hsame (.of_data (fun _ => rfl) rfl rfl (Nat.le_refl _)) rfl rfl rfl
  | pass hτ ht hi => exact hsame (.refl g) rfl rfl rfl
  | empty hτ ht => exact hsame (.of_derived (Derives.foldl (fun g port => derives_clearPort g _ port) _ g).derived) rfl rfl rfl
  | hush ht hc hd hs hid => exact hsame (samePosts_hush g _) rfl rfl rfl
  | told hst ht hs => exact hsame (.refl g) rfl rfl rfl
  | edit hτ hj ht =>
    refine hsame (.of_data ht.outlets ?_ ?_ ?_) rfl rfl rfl <;> obtain ⟨_, _, rfl⟩ := ht.rest
    · rfl
    · rfl
    · exact Nat.le_refl _
  | addLeaf hτ => exact hsame (samePosts_push rfl ⟨rfl, rfl, rfl⟩ fun d hd => absurd hd (Option.some_ne_none d).symm) rfl rfl rfl
  | addData b hτ => exact hsame (samePosts_push rfl ⟨rfl, rfl, rfl⟩ fun d hd => by cases hd; rfl) rfl rfl rfl
  | addEntry e => exact hsame (.of_data (fun _ => rfl) rfl rfl (Nat.le_refl _)) rfl rfl rfl
  | openOutlet hτ hc hd hk => exact h.openOutlet hτ hc hd hk
  | enroll ho hb => exact h.enroll ho hb
  | pin hc hb => exact h.pin hb
  | unsubscribe id => exact hsame (samePosts_unsubscribe ..) rfl rfl rfl
  | giveUp ho hh => exact hsame (.of_modifyOutlet g g.store _ fun _ => rfl) rfl rfl rfl
  | attach ho hn hc hcl => exact hsame (.of_modifyOutlet g _ _ fun _ => rfl) rfl rfl rfl
  | withdraw hτ hr => exact h.withdraw hτ hr
  | unasked hr => exact h.unasked hr
  | keep hb ho => exact h.keep hb ho
  | close hb hτ ho he hp hc => exact h.close hb hτ ho he rfl rfl
  | forget hc => exact h.forget hc
  | uproot hτ hj hc hrefs hs hidle => exact h.cutOff hc
  | disclaim hsub => exact hsame (.refl g) rfl rfl rfl

/-! ## Between calls -/

/-- Between calls a graph is tidy, and its outlets and requests are in order. -/
structure Orderly (a : Account) (g : Graph) : Prop where
  authored : g.Authored
  tidy : Tidy a.work g
  posted : Posted a.work g

/-- What the caller has in hand does not count for order. -/
theorem Orderly.lend {a : Account} (h : Orderly a g) (hands : List InstanceId) : Orderly { a with hands } g :=
  ⟨h.authored, (Quiet.refl g).tidy h.tidy rfl rfl rfl, (SamePosts.refl g).posted h.posted rfl rfl rfl⟩

/-- A call keeps a graph in order. -/
theorem Orderly.step {a : Account} (h : Orderly a g) {c : Call} (hc : ∀ id, c = .releaseInstance id → id ∈ a.hands) :
    Orderly (a.book c (g.settled.perform c).2) (g.step c) := by
  have hm := moves_step h.authored (h.posted.homed rfl) a hc
  exact ⟨authored_step h.authored c, hm.keeps (fun _ _ _ _ => tidy_move) h.tidy, hm.keeps (fun _ _ _ _ => posted_move) h.posted⟩

section New

variable (registry : Registry) (config : Config)

theorem data?_new (n : NodeId) : (new registry config).data? n = none := by
  have hn : (new registry config).node? n = none := Std.ExtTreeMap.getElem?_empty
  rw [data?, hn]
  rfl

theorem wiring?_new (n : NodeId) : (new registry config).wiring? n = none := by
  rw [wiring?, data?_new]
  rfl

theorem references_new (n : NodeId) : (new registry config).references n = [] := by
  rw [references, data?_new]
  rfl

theorem authored_new : (new registry config).Authored := by
  have hr : ∀ n r, r ∉ (new registry config).references n := fun n r hr => by
    rw [references_new] at hr
    cases hr
  have hd : ∀ n d, (new registry config).design? n ≠ some d := fun n d hd => by
    rw [design?, data?_new] at hd
    cases hd
  refine ⟨fun n r h => absurd h (hr n r), fun p c => ?_, fun n h => ?_, fun n d h => absurd h (hd n d), fun n d h => absurd h (hd n d)⟩
  · have hp : (new registry config).parentsOf c = [] := by
      have hn : (new registry config).node? c = none := Std.ExtTreeMap.getElem?_empty
      rw [parentsOf, hn]
      rfl
    rw [references_new, hp]
    rfl
  · obtain ⟨m, hm, -⟩ := Relation.TransGen.head'_iff.1 h
    exact hr n m hm

theorem frame?_new (n : NodeId) : (new registry config).frame? n = none := by
  rw [frame?, wiring?_new]
  rfl

theorem tidy_new : Tidy {} (new registry config) := by
  have hw := wiring?_new registry config
  have hf : ∀ n f, (new registry config).frame? n ≠ some f := fun n f hf => by
    rw [frame?_new] at hf
    cases hf
  have hr : ∀ n r, r ∉ (new registry config).references n := fun n r hr => by
    rw [references_new] at hr
    cases hr
  have hd : ∀ n d, (new registry config).data? n ≠ some d := fun n d hd => by
    rw [data?_new] at hd
    cases hd
  have hi : ∀ n k, (new registry config).instanceAt? n k = none := fun n k => by rw [instanceAt?, hw]; rfl
  have hp : ∀ n k, (new registry config).processAt? n k = none := fun n k => by rw [processAt?, hw]; rfl
  have hinst : ∀ (id : InstanceId) i, (new registry config).instances[id]? ≠ some i := fun id i hi =>
    Option.some_ne_none _ (hi.symm.trans Std.ExtTreeMap.getElem?_empty)
  have hproc : ∀ (id : ProcessId) p, (new registry config).processes[id]? ≠ some p := fun id p hp =>
    Option.some_ne_none _ (hp.symm.trans Std.ExtTreeMap.getElem?_empty)
  have hframed : Framed {} (new registry config) :=
    ⟨(authored_new registry config).designed, fun n d h => absurd h (hd n d), fun n r h => absurd h (hr n r), fun n f h => absurd h (hf n f),
      fun t ht => absurd ht (Option.not_mem_none t)⟩
  have hkept : Kept {} (new registry config) :=
    ⟨Memoed.empty.congr (fun _ => rfl) hi fun _ => rfl, Memoed.empty.congr (fun _ => rfl) hp fun _ => rfl, fun n f h => absurd h (hf n f),
      fun id i h => absurd h (hinst id i), fun id p h => absurd h (hproc id p), fun J hJ => absurd hJ List.not_mem_nil, List.nodup_nil⟩
  have hstaffed : Staffed {} (new registry config) :=
    ⟨fun J hJ => absurd hJ List.not_mem_nil, .nil, fun h => absurd rfl h, fun id p h => absurd h (hproc id p)⟩
  exact ⟨hframed, hkept, hstaffed⟩

theorem posted_new : Posted {} (new registry config) := by
  have ho : ∀ n k id, (new registry config).outletAt? n k ≠ some id := fun n k id ho => by
    rw [outletAt?, data?_new] at ho
    cases ho
  have hout : ∀ (id : OutletId) o, (new registry config).outlets[id]? ≠ some o := fun id o ho =>
    Option.some_ne_none _ (ho.symm.trans Std.ExtTreeMap.getElem?_empty)
  have hreq : ∀ (r : RequestId) q, (new registry config).requests[r]? ≠ some q := fun r q hq =>
    Option.some_ne_none _ (hq.symm.trans Std.ExtTreeMap.getElem?_empty)
  exact ⟨fun n k id h => absurd h (ho n k id), fun id o h => absurd h (hout id o), fun x hx => absurd hx (Option.not_mem_none x),
    fun n k id h => absurd h (ho n k id), fun r q h => absurd h (hreq r q), fun r q h => absurd h (hreq r q), fun id o r h => absurd h (hout id o),
    fun id o h => absurd h (hout id o), fun r q o h => absurd h (hreq r q)⟩

/-- A graph without nodes is in order. -/
theorem orderly_new : Orderly {} (new registry config) :=
  ⟨authored_new registry config, tidy_new registry config, posted_new registry config⟩

end New

/-- What every move keeps, whatever the caller has in hand between calls, holds of every graph that calls lead to. -/
theorem Reachable.keeps {I : Work → Graph → Prop} (hnew : ∀ registry config, I {} (new registry config))
    (hcall : ∀ (a : Account) (hands : List InstanceId) g, I a.work g → I { a with hands }.work g)
    (hmove : ∀ κ τ g τ' g', Move κ τ g τ' g' → Tidy τ g → Posted τ g → I τ g → I τ' g') (h : g.Reachable) :
    ∃ a : Account, Orderly a g ∧ I a.work g := by
  refine h.induction (P := fun g => ∃ a : Account, Orderly a g ∧ I a.work g)
    (fun registry config => ⟨{}, orderly_new registry config, hnew registry config⟩) fun g c ⟨a, ha, hi⟩ => ?_
  -- the caller has in hand what the call releases
  have hl := ha.lend c.released.toList
  have hm := moves_step (κ := c) hl.authored (hl.posted.homed rfl) { a with hands := c.released.toList } fun id he => by
    subst he
    exact List.mem_singleton_self id
  obtain ⟨h₁, h₂, h₃⟩ := hm.keeps (I := fun τ g => Tidy τ g ∧ Posted τ g ∧ I τ g)
    (fun τ g τ' g' m ⟨h₁, h₂, h₃⟩ => ⟨tidy_move m h₁, posted_move m h₂, hmove _ _ _ _ _ m h₁ h₂ h₃⟩) ⟨hl.tidy, hl.posted, hcall _ _ g hi⟩
  exact ⟨_, ⟨authored_step ha.authored c, h₁, h₂⟩, h₃⟩

/-- Every graph that calls lead to is in order. -/
theorem Reachable.orderly (h : g.Reachable) : ∃ a, Orderly a g := by
  obtain ⟨a, ha, -⟩ := h.keeps (I := fun _ _ => True) (fun _ _ => trivial) (fun _ _ _ _ => trivial) fun _ _ _ _ _ _ _ _ _ => trivial
  exact ⟨a, ha⟩

end Graph

end Dataflow
