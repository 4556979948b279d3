import Dataflow.Proofs.Consistent

/-!
# Subscribing

Making an outlet or a request notes who asks for what, and derives nothing. Names that are not empty and have no comma in them are told by
the key of their outlet, so a request is served with exactly the names that it was made for.
-/

namespace Dataflow

namespace Graph

variable {g g' : Graph} {n : NodeId} {new : List String → Prop}

/-! ## Keys of outlets -/

/-- Names that are told apart in the key of an outlet. -/
def Spelled (names : List String) : Prop := ∀ x ∈ names, x ≠ "" ∧ ',' ∉ x.toList

/-- The names can be read off the key. -/
theorem outletKey_inj {l l' : List String} (hl : Spelled l) (hl' : Spelled l') (h : outletKey l = outletKey l') : l = l' := by
  have split : ∀ {l : List String}, Spelled l → l ≠ [] → (outletKey l).toList.splitOn ',' = l.map String.toList := by
    intro l hl hne
    rw [outletKey, String.toList_intercalate]
    refine List.splitOn_intercalate _ (fun a ha => ?_) (by simpa using hne)
    obtain ⟨x, hx, rfl⟩ := List.mem_map.1 ha
    exact (hl x hx).2
  have single : ∀ {l : List String}, Spelled l → outletKey l = outletKey [] → l = [] := by
    intro l hl h
    by_contra hne
    have hs := split hl hne
    rw [h] at hs
    obtain ⟨x, l, rfl⟩ := List.exists_cons_of_ne_nil hne
    have hx : x.toList = [] := by
      have := congrArg List.head? hs
      simpa [outletKey] using this.symm
    exact (hl x (List.mem_cons_self ..)).1 (String.toList_inj.1 hx)
  by_cases hne : l = []
  · subst hne
    exact (single hl' h.symm).symm
  by_cases hne' : l' = []
  · subst hne'
    exact single hl h
  have := (split hl hne).symm.trans ((congrArg (fun s : String => s.toList.splitOn ',') h).trans (split hl' hne'))
  exact List.map_injective_iff.2 (fun a b => String.toList_inj.1) this

theorem mem_sortNames {names : List String} {x : String} : x ∈ sortNames names ↔ x ∈ names := by
  rw [sortNames, Std.ExtTreeSet.mem_toList, Std.ExtTreeSet.mem_insertMany_list]
  simp

theorem spelled_sortNames {names : List String} (h : Spelled names) : Spelled (sortNames names) := fun x hx => h x (mem_sortNames.1 hx)

/-! ## What is noted -/

/-- What outlets and requests note, and what nodes say of their outlets, is not derived. -/
theorem spares_noted (hrest : ∃ nodes outlets requests lastId journal, g' = { g with nodes, outlets, requests, lastId, journal })
    (hlast : g.lastId ≤ g'.lastId) (hinner : ∀ m, g'.inner? m = g.inner? m) (hleaf : ∀ m, g'.leaf? m = g.leaf? m) :
    Spares (fun _ => False) g g' := by
  have hmap : ∀ m q, g'.mapId m q = g.mapId m q := fun m q => by
    rw [Graph.mapId, Graph.mapId, wiring?_eq, wiring?_eq, hinner]
  obtain ⟨nodes, outlets, requests, lastId, journal, rfl⟩ := hrest
  exact { Spares.refl _ g with
    lastId := hlast
    data := fun m _ => hinner m
    leaf := fun m _ => hleaf m
    mapIn := fun _ _ => mapIn_of_mapId hmap
    bounded := fun h m q o ho => h m q o ((hmap m q).symm.trans ho)
    apart := fun h m q m' q' o ho ho' => h m q m' q' o ((hmap m q).symm.trans ho) ((hmap m' q').symm.trans ho') }

/-- A change of what outlets and requests note keeps the graph consistent. -/
theorem Consistent.noted (h : g.Consistent) (hrest : ∃ nodes outlets requests lastId journal, g' = { g with nodes, outlets, requests, lastId, journal })
    (hinner : ∀ m, g'.inner? m = g.inner? m) (hleaf : ∀ m, g'.leaf? m = g.leaf? m) (ha : g'.Authored) (he : g'.Enrolled)
    (hserving : Serving new g g')
    (hout : ∀ (id : OutletId) (o' : Outlet), g'.outlets[id]? = some o' → (o'.Idle ∧ g.outlets[id]? = none) ∨
      ∃ o : Outlet, g.outlets[id]? = some o ∧ o.Like o' ∧ o'.status = o.status ∧ o'.result = o.result)
    (hkeep : ∀ (id : OutletId) (o : Outlet), g.outlets[id]? = some o → (g'.outlets[id]?).isSome) : Upholds new g g' := by
  have hsp := spares_noted hrest hserving.lastId hinner hleaf
  obtain ⟨nodes, outlets, requests, lastId, journal, rfl⟩ := hrest
  have htended := h.tended.calm hsp rfl h.tended.sound.mirrored ha he
    (fun id o' ho' => (hout id o' ho').imp_right fun ⟨o, ho, hl, _⟩ => ⟨o, ho, hl⟩) hkeep fun _ _ hl => hl
  refine ⟨⟨htended, ⟨h.current.settled, h.current.computed, h.current.planned, fun id o' ho' hr => ?_⟩, h.named⟩, hserving, rfl, rfl⟩
  rcases hout id o' ho' with ⟨hi, -⟩ | ⟨o, ho, hl, hst, hres⟩
  · rw [hi.status] at hr
    cases hr
  · rw [hres, hl.channels]
    exact h.current.published id o ho (hst ▸ hr)

/-! ## Outlets -/

/-- The graph with an outlet more. -/
def openOutlet (g : Graph) (n : NodeId) (filter : List String) : Graph :=
  modifyData { g with lastId := g.lastId + 1, outlets := g.outlets.insert (g.lastId + 1) { owner := n, filter } } n
    fun d => { d with outlets := d.outlets.insert (outletKey filter) (g.lastId + 1) }

theorem outletFor_cases (g : Graph) (n : NodeId) (names : List String) :
    (∃ e, g.outletFor n names = (g, .error e)) ∨ ∃ d, g.data? n = some d ∧
      ((∃ id, d.outlets[outletKey (sortNames names)]? = some id ∧ g.outletFor n names = (g, .ok id)) ∨
        ((d.outlets[outletKey (sortNames names)]?).filter g.outlets.contains = none ∧
          g.outletFor n names = (g.openOutlet n (sortNames names), .ok (g.lastId + 1)))) := by
  rw [outletFor]
  rcases hd : g.requireData n with e | d
  · exact .inl ⟨e, rfl⟩
  · refine .inr ⟨d, data?_of_requireData hd, ?_⟩
    dsimp only
    split
    · rename_i id hid
      exact .inl ⟨id, (Option.filter_eq_some_iff.1 hid).1, rfl⟩
    · exact .inr ⟨‹_›, rfl⟩

theorem get_outlets_openOutlet (g : Graph) (n : NodeId) (filter : List String) (id : OutletId) :
    (g.openOutlet n filter).outlets[id]? = if id = g.lastId + 1 then some { owner := n, filter } else g.outlets[id]? :=
  Table.get_insert ..

theorem data?_openOutlet (g : Graph) (n m : NodeId) (filter : List String) :
    (g.openOutlet n filter).data? m =
      if m = n then (g.data? m).map fun d => { d with outlets := d.outlets.insert (outletKey filter) (g.lastId + 1) } else g.data? m :=
  data?_modifyData ..

/-- The outlets that a node keeps are not authored. -/
theorem design?_modifyOutlets (g : Graph) (n m : NodeId) (f : NameMap OutletId → NameMap OutletId) :
    (g.modifyData n fun d => { d with outlets := f d.outlets }).design? m = g.design? m := by
  rw [design?, data?_modifyData, design?]
  split
  · rw [Option.map_map]
    rfl
  · rfl

theorem sameDesign_openOutlet (g : Graph) (n : NodeId) (filter : List String) : g.SameDesign (g.openOutlet n filter) :=
  ⟨fun m => design?_modifyOutlets _ n m (·.insert (outletKey filter) (g.lastId + 1)), fun m => leaf?_modifyData _ n m _, rfl⟩

theorem Authored.modifyOutlets (ha : g.Authored) (n : NodeId) (f : NameMap OutletId → NameMap OutletId) :
    (g.modifyData n fun d => { d with outlets := f d.outlets }).Authored := by
  refine ha.congr (fun m => isSome_node?_modifyData ..) (fun m => ?_) fun m => parentsOf_modifyData ..
  exact design?_modifyOutlets g n m f

/-- What a node derives does not tell of its outlets. -/
theorem inner?_modifyOutlets (g : Graph) (n m : NodeId) (f : NameMap OutletId → NameMap OutletId) :
    (g.modifyData n fun d => { d with outlets := f d.outlets }).inner? m = g.inner? m := by
  rw [inner?, data?_modifyData, inner?]
  split
  · rcases g.data? m with _ | d <;> rfl
  · rfl

theorem authored_openOutlet (ha : g.Authored) (n : NodeId) (filter : List String) : (g.openOutlet n filter).Authored :=
  Authored.modifyOutlets (g := { g with
    lastId := g.lastId + 1, outlets := g.outlets.insert (g.lastId + 1) { owner := n, filter } }) { ha with } n
      fun m => m.insert (outletKey filter) (g.lastId + 1)

/-- A new outlet is enrolled with its node. -/
theorem Enrolled.openOutlet (h : g.Enrolled) {filter : List String} {d : DataNode} (hd : g.data? n = some d)
    (hnone : d.outlets[outletKey filter]? = none) : (g.openOutlet n filter).Enrolled := by
  have hnew : ∀ {id : OutletId} {o : Outlet}, g.outlets[id]? = some o → id ≠ g.lastId + 1 := fun ho he =>
    absurd (he ▸ h.outletId _ _ ho) (Nat.not_succ_le_self _)
  have hout : ∀ {id : OutletId} {o : Outlet}, g.outlets[id]? = some o → (g.openOutlet n filter).outlets[id]? = some o := fun ho => by
    rw [get_outlets_openOutlet, if_neg (hnew ho)]
    exact ho
  refine ⟨fun m e k id he hk => ?_, fun id o ho => ?_, fun id o ho => ?_, fun r q hq => Nat.le_succ_of_le (h.requestId r q hq),
    fun r q hq => ?_, fun id o r ho hr => ?_⟩
  · rw [data?_openOutlet] at he
    split at he
    · rename_i hm
      subst hm
      rw [hd] at he
      cases he
      rw [Table.get_insert] at hk
      split at hk
      · rename_i hkey
        cases hk
        exact ⟨_, (get_outlets_openOutlet ..).trans (if_pos rfl), rfl, hkey.symm⟩
      · obtain ⟨o, ho, hown, hkey⟩ := h.memo m d k id hd hk
        exact ⟨o, hout ho, hown, hkey⟩
    · obtain ⟨o, ho, hown, hkey⟩ := h.memo m e k id he hk
      exact ⟨o, hout ho, hown, hkey⟩
  · rw [get_outlets_openOutlet] at ho
    split at ho
    · rename_i hid
      cases ho
      refine ⟨_, (data?_openOutlet ..).trans (by rw [if_pos rfl, hd]; rfl), ?_⟩
      rw [Table.get_insert, if_pos rfl, hid]
    · obtain ⟨e, he, hk⟩ := h.home id o ho
      by_cases hm : o.owner = n
      · rw [hm] at he
        rw [hd] at he
        cases he
        refine ⟨_, (data?_openOutlet ..).trans (by rw [if_pos hm, hm, hd]; rfl), ?_⟩
        rw [Table.get_insert, if_neg]
        · exact hk
        · intro hkey
          rw [hkey, hnone] at hk
          cases hk
      · exact ⟨e, (data?_openOutlet ..).trans (by rw [if_neg hm]; exact he), hk⟩
  · rw [get_outlets_openOutlet] at ho
    split at ho
    · rename_i hid
      exact Nat.le_of_eq hid
    · exact Nat.le_succ_of_le (h.outletId id o ho)
  · obtain ⟨o, ho, hr⟩ := h.asked r q hq
    exact ⟨o, hout ho, hr⟩
  · rw [get_outlets_openOutlet] at ho
    split at ho
    · cases ho
      exact absurd hr Std.ExtTreeSet.not_mem_empty
    · exact h.known id o r ho hr

/-- Making an outlet keeps the graph consistent. -/
theorem Consistent.openOutlet (h : g.Consistent) {filter : List String} {d : DataNode} (hd : g.data? n = some d)
    (hnone : d.outlets[outletKey filter]? = none) : Upholds (· = filter) g (g.openOutlet n filter) := by
  have hnew : g.outlets[g.lastId + 1]? = none := by
    rcases ho : g.outlets[g.lastId + 1]? with _ | o
    · rfl
    · exact absurd (h.tended.enrolled.outletId _ o ho) (Nat.not_succ_le_self _)
  refine h.noted ⟨_, _, _, _, _, rfl⟩ (fun m => inner?_modifyOutlets _ n m fun t => t.insert (outletKey filter) (g.lastId + 1)) (fun m => leaf?_modifyData _ n m _) ?_ (h.tended.enrolled.openOutlet hd hnone)
    ⟨Nat.le_succ _, fun r q hq => .inl ⟨q, hq, rfl⟩, fun id o ho => ?_⟩ (fun id o ho => ?_) fun id o ho => ?_
  · exact authored_openOutlet h.tended.authored n filter
  · rw [get_outlets_openOutlet] at ho
    split at ho
    · rename_i hid
      cases ho
      exact .inr ⟨by rw [hid]; exact Nat.lt_succ_self _, rfl⟩
    · exact .inl ⟨o, ho, rfl, rfl⟩
  · rw [get_outlets_openOutlet] at ho
    split at ho
    · rename_i hid
      cases ho
      exact .inl ⟨⟨rfl, rfl, rfl⟩, hid ▸ hnew⟩
    · exact .inr ⟨o, ho, .refl o, rfl, rfl⟩
  · rw [get_outlets_openOutlet]
    split
    · rfl
    · rw [ho]
      rfl

/-- A call that asks for names of a node keeps the graph consistent, and what it gets is an outlet of the node for these names. -/
theorem Consistent.outletFor (h : g.Consistent) (n : NodeId) (names : List String) :
    Upholds (· = sortNames names) g (g.outletFor n names).1 ∧ ∀ id, (g.outletFor n names).2 = .ok id →
      ∃ o : Outlet, (g.outletFor n names).1.outlets[id]? = some o ∧ o.owner = n ∧ outletKey o.filter = outletKey (sortNames names) := by
  rcases outletFor_cases g n names with ⟨e, he⟩ | ⟨d, hd, ⟨id, hid, he⟩ | ⟨hnone, he⟩⟩ <;> rw [he]
  · exact ⟨h.upholds, nofun⟩
  · refine ⟨h.upholds, fun id' hid' => ?_⟩
    cases hid'
    exact h.tended.enrolled.memo n d _ id hd hid
  · have hnone' : d.outlets[outletKey (sortNames names)]? = none := by
      rcases hk : d.outlets[outletKey (sortNames names)]? with _ | id
      · rfl
      · obtain ⟨o, ho, -⟩ := h.tended.enrolled.memo n d _ id hd hk
        rw [hk, Option.filter_eq_none_iff] at hnone
        exact absurd (Std.ExtTreeMap.mem_iff_isSome_getElem?.2 (by rw [ho]; rfl)) (by simpa using hnone id rfl)
    refine ⟨h.openOutlet hd hnone', fun id hid => ?_⟩
    cases hid
    exact ⟨_, (get_outlets_openOutlet ..).trans (if_pos rfl), rfl, rfl⟩

theorem get_outlets_modifyOutlet (g : Graph) (id id' : OutletId) (f : Outlet → Outlet) :
    (g.modifyOutlet id f).outlets[id']? = if id' = id then (g.outlets[id']?).map f else g.outlets[id']? :=
  Table.get_modify ..

/-- Changing what an outlet notes of its requests keeps the graph consistent, if these stay enrolled. -/
theorem Consistent.modifyOutlet (h : g.Consistent) {id : OutletId} {f : Outlet → Outlet} {requests : IdMap Request} {lastId : Nat}
    (hlast : g.lastId ≤ lastId) (hf : ∀ o, Outlet.Like o (f o) ∧ (f o).status = o.status ∧ (f o).result = o.result)
    (hreq : ∀ (r : RequestId) (q' : Request), requests[r]? = some q' →
      (∃ q : Request, g.requests[r]? = some q ∧ q.outlet = q'.outlet) ∨ g.lastId < r)
    (he : Enrolled (Graph.modifyOutlet { g with requests, lastId } id f)) :
    Upholds new g (Graph.modifyOutlet { g with requests, lastId } id f) := by
  have hout := get_outlets_modifyOutlet { g with requests, lastId } id
  refine h.noted ⟨_, _, _, _, _, rfl⟩ (fun _ => rfl) (fun _ => rfl) { h.tended.authored with } he ⟨hlast, hreq, fun id' o' ho' => ?_⟩
    (fun id' o' ho' => ?_) fun id' o ho => ?_
  · rw [hout] at ho'
    split at ho'
    · obtain ⟨o, ho, rfl⟩ := Option.map_eq_some_iff.1 ho'
      exact .inl ⟨o, ho, (hf o).1.owner.symm, (hf o).1.filter.symm⟩
    · exact .inl ⟨o', ho', rfl, rfl⟩
  · rw [hout] at ho'
    split at ho'
    · obtain ⟨o, ho, rfl⟩ := Option.map_eq_some_iff.1 ho'
      exact .inr ⟨o, ho, (hf o).1, (hf o).2⟩
    · exact .inr ⟨o', ho', .refl o', rfl, rfl⟩
  · rw [hout]
    have ho : g.outlets[id']? = some o := ho
    show Option.isSome (if id' = id then (g.outlets[id']?).map f else g.outlets[id']?) = true
    rw [ho]
    split <;> rfl

/-! ## Requests -/

/-- The request asks for names of a node. -/
def Asks (g : Graph) (r : RequestId) (n : NodeId) (filter : List String) : Prop :=
  ∃ (q : Request) (o : Outlet), g.requests[r]? = some q ∧ g.outlets[q.outlet]? = some o ∧ o.owner = n ∧ o.filter = filter

/-- As long as a request lives, it stays at its outlet. -/
theorem Serving.outlet_eq (h : Serving new g g') (he : g.Enrolled) {r : RequestId} {q q' : Request} (hq : g.requests[r]? = some q)
    (hq' : g'.requests[r]? = some q') : q'.outlet = q.outlet := by
  rcases h.requests r q' hq' with ⟨q'', hq'', hs⟩ | hlt
  · cases hq.symm.trans hq''
    exact hs.symm
  · exact absurd hlt (Nat.not_lt.2 (he.requestId r q hq))

/-- As long as a request lives, it asks for what it asked for. -/
theorem Serving.asks (h : Serving new g g') (he : g.Enrolled) (he' : g'.Enrolled) {r : RequestId} {filter : List String}
    (ha : g.Asks r n filter) (hr : (g'.requests[r]?).isSome) : g'.Asks r n filter := by
  obtain ⟨q, o, hq, ho, hown, hf⟩ := ha
  obtain ⟨q', hq'⟩ := Option.isSome_iff_exists.1 hr
  obtain ⟨o', ho', -⟩ := he'.asked r q' hq'
  refine ⟨q', o', hq', ho', ?_⟩
  have hsame : q.outlet = q'.outlet := (h.outlet_eq he hq hq').symm
  rcases h.outlets q'.outlet o' ho' with ⟨o'', ho'', hown', hf'⟩ | ⟨hlt, -⟩
  · rw [← hsame, ho] at ho''
    cases ho''
    exact ⟨hown'.symm.trans hown, hf'.symm.trans hf⟩
  · exact absurd hlt (Nat.not_lt.2 (hsame ▸ he.outletId _ o ho))

/-- The graph with a request more at an outlet. -/
def enroll (g : Graph) (outlet : OutletId) : Graph :=
  Graph.modifyOutlet { g with lastId := g.lastId + 1, requests := g.requests.insert (g.lastId + 1) { outlet } } outlet
    fun o => { o with requests := o.requests.insert (g.lastId + 1) }

/-- A new request is enrolled with its outlet. -/
theorem Consistent.enroll (h : g.Consistent) {outlet : OutletId} {o : Outlet} (ho : g.outlets[outlet]? = some o) :
    Upholds new g (g.enroll outlet) ∧ (g.enroll outlet).Asks (g.lastId + 1) o.owner o.filter := by
  have he := h.tended.enrolled
  have hout : ∀ id : OutletId, (g.enroll outlet).outlets[id]? =
      if id = outlet then (g.outlets[id]?).map fun o => { o with requests := o.requests.insert (g.lastId + 1) } else g.outlets[id]? :=
    fun id => get_outlets_modifyOutlet ..
  have hreq : ∀ r : RequestId, (g.requests.insert (g.lastId + 1) { outlet })[r]? = if r = g.lastId + 1 then some { outlet } else g.requests[r]? :=
    fun r => Table.get_insert ..
  have hto : ∀ {id : OutletId} {o' : Outlet}, g.outlets[id]? = some o' → ∃ o'' : Outlet, (g.enroll outlet).outlets[id]? = some o'' ∧
      o''.owner = o'.owner ∧ o''.filter = o'.filter ∧ ∀ r, r ∈ o''.requests ↔ (id = outlet ∧ r = g.lastId + 1) ∨ r ∈ o'.requests := by
    intro id o' ho'
    by_cases hid : id = outlet
    · refine ⟨{ o' with requests := o'.requests.insert (g.lastId + 1) }, (hout id).trans ?_, rfl, rfl, fun r => ?_⟩
      · rw [if_pos hid, ho']
        rfl
      · rw [Std.ExtTreeSet.mem_insert, Std.LawfulEqCmp.compare_eq_iff_eq, eq_comm, and_iff_right hid]
    · exact ⟨o', (hout id).trans ((if_neg hid).trans ho'), rfl, rfl, fun r => by simp [hid]⟩
  have hof : ∀ {id : OutletId} {o'' : Outlet}, (g.enroll outlet).outlets[id]? = some o'' → ∃ o' : Outlet, g.outlets[id]? = some o' ∧
      o''.owner = o'.owner ∧ o''.filter = o'.filter ∧ ∀ r, r ∈ o''.requests ↔ (id = outlet ∧ r = g.lastId + 1) ∨ r ∈ o'.requests := by
    intro id o'' ho''
    have hsome : (g.outlets[id]?).isSome := by
      have := (hout id).symm.trans ho''
      split at this
      · obtain ⟨o', ho', -⟩ := Option.map_eq_some_iff.1 this
        exact Option.isSome_iff_exists.2 ⟨o', ho'⟩
      · exact Option.isSome_iff_exists.2 ⟨o'', this⟩
    obtain ⟨o', ho'⟩ := Option.isSome_iff_exists.1 hsome
    obtain ⟨o₁, ho₁, hall⟩ := hto ho'
    cases ho''.symm.trans ho₁
    exact ⟨o', ho', hall⟩
  refine ⟨h.modifyOutlet (Nat.le_succ _) (fun o => ⟨⟨rfl, rfl, rfl, rfl, Iff.rfl⟩, rfl, rfl⟩) (fun r q hq => ?_)
    ⟨fun m d k id hd hk => ?_, fun id o' ho' => ?_, fun id o' ho' => ?_, fun r q hq => ?_, fun r q hq => ?_, fun id o' r ho' hr => ?_⟩, ?_⟩
  · rw [hreq] at hq
    split at hq
    · rename_i hr
      exact .inr (by rw [hr]; exact Nat.lt_succ_self _)
    · exact .inl ⟨q, hq, rfl⟩
  · obtain ⟨o', ho', hown, hkey⟩ := he.memo m d k id hd hk
    obtain ⟨o'', ho'', hown', hf, -⟩ := hto ho'
    exact ⟨o'', ho'', hown'.trans hown, by rw [hf]; exact hkey⟩
  · obtain ⟨o, ho, hown, hf, -⟩ := hof ho'
    rw [hown, hf]
    exact he.home id o ho
  · obtain ⟨o, ho, -⟩ := hof ho'
    exact Nat.le_succ_of_le (he.outletId id o ho)
  · have hq := (hreq r).symm.trans hq
    split at hq
    · rename_i hr
      exact Nat.le_of_eq hr
    · exact Nat.le_succ_of_le (he.requestId r q hq)
  · have hq := (hreq r).symm.trans hq
    split at hq
    · rename_i hr
      cases hq
      obtain ⟨o'', ho'', -, -, hall⟩ := hto ho
      exact ⟨o'', ho'', (hall r).2 (.inl ⟨rfl, hr⟩)⟩
    · obtain ⟨o', ho', hr⟩ := he.asked r q hq
      obtain ⟨o'', ho'', -, -, hall⟩ := hto ho'
      exact ⟨o'', ho'', (hall r).2 (.inr hr)⟩
  · obtain ⟨o, ho, -, -, hall⟩ := hof ho'
    rcases (hall r).1 hr with ⟨hid, hr⟩ | hr
    · exact ⟨{ outlet }, (hreq r).trans (if_pos hr), hid.symm⟩
    · obtain ⟨q, hq, hqo⟩ := he.known id o r ho hr
      refine ⟨q, (hreq r).trans ((if_neg fun he' => ?_).trans hq), hqo⟩
      exact absurd (he' ▸ he.requestId r q hq) (Nat.not_succ_le_self _)
  · obtain ⟨o'', ho'', hown, hf, -⟩ := hto ho
    exact ⟨{ outlet }, o'', (hreq _).trans (if_pos rfl), ho'', hown, hf⟩

theorem createRequest_eq (g : Graph) (n : NodeId) (names : List String) :
    g.createRequest n names = match g.outletFor n names with
      | (g, .error e) => (g, .error e)
      | (g, .ok outlet) => (g.enroll outlet, .ok (g.lastId + 1)) := rfl

/-- A request is served at the key of the names that it was made for. -/
theorem Consistent.createRequest (h : g.Consistent) (n : NodeId) (names : List String) :
    Upholds (· = sortNames names) g (g.createRequest n names).1 ∧ ∀ r, (g.createRequest n names).2 = .ok r →
      ∃ filter, (g.createRequest n names).1.Asks r n filter ∧ outletKey filter = outletKey (sortNames names) := by
  obtain ⟨hu, hid⟩ := h.outletFor n names
  rw [createRequest_eq]
  generalize g.outletFor n names = out at hu hid
  obtain ⟨g₁, e | outlet⟩ := out
  · exact ⟨hu, nofun⟩
  · obtain ⟨o, ho, hown, hkey⟩ := hid outlet rfl
    obtain ⟨hu', hasks⟩ : Upholds (· = sortNames names) g₁ (g₁.enroll outlet) ∧ _ := hu.consistent.enroll ho
    refine ⟨hu.trans hu', fun r hr => ?_⟩
    cases hr
    exact ⟨o.filter, hown ▸ hasks, hkey⟩

end Graph

end Dataflow
