import Dataflow.Proofs.Live

/-!
# Requests publish what they name

An outlet publishes exactly the names that its node exposes and that its filter selects, since no channel is ever without slots. A request
gets the outlet that its node has under the key of its names, whoever opened it. So requests publish what they name exactly when the
keys tell the lists of names apart that are asked for.
-/

namespace Dataflow

namespace Sequence

variable {K : Type} [KeyArith K]

theorem insert_ne_nil (ε : K) (x : Slot K) (l : List (Slot K)) : (insert ε x l).1 ≠ [] := by
  cases l with
  | nil => exact List.cons_ne_nil _ _
  | cons a l =>
    rw [insert]
    split
    · exact List.cons_ne_nil _ _
    · split <;> exact List.cons_ne_nil _ _

theorem insertAll_ne_nil (ε : K) {base l : List (Slot K)} (h : base ≠ [] ∨ l ≠ []) : insertAll ε base l ≠ [] := by
  induction l generalizing base with
  | nil => exact h.resolve_right fun h => h rfl
  | cons x l ih => exact ih (.inl (insert_ne_nil ε x base))

end Sequence

namespace Store

/-- Merging what has slots gives slots. -/
theorem draft_ne_nil (s : Store) {fs : List Feed} (hf : ∀ f ∈ fs, s.feedSlots f ≠ []) {d : Draft} (hd : s.draft fs = some d) :
    d.slots ≠ [] := by
  induction fs using List.reverseRecOn generalizing d with
  | nil => cases hd
  | append_singleton fs f ih =>
    have hlast := hf f (List.mem_append_right _ List.mem_cons_self)
    rw [draft_append] at hd
    rcases hd' : s.draft fs with _ | d' <;> rw [hd'] at hd <;> rcases f with c | x <;> simp only [merge] at hd
    · cases hd
      exact hlast
    · cases hd
      exact Sequence.insertAll_ne_nil _ (.inr (List.cons_ne_nil _ _))
    · split at hd
      · cases hd
        exact ih (fun f hf' => hf f (List.mem_append_left _ hf')) hd'
      · split at hd
        · cases hd
          exact Sequence.insertAll_ne_nil _ (.inr hlast)
        · cases hd
          exact hlast
    · split at hd
      · cases hd
        exact Sequence.insertAll_ne_nil _ (.inr (List.cons_ne_nil _ _))
      · cases hd
        exact Sequence.insertAll_ne_nil _ (.inr (List.cons_ne_nil _ _))

end Store

namespace Graph

variable {hands : List InstanceId} {g g' : Graph} {n m : NodeId} {port : Port} {x : String} {e : EntryId} {id : OutletId} {o : Outlet}

/-! ## Channels have slots -/

/-- A channel that shows feeds with slots has slots. -/
theorem Built.slots_ne_nil (hb : g.Built n .empty port) (hf : ∀ f ∈ g.feeds n .empty x port, g.store.feedSlots f ≠ []) {c : ChannelId}
    (hc : g.chan n port x .empty = some c) : g.store.slots c ≠ [] := by
  obtain ⟨m, -, hs⟩ := hb.shown x
  rw [hc] at hs
  obtain ⟨d, o, hd, hw, -⟩ := hs.of_some
  rw [Store.slots_of_wire? hw]
  exact g.store.draft_ne_nil hf hd

/-- What an instance exposes has slots. -/
theorem SoundBut.slots_ne_nil (h : SoundBut (fun _ => False) hands g) {j : InstanceId} {i : Instance} (hi : g.instances[j]? = some i)
    {c : ChannelId} (hc : g.chan i.owner port x .empty = some c) : g.store.slots c ≠ [] := by
  obtain ⟨k, hk⟩ : ∃ k, g.rank i.owner = k := ⟨_, rfl⟩
  induction k using Nat.strongRecOn generalizing j i port x c with
  | ind k ih =>
    obtain ⟨d, hd⟩ := (h.faithful j i hi not_false).inSync.exists_design
    have hb := fun port => h.built hi not_false port
    have hinput : ∀ {x c}, g.chan i.owner .input x .empty = some c → g.store.slots c ≠ [] := by
      intro x c hc
      refine (hb .input).slots_ne_nil (fun f hf => ?_) hc
      rw [feeds_input _ _ hd, List.mem_flatMap] at hf
      obtain ⟨r, hr, hf⟩ := hf
      rcases mem_brought.1 hf with ⟨l, -, -, hl⟩ | ⟨hl, c, hc, rfl⟩
      · rw [feed?_empty] at hl
        obtain ⟨e, -, rfl⟩ := Option.map_eq_some_iff.1 hl
        exact List.cons_ne_nil _ _
      · obtain ⟨j₁, i₁, -, hi₁, rfl⟩ := h.child hi not_false hd hr hl
        exact ih _ (hk ▸ h.founded.ranked _ _ (SoundBut.reference_of_inflow hd hr)) hi₁ hc rfl
    have hextended : ∀ {x c}, g.chan i.owner .extended x .empty = some c → g.store.slots c ≠ [] := by
      intro x c hc
      refine (hb .extended).slots_ne_nil (fun f hf => ?_) hc
      rw [feeds_extended _ _ hd] at hf
      rcases List.mem_append.1 hf with hf | hf
      · obtain ⟨c, hc, rfl⟩ := List.mem_map.1 hf
        exact hinput (Option.mem_toList.1 hc)
      · obtain ⟨-, -, e, -, -, -, rfl⟩ := mem_produced.1 hf
        exact List.cons_ne_nil _ _
    cases port with
    | input => exact hinput hc
    | extended => exact hextended hc
    | output =>
      refine (hb .output).slots_ne_nil (fun f hf => ?_) hc
      rw [feeds_output_plain h.plain hd, List.mem_filterMap] at hf
      obtain ⟨y, -, hf⟩ := hf
      obtain ⟨c, hc, rfl⟩ := Option.map_eq_some_iff.1 hf
      exact hextended hc

/-! ## What outlets publish -/

/-- A list of names selects a name that is among them, and every name if it is empty. -/
def Selects (names : List String) (x : String) : Prop := names = [] ∨ x ∈ names

theorem selects_sortNames {names : List String} : Selects (sortNames names) x ↔ Selects names x := by
  have hnil : sortNames names = [] ↔ names = [] := by
    rw [List.eq_nil_iff_forall_not_mem, List.eq_nil_iff_forall_not_mem]
    exact forall_congr' fun y => not_congr mem_sortNames
  rw [Selects, hnil, mem_sortNames, Selects]

theorem mem_finalNames : x ∈ (g.finalChannels n .empty).map (·.1) ↔ (g.chan n .output x .empty).isSome := by
  rw [List.mem_map, Option.isSome_iff_exists]
  constructor
  · rintro ⟨⟨y, c⟩, hc, rfl⟩
    exact ⟨c, mem_finalChannels.1 hc⟩
  · rintro ⟨c, hc⟩
    exact ⟨(x, c), mem_finalChannels.2 hc, rfl⟩

/-- A ready outlet publishes the names that its node exposes and that its filter selects. -/
theorem Consistent.isSome_output_iff (h : g.Consistent) (ho : g.outlets[id]? = some o) (hr : o.status = .ready) :
    (o.result.outputs[x]?).isSome ↔ x ∈ (g.finalChannels o.owner .empty).map (·.1) ∧ Selects o.filter x := by
  have hstatus : o.status ≠ .needsStructure := by
    rw [hr]
    decide
  obtain ⟨j, -, ⟨i, hi, hown, -⟩, hx⟩ := (h.tended.outlet id o ho).held hstatus
  have hselects : (o.filter.isEmpty || o.filter.contains x) = true ↔ Selects o.filter x := by
    rw [Bool.or_eq_true, List.isEmpty_iff, List.contains_iff_mem, Selects]
  have hfirst : ∀ c, g.chan o.owner .output x .empty = some c → (g.store.firstId? c).isSome := by
    intro c hc
    rw [Store.firstId?, Option.isSome_map]
    obtain ⟨y, l, hl⟩ := List.exists_cons_of_ne_nil (h.tended.sound.slots_ne_nil hi (hown.symm ▸ hc))
    rw [hl]
    rfl
  rw [h.current.published id o ho hr, get_published, hx, mem_finalNames]
  split
  · rename_i hsel
    rw [and_iff_left (hselects.1 hsel)]
    rcases hc : g.chan o.owner .output x .empty with _ | c
    · exact ⟨(fun hs => by cases hs), (fun hs => by cases hs)⟩
    · exact ⟨fun _ => rfl, fun _ => hfirst c hc⟩
  · rename_i hsel
    exact ⟨(fun hs => by cases hs), fun hs => absurd (hselects.2 hs.2) hsel⟩

/-! ## Requests -/

/-- The request is answered, and what is published are the names that the node exposes then and that the list selects. -/
def PublishesOf (g : Graph) (r : RequestId) (n : NodeId) (names : List String) : Prop :=
  ∃ res, (g.settled.perform (.pull r)).2 = .ok (.pulled (some res)) ∧
    ∀ x, (res.outputs[x]?).isSome ↔ x ∈ ((g.step (.pull r)).finalChannels n .empty).map (·.1) ∧ Selects names x

/-- A request publishes what the filter of its outlet selects. -/
theorem Consistent.publishesOf (h : g.Consistent) {r : RequestId} {filter : List String} (ha : g.Asks r n filter) :
    g.PublishesOf r n filter := by
  obtain ⟨id, o, hdel⟩ := h.delivers ha
  refine ⟨o.result, hdel.reply, fun x => ?_⟩
  rw [← hdel.owner, ← hdel.filter]
  exact hdel.upholds.consistent.isSome_output_iff hdel.outlet hdel.ready

theorem PublishesOf.congr {r : RequestId} {names names' : List String} (h : g.PublishesOf r n names)
    (hn : ∀ x, Selects names x ↔ Selects names' x) : g.PublishesOf r n names' := by
  obtain ⟨res, hres, hx⟩ := h
  exact ⟨res, hres, fun x => by rw [hx, hn]⟩

/-! ## Histories -/

/-- Regular calls that ask for lists of names of a kind. -/
def RegularFor (lists : List String → Prop) (g : Graph) (c : Call) : Prop := g.Regular c ∧ ∀ n names, c.asked = some (n, names) → lists names

section Lists

variable {lists : List String → Prop} {calls : List Call}

/-- The filters of all outlets are lists of a kind. -/
def FiltersFrom (lists : List String → Prop) (g : Graph) : Prop :=
  ∀ (id : OutletId) (o : Outlet), g.outlets[id]? = some o → ∃ names, lists names ∧ o.filter = sortNames names

theorem Maintained.filtersFrom_step {c : Call} (h : g.Maintained) (hf : g.FiltersFrom lists) (hc : g.RegularFor lists c) :
    (g.step c).FiltersFrom lists := by
  intro id o' ho'
  rcases (h.step hc.1).2.serving.outlets id o' ho' with ⟨o, ho, -, he⟩ | ⟨-, n, names, hasked, he⟩
  · rw [← he]
    exact hf id o ho
  · exact ⟨names, hc.2 n names hasked, he⟩

theorem Maintained.filtersFrom_after (h : g.Maintained) (hf : g.FiltersFrom lists) (hc : g.Throughout (RegularFor lists) calls) :
    (g.after calls).FiltersFrom lists := by
  induction calls generalizing g with
  | nil => exact hf
  | cons c calls ih => exact ih (h.step hc.1.1).1 (h.filtersFrom_step hf hc.1) hc.2

theorem filtersFrom_new (registry : Registry) (config : Config) : (new registry config).FiltersFrom lists :=
  fun id o ho => absurd ho (get_outlets_new registry config id o)

/-- Requests of a node for lists with one key ask for the same names. -/
theorem Enrolled.asks_unique (h : g.Enrolled) {r r' : RequestId} {f f' : List String} (ha : g.Asks r n f) (ha' : g.Asks r' n f')
    (hk : outletKey f = outletKey f') : f = f' := by
  obtain ⟨q, o, -, ho, rfl, rfl⟩ := ha
  obtain ⟨q', o', -, ho', hown, rfl⟩ := ha'
  obtain ⟨d, hd, hid⟩ := h.home q.outlet o ho
  obtain ⟨d', hd', hid'⟩ := h.home q'.outlet o' ho'
  rw [hown, hd] at hd'
  cases hd'
  rw [← hk, hid] at hid'
  rw [← Option.some.inj hid', ho] at ho'
  rw [Option.some.inj ho']

/-- Making a request leaves the others. -/
theorem isSome_requests_createRequest {r : RequestId} (h : (g.requests[r]?).isSome) (n : NodeId) (names : List String) :
    ((g.createRequest n names).1.requests[r]?).isSome := by
  have henroll : ∀ (g : Graph) id, (g.requests[r]?).isSome → ((g.enroll id).requests[r]?).isSome := fun g id h => by
    show ((g.requests.insert (g.lastId + 1) _)[r]?).isSome
    rw [Table.get_insert]
    split
    · rfl
    · exact h
  rw [createRequest_eq]
  rcases outletFor_cases g n names with ⟨e, he⟩ | ⟨d, -, ⟨id, -, he⟩ | ⟨-, he⟩⟩ <;> rw [he]
  · exact h
  · exact henroll g id h
  · exact henroll (g.openOutlet n (sortNames names)) _ h

end Lists

/-! ## Keys that clash -/

/-- A node that filters nothing exposes the names of the leaves that flow into it. -/
theorem SoundBut.isSome_chan_of_leaf (h : SoundBut (fun _ => False) hands g) {j : InstanceId} {i : Instance} (hi : g.instances[j]? = some i)
    {d : Design} (hd : g.design? i.owner = some d) (hfilter : d.filter = none) {r : NodeId} (hr : r ∈ inflow d) {l : Leaf}
    (hl : g.leaf? r = some l) {e : EntryId} (he : l.entry = some e) : (g.chan i.owner .output l.name .empty).isSome := by
  have hshown : ∀ {port f}, f ∈ g.feeds i.owner .empty l.name port → (g.chan i.owner port l.name .empty).isSome := by
    intro port f hf
    rw [Option.isSome_iff_ne_none, ne_eq, (h.built hi not_false port).chan_eq_none_iff]
    exact List.ne_nil_of_mem hf
  have hfeed : l.feed? .empty = some (.slot { entry := e, key := l.key }) := by
    rw [feed?_empty, he]
    rfl
  have hinput : (g.chan i.owner .input l.name .empty).isSome := by
    refine hshown (f := .slot { entry := e, key := l.key }) ?_
    rw [feeds_input _ _ hd]
    exact List.mem_flatMap.2 ⟨r, hr, mem_brought.2 (.inl ⟨l, hl, rfl, hfeed⟩)⟩
  obtain ⟨c, hc⟩ := Option.isSome_iff_exists.1 hinput
  have hextended : (g.chan i.owner .extended l.name .empty).isSome := by
    refine hshown (f := .channel c) ?_
    rw [feeds_extended _ _ hd, hc]
    exact List.mem_append_left _ List.mem_cons_self
  obtain ⟨c', hc'⟩ := Option.isSome_iff_exists.1 hextended
  refine hshown (f := .channel c') ?_
  rw [feeds_output_plain h.plain hd, hfilter, List.mem_filterMap]
  exact ⟨l.name, List.mem_cons_self, by rw [hc']; rfl⟩

/-- Once a request of a node that filters nothing is pulled, the node exposes the names of the leaves that flow into it. -/
theorem Consistent.mem_finalNames_of_leaf (h : g.Consistent) {d : Design} (hd : g.design? n = some d) (hfilter : d.filter = none)
    (hm : m ∈ inflow d) {l : Leaf} (hl : g.leaf? m = some l) (he : l.entry = some e) {r : RequestId} {filter : List String}
    (ha : g.Asks r n filter) : l.name ∈ ((g.step (.pull r)).finalChannels n .empty).map (·.1) := by
  obtain ⟨id, o, hdel⟩ := h.delivers ha
  have hcons := hdel.upholds.consistent
  have hstatus : o.status ≠ .needsStructure := by
    rw [hdel.ready]
    nofun
  obtain ⟨j, -, ⟨i, hi, hown, -⟩, -⟩ := (hcons.tended.outlet id o hdel.outlet).held hstatus
  obtain rfl : i.owner = n := hown.trans hdel.owner
  exact mem_finalNames.2 (hcons.tended.sound.isSome_chan_of_leaf hi ((hdel.keeps.design _).trans hd) hfilter hm
    ((hdel.keeps.leaf m).trans hl) he)

/-- Some name is not in the list. -/
theorem exists_not_mem_names (names : List String) : ∃ x, x ∉ names := by
  have hinj : Function.Injective fun k : Nat => String.ofList (List.replicate k 'a') := fun j k he => by
    simpa using congrArg String.length he
  have : Infinite String := .of_injective _ hinj
  obtain ⟨x, hx⟩ := Infinite.exists_notMem_finset names.toFinset
  exact ⟨x, fun h => hx (List.mem_toFinset.2 h)⟩

/-- Lists that select the same names have the same names. -/
theorem sortNames_eq_of_selects {names names' : List String} (h : ∀ x, Selects names x ↔ Selects names' x) :
    sortNames names = sortNames names' := by
  have hnil : ∀ {l l' : List String}, (∀ x, Selects l x ↔ Selects l' x) → l = [] → l' = [] := by
    rintro l l' hl rfl
    obtain ⟨x, hx⟩ := exists_not_mem_names l'
    exact ((hl x).1 (.inl rfl)).resolve_right hx
  by_cases hn : names = []
  · rw [hn, hnil h hn]
  · have hn' : names' ≠ [] := fun hn' => hn (hnil (fun x => (h x).symm) hn')
    have hmem : ∀ x, x ∈ names ↔ x ∈ names' := fun x => by
      simpa only [Selects, hn, hn', false_or] using h x
    refine congrArg Std.ExtTreeSet.toList (Std.ExtTreeSet.ext_mem fun x => ?_)
    rw [Std.ExtTreeSet.mem_insertMany_list, Std.ExtTreeSet.mem_insertMany_list]
    simp [hmem]

theorem perform_createRequest (hd : (g.design? n).isSome) (names : List String) :
    ∃ r, (g.settled.perform (.createRequest n names)).2 = .ok (.created r) := by
  have hdata : (g.settled.data? n).isSome := by
    obtain ⟨d, hd⟩ := Option.isSome_iff_exists.1 hd
    obtain ⟨d', hd', -⟩ := Option.map_eq_some_iff.1 hd
    exact Option.isSome_iff_exists.2 ⟨d', hd'⟩
  obtain ⟨r, hr⟩ := createRequest_ok hdata names
  exact ⟨r, by rw [perform, created, hr]; rfl⟩

/-- The later of two requests of a node for lists with one key gets the outlet of the first, and asks for what the first asks for. -/
theorem Maintained.asks_of_shared (h : g.Maintained) {d : Design} (hd : g.design? n = some d) {names names' : List String}
    (hf : g.FiltersFrom (· = names')) (hkey : outletKey (sortNames names) = outletKey (sortNames names')) :
    ∃ r, ((g.step (.createRequest n names')).settled.perform (.createRequest n names)).2 = .ok (.created r) ∧
      ((g.step (.createRequest n names')).step (.createRequest n names)).Asks r n (sortNames names') := by
  have hregular : ∀ (g : Graph) names, g.Regular (.createRequest n names) := fun _ _ => trivial
  obtain ⟨r₁, hr₁⟩ := perform_createRequest (Option.isSome_iff_exists.2 ⟨d, hd⟩) names'
  obtain ⟨f₁, ha₁, -⟩ := h.consistent.asks_of_created hr₁
  have hfilters : (g.step (.createRequest n names')).FiltersFrom (· = names') :=
    h.filtersFrom_step hf ⟨hregular g names', fun _ _ he => by cases he; rfl⟩
  obtain ⟨h₁, -⟩ := h.step (hregular g names')
  obtain ⟨h₂, -⟩ := h₁.step (hregular _ names)
  have hd₁ : (g.step (.createRequest n names')).design? n = some d :=
    (((keeps_settled g).trans (keeps_createRequest _ n names')).design n).trans hd
  obtain ⟨r₂, hr₂⟩ := perform_createRequest (Option.isSome_iff_exists.2 ⟨d, hd₁⟩) names
  obtain ⟨f₂, ha₂, hk₂⟩ := h₁.consistent.asks_of_created hr₂
  -- the outlet of the first request is the only one under the key
  obtain rfl : f₁ = sortNames names' := by
    obtain ⟨q, o, -, ho, -, rfl⟩ := ha₁
    obtain ⟨_, rfl, hfilter⟩ := hfilters q.outlet o ho
    exact hfilter
  have hlive : (((g.step (.createRequest n names')).step (.createRequest n names)).requests[r₁]?).isSome := by
    obtain ⟨q, -, hq, -⟩ := ha₁
    exact isSome_requests_createRequest (g := (g.step (.createRequest n names')).settled) (Option.isSome_iff_exists.2 ⟨q, hq⟩) n names
  have hlasting : ((g.step (.createRequest n names')).after [.createRequest n names]).Asks r₁ n (sortNames names') :=
    h₁.asks_after ha₁ ⟨hregular _ names, trivial⟩ hlive
  obtain rfl := h₂.consistent.tended.enrolled.asks_unique ha₂ hlasting (hk₂.trans hkey)
  exact ⟨r₂, hr₂, ha₂⟩

/-- If it publishes what it names as well, both lists select the same of what the node exposes. -/
theorem Maintained.selects_of_shared (h : g.Maintained) {d : Design} (hd : g.design? n = some d) (hfilter : d.filter = none)
    (hm : m ∈ inflow d) {l : Leaf} (hl : g.leaf? m = some l) (he : l.entry = some e) {names names' : List String}
    (hf : g.FiltersFrom (· = names')) (hkey : outletKey (sortNames names) = outletKey (sortNames names'))
    (hpub : ∀ r, ((g.step (.createRequest n names')).settled.perform (.createRequest n names)).2 = .ok (.created r) →
      (((g.step (.createRequest n names')).step (.createRequest n names)).requests[r]?).isSome →
      ((g.step (.createRequest n names')).step (.createRequest n names)).PublishesOf r n names) :
    Selects names l.name ↔ Selects names' l.name := by
  obtain ⟨r, hr, hasks⟩ := h.asks_of_shared hd hf hkey
  have hkeeps : g.Keeps ((g.step (.createRequest n names')).step (.createRequest n names)) :=
    ((keeps_settled g).trans (keeps_createRequest _ n names')).trans
      ((keeps_settled (g.step (.createRequest n names'))).trans (keeps_createRequest _ n names))
  obtain ⟨h₁, -⟩ := h.step (c := .createRequest n names') trivial
  obtain ⟨h₂, -⟩ := h₁.step (c := .createRequest n names) trivial
  have hexposed := h₂.consistent.mem_finalNames_of_leaf ((hkeeps.design n).trans hd) hfilter hm ((hkeeps.leaf m).trans hl) he hasks
  obtain ⟨res, hres, hx⟩ := h₂.consistent.publishesOf hasks
  have hlive := hasks
  obtain ⟨q, -, hq, -⟩ := hlive
  obtain ⟨res', hres', hx'⟩ := hpub r hr (Option.isSome_iff_exists.2 ⟨q, hq⟩)
  obtain rfl : res = res' := by
    rw [hres'] at hres
    cases hres
    rfl
  exact ⟨fun hs => selects_sortNames.1 ((hx l.name).1 ((hx' l.name).2 ⟨hexposed, hs⟩)).2,
    fun hs => ((hx' l.name).1 ((hx l.name).2 ⟨hexposed, selects_sortNames.2 hs⟩)).2⟩

/-- A leaf of some name is a node's only child. -/
def namedLeafCalls (x : String) : List Call :=
  [.createPayload .int (.ints [1]), .createLeaf, .setData 0 (some 0), .setName 0 x, .createData false, .appendChild 1 0]

section NamedLeaf

variable (config : Config) (x : String)

theorem throughout_namedLeafCalls (lists : List String → Prop) :
    (new Registry.empty config).Throughout (RegularFor lists) (namedLeafCalls x) := by
  have hdata : (((new Registry.empty config).step (.createPayload .int (.ints [1]))).step .createLeaf).Regular (.setData 0 (some 0)) := by
    refine ⟨rfl, fun p hp => ?_⟩
    rw [show (((new Registry.empty config).step (.createPayload .int (.ints [1]))).step .createLeaf).processes.values = [] from rfl] at hp
    cases hp
  exact ⟨⟨trivial, nofun⟩, ⟨trivial, nofun⟩, ⟨hdata, nofun⟩, ⟨trivial, nofun⟩, ⟨trivial, nofun⟩, ⟨trivial, nofun⟩, trivial⟩

theorem leaf?_namedLeafCalls : ((new Registry.empty config).after (namedLeafCalls x)).leaf? 0 = some { name := x, entry := some 0 } := by
  cbv

theorem design?_namedLeafCalls : ((new Registry.empty config).after (namedLeafCalls x)).design? 1 = some ⟨[0], none, none, none, none⟩ := by
  cbv

/-- Where the requests of the leaf's node publish what they name, lists with one key agree on the name of the leaf. -/
theorem selects_iff_of_publishes {names names' : List String} (hkey : outletKey (sortNames names) = outletKey (sortNames names'))
    (hpub : ∀ r, (((new Registry.empty config).after (namedLeafCalls x ++ [.createRequest 1 names'])).settled.perform
        (.createRequest 1 names)).2 = .ok (.created r) →
      (((new Registry.empty config).after (namedLeafCalls x ++ [.createRequest 1 names'])).step (.createRequest 1 names)).requests[r]?.isSome →
      (((new Registry.empty config).after (namedLeafCalls x ++ [.createRequest 1 names'])).step (.createRequest 1 names)).PublishesOf r 1 names) :
    Selects names x ↔ Selects names' x := by
  have hcalls := throughout_namedLeafCalls config x (· = names')
  have hnew := maintained_new Registry.empty config Registry.wellNamed_empty
  obtain ⟨h, -⟩ := hnew.after (hcalls.mono fun _ _ hc => hc.1)
  have hf := hnew.filtersFrom_after (filtersFrom_new _ config) hcalls
  simp only [after_append, after_cons, after_nil] at hpub
  exact h.selects_of_shared (design?_namedLeafCalls config x) rfl List.mem_cons_self (leaf?_namedLeafCalls config x) rfl hf hkey hpub

end NamedLeaf

/-- Requests publish exactly what they name, whatever else is asked for and in whatever order, exactly when no two lists of the kind that is
asked for have the same key but other names. -/
theorem requests_publish_filter_iff (lists : List String → Prop) :
    (∀ descriptors registry log config before n names later r, Registry.empty.registerAll descriptors = .ok (registry, log) →
      (new registry config).Throughout (RegularFor lists) (before ++ .createRequest n names :: later) →
      (((new registry config).after before).settled.perform (.createRequest n names)).2 = .ok (.created r) →
      (((new registry config).after (before ++ .createRequest n names :: later)).requests[r]?).isSome →
      ((new registry config).after (before ++ .createRequest n names :: later)).PublishesOf r n names) ↔
    ∀ names names', lists names → lists names' → outletKey (sortNames names) = outletKey (sortNames names') →
      sortNames names = sortNames names' := by
  constructor
  · intro h names names' hnames hnames' hkey
    refine sortNames_eq_of_selects fun x => ?_
    -- the node of the leaf is asked for `names'` first, and for `names` then
    have hasked : (new Registry.empty {}).Throughout (RegularFor lists)
        ((namedLeafCalls x ++ [.createRequest 1 names']) ++ .createRequest 1 names :: []) := by
      rw [throughout_append, throughout_append]
      exact ⟨⟨throughout_namedLeafCalls {} x lists, ⟨trivial, fun _ _ he => by cases he; exact hnames'⟩, trivial⟩,
        ⟨trivial, fun _ _ he => by cases he; exact hnames⟩, trivial⟩
    refine selects_iff_of_publishes {} x hkey fun r hmade hlive => ?_
    have := h [] _ _ {} _ 1 names [] r rfl hasked hmade
    rw [after_append, after_cons, after_nil] at this
    exact this hlive
  · intro hinj descriptors registry log config before n names later r hreg hcalls hmade hlive
    have hnew := maintained_new registry config (Registry.wellNamed_empty.registerAll hreg)
    obtain ⟨hbefore, hasked, hlater⟩ := throughout_append.1 hcalls
    obtain ⟨hstart, -⟩ := hnew.after (hbefore.mono fun _ _ hc => hc.1)
    obtain ⟨hmid, -⟩ := hstart.step hasked.1
    have hfilters := hstart.filtersFrom_step (hnew.filtersFrom_after (filtersFrom_new registry config) hbefore) hasked
    obtain ⟨filter, hasks, hkey⟩ := hstart.consistent.asks_of_created hmade
    -- the filter is that of a list of the kind
    obtain ⟨names', hlists, rfl⟩ : ∃ names', lists names' ∧ filter = sortNames names' := by
      obtain ⟨q, o, -, ho, -, rfl⟩ := hasks
      exact hfilters q.outlet o ho
    rw [hinj names' names hlists (hasked.2 n names rfl) hkey] at hasks
    rw [after_append, after_cons] at hlive ⊢
    obtain ⟨hend, -⟩ := hmid.after (hlater.mono fun _ _ hc => hc.1)
    exact (hend.consistent.publishesOf (hmid.asks_after hasks (hlater.mono fun _ _ hc => hc.1) hlive)).congr fun _ => selects_sortNames

/-- A request for the empty name publishes every name, if a request for all names was made before it. -/
theorem empty_name_publishes_all :
    ∃ r, (((new Registry.empty {}).after (namedLeafCalls "x" ++ [.createRequest 1 []])).settled.perform (.createRequest 1 [""])).2 =
        .ok (.created r) ∧
      ¬ ((new Registry.empty {}).after (namedLeafCalls "x" ++ [.createRequest 1 [], .createRequest 1 [""]])).PublishesOf r 1 [""] := by
  refine ⟨3, by decide +kernel, fun ⟨res, hres, hx⟩ => ?_⟩
  have hpublished : ((((new Registry.empty {}).after (namedLeafCalls "x" ++ [.createRequest 1 [], .createRequest 1 [""]])).settled.perform
      (.pull 3)).2.toOption.bind fun | .pulled res => res.bind (·.outputs["x"]?) | _ => none).isSome = true := by
    decide +kernel
  rw [hres] at hpublished
  rcases ((hx "x").1 hpublished).2 with h | h
  · cases h
  · simp at h

end Graph

end Dataflow
