import Dataflow.Proofs.Alerted
import Dataflow.Proofs.Lasting
import Dataflow.Proofs.Loading

/-!
# No update is lost

Between two pulls a request whose outlet stays ready is given the same, as all that is upstream of it is the same. So who is given something
else, or publishes what is computed from an entry that was changed, was told in between. Under a template this fails: the visit of another
node may free a channel that the outlet listens to, and then nobody tells it what changes.
-/

namespace Dataflow

namespace Graph

variable {g g' : Graph} {r : RequestId} {q : Request} {o : Outlet} {c : Call} {calls later : List Call} {e e' : EntryId}

/-! ## What may happen between two pulls -/

/-- One of some calls is so when it is made. -/
def Sometime (P : Graph → Call → Prop) (g : Graph) : List Call → Prop
  | [] => False
  | c :: calls => P g c ∨ (g.step c).Sometime P calls

/-- The call tells the request: its status leaves ready, and its callback is invoked if it has one. -/
structure Tells (r : RequestId) (g : Graph) (c : Call) : Prop where
  ready : g.statusOf r = some .ready
  stale : ∃ s, (g.step c).statusOf r = some s ∧ s ≠ .ready
  called : ∀ q tag, g.requests[r]? = some q → q.tag = some tag → ∃ change, ⟨r, change, tag⟩ ∈ (g.step c).journal.events

/-- An entry is computed from an entry when it is that one, or a process writes it that reads what is computed from that one. -/
inductive Computed (g : Graph) (e : EntryId) : EntryId → Prop where
  | itself : Computed g e e
  | written {k : ProcessId} {p : Process} {ch : ChannelId} {y : Slot Float32} {e' : EntryId} (hp : g.processes[k]? = some p)
      (hch : some ch ∈ p.inputs) (hy : y ∈ g.store.slots ch) (hcomputed : Computed g e y.entry) (he : e' ∈ p.writes) : Computed g e e'

/-- The call changes an entry from which something is computed that the request publishes. -/
def Alters (r : RequestId) (g : Graph) (c : Call) : Prop :=
  ∃ e f reply, c.update = some (e, f) ∧ (g.settled.perform c).2 = .ok reply ∧
    ∃ (q : Request) (o : Outlet) (x : String) (e' : EntryId), g.requests[r]? = some q ∧ g.outlets[q.outlet]? = some o ∧
      o.result.outputs[x]? = some e' ∧ g.Computed e e'

theorem statusOf_eq_some_iff {s : Status} : g.statusOf r = some s ↔
    ∃ (q : Request) (o : Outlet), g.requests[r]? = some q ∧ g.outlets[q.outlet]? = some o ∧ o.status = s := by
  simp only [statusOf, Option.pure_def, Option.bind_eq_bind, Option.bind_eq_some_iff, Option.some.injEq]
  constructor
  · rintro ⟨q, hq, o, ho, hs⟩
    exact ⟨q, o, hq, ho, hs⟩
  · rintro ⟨q, o, hq, ho, hs⟩
    exact ⟨q, hq, o, ho, hs⟩

theorem Sometime.of_exists {P : Graph → Call → Prop} {before : List Call} (h : P (g.after before) c) (rest : List Call) :
    g.Sometime P (before ++ c :: rest) := by
  induction before generalizing g with
  | nil => exact .inl h
  | cons c' before ih => exact .inr (ih h)

theorem Sometime.exists_before {P : Graph → Call → Prop} (h : g.Sometime P calls) :
    ∃ before c rest, calls = before ++ c :: rest ∧ P (g.after before) c := by
  induction calls generalizing g with
  | nil => exact h.elim
  | cons c calls ih =>
    rcases h with h | h
    · exact ⟨[], c, calls, rfl, h⟩
    · obtain ⟨before, c', rest, heq, hc'⟩ := ih h
      exact ⟨c :: before, c', rest, congrArg (c :: ·) heq, hc'⟩

theorem sometime_append_left {P : Graph → Call → Prop} (h : g.Sometime P calls) (rest : List Call) : g.Sometime P (calls ++ rest) := by
  obtain ⟨before, c, rest', rfl, hc⟩ := h.exists_before
  rw [List.append_assoc, List.cons_append]
  exact .of_exists hc _

/-- What is computed from an entry is outdated when that entry changes. -/
theorem Tended.outdated_of_computed (h : g.Tended) (hc : g.Computed e e') : g.Outdated e e' := by
  induction hc with
  | itself => exact .inl rfl
  | @written k p ch y e' hp hch hy _ he ih =>
    have hl := (h.sound.reads hp not_false hch).1
    refine .inr ⟨k, p, ?_, hp, he⟩
    rcases ih with heq | ⟨j, q, hs, hq, hw⟩
    · exact .reads ⟨y, hy, heq⟩ hl
    · exact .follows hs hq hw ⟨y, hy, rfl⟩ hl

/-- A change of what a ready outlet's result is computed from concerns it. -/
theorem Consistent.concerned_of_computed (h : g.Consistent) {id : OutletId} (ho : g.outlets[id]? = some o) (hr : o.status = .ready) {x : String}
    (hx : o.result.outputs[x]? = some e') (hc : g.Computed e e') : g.Concerned e id := by
  rw [h.current.published id o ho hr, get_published] at hx
  obtain ⟨ch, hch, hx⟩ := Option.bind_eq_some_iff.1 hx
  obtain ⟨y, hy, rfl⟩ := Option.map_eq_some_iff.1 hx
  exact ⟨y.entry, ch, h.tended.outdated_of_computed hc, ⟨y, List.mem_of_mem_head? hy, rfl⟩, (h.tended.outlet id o ho).listens x ch hch⟩

/-- A change of what a ready outlet's result is computed from tells its requests. -/
theorem Maintained.tells_of_alters (hg : g.Maintained) (ha : g.Alters r c) (hr : g.statusOf r = some .ready) : g.Tells r c := by
  obtain ⟨e, f, reply, hup, hok, q, o, x, e', hq, ho, hx, hcomputed⟩ := ha
  obtain ⟨q', o', hq', ho', hready⟩ := statusOf_eq_some_iff.1 hr
  cases hq.symm.trans hq'
  cases ho.symm.trans ho'
  have hconcerned := hg.consistent.concerned_of_computed ho hready hx hcomputed
  have hstep : g.step c = (g.settled.updateEntry e f).1 := congrArg Prod.fst (perform_of_update g.settled hup)
  have hok : (g.settled.updateEntry e f).2 = .ok () := by
    rw [perform_of_update g.settled hup, done] at hok
    rcases hu : (g.settled.updateEntry e f).2 with err | u
    · rw [hu] at hok
      cases hok
    · rfl
  obtain ⟨a, ha⟩ := hg.attended
  have hs := (ha.update hok).1
  rw [← hstep] at hs
  have hreq : (g.step c).requests[r]? = some q := by
    obtain ⟨_, _, _, _, heq⟩ := hs.rest
    rw [heq]
    exact hq
  have hout : (g.step c).outlets[q.outlet]? = some o.outdated := by
    rw [hs.concerned q.outlet hconcerned, ho]
    rfl
  refine ⟨hr, ⟨_, statusOf_eq_some_iff.2 ⟨q, _, hreq, hout, rfl⟩, o.outdated_ne_ready⟩, fun q₁ tag hq₁ htag => ?_⟩
  exact ⟨.data, (hs.reported.exactly ⟨r, .data, tag⟩).2 ⟨rfl, q₁, hq₁, htag, by cases hq.symm.trans hq₁; exact hconcerned⟩⟩

/-! ## As long as nobody is told -/

/-- A request that is live after some calls was live before them, as ids are not drawn twice. -/
theorem Maintained.exists_request (hg : g.Maintained) (hc : g.Throughout Regular calls) (hr : r ≤ g.lastId)
    (hlive : ((g.after calls).requests[r]?).isSome) : ∃ q : Request, g.requests[r]? = some q := by
  obtain ⟨-, hup⟩ := hg.after hc
  obtain ⟨q', hq'⟩ := Option.isSome_iff_exists.1 hlive
  rcases hup.serving.requests r q' hq' with ⟨q, hq, -⟩ | hlt
  · exact ⟨q, hq⟩
  · exact absurd hlt (Nat.not_lt.2 hr)

/-- A call that does not tell a request whose outlet is ready leaves what is upstream of it. -/
theorem Maintained.sameUpstream_of_untold (hg : g.Maintained) (hc : g.Regular c) (hrest : g.Rested q.outlet) (hq : g.requests[r]? = some q)
    (ho : g.outlets[q.outlet]? = some o) (hr : o.status = .ready) (hlive : ((g.step c).requests[r]?).isSome) (hun : ¬ g.Tells r c) :
    g.SameUpstream (g.step c) q.outlet := by
  obtain ⟨hg', hup⟩ := hg.step hc
  obtain ⟨q', hq'⟩ := Option.isSome_iff_exists.1 hlive
  obtain ⟨o', ho', -⟩ := hg'.consistent.tended.enrolled.asked r q' hq'
  have hsame : q'.outlet = q.outlet := hup.serving.outlet_eq hg.consistent.tended.enrolled hq hq'
  have ho₁ : (g.step c).outlets[q.outlet]? = some o' := hsame ▸ ho'
  by_cases hr' : o'.status = .ready
  · exact hg.sameUpstream_step hc hrest ho hr ho₁ hr'
  · refine absurd ⟨statusOf_eq_some_iff.2 ⟨q, o, hq, ho, hr⟩, ⟨_, statusOf_eq_some_iff.2 ⟨q', o', hq', ho', rfl⟩, hr'⟩, ?_⟩ hun
    intro q₁ tag hq₁ htag
    cases hq.symm.trans hq₁
    exact hg.calledBack hc ho hr ho₁ hr' r q tag hq rfl htag

/-- As long as a request whose outlet is ready is told nothing, what is upstream of it is the same. -/
theorem Maintained.sameUpstream_after (hg : g.Maintained) (hc : g.Throughout Regular calls) (hrest : g.Rested q.outlet)
    (hq : g.requests[r]? = some q) (ho : g.outlets[q.outlet]? = some o) (hr : o.status = .ready)
    (hlive : ((g.after calls).requests[r]?).isSome) (hun : ¬ g.Sometime (Tells r) calls) : g.SameUpstream (g.after calls) q.outlet := by
  induction calls generalizing g q o with
  | nil => exact .of_same ho rfl rfl rfl
  | cons c calls ih =>
    obtain ⟨hg', hup⟩ := hg.step hc.1
    have hlast : r ≤ (g.step c).lastId := Nat.le_trans (hg.consistent.tended.enrolled.requestId r q hq) hup.serving.lastId
    obtain ⟨q', hq'⟩ := hg'.exists_request hc.2 hlast hlive
    have hstep := hg.sameUpstream_of_untold hc.1 hrest hq ho hr (by rw [hq']; rfl) fun ht => hun (.inl ht)
    have hsame : q'.outlet = q.outlet := hup.serving.outlet_eq hg.consistent.tended.enrolled hq hq'
    obtain ⟨o₁, o', ho₁, ho', he⟩ := hstep.outlet
    cases ho.symm.trans ho₁
    have hrest' := hstep.rested hrest
    rw [← hsame] at hrest' ho'
    exact hstep.trans (hsame ▸ ih hg' hc.2 hrest' hq' ho' (he.status.trans hr) hlive fun ht => hun (.inr ht))

/-- Whoever is ready before some calls, one of which changes what it is computed from, is told by one of them. -/
theorem Maintained.sometime_tells_of_alters (hg : g.Maintained) (hc : g.Throughout Regular calls) (hrest : g.Rested q.outlet)
    (hq : g.requests[r]? = some q) (ho : g.outlets[q.outlet]? = some o) (hr : o.status = .ready) (ha : g.Sometime (Alters r) calls) :
    g.Sometime (Tells r) calls := by
  by_contra hun
  obtain ⟨before, c, rest, rfl, halters⟩ := ha.exists_before
  rw [throughout_append] at hc
  obtain ⟨-, -, -, -, -, q', -, -, -, hq', -⟩ := id halters
  obtain ⟨hg', hup⟩ := hg.after hc.1
  have hsame : q'.outlet = q.outlet := hup.serving.outlet_eq hg.consistent.tended.enrolled hq hq'
  have hstays := hg.sameUpstream_after hc.1 hrest hq ho hr (by rw [hq']; rfl) fun ht => hun (sometime_append_left ht _)
  obtain ⟨o₁, o', ho₁, ho', he⟩ := hstays.outlet
  cases ho.symm.trans ho₁
  have hready : (g.after before).statusOf r = some .ready := statusOf_eq_some_iff.2 ⟨q', o', hq', hsame ▸ ho', he.status.trans hr⟩
  exact hun (.of_exists (hg'.tells_of_alters halters hready) rest)

/-- What was pulled is a live request's. -/
theorem exists_request_of_pulled {res : Result} (h : (g.settled.perform (.pull r)).2 = .ok (.pulled (some res))) :
    ∃ q : Request, g.requests[r]? = some q := by
  have hp : (g.settled.pull r).2 = some res := Reply.pulled.inj (Except.ok.inj h)
  rcases hq : g.requests[r]? with _ | q
  · rw [Graph.pull, show g.settled.requests[r]? = none from hq] at hp
    cases hp
  · exact ⟨q, rfl⟩

theorem regular_pull (r : RequestId) : g.Regular (.pull r) :=
  trivial

/-- The second of two pulls of a request that was told nothing in between is answered as the first one was, finds the same under every
name, and nothing was changed that this is computed from. -/
theorem Maintained.repeats_pull (hg : g.Maintained) (hrest : ∀ id, g.Rested id) (hc : (g.step (.pull r)).Throughout Regular later)
    {res res' : Result} (hres : (g.settled.perform (.pull r)).2 = .ok (.pulled (some res)))
    (hres' : (((g.step (.pull r)).after later).settled.perform (.pull r)).2 = .ok (.pulled (some res')))
    (hun : ¬ (g.step (.pull r)).Sometime (Tells r) later) :
    res' = res ∧ (∀ x, (((g.step (.pull r)).after later).step (.pull r)).publishedEntry r x = (g.step (.pull r)).publishedEntry r x) ∧
      ¬ (g.step (.pull r)).Sometime (Alters r) later := by
  obtain ⟨q, hq⟩ := exists_request_of_pulled hres
  obtain ⟨o, ho, -⟩ := hg.consistent.tended.enrolled.asked r q hq
  obtain ⟨id, o₁, hd⟩ := hg.consistent.delivers ⟨q, o, hq, ho, rfl, rfl⟩
  have hg₁ := (hg.step (c := .pull r) trivial).1
  have hrest₁ : ∀ id, (g.step (.pull r)).Rested id := fun id => hg.rested_step (regular_pull r) (hrest id)
  obtain ⟨q₁, hq₁, rfl⟩ := hd.request
  obtain rfl : o₁.result = res := by
    have := hd.reply.symm.trans hres
    cases this
    rfl
  have hout := hd.outlet
  have hready := hd.ready
  generalize g.step (.pull r) = g₁ at hc hres' hun hg₁ hrest₁ hq₁ hout ⊢
  clear hd hres
  obtain ⟨q₂, hq₂⟩ := exists_request_of_pulled hres'
  have hg₂ := (hg₁.after hc).1
  have hup : g₁.SameUpstream (g₁.after later) q₁.outlet := hg₁.sameUpstream_after hc (hrest₁ _) hq₁ hout hready (by rw [hq₂]; rfl) hun
  have hsame : q₂.outlet = q₁.outlet := (hg₁.after hc).2.serving.outlet_eq hg₁.consistent.tended.enrolled hq₁ hq₂
  obtain ⟨o₂, o₃, ho₂, ho₃, he⟩ := hup.outlet
  cases hout.symm.trans ho₂
  have hready₃ : o₃.status = .ready := he.status.trans hready
  -- the outlet is still ready, so the second pull does nothing
  obtain ⟨id, o₄, hd⟩ := hg₂.consistent.delivers ⟨q₂, o₃, hq₂, hsame ▸ ho₃, rfl, rfl⟩
  have hid := hd.outlet_eq hg₂.consistent hq₂
  obtain ⟨hpull, rfl⟩ := hd.of_ready hq₂ hid (hid ▸ hsame ▸ ho₃) hready₃
  refine ⟨?_, fun x => ?_, fun halters => hun (hg₁.sometime_tells_of_alters hc (hrest₁ _) hq₁ hout hready halters)⟩
  · have := hd.reply.symm.trans hres'
    cases this
    exact he.result
  · rw [hd.publishedEntry, hpull, he.result, Graph.publishedEntry, hq₁]
    simp only [Option.bind_eq_bind, Option.bind_some, hout]
    rcases hx : o₁.result.outputs[x]? with _ | e
    · rfl
    · refine hup.entries e (informs_of_published hout (x := x) ?_)
      rw [← hg₁.consistent.current.published _ _ hout hready]
      exact hx

/-- After a pull all that works for what the request publishes has run. -/
theorem Maintained.ran_of_pulled (hg : g.Maintained) (hrest : ∀ id, g.Rested id) {res : Result}
    (hres : (g.settled.perform (.pull r)).2 = .ok (.pulled (some res))) {k : ProcessId} {p : Process}
    (hq : (g.step (.pull r)).requests[r]? = some q) (hk : (g.step (.pull r)).WorksFor q.outlet k) (hp : (g.step (.pull r)).processes[k]? = some p) :
    p.state ≠ .unprocessed := by
  obtain ⟨q₀, hq₀⟩ := exists_request_of_pulled hres
  obtain ⟨o, ho, -⟩ := hg.consistent.tended.enrolled.asked r q₀ hq₀
  obtain ⟨id, o₁, hd⟩ := hg.consistent.delivers ⟨q₀, o, hq₀, ho, rfl, rfl⟩
  obtain ⟨q₁, hq₁, rfl⟩ := hd.request
  cases hq.symm.trans hq₁
  exact hg.rested_step (regular_pull r) (hrest _) o₁ hd.outlet hd.ready k p hk hp

/-! ## Whether somebody is not told -/

/-- Nothing that happens between two pulls of a request is lost on it: if the second one is answered otherwise, or finds something else under
some name, or if an entry was changed that this is computed from, then the request was told; and in the end all that works for it has run. -/
structure Unlost (g : Graph) (r : RequestId) (later : List Call) (res res' : Result) : Prop where
  answered : res' ≠ res → (g.step (.pull r)).Sometime (Tells r) later
  shown : ∀ x, (((g.step (.pull r)).after later).step (.pull r)).publishedEntry r x ≠ (g.step (.pull r)).publishedEntry r x →
    (g.step (.pull r)).Sometime (Tells r) later
  altered : (g.step (.pull r)).Sometime (Alters r) later → (g.step (.pull r)).Sometime (Tells r) later
  ran : ∀ (q : Request) (k : ProcessId) (p : Process), (((g.step (.pull r)).after later).step (.pull r)).requests[r]? = some q →
    (((g.step (.pull r)).after later).step (.pull r)).WorksFor q.outlet k →
    (((g.step (.pull r)).after later).step (.pull r)).processes[k]? = some p → p.state ≠ .unprocessed

theorem Maintained.unlost (hg : g.Maintained) (hrest : ∀ id, g.Rested id) (hc : (g.step (.pull r)).Throughout Regular later)
    {res res' : Result} (hres : (g.settled.perform (.pull r)).2 = .ok (.pulled (some res)))
    (hres' : (((g.step (.pull r)).after later).settled.perform (.pull r)).2 = .ok (.pulled (some res'))) : g.Unlost r later res res' := by
  have hall := hg.repeats_pull hrest hc hres hres'
  have hg₁ := (hg.step (c := .pull r) trivial).1
  have hrest₂ : ∀ id, ((g.step (.pull r)).after later).Rested id := fun id =>
    hg₁.rested_after hc (hg.rested_step (regular_pull r) (hrest id))
  refine ⟨fun hne => ?_, fun x hne => ?_, fun halters => ?_, fun q k p hq hk hp => (hg₁.after hc).1.ran_of_pulled hrest₂ hres' hq hk hp⟩
  all_goals by_contra hun
  · exact hne (hall hun).1
  · exact hne ((hall hun).2.1 x)
  · exact (hall hun).2.2 halters

/-- The request `2` gets a callback; then node `2` is visited, and then the entry that node `0` shows is changed. -/
def unheardCalls : List Call := .watchRequest 2 "r" :: visitCalls ++ [.setPayload 0 (.ints [2])]

/-- The outlet that listened to the freed channel stays ready, and nobody is told. -/
theorem evaluated_unheardCalls :
    (new Registry.empty {}).Throughout (RegularOrTemplate True) (lenderCalls ++ .pull 2 :: unheardCalls) ∧
      (((new Registry.empty {}).after lenderCalls).step (.pull 2)).Throughout
        (fun g c => (g.step c).statusOf 2 = some .ready ∧ (g.step c).journal.events = []) unheardCalls ∧
      (((new Registry.empty {}).after lenderCalls).settled.perform (.pull 2)).2 =
        .ok (.pulled (some { outputs := (∅ : NameMap EntryId).insert "x" 0, valid := true })) ∧
      ((((new Registry.empty {}).after lenderCalls).step (.pull 2)).after unheardCalls |>.settled.perform (.pull 2)).2 =
        .ok (.pulled (some { outputs := (∅ : NameMap EntryId).insert "x" 0, valid := true })) ∧
      ((((new Registry.empty {}).after lenderCalls).step (.pull 2)).publishedEntry 2 "x").map (·.payload) = some (.ints [1]) ∧
      (((((new Registry.empty {}).after lenderCalls).step (.pull 2)).after unheardCalls |>.step (.pull 2)).publishedEntry 2 "x").map (·.payload) =
        some (.ints [2]) := by
  decide +kernel

theorem not_sometime_tells (h : g.Throughout (fun g c => (g.step c).statusOf r = some .ready) calls) : ¬ g.Sometime (Tells r) calls := by
  induction calls generalizing g with
  | nil => exact id
  | cons c calls ih =>
    rintro (ht | ht)
    · obtain ⟨s, hs, hne⟩ := ht.stale
      cases h.1.symm.trans hs
      exact hne rfl
    · exact ih h.2 ht

theorem not_unlost_unheardCalls (res res' : Result) : ¬ ((new Registry.empty {}).after lenderCalls).Unlost 2 unheardCalls res res' := by
  obtain ⟨-, hready, -, -, hfirst, hsecond⟩ := evaluated_unheardCalls
  intro h
  refine not_sometime_tells (hready.mono fun _ _ h => h.1) (h.shown "x" fun heq => ?_)
  have hsame := hsecond.symm.trans ((congrArg (Option.map (·.payload)) heq).trans hfirst)
  cases hsame

/-- Nothing is lost between any two pulls of a request in regular histories, exactly as long as there are no templates. -/
theorem no_lost_update_iff (templates : Prop) :
    (∀ descriptors registry log config calls r later res res', Registry.empty.registerAll descriptors = .ok (registry, log) →
      (new registry config).Throughout (RegularOrTemplate templates) (calls ++ .pull r :: later) →
      (((new registry config).after calls).settled.perform (.pull r)).2 = .ok (.pulled (some res)) →
      ((((new registry config).after calls).step (.pull r)).after later |>.settled.perform (.pull r)).2 = .ok (.pulled (some res')) →
      ((new registry config).after calls).Unlost r later res res') ↔ ¬ templates := by
  constructor
  · intro h ht
    obtain ⟨hcalls, -, hfirst, hsecond, -⟩ := evaluated_unheardCalls
    have hcalls := hcalls.mono fun _ _ hc => hc.imp_right fun hc => (⟨hc.1, ht⟩ : _ ∧ templates)
    exact not_unlost_unheardCalls _ _ (h [] _ _ {} lenderCalls 2 unheardCalls _ _ rfl hcalls hfirst hsecond)
  · intro ht descriptors registry log config calls r later res res' hreg hcalls hres hres'
    have hregular : (new registry config).Throughout Regular (calls ++ .pull r :: later) :=
      hcalls.mono fun _ _ hc => hc.resolve_right fun hc => ht hc.2
    rw [throughout_append] at hregular
    have hnew := maintained_new registry config (Registry.wellNamed_empty.registerAll hreg)
    exact (hnew.after hregular.1).1.unlost (fun id => hnew.rested_after hregular.1 (rested_new registry config id)) hregular.2.2 hres hres'

/-- A request that shows an entry is pulled, given a callback, and pulled again after another node was visited and the entry was changed: it
stays ready all the time, its callback is not invoked, and what it shows has changed. -/
theorem lost_update :
    (new Registry.empty {}).Throughout (RegularOrTemplate True) (lenderCalls ++ .pull 2 :: unheardCalls) ∧
      (((new Registry.empty {}).after lenderCalls).step (.pull 2)).Throughout
        (fun g c => (g.step c).statusOf 2 = some .ready ∧ (g.step c).journal.events = []) unheardCalls ∧
      ((((new Registry.empty {}).after lenderCalls).step (.pull 2)).publishedEntry 2 "x").map (·.payload) = some (.ints [1]) ∧
      (((((new Registry.empty {}).after lenderCalls).step (.pull 2)).after unheardCalls |>.step (.pull 2)).publishedEntry 2 "x").map (·.payload) =
        some (.ints [2]) ∧
      ∀ res res', ¬ ((new Registry.empty {}).after lenderCalls).Unlost 2 unheardCalls res res' := by
  obtain ⟨hcalls, hready, -, -, hfirst, hsecond⟩ := evaluated_unheardCalls
  exact ⟨hcalls, hready, hfirst, hsecond, not_unlost_unheardCalls⟩

end Graph

end Dataflow
