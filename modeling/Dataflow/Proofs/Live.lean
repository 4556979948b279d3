import Dataflow.Proofs.Incremental
import Dataflow.Proofs.Passes

/-!
# Published results are live

What an outlet publishes are first slots of channels of its node, and these hold entries that are there: entries of leaves, which no process
writes, or outputs of live processes. So as long as leaves are bound to entries that are there and that no process writes, the check that
everything published is live never fails. Where a leaf is bound to an entry that was never made, or to one that a process writes and
that goes with it, the check fails.
-/

namespace Dataflow

namespace Graph

variable {g g₁ : Graph} {id : OutletId} {o o₁ : Outlet} {n : NodeId} {c : Call}

/-! ## Publishing -/

theorem get_published (g : Graph) (channels : NameMap ChannelId) (x : String) :
    (g.published channels)[x]? = (channels[x]?).bind g.store.firstId? :=
  Std.ExtTreeMap.getElem?_filterMap'

/-- The slots of what an outlet listens to are grounded. -/
theorem Tended.grounded (h : g.Tended) (ho : g.outlets[id]? = some o) {x : String} {ch : ChannelId} (hc : o.channels[x]? = some ch) :
    ∀ y ∈ g.store.slots ch, g.Grounded y := by
  have hat := h.outlet id o ho
  by_cases hs : o.status = .needsStructure
  · rw [(hat.idle hs).channels, Std.ExtTreeMap.getElem?_empty] at hc
    cases hc
  · obtain ⟨j, -, ⟨i, hi, hown, -⟩, hx⟩ := hat.held hs
    rw [hx] at hc
    split at hc
    · have hbuilt := h.sound.faithful j i hi not_false |>.built .output
      rw [(h.sound.unbound j i hi).substitution, hown] at hbuilt
      exact fun y hy => (hbuilt.known_chan hc).grounded hy
    · cases hc

theorem Grounded.isSome_entry {y : Slot Float32} (h : g.Grounded y) : (g.entryAt? y.entry).isSome := by
  obtain ⟨t, ht⟩ := Option.isSome_iff_exists.1 h.1
  obtain ⟨x, hx, -⟩ := Option.map_eq_some_iff.1 ht
  exact Option.isSome_iff_exists.2 ⟨x, hx⟩

/-- What an outlet would publish is an entry that is there. -/
theorem Tended.isSome_published (h : g.Tended) (ho : g.outlets[id]? = some o) {x : String} {e : EntryId}
    (he : (g.published o.channels)[x]? = some e) : (g.entryAt? e).isSome := by
  rw [get_published] at he
  obtain ⟨ch, hc, he⟩ := Option.bind_eq_some_iff.1 he
  obtain ⟨y, hy, rfl⟩ := Option.map_eq_some_iff.1 he
  exact (h.grounded ho hc y (List.mem_of_mem_head? hy)).isSome_entry

/-- What a ready outlet publishes is there. -/
theorem Consistent.isSome_output (h : g.Consistent) (ho : g.outlets[id]? = some o) (hr : o.status = .ready) {x : String} {e : EntryId}
    (he : o.result.outputs[x]? = some e) : (g.entryAt? e).isSome := by
  rw [h.current.published id o ho hr] at he
  exact h.tended.isSome_published ho he

/-- Refreshing an outlet that is poised finds everything that it publishes. -/
theorem Poised.passes_refresh (h : Poised g g₁ id o o₁) (hreg : g.registry.WellNamed) (owner : NodeId) :
    g₁.journal.Passes .resultResolved (g₁.refresh id owner).journal := by
  have hsound : SoundBut (fun _ => False) _ g₁ := h.tended.sound.aside g₁.outlets g₁.requests g₁.plans g₁.journal
  have hrun := trims_runAll (i := .resultResolved) rfl g₁ (o₁.channels.values.flatMap g₁.store.creators)
  obtain ⟨hran, -, -⟩ := h.current.runAll hsound (h.keeps.registry ▸ hreg) (o₁.channels.values.flatMap g₁.store.creators)
  rw [refresh, h.outlet]
  refine hrun.journal.trans (Journal.passes_check _ (.inr ?_) _)
  rw [List.all_eq_true]
  intro entry hentry
  obtain ⟨e, he, rfl⟩ := List.mem_map.1 hentry
  obtain ⟨x, he⟩ := Table.mem_values.1 he
  -- running leaves channels and the types of entries alone
  have hsame : (g₁.runAll (o₁.channels.values.flatMap g₁.store.creators)).published o₁.channels = g₁.published o₁.channels :=
    published_congr fun _ c _ => by rw [Store.slots, Store.slots, Store.channel?, Store.channel?, hran.channels]
  have hpub : (g₁.published o₁.channels)[x]? = some e := hsame ▸ he
  have hout : (g₁.modifyOutlet id ({ · with status := .needsData })).outlets[id]? = some { o₁ with status := .needsData } := by
    rw [get_outlets_modifyOutlet, if_pos rfl, h.outlet]
    rfl
  obtain ⟨v, hv⟩ := Option.isSome_iff_exists.1 (h.tended.isSome_published hout hpub)
  have ht : g₁.store.typeAt? e = some v.type := by
    rw [Store.typeAt?, show g₁.store.entryAt? e = some v from hv]
    rfl
  obtain ⟨v', hv', -⟩ := Option.map_eq_some_iff.1 (hran.types e _ ht)
  exact Option.isSome_iff_exists.2 ⟨v', hv'⟩

theorem Consistent.passes_resolve (h : g.Consistent) (ho : g.outlets[id]? = some o) :
    g.journal.Passes .resultResolved (g.resolve id).journal := by
  by_cases hs : o.status = .ready
  · rw [resolve_of_ready ho hs]
    exact .refl _ _
  · obtain ⟨g₁, o₁, he, hg₁, hp⟩ := h.poised ho hs
    rw [he]
    refine Journal.Passes.trans ?_ (hp.passes_refresh h.named o.owner)
    rcases hg₁ with rfl | rfl
    · exact .refl _ _
    · exact rel_rebuild builds_passes (i := .resultResolved) rfl (fun _ _ ht => ht.journal) g id o

/-! ## Calls -/

/-- A call that does not pull what an outlet publishes leaves it; a pull of a consistent graph finds everything that it publishes. -/
theorem Consistent.passes_perform (h : g.Consistent) (hc : g.Regular c) : g.journal.Passes .resultResolved (g.perform c).1.journal := by
  cases c with
  | createLeaf => exact .refl _ _
  | setKey n k =>
    change g.journal.Passes .resultResolved (g.updateLeaf n ({ · with key := k })).1.journal
    rw [updateLeaf]
    split
    · exact .refl _ _
    · exact (trims_structureChanged rfl (g.modifyLeaf n ({ · with key := k })) n).journal
  | acquireInstance n s => exact hc.elim
  | pull r =>
    rw [Graph.perform, Graph.pull]
    rcases hq : g.requests[r]? with _ | q
    · exact .refl _ _
    · obtain ⟨o, ho, -⟩ := h.tended.enrolled.asked r q hq
      exact h.passes_resolve ho
  | pullNode n names =>
    have houtlet := (trims_outletFor (i := .resultResolved) g n names).journal
    change g.journal.Passes .resultResolved (g.pullNode n names).1.journal
    rcases pullNode_cases g n names with ⟨e, -, he⟩ | ⟨id, hid, he, -⟩
    · rw [he]
      exact houtlet
    · obtain ⟨hpin, o, ho, -⟩ := h.pin hid
      rw [he]
      exact houtlet.trans (hpin.consistent.passes_resolve ho)
  | _ => exact (trims_perform rfl g rfl).journal

theorem Resolves.of_result {g' : Graph} (h : Resolves g g' id o) {res : Result} (hr : g'.resultOf id = some res) :
    g'.Consistent ∧ ∃ o' : Outlet, g'.outlets[id]? = some o' ∧ o'.status = .ready ∧ o'.result = res := by
  obtain ⟨o', ho', -, -, hst⟩ := h.outlet
  rw [resultOf, ho'] at hr
  exact ⟨(h.upholds fun _ => False).consistent, o', ho', hst, Option.some.inj hr⟩

/-- The answer to a pull is the result of an outlet that is ready. -/
theorem Consistent.of_pulled (h : g.Consistent) {res : Result} (hc : (g.perform c).2 = .ok (.pulled (some res))) :
    ∃ (id : OutletId) (o : Outlet), (g.perform c).1.Consistent ∧ (g.perform c).1.outlets[id]? = some o ∧ o.status = .ready ∧ o.result = res := by
  have hdone : ∀ x : Outcome Unit, (done x).2 ≠ .ok (.pulled (some res)) := by
    rintro ⟨_, _ | _⟩ h <;> cases h
  have hcreated : ∀ x : Outcome Nat, (created x).2 ≠ .ok (.pulled (some res)) := by
    rintro ⟨_, _ | _⟩ h <;> cases h
  cases c with
  | pull r =>
    have hr : (g.pull r).2 = some res := Reply.pulled.inj (Except.ok.inj hc)
    rcases hq : g.requests[r]? with _ | q
    · rw [Graph.pull, hq] at hr
      cases hr
    · obtain ⟨o, ho, hres, hreply⟩ := h.pull hq
      obtain ⟨hcons, o', ho', hst, hr'⟩ := hres.of_result (hreply.symm.trans hr)
      exact ⟨q.outlet, o', hcons, ho', hst, hr'⟩
  | pullNode n names =>
    have hr : (g.pullNode n names).2 = some res := Reply.pulled.inj (Except.ok.inj hc)
    rcases pullNode_cases g n names with ⟨e, -, he⟩ | ⟨id, hid, he, hreply⟩
    · rw [he] at hr
      cases hr
    · obtain ⟨hpin, o, ho, -⟩ := h.pin hid
      obtain ⟨hcons, o', ho', hst, hr'⟩ := (hpin.consistent.resolve ho).of_result (by rw [← he, ← hreply, hr])
      rw [← he] at hcons ho'
      exact ⟨id, o', hcons, ho', hst, hr'⟩
  | createLeaf => exact absurd hc (hcreated _)
  | createData _ => exact absurd hc (hcreated _)
  | createEntry _ => exact absurd hc (hcreated _)
  | createPayload _ _ => exact absurd hc (hcreated _)
  | createRequest _ _ => exact absurd hc (hcreated _)
  | touch _ => cases hc
  | synchronize _ => cases hc
  | acquireInstance _ _ => cases Except.ok.inj hc
  | releaseInstance _ => cases hc
  | process _ => cases hc
  | watchRequest _ _ => cases hc
  | releaseRequest _ => cases hc
  | _ => exact absurd hc (hdone _)

/-! ## Histories -/

/-- Regular calls, but that leaves may also be bound to entries that are absent, or to entries that processes write. -/
def RegularBut (absent written : Prop) (g : Graph) : Call → Prop
  | .setData _ (some e) => ((g.entryAt? e).isSome ∨ absent) ∧ ((∀ p ∈ g.processes.values, e ∉ p.writes) ∨ written)
  | c => g.Regular c

theorem regularBut_iff {absent written : Prop} : g.RegularBut absent written c ↔
    (∀ b ∈ c.binding, ((g.entryAt? b.2).isSome ∨ absent) ∧ ((∀ p ∈ g.processes.values, b.2 ∉ p.writes) ∨ written)) ∧
      (c.binding = none → g.Regular c) := by
  cases c with
  | setData n o =>
    cases o with
    | none => simp [RegularBut, Call.binding]
    | some e => simp [RegularBut, Call.binding]
  | _ => simp [RegularBut, Call.binding]

instance (absent written : Prop) [Decidable absent] [Decidable written] (g : Graph) (c : Call) : Decidable (g.RegularBut absent written c) :=
  decidable_of_iff' _ regularBut_iff

theorem RegularBut.mono {absent absent' written written' : Prop} (ha : absent → absent') (hw : written → written')
    (h : g.RegularBut absent written c) : g.RegularBut absent' written' c := by
  cases c with
  | setData n o =>
    cases o with
    | none => exact h
    | some e => exact ⟨h.1.imp_right ha, h.2.imp_right hw⟩
  | _ => exact h

theorem RegularBut.regular {absent written : Prop} (ha : ¬ absent) (hw : ¬ written) (h : g.RegularBut absent written c) : g.Regular c := by
  cases c with
  | setData n o =>
    cases o with
    | none => exact h
    | some e => exact ⟨h.1.resolve_right ha, h.2.resolve_right hw⟩
  | _ => exact h

/-- What is published is there: no result was found to name an entry that is not, live requests are answered, and answers name entries
that are there once they are given. -/
structure Resolved (g : Graph) : Prop where
  unviolated : ∀ v, g.journal.violation = some v → v.invariant ≠ .resultResolved
  answered : ∀ r, (g.requests[r]?).isSome → ∃ res, (g.settled.perform (.pull r)).2 = .ok (.pulled (some res))
  live : ∀ c res, (g.settled.perform c).2 = .ok (.pulled (some res)) → ∀ (x : String) (e : EntryId), res.outputs[x]? = some e →
    ((g.step c).entryAt? e).isSome

theorem Consistent.resolved (h : g.Consistent) (hv : ∀ v, g.journal.violation = some v → v.invariant ≠ .resultResolved) : g.Resolved := by
  refine ⟨hv, fun r hr => ?_, fun c res hc x e he => ?_⟩
  · obtain ⟨q, hq⟩ := Option.isSome_iff_exists.1 hr
    obtain ⟨o, ho, -⟩ := h.tended.enrolled.asked r q hq
    obtain ⟨id, o', hdel⟩ := h.delivers ⟨q, o, hq, ho, rfl, rfl⟩
    exact ⟨o'.result, hdel.reply⟩
  · obtain ⟨id, o, hcons, ho, hst, rfl⟩ := h.settled.of_pulled hc
    exact hcons.isSome_output ho hst he

/-- After regular calls what is published is there. -/
theorem Maintained.resolved_after (h : g.Maintained) (hv : ∀ v, g.journal.violation = some v → v.invariant ≠ .resultResolved)
    {calls : List Call} (hc : g.Throughout Regular calls) : (g.after calls).Resolved := by
  induction calls generalizing g with
  | nil => exact h.consistent.resolved hv
  | cons c calls ih =>
    have hregular : g.settled.Regular c := hc.1
    exact ih (h.step hc.1).1 (fun v hv' hi => nomatch (h.consistent.settled.passes_perform hregular).unseen v hv' hi) hc.2

/-- A leaf is bound to an entry that was never made; what it feeds is pulled. -/
def absentCalls : List Call :=
  [.createLeaf, .setName 0 "x", .setData 0 (some 0), .createData false, .appendChild 1 0, .createRequest 1 [], .pull 2]

/-- A leaf is bound to what a process computed; then the node that computes it is reset, and what the leaf feeds is pulled. -/
def withdrawnCalls : List Call :=
  [.createPayload .int (.ints [1]), .createLeaf, .setName 0 "x", .setData 0 (some 0), .createData false, .appendChild 1 0,
    .setCompute 1 "y = double(x)", .createRequest 1 [], .pull 2, .createLeaf, .setName 2 "z", .setData 2 (some 1), .createData false,
    .appendChild 3 2, .touch 1, .createRequest 3 [], .pull 6]

theorem violation_absentCalls :
    (new doublers {}).Throughout (RegularBut True False) absentCalls ∧
      ((new doublers {}).after absentCalls).journal.violation = some ⟨.resultResolved, "get_result"⟩ := by
  exact ⟨by decide +kernel, by decide +kernel⟩

theorem violation_withdrawnCalls :
    (new doublers {}).Throughout (RegularBut False True) withdrawnCalls ∧
      ((new doublers {}).after withdrawnCalls).journal.violation = some ⟨.resultResolved, "get_result"⟩ := by
  exact ⟨by decide +kernel, by decide +kernel⟩

/-- What is published is there after all regular calls, and exactly as long as leaves may neither be bound to entries that are absent nor
to entries that processes write. -/
theorem published_outputs_resolve_iff (absent written : Prop) :
    (∀ descriptors registry log config calls, Registry.empty.registerAll descriptors = .ok (registry, log) →
      (new registry config).Throughout (RegularBut absent written) calls → ((new registry config).after calls).Resolved) ↔
    ¬ absent ∧ ¬ written := by
  constructor
  · intro h
    have hall := fun calls => h _ _ _ {} calls registerAll_doubling
    refine ⟨fun ha => ?_, fun hw => ?_⟩
    · obtain ⟨hcalls, hv⟩ := violation_absentCalls
      exact (hall _ (hcalls.mono fun _ _ hc => hc.mono (fun _ => ha) nofun)).unviolated _ hv rfl
    · obtain ⟨hcalls, hv⟩ := violation_withdrawnCalls
      exact (hall _ (hcalls.mono fun _ _ hc => hc.mono nofun fun _ => hw)).unviolated _ hv rfl
  · rintro ⟨ha, hw⟩ descriptors registry log config calls hreg hcalls
    exact (maintained_new registry config (Registry.wellNamed_empty.registerAll hreg)).resolved_after nofun
      (hcalls.mono fun _ _ hc => hc.regular ha hw)

/-- Pulling what a leaf feeds that is bound to an entry that was never made, and what a leaf feeds that is bound to an output that has gone,
finds that an entry is not there. -/
theorem unresolved_outputs :
    ((new doublers {}).after absentCalls).journal.violation.map Violation.message =
        some "Invariant 8 failed: every published output resolves to a live entry (context: get_result)" ∧
      ((new doublers {}).after withdrawnCalls).journal.violation.map Violation.message =
        some "Invariant 8 failed: every published output resolves to a live entry (context: get_result)" ∧
      ¬ ((new doublers {}).after absentCalls).Resolved ∧ ¬ ((new doublers {}).after withdrawnCalls).Resolved := by
  refine ⟨by decide +kernel, by decide +kernel, fun h => ?_, fun h => ?_⟩
  · exact h.unviolated _ violation_absentCalls.2 rfl
  · exact h.unviolated _ violation_withdrawnCalls.2 rfl

end Graph

end Dataflow
