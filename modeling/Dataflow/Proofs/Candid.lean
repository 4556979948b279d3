import Dataflow.Proofs.Upstream

/-!
# Results that say whether something is loading

Whether something is loading is looked up when an outlet is refreshed, and noted in its result. As long as the outlet is ready, the note
stays true: what is below its node is edited by no call that does not tell of it, what is published is written by processes that have run,
and what is built or taken down leaves the entries that both graphs have. Only a change of an entry that no channel of the outlet holds may
make it false.
-/

namespace Dataflow

namespace Graph

variable {g g' : Graph} {n m : NodeId} {id : OutletId} {o o' : Outlet} {c : Call}

/-! ## What is loading below a node -/

/-- A leaf holds a texture that is loading. -/
def loadingAt (g : Graph) (m : NodeId) : Bool := (((g.leaf? m).bind (·.entry)).bind g.entryAt?).any (·.isLoading)

theorem Authored.isLoading_iff (ha : g.Authored) : g.isLoading n = true ↔ ∃ m, g.Below n m ∧ g.loadingAt m = true := by
  rw [isLoading, List.any_eq_true]
  constructor
  · rintro ⟨m, hm, hl⟩
    obtain ⟨t, ht, hb⟩ := reachable_sound hm
    obtain rfl := List.mem_singleton.1 ht
    exact ⟨m, hb, hl⟩
  · rintro ⟨m, hb, hl⟩
    exact ⟨m, ha.mem_descendants hb, hl⟩

/-- A node that is authored the same shows the same to be loading, as long as what its leaves hold is the same. -/
theorem SameBelow.isLoading (h : g.SameBelow g' n) (ha : g.Authored) (ha' : g'.Authored)
    (hentry : ∀ m l e, g.Below n m → g.leaf? m = some l → l.entry = some e → g'.entryAt? e = g.entryAt? e) :
    g'.isLoading n = g.isLoading n := by
  have hat : ∀ m, g.Below n m → g'.loadingAt m = g.loadingAt m := by
    intro m hm
    rw [loadingAt, loadingAt, (h m hm).2]
    rcases hl : g.leaf? m with _ | l
    · rfl
    · rcases he : l.entry with _ | e
      · rw [Option.bind_some, he]
        rfl
      · rw [Option.bind_some, he, Option.bind_some, Option.bind_some, hentry m l e hm hl he]
  rw [Bool.eq_iff_iff, ha'.isLoading_iff, ha.isLoading_iff]
  refine exists_congr fun m => ?_
  rw [h.below_iff]
  exact and_congr_right fun hm => by rw [hat m hm]

/-! ## What is noted -/

/-- While the outlet is ready, what works for it has run, and its result says whether something is still loading. -/
structure Candid (g : Graph) (id : OutletId) : Prop where
  rested : g.Rested id
  flag : ∀ o : Outlet, g.outlets[id]? = some o → o.status = .ready → o.result.loading = g.pending o.owner o.result.outputs

theorem pending_congr (hl : g'.isLoading n = g.isLoading n) {outputs : NameMap EntryId}
    (he : ∀ (x : String) e, outputs[x]? = some e → g'.entryAt? e = g.entryAt? e) : g'.pending n outputs = g.pending n outputs := by
  have hmap : outputs.values.map g'.entryAt? = outputs.values.map g.entryAt? := List.map_congr_left fun e hv => by
    obtain ⟨x, hx⟩ := Table.mem_values.1 hv
    exact he x e hx
  rw [pending, pending, hl, hmap]

/-- An entry that an outlet would publish informs it. -/
theorem informs_of_published (ho : g.outlets[id]? = some o) {x : String} {e : EntryId} (hx : (g.published o.channels)[x]? = some e) :
    g.Informs id e := by
  rw [get_published] at hx
  obtain ⟨c, hc, he⟩ := Option.bind_eq_some_iff.1 hx
  obtain ⟨y, hy, rfl⟩ := Option.map_eq_some_iff.1 he
  exact .inl ⟨c, .inl ⟨o, x, ho, hc⟩, y, List.mem_of_mem_head? hy, rfl⟩

/-- An outlet stays candid where what is upstream is the same, and what is loading below its node. -/
theorem Candid.of_sameUpstream (h : g.Candid id) (hg : g.Current) (hs : ∀ o' : Outlet, g'.outlets[id]? = some o' → o'.status = .ready →
    g.SameUpstream g' id ∧ g'.isLoading o'.owner = g.isLoading o'.owner) : g'.Candid id := by
  refine ⟨fun o' ho' hready => ((hs o' ho' hready).1.rested h.rested) o' ho' hready, fun o' ho' hready => ?_⟩
  obtain ⟨hup, hloading⟩ := hs o' ho' hready
  obtain ⟨o, o₁, ho, ho₁, he⟩ := hup.outlet
  cases ho₁.symm.trans ho'
  have hst : o.status = .ready := he.status.symm.trans hready
  rw [he.owner] at hloading
  rw [he.result, he.owner, h.flag o ho hst]
  refine (pending_congr hloading fun x e hx => hup.entries e (informs_of_published ho (x := x) ?_)).symm
  rwa [← hg.published id o ho hst]

/-- What retains what outlets see keeps them candid. -/
theorem Candid.retained (h : g.Candid id) (hg : g.Consistent) (hg' : g'.Tended) (hr : g.Retains g') : g'.Candid id := by
  refine h.of_sameUpstream hg.current fun o' ho' hready => ⟨hr.sameUpstream hg.tended hg' ho' hready, ?_⟩
  obtain ⟨o, -, he, hb⟩ := hr.ready id o' ho' hready
  rw [he.owner]
  refine hb.isLoading hg.tended.authored hg'.authored fun m l e hm hl hle => ?_
  have hground : ∀ {g : Graph}, g.Tended → g.leaf? m = some l → (g.entryAt? e).isSome := fun hg hl => (hg.sound.leaves m l e hl hle).isSome_entry
  obtain ⟨x, hx⟩ := Option.isSome_iff_exists.1 (hground hg.tended hl)
  obtain ⟨x', hx'⟩ := Option.isSome_iff_exists.1 (hground hg' ((hb m hm).2.trans hl))
  rw [hx, hx', hr.concurs.entries e x x' hx hx']

/-- What the journal says does not matter. -/
theorem Candid.journal (h : g.Candid id) (journal : Journal) : Candid { g with journal } id := by
  have hsame : g.LeavesReady { g with journal } := fun _ _ _ ho _ => .of_same ho rfl rfl rfl
  exact ⟨hsame.rested h.rested, h.flag⟩

/-! ## Running and refreshing -/

theorem Keeps.isLoading (h : g.Keeps g') (ha : g.Authored) (ha' : g'.Authored) (n : NodeId) : g'.isLoading n = g.isLoading n :=
  (h.toSameDesign.sameBelow n).isLoading ha ha' fun m l e _ hl he => h.values m l e hl he

/-- Running changes nothing that is authored. -/
theorem Ran.keeps (hr : g.Ran g') {hands : List InstanceId} (hs : SoundBut (fun _ => False) hands g) : g.Keeps g' := by
  refine ⟨?_, fun m l e hl he => hr.authored (hs.leaves m l e hl he).2, ?_⟩
  all_goals obtain ⟨_, _, _, _, _, _, rfl⟩ := hr.rest
  · exact ⟨fun _ => rfl, fun _ => rfl, rfl⟩
  · rfl

theorem Candid.runAll (h : g.Candid id) (hg : g.Consistent) (roots : List ProcessId) : (g.runAll roots).Candid id := by
  obtain ⟨hr, -, -⟩ := hg.current.runAll hg.tended.sound hg.named roots
  have hg' : Upholds (fun _ => False) g (g.runAll roots) := hg.runAll roots
  refine h.of_sameUpstream hg.current fun o ho hready => ?_
  rw [hr.outlets] at ho
  exact ⟨hr.sameUpstream hg.tended ho (h.rested o ho hready),
    (hr.keeps hg.tended.sound).isLoading hg.tended.authored hg'.consistent.tended.authored o.owner⟩

/-- Bringing an outlet up to date keeps all outlets candid, and makes this one so. -/
theorem Candid.resolve (h : g.Candid id) (hg : g.Consistent) {k : OutletId} (hk : g.outlets[k]? = some o) : (g.resolve k).Candid id := by
  refine ⟨hg.rested_resolve hk h.rested, fun o' ho' hready => ?_⟩
  have hres := hg.resolve hk
  by_cases hid : id ≠ k ∨ o.status = .ready
  · have ho : g.outlets[id]? = some o' := (hg.outlets_resolve hk hid).symm.trans ho'
    refine (h.of_sameUpstream hg.current fun o₁ ho₁ _ => ?_).flag o' ho' hready
    cases ho'.symm.trans ho₁
    exact ⟨hg.sameUpstream_resolve hk ho hready h.rested,
      hres.keeps.isLoading hg.tended.authored (hres.upholds fun _ => False).consistent.tended.authored o'.owner⟩
  · obtain ⟨rfl, hs⟩ : id = k ∧ o.status ≠ .ready := by simpa using hid
    obtain ⟨g₁, o₁, he, -, hp⟩ := hg.poised hk hs
    have hsound : SoundBut (fun _ => False) _ g₁ := hp.tended.sound.aside g₁.outlets g₁.requests g₁.plans g₁.journal
    obtain ⟨g', journal, hr, -, -, hre⟩ := refresh_spec hp.current hsound (hp.keeps.registry ▸ hg.named) hp.outlet o.owner
    rw [he, hre] at ho' ⊢
    rw [get_outlets_modifyOutlet, if_pos rfl, show ({ g' with journal } : Graph).outlets[id]? = some o₁ from hr.outlets ▸ hp.outlet] at ho'
    cases ho'
    show g'.pending o.owner _ = g'.pending o₁.owner _
    rw [hp.owner]

/-! ## Changes of entries -/

/-- The call changes nothing that is pending for a ready outlet that it does not concern. -/
def HeardAt (g : Graph) (c : Call) (id : OutletId) : Prop :=
  ∀ e f, c.update = some (e, f) → ∀ o : Outlet, g.outlets[id]? = some o → o.status = .ready → ¬ g.Concerned e id →
    (g.step c).pending o.owner o.result.outputs = g.pending o.owner o.result.outputs

/-- A change of an authored entry that spreads leaves candid whom it does not concern, if it changes nothing that is pending there. -/
theorem Candid.spread (h : g.Candid id) (hg : g.Tended) {e : EntryId} (hs : Spread g g' e)
    (hauthored : ∀ (k : ProcessId) (p : Process), g.processes[k]? = some p → e ∉ p.writes)
    (hheard : ∀ o : Outlet, g.outlets[id]? = some o → o.status = .ready → ¬ g.Concerned e id →
      g'.pending o.owner o.result.outputs = g.pending o.owner o.result.outputs) : g'.Candid id := by
  refine ⟨(hs.leavesReady hg hauthored).rested h.rested, fun o' ho' hready => ?_⟩
  have hc := hs.not_concerned ho' hready
  rw [hs.unconcerned id hc] at ho'
  exact (h.flag o' ho' hready).trans (hheard o' ho' hready hc).symm

/-- A change of an entry keeps an outlet candid that hears what is pending. -/
theorem Candid.update (h : g.Candid id) (hg : g.Maintained) (hc : g.Regular c) {e : EntryId} {f : Entry → Except Error Entry}
    (hup : c.update = some (e, f)) (hheard : g.HeardAt c id) : (g.step c).Candid id := by
  rcases hg.update_cases hup with heq | ⟨hs, -⟩
  · rw [heq]
    exact h.journal {}
  · exact h.spread hg.consistent.tended hs (hc.not_written hup) (hheard e f hup)

/-! ## Every call -/

theorem carries_candid (id : OutletId) : Carries fun g g' => g.Candid id → g'.Candid id where
  trans _ _ _ h h' := h' ∘ h
  retained _ _ hg hg' hr h := h.retained hg hg'.tended hr
  ran _ roots hg h := h.runAll hg roots

/-- A regular call keeps an outlet candid that hears of what it changes. -/
theorem Candid.step (h : g.Candid id) (hg : g.Maintained) (hc : g.Regular c) (hheard : g.HeardAt c id) : (g.step c).Candid id :=
  (carries_candid id).step (fun _ _ _ _ hg ho h => h.resolve hg ho) hg hc (fun _ _ hup _ => h.update hg hc hup hheard) h

end Graph

end Dataflow
