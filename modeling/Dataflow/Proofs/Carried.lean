import Dataflow.Proofs.Live

/-!
# What a regular call does, one thing after the other

A regular call edits, builds, takes down and notes: this leaves what ready outlets see. It runs processes, it brings an outlet up to date,
or it changes the value of an entry. So what carries over from before to after each of these carries over every regular call.
-/

namespace Dataflow

/-- The calls that bring an outlet up to date. -/
def Call.pulls : Call → Bool
  | .pull _ | .pullNode _ _ => true
  | _ => false

namespace Graph

variable {R : Graph → Graph → Prop} {g g' : Graph} {n : NodeId} {id : OutletId} {o : Outlet} {c : Call}

/-! ## Notes -/

theorem retains_journal (g : Graph) (journal : Journal) : g.Retains { g with journal } :=
  retains_of_echoes ⟨_, _, _, _, _, _, rfl⟩ fun _ o ho _ => ⟨o, ho, .refl o, fun _ _ => ⟨rfl, rfl⟩⟩

/-- What an outlet notes of its requests does not show. -/
theorem retains_modifyOutlet (g : Graph) (k : OutletId) {f : Outlet → Outlet} (hf : ∀ o : Outlet, o.Echoes (f o))
    (requests : IdMap Request) (lastId : Nat) :
    g.Retains (modifyOutlet { g with requests, lastId } k f) := by
  refine retains_of_echoes ⟨_, _, _, _, _, _, rfl⟩ fun id o' ho' _ => ?_
  rw [get_outlets_modifyOutlet] at ho'
  split at ho'
  · obtain ⟨o, ho, rfl⟩ := Option.map_eq_some_iff.1 ho'
    exact ⟨o, ho, hf o, fun _ _ => ⟨rfl, rfl⟩⟩
  · exact ⟨o', ho', .refl o', fun _ _ => ⟨rfl, rfl⟩⟩

theorem retains_openOutlet (g : Graph) (n : NodeId) (filter : List String) : g.Retains (g.openOutlet n filter) := by
  refine retains_of_echoes ⟨_, _, _, _, _, _, rfl⟩ fun id o' ho' hr => ?_
  rw [get_outlets_openOutlet] at ho'
  split at ho'
  · cases ho'
    cases hr
  · exact ⟨o', ho', .refl o', (sameDesign_openOutlet ..).sameBelow _⟩

theorem retains_outletFor (g : Graph) (n : NodeId) (names : List String) : g.Retains (g.outletFor n names).1 := by
  rcases outletFor_cases g n names with ⟨e, he⟩ | ⟨d, -, ⟨id, -, he⟩ | ⟨-, he⟩⟩ <;> rw [he]
  · exact .refl g
  · exact .refl g
  · exact retains_openOutlet g n _

/-- No outlet is of a node that is yet to be made, or of one above it. -/
theorem Tended.retains_withNode (h : g.Tended) (x : Node) (nextMap : MapId) : g.Retains (g.withNode x nextMap) := by
  refine retains_of_echoes ⟨_, _, _, _, _, _, rfl⟩ fun id o ho _ => ⟨o, ho, .refl o, ?_⟩
  obtain ⟨d, hd, -⟩ := h.enrolled.home id o ho
  exact sameBelow_of_apart (not_below_of_unreferenced h.authored.next_not_mem_references (ne_next_of_data? hd))
    (fun m hm => by rw [data?_withNode, if_neg hm]) fun m hm => by rw [leaf?_withNode, if_neg hm]

theorem retains_createEntry (g : Graph) (x : Entry) : g.Retains (g.createEntry x).1 := by
  refine ⟨.of_more (fun e y hy => ?_) (.of_channels rfl) fun _ p hp => ⟨p.uses, hp⟩, fun _ o ho _ => ⟨o, ho, .refl o, fun _ _ => ⟨rfl, rfl⟩⟩⟩
  refine (Store.entryAt?_pushEntry ..).trans ((if_neg ?_).trans hy)
  exact Nat.ne_of_lt (Store.lt_next_of_isSome (by rw [show g.store.entryAt? e = some y from hy]; rfl))

/-- Only the outlet that is poised is seen to change. -/
theorem Poised.retains {g₁ : Graph} {o₁ : Outlet} (h : Poised g g₁ id o o₁) :
    g.Retains (g₁.modifyOutlet id ({ · with status := .needsData })) := by
  refine ⟨⟨h.concurs.entries, h.concurs.lasts, h.concurs.processes⟩, fun k o' ho' hr => ?_⟩
  rw [get_outlets_modifyOutlet] at ho'
  split at ho'
  · obtain ⟨p, -, rfl⟩ := Option.map_eq_some_iff.1 ho'
    cases hr
  · rename_i hk
    exact ⟨o', h.others k hk ▸ ho', .refl o', h.keeps.toSameDesign.sameBelow _⟩

/-- A call that changes an entry is refused and changes nothing, or the change spreads. -/
theorem Maintained.update_cases (h : g.Maintained) {e : EntryId} {f : Entry → Except Error Entry} (hup : c.update = some (e, f)) :
    g.step c = g.settled ∨ Spread g (g.step c) e ∧
      ∃ old value, g.entryAt? e = some old ∧ f old = .ok value ∧ (g.step c).entryAt? e = some value := by
  obtain ⟨a, ha⟩ := h.attended
  rw [show g.step c = (g.settled.updateEntry e f).1 from congrArg Prod.fst (perform_of_update g.settled hup)]
  exact (updateEntry_cases g.settled e f).imp_right ha.update

/-- Bringing an outlet up to date leaves the others as they are, and itself if it is ready. -/
theorem Consistent.outlets_resolve (h : g.Consistent) {k : OutletId} (hk : g.outlets[k]? = some o) (hid : id ≠ k ∨ o.status = .ready) :
    (g.resolve k).outlets[id]? = g.outlets[id]? := by
  by_cases hs : o.status = .ready
  · rw [resolve_of_ready hk hs]
  · obtain ⟨g₁, o₁, he, -, hp⟩ := h.poised hk hs
    obtain ⟨-, -, -, -, -, -, hothers⟩ := consistent_refresh hp.current hp.outlet hp.tended (hp.keeps.registry ▸ h.named) o.owner
    have hne : id ≠ k := hid.resolve_right hs
    rw [he, hothers id hne, hp.others id hne]

/-! ## What calls carry over -/

/-- What carries over from one graph to the next, as long as each leaves what ready outlets see or runs processes. -/
structure Carries (R : Graph → Graph → Prop) : Prop where
  trans : ∀ g g' g'', R g g' → R g' g'' → R g g''
  retained : ∀ g g', g.Consistent → g'.Consistent → g.Retains g' → R g g'
  ran : ∀ g roots, g.Consistent → R g (g.runAll roots)

theorem Carries.revised (hR : Carries R) (hr : Revised c g g') (hproto : ∀ q r, c ≠ .setProto q (some r))
    (hentry : ∀ q e, c ≠ .setData q (some e)) (hg : g.Consistent) : R g g' := by
  induction hr with
  | @done g journal _ =>
    have hnoted : Upholds (fun _ => False) g { g with journal } := hg.journal journal
    exact hR.retained _ _ hg hnoted.consistent (retains_journal g journal)
  | @change g g₁ _ p ht _ _ ih =>
    obtain ⟨htold, hret⟩ : Upholds (fun _ => False) g (g₁.structureChanged p) ∧ _ := hg.told ht hproto fun l e => hg.grounded_of_touched ht hentry
    exact hR.trans _ _ _ (hR.retained _ _ hg htold.consistent hret) (ih htold.consistent)

theorem Carries.createRequest (hR : Carries R) (hg : g.Consistent) (n : NodeId) (names : List String) : R g (g.createRequest n names).1 := by
  have hout := (hg.outletFor n names).1.consistent
  have hfor := hR.retained _ _ hg hout (retains_outletFor g n names)
  have hg' := (hg.createRequest n names).1.consistent
  rw [createRequest_eq] at hg' ⊢
  generalize g.outletFor n names = out at hout hfor hg' ⊢
  obtain ⟨g₁, e | k⟩ := out
  · exact hfor
  · exact hR.trans _ _ _ hfor (hR.retained _ _ hout hg' (retains_modifyOutlet g₁ k (fun _ => by exact ⟨rfl, rfl, rfl, rfl⟩) _ _))

theorem Carries.releaseRequest (hR : Carries R) (hg : g.Consistent) {r : RequestId} (he : (g.releaseRequest r).Enrolled) :
    R g (g.releaseRequest r) := by
  rcases releaseRequest_cases g r with ⟨heq, -⟩ | ⟨q, hq, ⟨heq, -⟩ | ⟨o, ho, -, -, heq⟩⟩
  · rw [heq]
    exact hR.retained _ _ hg hg (.refl g)
  all_goals
    have hw : Upholds (fun _ => False) g (g.withdraw r q.outlet) := hg.withdrawn hq
    have hwithdrawn := hR.retained _ _ hg hw.consistent (retains_modifyOutlet g q.outlet (fun _ => by exact ⟨rfl, rfl, rfl, rfl⟩) _ _)
    rw [heq] at he ⊢
  · exact hwithdrawn
  · obtain ⟨hup, hret⟩ : Upholds (fun _ => False) _ _ ∧ _ := hw.consistent.dropOutlet ho he
    exact hR.trans _ _ _ hwithdrawn (hR.retained _ _ hw.consistent hup.consistent hret)

theorem Carries.removeNode (hR : Carries R) (hg : g.Consistent) (he : (g.removeNode n).1.Enrolled) : R g (g.removeNode n).1 := by
  rw [removeNode_eq] at he ⊢
  split at he
  · rename_i hn
    rw [if_pos hn]
    have hr : Revised (.remove n) g (g.detachFromParents n).1 := revised_detach hg.tended.authored (.remove n)
    have hd : Upholds (fun _ => False) g (g.detachFromParents n).1 := hr.upholds nofun nofun hg
    obtain ⟨hup, hret⟩ : Upholds (fun _ => False) _ _ ∧ _ := hd.consistent.uproot (not_mem_references_detach hg.tended.authored hn) he
    exact hR.trans _ _ _ (hR.revised hr nofun nofun hg) (hR.retained _ _ hd.consistent hup.consistent hret)
  · rename_i hn
    rw [if_neg hn]
    exact hR.retained _ _ hg hg (.refl g)

/-- What outlets show stays. -/
def Repeats (g g' : Graph) : Prop := ∀ (id : OutletId) (o : Outlet), g.outlets[id]? = some o → ∃ o' : Outlet, g'.outlets[id]? = some o' ∧ o.Echoes o'

theorem Repeats.refl (g : Graph) : g.Repeats g := fun _ o ho => ⟨o, ho, .refl o⟩

theorem Repeats.trans {g'' : Graph} (h : g.Repeats g') (h' : g'.Repeats g'') : g.Repeats g'' := fun id o ho => by
  obtain ⟨o', ho', he⟩ := h id o ho
  obtain ⟨o'', ho'', he'⟩ := h' id o' ho'
  exact ⟨o'', ho'', he.trans he'⟩

theorem repeats_modifyOutlet (g : Graph) (k : OutletId) {f : Outlet → Outlet} (hf : ∀ o : Outlet, o.Echoes (f o)) :
    g.Repeats (g.modifyOutlet k f) := by
  intro id o ho
  rw [get_outlets_modifyOutlet, ho]
  split
  · exact ⟨f o, rfl, hf o⟩
  · exact ⟨o, rfl, .refl o⟩

theorem Enrolled.repeats_outletFor (h : g.Enrolled) (n : NodeId) (names : List String) : g.Repeats (g.outletFor n names).1 := by
  rcases outletFor_cases g n names with ⟨e, he⟩ | ⟨d, -, ⟨id, -, he⟩ | ⟨-, he⟩⟩ <;> rw [he]
  · exact .refl g
  · exact .refl g
  · intro id o ho
    have hid : id ≠ g.lastId + 1 := Nat.ne_of_lt (Nat.lt_succ_of_le (h.outletId id o ho))
    exact ⟨o, (get_outlets_openOutlet ..).trans ((if_neg hid).trans ho), .refl o⟩

/-- A pull brings an outlet up to date, once it is there and pinned if need be; or it does nothing else. -/
theorem Consistent.pulls_cases (h : g.Consistent) (hc : c.pulls = true) :
    ∃ g₁, g₁.Consistent ∧ g.Repeats g₁ ∧ (∀ R, Carries R → R g g₁) ∧
      ((g.perform c).1 = g₁ ∨ ∃ (k : OutletId) (o : Outlet), g₁.outlets[k]? = some o ∧ (g.perform c).1 = g₁.resolve k) := by
  cases c with
  | pull r =>
    refine ⟨g, h, .refl g, fun R hR => hR.retained _ _ h h (.refl g), ?_⟩
    show (g.pull r).1 = g ∨ ∃ (k : OutletId) (o : Outlet), g.outlets[k]? = some o ∧ (g.pull r).1 = g.resolve k
    rcases hq : g.requests[r]? with _ | q
    · left
      rw [Graph.pull, hq]
    · right
      obtain ⟨o, ho, -⟩ := h.tended.enrolled.asked r q hq
      refine ⟨q.outlet, o, ho, ?_⟩
      rw [Graph.pull, hq]
  | pullNode n names =>
    have hout := (h.outletFor n names).1.consistent
    have hrep := h.tended.enrolled.repeats_outletFor n names
    have hfor : ∀ R, Carries R → R g (g.outletFor n names).1 := fun R hR => hR.retained _ _ h hout (retains_outletFor g n names)
    show ∃ g₁ : Graph, g₁.Consistent ∧ g.Repeats g₁ ∧ (∀ R, Carries R → R g g₁) ∧
      ((g.pullNode n names).1 = g₁ ∨ ∃ (k : OutletId) (o : Outlet), g₁.outlets[k]? = some o ∧ (g.pullNode n names).1 = g₁.resolve k)
    rcases pullNode_cases g n names with ⟨e, -, he⟩ | ⟨k, hk, he, -⟩
    · exact ⟨_, hout, hrep, hfor, .inl (congrArg Prod.fst he)⟩
    · obtain ⟨hpin, o, ho, -⟩ := h.pin hk
      have hsame : ∀ o : Outlet, o.Echoes { o with pinned := true } := fun _ => ⟨rfl, rfl, rfl, rfl⟩
      refine ⟨_, hpin.consistent, hrep.trans (repeats_modifyOutlet _ k hsame), fun R hR => ?_, .inr ⟨k, o, ho, he⟩⟩
      exact hR.trans _ _ _ (hfor R hR) (hR.retained _ _ hout hpin.consistent (retains_modifyOutlet _ k hsame _ _))
  | _ => cases hc

/-- What carries over, bringing outlets up to date included, carries over a regular call that does not change the value of an entry; of one
that does it has to be known. -/
theorem Carries.step (hR : Carries R) (hresolve : ∀ (g : Graph) (k : OutletId) (o : Outlet), c.pulls = true → g.Consistent →
      g.outlets[k]? = some o → R g (g.resolve k))
    (hg : g.Maintained) (hc : g.Regular c) (hup : ∀ e f, c.update = some (e, f) → R g.settled (g.step c)) : R g (g.step c) := by
  obtain ⟨a, ha⟩ := hg.attended
  obtain ⟨a', ha'⟩ := ha.step hc.bindsEntry nofun
  have he : (g.step c).Enrolled := ha'.orderly.posted.toEnrolled rfl
  have hcons : (g.step c).Consistent := (hg.step hc).1.consistent
  have hs := hg.consistent.settled
  have hauth := hs.tended.authored
  refine hR.trans _ _ _ (hR.retained _ _ hg.consistent hs (retains_journal g {})) ?_
  have hret : g.settled.Retains (g.step c) → R g.settled (g.step c) := hR.retained _ _ hs hcons
  have hpull : c.pulls = true → R g.settled (g.step c) := fun hp => by
    obtain ⟨g₁, hg₁, -, hto, heq | ⟨k, o, ho, heq⟩⟩ := hs.pulls_cases hp
    · exact (congrArg (R g.settled) heq).mpr (hto R hR)
    · exact (congrArg (R g.settled) heq).mpr (hR.trans _ _ _ (hto R hR) (hresolve g₁ k o hp hg₁ ho))
  cases c with
  | createLeaf => exact hret (hs.tended.retains_withNode _ _)
  | createData isProto => exact hret (hs.tended.retains_withNode _ _)
  | createEntry x => exact hret (retains_createEntry _ x)
  | createPayload type payload =>
    have : g.settled.Retains (g.settled.createPayload type payload).1 := by
      rcases createPayload_cases g.settled type payload with ⟨e, heq⟩ | ⟨x, heq⟩ <;> rw [heq]
      · exact .refl _
      · exact retains_createEntry _ x
    exact hret this
  | appendChild p c => exact hR.revised (amends_appendChild hauth).revised nofun nofun hs
  | insertBefore p c before => exact hR.revised (amends_insertBefore hauth before).revised nofun nofun hs
  | removeChild p c => exact hR.revised (amends_removeChild hauth).revised nofun nofun hs
  | clearChildren p => exact hR.revised (amends_clearChildren hauth).revised nofun nofun hs
  | detach n => exact hR.revised (revised_detach hauth (.detach n)) nofun nofun hs
  | remove n => exact hR.removeNode hs he
  | setSource n source => exact hR.revised (amends_setSource hauth source).revised nofun nofun hs
  | setProto n proto =>
    obtain rfl : proto = none := hc
    exact hR.revised (amends_setProto hauth none).revised nofun nofun hs
  | setFilter n text => exact hR.revised (amends_setFilter hauth text).revised nofun nofun hs
  | setCompute n text => exact hR.revised (amends_setCompute hauth text).revised nofun nofun hs
  | setName n name => exact hR.revised (amends_updateLeaf hauth (.setName n name)).revised nofun nofun hs
  | setKey n key => exact hR.revised (amends_updateLeaf hauth (.setKey n key)).revised nofun nofun hs
  | setParam n param => exact hR.revised (amends_updateLeaf hauth (.setParam n param)).revised nofun nofun hs
  | setData n entry =>
    cases entry with
    | none => exact hR.revised (amends_updateLeaf hauth (.setData n none)).revised nofun nofun hs
    | some e =>
      obtain ⟨-, hr⟩ : Upholds (fun _ => False) _ _ ∧ _ := hs.setData (grounded_of_entry (g := g.settled) hc.1 hc.2)
      exact hret hr
  | setPayload e payload => exact hup e _ rfl
  | setImage e image => exact hup e _ rfl
  | setLoading e loading => exact hup e _ rfl
  | touch n =>
    obtain ⟨-, hr⟩ : Upholds (fun _ => False) _ _ ∧ _ := hs.told (touched_self hauth n) nofun fun l e hl he => hs.tended.sound.leaves n l e hl he
    exact hret hr
  | synchronize n =>
    obtain ⟨-, hr⟩ : Upholds (fun _ => False) _ _ ∧ _ := hs.synchronize n
    exact hret hr
  | acquireInstance n s => exact hc.elim
  | releaseInstance id => exact hc.elim
  | process id => exact hR.ran _ [id] hs
  | createRequest n names => exact hR.createRequest hs n names
  | watchRequest r tag => exact hret (retains_of_echoes ⟨_, _, _, _, _, _, rfl⟩ fun _ o ho _ => ⟨o, ho, .refl o, fun _ _ => ⟨rfl, rfl⟩⟩)
  | pull r => exact hpull rfl
  | pullNode n names => exact hpull rfl
  | releaseRequest r => exact hR.releaseRequest hs he

end Graph

end Dataflow
