import Dataflow.Proofs.Counts
import Dataflow.Proofs.Shelved

/-!
# Drained graphs: when everyone has left, nothing is left

Instances are there for those who use them, processes for instances, channels for the cells that instances use, and outlets for requests.
So when all requests are released and all acquisitions given back, nothing that was derived is left, and of the entries those that were
made from outside. An outlet that is pinned stays, and so does what it holds; but only a pull without a request pins one.
-/

namespace Dataflow

namespace Graph

variable {κ : Call} {a a' : Account} {τ τ' : Work} {g g' : Graph}

/-! ## Outlets that are not pinned -/

/-- No outlet is pinned. -/
def Unpinned (g : Graph) : Prop := ∀ (id : OutletId) (o : Outlet), g.outlets[id]? = some o → o.pinned = false

theorem SamePosts.unpinned (h : g.SamePosts g') (hu : g.Unpinned) : g'.Unpinned := by
  intro id o' ho'
  obtain ⟨o, ho, hpost⟩ := h.outlet_of ho'
  rw [← (Outlet.post_eq hpost).2.2.2]
  exact hu id o ho

theorem Unpinned.modifyOutlet (h : g.Unpinned) (requests : IdMap Request) (lastId : Nat) (id : OutletId) {f : Outlet → Outlet}
    (hf : ∀ o, (f o).pinned = o.pinned) : (Graph.modifyOutlet { g with requests, lastId } id f).Unpinned := by
  intro j o' ho'
  change (g.outlets.modify id f)[j]? = some o' at ho'
  rw [Table.get_modify] at ho'
  split at ho'
  · obtain ⟨o, ho, rfl⟩ := Option.map_eq_some_iff.1 ho'
    rw [hf]
    exact h j o ho
  · exact h j o' ho'

theorem Unpinned.of_outlets (h : g.Unpinned) (ho : ∀ (id : OutletId) (o : Outlet), g'.outlets[id]? = some o → g.outlets[id]? = some o) :
    g'.Unpinned := fun id o hid => h id o (ho id o hid)

/-- Only a pull without a request pins an outlet. -/
theorem unpinned_move (m : Move κ τ g τ' g') (hκ : ∀ n names, κ ≠ .pullNode n names) (h : g.Unpinned) : g'.Unpinned := by
  have hsame : ∀ {g'' : Graph}, g''.outlets = g.outlets → g''.Unpinned := fun ho => h.of_outlets fun id o hid => ho ▸ hid
  have hpost : ∀ {g'' : Graph}, g.SamePosts g'' → g''.Unpinned := fun hs => hs.unpinned h
  cases m with
  | restate hr => exact hpost (.of_restated hr)
  | reparent hn => exact hpost (.of_noted hn)
  | sync n hτ ha => exact hsame (derived_synchronize g n).outlets
  | reuse hτ hd hs hk hi => exact h
  | start hτ ha hd hs hk hnest => exact h
  | merge hj ho => exact hsame (derives_mergeFeeds ..).derived.outlets
  | operate hj => exact hsame (derives_acquireProcess ..).derived.outlets
  | view hj => exact h
  | finish children proto hj ha hh hb => exact hsame ((derived_remember ..).outlets.trans (derives_markUsed ..).derived.outlets)
  | lessen hτ hi hu => exact h
  | dismantle hτ hi hu => exact hsame (derived_dismantle ..).outlets
  | miss hi => exact h
  | giveBack p hτ => exact hsame (derives_giveBack g p).derived.outlets
  | unwire hτ ht hw hup => exact h
  | destroy hτ ht => exact hsame (derives_destroyProcess ..).derived.outlets
  | discard hτ ht hi => exact h
  | pass hτ ht hi => exact h
  | empty hτ ht => exact hsame (Derives.foldl (fun g port => derives_clearPort g _ port) _ g).derived.outlets
  | hush ht hc hd hs hid => exact hpost (samePosts_hush g _)
  | told hst ht hs => exact h
  | edit hτ hj ht =>
    obtain ⟨_, _, rfl⟩ := ht.rest
    exact h
  | addLeaf hτ => exact h
  | addData b hτ => exact h
  | addEntry e => exact h
  | openOutlet hτ hc hd hk =>
    intro id o ho
    rw [get_outlets_openOutlet] at ho
    split at ho
    · cases ho
      rfl
    · exact h id o ho
  | enroll ho hb => exact h.modifyOutlet _ _ _ fun _ => rfl
  | pin hc hb =>
    obtain ⟨n, names, rfl⟩ := hc
    exact absurd rfl (hκ n names)
  | unsubscribe id => exact hpost (samePosts_unsubscribe ..)
  | giveUp ho hh => exact h.modifyOutlet g.requests g.lastId _ fun _ => rfl
  | attach ho hn hc hcl => exact hpost (.of_modifyOutlet g _ _ fun _ => rfl)
  | withdraw hτ hr => exact h.modifyOutlet _ g.lastId _ fun _ => rfl
  | unasked hr => exact h
  | keep hb ho => exact h
  | close hb hτ ho he hp hc =>
    refine h.of_outlets fun id o hid => ?_
    rw [Table.get_erase] at hid
    split at hid
    · cases hid
    · exact hid
  | forget hc => exact h
  | uproot hτ hj hc hrefs hs hidle =>
    refine h.of_outlets fun id o hid => ?_
    change (List.foldl _ _ _ : IdMap Outlet)[id]? = _ at hid
    rw [get_eraseAll] at hid
    split at hid
    · cases hid
    · exact hid
  | disclaim hsub => exact h

/-! ## Between calls, whatever was given back -/

/-- Between calls, given what the caller holds: the graph is in order, uses are counted but for those that were given up without having been
acquired, channels are in cells that are in use, and entries were made from outside or for processes. -/
structure Sustained (a : Account) (g : Graph) : Prop where
  orderly : Orderly a g
  balanced : ∃ owed, Balanced owed a.work g
  shelved : Shelved a.work g
  stored : ∀ κ, Stored False κ a.work g

theorem Sustained.moves (h : Sustained a g) (hm : Moves κ a.work g a'.work g') (ha : g'.Authored) : Sustained a' g' := by
  obtain ⟨owed, hb⟩ := h.balanced
  obtain ⟨h₁, h₂, h₃, h₄, h₅⟩ := hm.keeps
    (I := fun τ g => Tidy τ g ∧ Posted τ g ∧ Balanced owed τ g ∧ Shelved τ g ∧ Stored False κ τ g)
    (fun τ g τ' g' m ⟨h₁, h₂, h₃, h₄, h₅⟩ =>
      ⟨tidy_move m h₁, posted_move m h₂, balanced_move m h₁ h₂ h₃, shelved_move m h₁ h₄, stored_move m h₁ h₅⟩)
    ⟨h.orderly.tidy, h.orderly.posted, hb, h.shelved, h.stored κ⟩
  exact ⟨⟨ha, h₁, h₂⟩, ⟨owed, h₃⟩, h₄, fun κ' => h₅.of_call nofun⟩

/-- A use may be put into the caller's hands when it is owed. -/
theorem Balanced.lend {owed : Multiset InstanceId} (h : Balanced owed a.work g) {id : InstanceId} (hid : id ≤ g.lastId) :
    Balanced (id ::ₘ owed) { a with hands := id :: a.hands }.work g := by
  have hnojobs : ∀ J ∈ { a with hands := id :: a.hands }.work.jobs, J.id ≠ id := fun J hJ => absurd hJ List.not_mem_nil
  have hborn : ∀ {j}, Born a.work g j → Born { a with hands := id :: a.hands }.work g j := fun hj =>
    ⟨hj.drawn, fun J hJ => absurd hJ List.not_mem_nil⟩
  have hhands : ∀ j ∈ (id :: a.hands : List InstanceId), Born { a with hands := id :: a.hands }.work g j := fun j hj => by
    rcases List.mem_cons.1 hj with rfl | hj
    · exact ⟨hid, hnojobs⟩
    · exact hborn (h.hands j hj)
  have hdue : ∀ j ∈ id ::ₘ owed, Born { a with hands := id :: a.hands }.work g j := fun j hj => by
    rcases Multiset.mem_cons.1 hj with rfl | hj
    · exact ⟨hid, hnojobs⟩
    · exact hborn (h.due j hj)
  refine { used := fun id i hi j hj => hborn (h.used id i hi j hj), ranked := h.ranked, held := ?_, claims := ?_, hands := hhands, due := hdue,
           process := h.process, busy := h.busy, uses := ?_, runs := h.runs }
  · intro id o ho j hj
    exact ⟨hborn (h.held id o ho j hj).1, (h.held id o ho j hj).2⟩
  · intro c hc
    exact absurd hc List.not_mem_nil
  · intro j i hi
    obtain ⟨hpos, huses⟩ := h.uses j i hi
    refine ⟨hpos, ?_⟩
    simp only [Account.work, Multiset.coe_count, Multiset.count_cons, List.count_cons, beq_iff_eq, @eq_comm _ id j] at huses ⊢
    omega

/-- What the caller has in hand makes no difference to entries. -/
theorem Stored.lend {κ : Call} (h : Stored False κ a.work g) {hands : List InstanceId} : Stored False κ { a with hands }.work g :=
  ⟨h.outputs, h.apart, h.made, h.known, h.covered, nofun, nofun, nofun⟩

theorem Sustained.lend (h : Sustained a g) {id : InstanceId} (hid : id ≤ g.lastId) : Sustained { a with hands := id :: a.hands } g := by
  obtain ⟨owed, hb⟩ := h.balanced
  exact ⟨h.orderly.lend _, ⟨_, hb.lend hid⟩, h.shelved.of_nodes rfl (fun _ => rfl) (same_jobs rfl) fun _ => rfl, fun κ => (h.stored κ).lend⟩

/-- Every call sustains a graph, whether what it releases was acquired or not. -/
theorem Sustained.step (h : Sustained a g) (c : Call) : Sustained (a.book c (g.settled.perform c).2) (g.step c) := by
  have hmatched : ∀ {a : Account}, Sustained a g → (∀ id, c = .releaseInstance id → id ∈ a.hands) →
      Sustained (a.book c (g.settled.perform c).2) (g.step c) := fun h hc =>
    h.moves (moves_step h.orderly.authored (h.orderly.posted.homed rfl) _ hc) (authored_step h.orderly.authored c)
  by_cases hc : ∀ id, c = .releaseInstance id → id ∈ a.hands
  · exact hmatched h hc
  · obtain ⟨id, rfl, hid⟩ : ∃ id, c = .releaseInstance id ∧ id ∉ a.hands := by
      simpa only [not_forall, exists_prop] using hc
    have hbook : ∀ {hands : List InstanceId} {r : Except Error Reply}, hands.erase id = a.hands →
        Account.book { a with hands } (.releaseInstance id) r = a := fun he => by simp only [Account.book, he]
    rw [show a.book (.releaseInstance id) (g.settled.perform (.releaseInstance id)).2 = a from hbook (List.erase_of_not_mem hid)]
    rcases hi : g.instances[id]? with _ | i
    · have hstep : g.step (.releaseInstance id) = g.settled := releaseWithin_none (g := g.settled) hi
      rw [hstep]
      exact h.moves (κ := .releaseInstance id) (Move.restate (restated_aside g {})).moves { h.orderly.authored with }
    · have hlent := hmatched (h.lend (h.orderly.tidy.kept.instanceId id i hi)) fun id' he => by
        cases he
        exact List.mem_cons_self
      rwa [hbook (List.erase_cons_head ..)] at hlent

section New

variable (registry : Registry) (config : Config)

theorem shelved_new : Shelved {} (new registry config) := by
  refine ⟨fun n port x k c hn => ?_, fun c m l hc => ?_⟩
  · obtain ⟨w, hw, -⟩ := hn
    rw [wiring?_new] at hw
    cases hw
  · have hnone : (new registry config).store.channel? c = none := Std.ExtTreeMap.getElem?_empty
    rw [Store.wire?, hnone] at hc
    cases hc

theorem sustained_new : Sustained {} (new registry config) :=
  ⟨orderly_new registry config, ⟨0, balanced_new registry config⟩, shelved_new registry config, fun _ =>
    (stored_new registry config False).of_call nofun⟩

end New

theorem Sustained.after (h : Sustained a g) (calls : List Call) : Sustained (a.after g calls) (g.after calls) := by
  induction calls generalizing a g with
  | nil => exact h
  | cons c calls ih => exact ih (h.step c)

/-- Without pulls without a request no outlet is ever pinned. -/
theorem unpinned_after (h : Sustained a g) (hu : g.Unpinned) {calls : List Call} (hκ : ∀ c ∈ calls, ∀ n names, c ≠ .pullNode n names) :
    (g.after calls).Unpinned := by
  induction calls generalizing a g with
  | nil => exact hu
  | cons c calls ih =>
    refine ih (h.step c) ?_ fun c' hc' => hκ c' (List.mem_cons_of_mem c hc')
    have hm := moves_step (κ := c) h.orderly.authored (h.orderly.posted.homed rfl) { a with hands := c.released.toList } fun id he => by
      subst he
      exact List.mem_singleton_self id
    exact hm.keeps (I := fun _ g => g.Unpinned) (fun _ _ _ _ m hg => unpinned_move m (hκ c List.mem_cons_self) hg) hu

/-! ## When everyone has left -/

/-- Nothing that was derived is left, and the entries are those that were made. -/
structure Drained (made : List EntryId) (g : Graph) : Prop where
  instances : ∀ id : InstanceId, g.instances[id]? = none
  processes : ∀ id : ProcessId, g.processes[id]? = none
  outlets : ∀ id : OutletId, g.outlets[id]? = none
  channels : ∀ c : ChannelId, g.store.channel? c = none
  watchers : ∀ e : EntryId, g.store.watchers e = []
  entries : ∀ e : EntryId, (g.store.entryAt? e).isSome ↔ e ∈ made

/-- Where nobody asks and nothing is pinned there are no outlets. -/
theorem Posted.no_outlets (h : Posted τ g) (ha : τ.asked = []) (hb : τ.bare = none) (hu : g.Unpinned) (id : OutletId) :
    g.outlets[id]? = none := by
  by_contra hne
  obtain ⟨o, ho⟩ := Option.ne_none_iff_exists'.1 hne
  have hempty : o.requests = ∅ := Std.ExtTreeSet.eq_empty_iff_forall_not_mem.2 fun r hr => by
    obtain ⟨q, hq, rfl⟩ := h.known id o r ho hr
    have hasked := h.asked r q o hq ho
    rw [ha] at hasked
    cases hasked
  have hbare := h.bare id o ho (Std.ExtTreeSet.isEmpty_iff.2 hempty) (hu id o ho)
  rw [hb] at hbare
  cases hbare

/-- Where no outlet holds an instance and nobody has one in hand there are none: an instance that nothing is above would be used by nobody. -/
theorem Balanced.no_instances {owed : Multiset InstanceId} (h : Balanced owed τ g) (hh : τ.hands = 0) (ho : g.held = []) (id : InstanceId) :
    g.instances[id]? = none := by
  by_contra hne
  obtain ⟨rank, hrank⟩ := h.ranked
  have hlive : ∃ r id i, g.instances[id]? = some i ∧ rank id = r := by
    obtain ⟨i, hi⟩ := Option.ne_none_iff_exists'.1 hne
    exact ⟨_, id, i, hi, rfl⟩
  -- every live instance is used by a live one of higher rank, but the ranks of live instances are bounded
  have hup : ∀ (id : InstanceId) i, g.instances[id]? = some i → ∃ (j : InstanceId) (k : Instance), g.instances[j]? = some k ∧ rank id < rank j := by
    intro id i hi
    obtain ⟨hpos, huses⟩ := h.uses id i hi
    rw [hh, ho, Multiset.count_zero, List.count_nil] at huses
    obtain ⟨j, k, hk, hcount⟩ := Table.tally_pos.1 (show 0 < g.useCount id by omega)
    exact ⟨j, k, hk, hrank j k hk id (List.count_pos_iff.1 hcount)⟩
  have hbound : ∀ (id : InstanceId) i, g.instances[id]? = some i → rank id ≤ (g.instances.keys.map rank).sum := fun id i hi =>
    List.single_le_sum (fun _ _ => Nat.zero_le _) _ (List.mem_map_of_mem (Table.mem_keys.2 ⟨i, hi⟩))
  have hclimb : ∀ r, ∃ (id : InstanceId) (i : Instance), g.instances[id]? = some i ∧ r ≤ rank id := by
    intro r
    induction r with
    | zero =>
      obtain ⟨_, id, i, hi, -⟩ := hlive
      exact ⟨id, i, hi, Nat.zero_le _⟩
    | succ r ih =>
      obtain ⟨id, i, hi, hle⟩ := ih
      obtain ⟨j, k, hk, hlt⟩ := hup id i hi
      exact ⟨j, k, hk, by omega⟩
  obtain ⟨id, i, hi, hle⟩ := hclimb ((g.instances.keys.map rank).sum + 1)
  have := hbound id i hi
  omega

/-- Where there are no instances there are no channels: a cell is used by instances, and every channel is in a cell. -/
theorem Shelved.no_channels (h : Shelved τ g) (hd : Tidy τ g) (hj : τ.jobs = []) (ht : τ.tear = none)
    (hi : ∀ id : InstanceId, g.instances[id]? = none) (c : ChannelId) : g.store.channel? c = none := by
  by_contra hne
  obtain ⟨ch, hch⟩ := Option.ne_none_iff_exists'.1 hne
  have hwire : g.store.wire? c = some (ch.owner, ch.slots) := by
    rw [Store.wire?, hch]
    rfl
  obtain ⟨n, port, x, k, cell, hm, hcell, -⟩ := h.owned c _ _ hwire
  by_cases hs : g.InSync n
  · obtain ⟨hle, hzero⟩ := h.uses n port x k cell hs hcell
    have hnone : g.sharers n port x k = 0 := Table.tally_eq_zero.2 fun id i hid => by
      rw [hi] at hid
      cases hid
    obtain ⟨J, hJ, -⟩ := hzero (by omega)
    rw [hj] at hJ
    cases hJ
  · have hun : g.Unsynced n := fun w hw => by
      by_contra ho
      exact hs ⟨w, hw, Bool.eq_false_iff.2 ho⟩
    rw [hd.no_cells hun (fun t ht' => by rw [ht] at ht'; cases ht') port x k] at hcell
    cases hcell

/-- Nothing leaks: after any calls but pulls without a request, when every request was released or has gone with its node and every
acquisition was given back, nothing that was derived is left, and of the entries those that were made from outside. -/
theorem nothing_leaks (registry : Registry) (config : Config) (calls : List Call) (hκ : ∀ c ∈ calls, ∀ n names, c ≠ .pullNode n names)
    (hhands : (({} : Account).after (new registry config) calls).hands = [])
    (hasked : (({} : Account).after (new registry config) calls).asked = []) :
    Drained (({} : Account).after (new registry config) calls).made ((new registry config).after calls) := by
  have hnew := sustained_new registry config
  have hu : ((new registry config).after calls).Unpinned :=
    unpinned_after hnew (fun id o ho => absurd (ho.symm.trans Std.ExtTreeMap.getElem?_empty) (Option.some_ne_none o)) hκ
  have h := hnew.after calls
  generalize (new registry config).after calls = g at h hu ⊢
  generalize ({} : Account).after (new registry config) calls = a at h hhands hasked ⊢
  obtain ⟨owed, hb⟩ := h.balanced
  have hs := h.stored .createLeaf
  have hout := h.orderly.posted.no_outlets hasked rfl hu
  have hheld : g.held = [] := List.filterMap_eq_nil_iff.2 fun o ho => by
    obtain ⟨id, hid⟩ := Table.mem_values.1 ho
    rw [hout] at hid
    cases hid
  have hinst := hb.no_instances (by rw [Account.work, hhands]; rfl) hheld
  have hproc : ∀ id : ProcessId, g.processes[id]? = none := fun id => by
    by_contra hne
    obtain ⟨p, hp⟩ := Option.ne_none_iff_exists'.1 hne
    obtain ⟨hpos, hruns⟩ := hb.runs id p hp
    have hnone : g.runCount id = 0 := Table.tally_eq_zero.2 fun j i hj => by
      rw [hinst] at hj
      cases hj
    rw [hnone] at hruns
    exact absurd hpos (by rw [hruns]; exact Nat.lt_irrefl 0)
  have hchan := h.shelved.no_channels h.orderly.tidy rfl rfl hinst
  refine ⟨hinst, hproc, hout, hchan, hs.covered.watchers_eq_nil hchan, fun e => ⟨fun he => ?_, fun he => (hs.made e he).1⟩⟩
  rcases hs.known e he with hm | ⟨p, q, hq, -⟩
  · exact hm
  · rw [hproc] at hq
    cases hq

/-- A leaf with an entry feeds a node that computes, which is the child of another; that one is acquired, asked for and pulled. -/
def lendingCalls : List Call :=
  [.createPayload .float (.floats [1]), .createLeaf, .setName 0 "x", .setData 0 (some 0), .createData false, .setCompute 1 "y = keep(x)",
    .appendChild 1 0, .createData false, .appendChild 2 1, .acquireInstance 2 .empty, .createRequest 2 [], .pull 5]

/-- What was lent is given back. -/
def returningCalls : List Call := [.releaseInstance 1, .releaseRequest 5]

/-- While it is lent there is something of every kind, two entries with watchers among them; when it is returned, only the entry that was
made from outside is left. -/
theorem nothing_leaks_lending :
    ((new ⟨(∅ : NameMap Operator).insert "keep" keepOperator⟩ {}).after lendingCalls).instances.keys = [1, 2] ∧
    ((new ⟨(∅ : NameMap Operator).insert "keep" keepOperator⟩ {}).after lendingCalls).processes.keys = [3] ∧
    ((new ⟨(∅ : NameMap Operator).insert "keep" keepOperator⟩ {}).after lendingCalls).outlets.keys = [4] ∧
    ((new ⟨(∅ : NameMap Operator).insert "keep" keepOperator⟩ {}).after lendingCalls).store.watchers 0 = [0] ∧
    ((new ⟨(∅ : NameMap Operator).insert "keep" keepOperator⟩ {}).after lendingCalls).store.watchers 1 = [1] ∧
    Drained [0] ((new ⟨(∅ : NameMap Operator).insert "keep" keepOperator⟩ {}).after (lendingCalls ++ returningCalls)) := by
  have hmade : (({} : Account).after (new ⟨(∅ : NameMap Operator).insert "keep" keepOperator⟩ {}) (lendingCalls ++ returningCalls)).made = [0] := by
    decide +kernel
  have hκ : ∀ c ∈ lendingCalls ++ returningCalls, ∀ n names, c ≠ .pullNode n names := by
    simp [lendingCalls, returningCalls]
  refine ⟨by decide +kernel, by decide +kernel, by decide +kernel, by decide +kernel, by decide +kernel, ?_⟩
  exact hmade ▸ nothing_leaks _ _ _ hκ (by decide +kernel) (by decide +kernel)

end Graph

end Dataflow
