import Dataflow.Proofs.Anchored
import Dataflow.Proofs.Attended
import Dataflow.Proofs.Cache
import Dataflow.Proofs.Drained
import Dataflow.Proofs.Events

/-!
# What a change of structure invalidates

A structural call edits one node and tells it and everything above it. These nodes are reset, and the outlets there have to rebuild; what
else the resets release below them belongs to instances, and changes neither the sync nor the tables of a node.
-/

namespace Dataflow

/-- The node that a structural call edits, where telling starts. -/
def Call.site : Call → Option NodeId
  | .appendChild n _ | .insertBefore n _ _ | .removeChild n _ | .clearChildren n | .setSource n _ | .setProto n _ | .setFilter n _
  | .setCompute n _ | .setName n _ | .setKey n _ | .setParam n _ | .setData n _ | .touch n => some n
  | _ => none

theorem Outlet.stale_stale (o : Outlet) : o.stale.stale = o.stale := rfl

namespace Graph

variable {g g' : Graph} {n m : NodeId} {c : Call}

/-- A structural call that is not refused edits its node, which is told of. -/
theorem exists_touched (ha : g.Authored) (hc : c.site = some n) (hok : (g.perform c).2 = .ok .done) :
    ∃ g₁, Touched c g g₁ n ∧ g.journal.Silent g₁.journal ∧ (g.perform c).1 = g₁.structureChanged n := by
  have key : ∃ o, Amends c g n o ∧ g.perform c = done o := by
    cases c <;> cases hc
    case appendChild child => exact ⟨_, amends_appendChild ha, rfl⟩
    case insertBefore child before => exact ⟨_, amends_insertBefore ha before, rfl⟩
    case removeChild child => exact ⟨_, amends_removeChild ha, rfl⟩
    case clearChildren => exact ⟨_, amends_clearChildren ha, rfl⟩
    case setSource source => exact ⟨_, amends_setSource ha source, rfl⟩
    case setProto proto => exact ⟨_, amends_setProto ha proto, rfl⟩
    case setFilter text => exact ⟨_, amends_setFilter ha text, rfl⟩
    case setCompute text => exact ⟨_, amends_setCompute ha text, rfl⟩
    case setName name => exact ⟨_, amends_updateLeaf ha (.setName n name), rfl⟩
    case setKey k => exact ⟨_, amends_updateLeaf ha (.setKey n k), rfl⟩
    case setParam param => exact ⟨_, amends_updateLeaf ha (.setParam n param), rfl⟩
    case setData entry => exact ⟨_, amends_updateLeaf ha (.setData n entry), rfl⟩
    case touch => exact ⟨(g.structureChanged n, .ok ()), .made (touched_self ha n) (.refl _), rfl⟩
  obtain ⟨o, ho, hp⟩ := key
  rw [hp] at hok ⊢
  cases ho with
  | refused j _ e => cases hok
  | made ht hs => exact ⟨_, ht, hs, rfl⟩

/-! ## Resets are silent -/

theorem journal_markUnused (g : Graph) (n : NodeId) (s : Substitution) (port : Port) : (g.markUnused n s port).journal = g.journal := by
  rw [markUnused]
  split <;> rfl

theorem journal_clearPort (g : Graph) (n : NodeId) (port : Port) : (g.clearPort n port).journal = g.journal := by
  rw [clearPort]
  split <;> rfl

theorem journal_destroyProcess (g : Graph) (id : ProcessId) : (g.destroyProcess id).journal = g.journal := by
  rw [destroyProcess]
  split <;> rfl

theorem journal_giveBack (g : Graph) (p : Option ProcessId) : (g.giveBack p).journal = g.journal := by
  rcases p with _ | id
  · rfl
  · rw [giveBack, releaseProcess]
    split
    · rfl
    · split
      · exact journal_destroyProcess g id
      · rfl

theorem journal_dismantle (g : Graph) (id : InstanceId) (i : Instance) : (g.dismantle id i).journal = g.journal := by
  change ([Port.output, .extended, .input].foldl (fun (g : Graph) port => g.markUnused i.owner i.substitution port)
    { g with instances := g.instances.erase id }).journal = _
  simp only [List.foldl_cons, List.foldl_nil, journal_markUnused]

theorem journal_hush (g : Graph) (id : OutletId) : (g.hush id).journal = g.journal := by
  change (g.unsubscribe id).journal = _
  rw [unsubscribe]
  split <;> rfl

/-- What keeps the journal at every step keeps it. -/
theorem journal_foldl {α : Type} {f : Graph → α → Graph} (hf : ∀ (g : Graph) a, (f g a).journal = g.journal) :
    ∀ (l : List α) (g : Graph), (l.foldl f g).journal = g.journal
  | [], _ => rfl
  | a :: l, g => (journal_foldl hf l _).trans (hf g a)

theorem silent_foldl {α : Type} {f : Graph → α → Graph} (hf : ∀ (g : Graph) a, g.journal.Silent (f g a).journal) :
    ∀ (l : List α) (g : Graph), g.journal.Silent (l.foldl f g).journal
  | [], g => .refl g.journal
  | a :: l, g => (hf g a).trans (silent_foldl hf l _)

/-- A node remembers an instance no more than it did. -/
theorem remembers_of_forgets (h : g.Derived Wiring.Forgets g') {k : String} {id : InstanceId} (hr : g'.remembers n k id = true) :
    g.remembers n k id = true := by
  rw [remembers, Option.any_eq_true] at hr ⊢
  obtain ⟨w', hw', hk⟩ := hr
  obtain ⟨w, hf, hw⟩ := h.rewired.exists_wiring_of (fun _ => Wiring.chains_forgets.refl) hw'
  exact ⟨w, hw, decide_eq_true (hf k id (of_decide_eq_true hk))⟩

theorem not_remembers_dismantle (g : Graph) (id : InstanceId) (i : Instance) : (g.dismantle id i).remembers i.owner i.key id ≠ true := by
  intro hr
  rw [remembers, Option.any_eq_true] at hr
  obtain ⟨w', hw', hk⟩ := hr
  rw [dismantle, wiring?_modifyWiring, if_pos rfl] at hw'
  obtain ⟨w, -, rfl⟩ := Option.map_eq_some_iff.1 hw'
  have hk := of_decide_eq_true hk
  split at hk
  · rw [Table.get_erase, if_pos rfl] at hk
    cases hk
  · contradiction

/-- When an instance goes, the check that it is not remembered holds. -/
theorem silent_releaseWithin : ∀ (k : Nat) (g : Graph) (id : InstanceId), g.journal.Silent (releaseWithin k g id).journal := by
  intro k
  induction k with
  | zero => exact fun g _ => .refl g.journal
  | succ k ih =>
    intro g id
    rcases hi : g.instances[id]? with _ | i
    · rw [releaseWithin_none hi]
      exact .refl _
    · by_cases hu : 1 < i.uses
      · rw [releaseWithin_used hi hu]
        exact .refl _
      · rw [releaseWithin_last hi hu]
        have hforgets : (g.dismantle id i).Derived Wiring.Forgets ((usedBy i).foldl (releaseWithin k) ((g.dismantle id i).giveBack i.process)) :=
          (derives_giveBack _ _).forgets.trans Wiring.chains_forgets (.foldl Wiring.chains_forgets (derived_releaseWithin k) _ _)
        have hheld : (!((usedBy i).foldl (releaseWithin k) ((g.dismantle id i).giveBack i.process)).remembers i.owner i.key id) = true := by
          rw [Bool.not_eq_true', ← Bool.not_eq_true]
          exact fun hr => not_remembers_dismantle g id i (remembers_of_forgets hforgets hr)
        have hsilent := silent_foldl ih (usedBy i) ((g.dismantle id i).giveBack i.process)
        rw [journal_giveBack, journal_dismantle] at hsilent
        exact hsilent.trans (Journal.silent_check _ _ hheld _)

theorem silent_resetWiring (g : Graph) (n : NodeId) : g.journal.Silent (g.resetWiring n).journal := by
  rcases hw : g.wiring? n with _ | w
  · rw [resetWiring_none hw]
    exact .refl _
  · rw [resetWiring_eq hw, journal_foldl fun g port => journal_clearPort g n port]
    have hdiscard : ∀ (g : Graph) id, g.journal.Silent (g.discardInstance id).journal := by
      intro g id
      rw [discardInstance]
      split
      · exact .refl _
      · rename_i i _
        exact silent_foldl (fun g j => silent_releaseWithin _ g j) (usedBy i) { g with instances := g.instances.erase id }
    have hdestroy := journal_foldl journal_destroyProcess w.processes.values (g.modifyWiring n Wiring.unwired)
    have hsilent := silent_foldl hdiscard w.instances.values (w.processes.values.foldl destroyProcess (g.modifyWiring n Wiring.unwired))
    rw [hdestroy] at hsilent
    exact hsilent

/-! ## Telling some nodes -/

/-- A reset of a node leaves the sync and the tables of the others. -/
theorem frame?_resetWiring (hm : m ≠ n) : (g.resetWiring n).frame? m = g.frame? m := by
  have hclear : ∀ (l : List Port) (g : Graph), (l.foldl (fun g port => g.clearPort n port) g).frame? m = g.frame? m := by
    intro l
    induction l with
    | nil => exact fun g => rfl
    | cons port l ih =>
      intro g
      refine (ih _).trans ?_
      change (g.clearPort n port).frame? m = _
      rcases hw : g.wiring? n with _ | w
      · simp only [clearPort, hw]
      · rw [clearPort_eq hw, frame?, wiring?_modifyWiring, if_neg hm]
        rfl
  rcases hw : g.wiring? n with _ | w
  · rw [resetWiring_none hw]
  · have hdrops := (Drops.foldl drops_destroyProcess w.processes.values (g.modifyWiring n Wiring.unwired)).trans
      (Drops.foldl drops_discardInstance w.instances.values _)
    rw [resetWiring_eq hw, hclear, (SameFrames.of_drops hdrops).frame, frame?, wiring?_modifyWiring, if_neg hm]
    rfl

/-- The graph in which some nodes were reset, and their outlets have to rebuild. -/
def tellAll (g : Graph) (ns : List NodeId) : Graph := ns.foldl (fun g n => (g.resetWiring n).staleStructure n) g

/-- Some nodes were told: they are out of sync and their outlets have to rebuild; the others have the sync and the tables that they had,
and their outlets are as they were. -/
structure ToldAll (ns : List NodeId) (g g' : Graph) : Prop where
  silent : g.journal.Silent g'.journal
  requests : g'.requests = g.requests
  outletsOf : ∀ m, g'.outletsOf m = g.outletsOf m
  unsynced : ∀ m ∈ ns, g'.Unsynced m
  frames : ∀ m, m ∉ ns → g'.frame? m = g.frame? m
  outlets : ∀ id : OutletId, g'.outlets[id]? = if id ∈ ns.flatMap g.outletsOf then (g.outlets[id]?).map Outlet.stale else g.outlets[id]?

/-- One node is told. -/
theorem toldAll_single (g : Graph) (n : NodeId) : ToldAll [n] g ((g.resetWiring n).staleStructure n) := by
  have hcl := clears_resetWiring g n
  have hnodes := (sameNodes_staleStructure (g.resetWiring n) n).nodes
  have hdata : ∀ m, ((g.resetWiring n).staleStructure n).data? m = (g.resetWiring n).data? m := fun m => by
    rw [data?, node?, hnodes]
    rfl
  have hof : ∀ m, (g.resetWiring n).outletsOf m = g.outletsOf m := fun m => by
    have := congrArg (Option.map Std.ExtTreeMap.values) (hcl.rewired.outletsOf m)
    rw [Option.map_map, Option.map_map] at this
    exact congrArg (·.getD []) this
  have hjournal : ((g.resetWiring n).staleStructure n).journal = (g.resetWiring n).journal := by
    rw [staleStructure_eq]
    exact journal_foldl journal_hush _ _
  have hrequests : ((g.resetWiring n).staleStructure n).requests = (g.resetWiring n).requests := by
    have key : ∀ (l : List OutletId) (g : Graph), (l.foldl hush g).requests = g.requests := by
      intro l
      induction l with
      | nil => exact fun g => rfl
      | cons id l ih =>
        refine fun g => (ih _).trans ?_
        change (g.unsubscribe id).requests = _
        rw [unsubscribe]
        split <;> rfl
    rw [staleStructure_eq]
    exact key _ _
  refine ⟨hjournal ▸ silent_resetWiring g n, hrequests.trans hcl.rest.1, fun m => ?_, fun m hm => ?_, fun m hm => ?_, fun id => ?_⟩
  · rw [← hof, Graph.outletsOf, hdata, Graph.outletsOf]
  · obtain rfl := List.mem_singleton.1 hm
    exact (unsynced_resetWiring g m).of_nodes_eq hnodes
  · rw [frame?, wiring?, hdata, ← wiring?, ← frame?, frame?_resetWiring fun he => hm (List.mem_singleton.2 he)]
  · rw [outlets_staleStructure, hof, hcl.outlets, List.flatMap_singleton]

theorem ToldAll.trans {ns ns' : List NodeId} {g'' : Graph} (h : ToldAll ns g g') (h' : ToldAll ns' g' g'') : ToldAll (ns ++ ns') g g'' := by
  refine ⟨h.silent.trans h'.silent, h'.requests.trans h.requests, fun m => (h'.outletsOf m).trans (h.outletsOf m), fun m hm => ?_, fun m hm => ?_,
    fun id => ?_⟩
  · by_cases hm' : m ∈ ns'
    · exact h'.unsynced m hm'
    · have hm := (List.mem_append.1 hm).resolve_right hm'
      rw [unsynced_iff, h'.frames m hm', ← unsynced_iff]
      exact h.unsynced m hm
  · rw [List.mem_append, not_or] at hm
    exact (h'.frames m hm.2).trans (h.frames m hm.1)
  · rw [h'.outlets, h.outlets, funext h.outletsOf, List.flatMap_append]
    by_cases hid : id ∈ ns.flatMap g.outletsOf <;> by_cases hid' : id ∈ ns'.flatMap g.outletsOf <;>
      simp only [hid, hid', List.mem_append, or_self, or_true, true_or, if_true, if_false]
    rw [Option.map_map]
    exact congrArg (Option.map · _) (funext Outlet.stale_stale)

theorem toldAll_tellAll : ∀ (ns : List NodeId) (g : Graph), ToldAll ns g (g.tellAll ns)
  | [], _ => ⟨.refl _, rfl, fun _ => rfl, fun _ hm => absurd hm List.not_mem_nil, fun _ _ => rfl, fun _ => (if_neg List.not_mem_nil).symm⟩
  | n :: ns, g => (toldAll_single g n).trans (toldAll_tellAll ns _)

/-! ## The change -/

/-- A change of structure at a node invalidated it and everything above it, and nothing else: these nodes are out of sync and nothing is
derived from them, and the others have the sync and the tables that they had; the outlets there have to rebuild, hold nothing and listen to
nothing, their requests were told, and the other outlets are as they were. -/
structure Invalidated (g g' : Graph) (n : NodeId) : Prop where
  data : ∀ m, (g'.data? m).isSome = (g.data? m).isSome
  reset : ∀ m w, g'.Below m n → g'.wiring? m = some w → w.outOfSync = true ∧ g'.Uncached m w
  freed : ∀ m port o, g'.Below m n → g'.mapId m port = some o →
    ∀ (c : ChannelId) (ch : Channel), g'.store.channel? c = some ch → ch.owner ≠ o
  spared : ∀ m, ¬ g'.Below m n → g'.frame? m = g.frame? m
  stale : ∀ (id : OutletId) (o : Outlet), g.outlets[id]? = some o → g'.Below o.owner n → g'.outlets[id]? = some o.stale
  unsubscribed : ∀ (id : OutletId) (o : Outlet), g.outlets[id]? = some o → g'.Below o.owner n → ∀ c, .outlet id ∉ g'.store.listenersOf c
  kept : ∀ (id : OutletId) (o : Outlet), g.outlets[id]? = some o → ¬ g'.Below o.owner n → g'.outlets[id]? = some o
  opened : ∀ id : OutletId, g.outlets[id]? = none → g'.outlets[id]? = none
  requests : g'.requests = g.requests
  reported : Reported g .structure (fun id => ∃ o : Outlet, g.outlets[id]? = some o ∧ g'.Below o.owner n) g'.journal.events

/-- In a graph that calls lead to, no channel is owned by a map of a node out of sync, and no outlet is listed by a channel that it does
not publish. -/
theorem Reachable.cleared (h : g.Reachable) :
    (∀ m port o w, g.wiring? m = some w → w.outOfSync = true → g.mapId m port = some o →
      ∀ (c : ChannelId) (ch : Channel), g.store.channel? c = some ch → ch.owner ≠ o) ∧
    ∀ (id : OutletId) (o : Outlet) c, g.outlets[id]? = some o → .outlet id ∈ g.store.listenersOf c → c ∈ o.channels.values := by
  obtain ⟨a, ha, hsh, han, hheard⟩ := h.keeps (I := fun τ g => Shelved τ g ∧ g.Anchored ∧ Heard False g)
    (fun registry config => ⟨shelved_new registry config, anchored_new registry config, heard_new registry config False⟩)
    (fun _ _ _ ⟨h₁, h₂, h₃⟩ => ⟨h₁.of_nodes rfl (fun _ => rfl) (same_jobs rfl) fun _ => rfl, h₂, h₃⟩)
    fun κ τ g τ' g' m hd hp ⟨h₁, h₂, h₃⟩ => ⟨shelved_move m hd h₁, anchored_move m hd h₂, heard_move (κ := κ) m hd hp nofun h₃⟩
  refine ⟨fun m port o w hw hs hm c ch hc ho => ?_, fun id o c ho hl => ?_⟩
  · -- the channel is in a cell of a map that owns it, which is one of the node
    have hwire : g.store.wire? c = some (o, ch.slots) := by
      rw [Store.wire?, hc, ← ho]
      rfl
    obtain ⟨m', port', x, k, cell, hm', hcell, -⟩ := hsh.owned c o ch.slots hwire
    obtain ⟨rfl, rfl⟩ := han.injective m port m' port' o hm hm'
    rw [cell?_of_wiring? hw, ChannelMap.at?_of_empty (((structural_cache_sound h hw).2 hs).ports port)] at hcell
    cases hcell
  · obtain ⟨o', ho', hch⟩ := hheard.tuned c (.outlet id) hl
    rw [ho] at ho'
    exact Option.some.inj ho' ▸ hch

/-- Whatever calls led to a graph, a structural call that is not refused invalidates exactly the node that it edits and everything above
it. -/
theorem structural_change_exact (h : g.Reachable) (hc : c.site = some n) (hok : (g.settled.perform c).2 = .ok .done) :
    Invalidated g (g.step c) n := by
  obtain ⟨a, ha⟩ := h.orderly
  obtain ⟨g₁, ht, hsilent, hstep⟩ := exists_touched (g := g.settled) (ha.authored.journal {}) hc hok
  have hr' : (g.step c).Reachable := h.after [c]
  have htold := toldAll_tellAll (g₁.ancestors n) g₁
  have hrewired := rewired_structureChanged g₁ n
  rw [← hstep, ← step] at hrewired
  -- the edit changes neither outlets nor requests
  obtain ⟨hout, hreq⟩ : g₁.outlets = g.outlets ∧ g₁.requests = g.requests := by
    obtain ⟨_, _, rfl⟩ := ht.rest
    exact ⟨rfl, rfl⟩
  have hof : ∀ m, g₁.outletsOf m = g.outletsOf m := fun m => by
    have := congrArg (Option.map Std.ExtTreeMap.values) (ht.outlets m)
    rw [Option.map_map, Option.map_map] at this
    exact congrArg (·.getD []) this
  have hmem : ∀ m, m ∈ g₁.ancestors n ↔ (g.step c).Below m n := fun m => ht.authored.mem_ancestors.trans hrewired.below_iff.symm
  have hat : ∀ {id : OutletId} {o : Outlet}, g.outlets[id]? = some o →
      (id ∈ (g₁.ancestors n).flatMap g₁.outletsOf ↔ (g.step c).Below o.owner n) := by
    intro id o ho
    simp only [List.mem_flatMap, hof, ha.posted.mem_outletsOf rfl ho, hmem, exists_eq_right']
  have hconcerned : ∀ id, (∃ o : Outlet, g.outlets[id]? = some o ∧ (g.step c).Below o.owner n) ↔ id ∈ (g₁.ancestors n).flatMap g₁.outletsOf := by
    intro id
    constructor
    · rintro ⟨o, ho, hb⟩
      exact (hat ho).2 hb
    · intro hid
      obtain ⟨m, -, hm⟩ := List.mem_flatMap.1 hid
      rw [hof, mem_outletsOf] at hm
      obtain ⟨k, hk⟩ := hm
      rcases ha.posted.memo m k id hk with hcl | ⟨o, ho, -⟩
      · cases hcl
      · exact ⟨o, ho, (hat ho).1 hid⟩
  -- nobody was told before the callbacks are invoked
  have hfire := fire_of_sound (g₁.tellAll (g₁.ancestors n)) (((g₁.ancestors n).flatMap g₁.outletsOf).flatMap g₁.requestsAt) .structure
    (htold.silent.violation (hsilent.violation rfl))
  have hstep' : g.step c = { g₁.tellAll (g₁.ancestors n) with
      journal := { (g₁.tellAll (g₁.ancestors n)).journal with
        events := g.callbacks (inOrder (((g₁.ancestors n).flatMap g₁.outletsOf).flatMap g.requestsAt)) .structure } } := by
    have hevents : (g₁.tellAll (g₁.ancestors n)).journal.events = [] := htold.silent.events.trans hsilent.events
    have hcallbacks : (g₁.tellAll (g₁.ancestors n)).callbacks = g.callbacks := by
      funext rs change
      rw [callbacks, callbacks, htold.requests, hreq]
    have hat : g₁.requestsAt = g.requestsAt := by
      funext id
      rw [requestsAt, requestsAt, hout]
    have hdone := hstep.trans hfire
    rwa [hevents, List.nil_append, hcallbacks, hat] at hdone
  have houtlets : ∀ id : OutletId, (g.step c).outlets[id]? =
      if id ∈ (g₁.ancestors n).flatMap g₁.outletsOf then (g.outlets[id]?).map Outlet.stale else g.outlets[id]? := fun id => by
    rw [hstep', ← hout]
    exact htold.outlets id
  have hstale : ∀ (id : OutletId) (o : Outlet), g.outlets[id]? = some o → (g.step c).Below o.owner n → (g.step c).outlets[id]? = some o.stale :=
    fun id o ho hb => by
      rw [houtlets, if_pos ((hat ho).2 hb), ho]
      rfl
  have hunsynced : ∀ m w, (g.step c).Below m n → (g.step c).wiring? m = some w → w.outOfSync = true := fun m w hb hw => by
    refine htold.unsynced m ((hmem m).2 hb) w ?_
    rw [hstep'] at hw
    exact hw
  refine ⟨fun m => ?_, fun m w hb hw => ?_, fun m port o hb hm => ?_, fun m hb => ?_, hstale, fun id o ho hb ch hl => ?_, fun id o ho hb => ?_,
    fun id ho => ?_, ?_, ?_⟩
  · rw [hrewired.isSome_data?]
    by_cases hm : m = n
    · exact hm ▸ ht.isSome_data
    · rw [ht.data m hm]
      rfl
  · exact ⟨hunsynced m w hb hw, (structural_cache_sound hr' hw).2 (hunsynced m w hb hw)⟩
  · rcases hw : (g.step c).wiring? m with _ | w
    · rw [mapId, hw] at hm
      cases hm
    · exact hr'.cleared.1 m port o w hw (hunsynced m w hb hw) hm
  · have hframe := htold.frames m fun hm => hb ((hmem m).1 hm)
    rw [hstep']
    refine hframe.trans ?_
    rw [frame?, ht.wiring?]
    rfl
  · have hchannel := hr'.cleared.2 id o.stale ch (hstale id o ho hb) hl
    simp [Outlet.stale, Table.values_eq] at hchannel
  · rw [houtlets, if_neg fun hid => hb ((hat ho).1 hid), ho]
  · rw [houtlets, ho]
    exact ite_self _
  · rw [hstep']
    exact htold.requests.trans hreq
  · have hevents : (g.step c).journal.events = _ := congrArg (·.journal.events) hstep'
    rw [hevents]
    exact (ha.posted.reported ((g₁.ancestors n).flatMap g₁.outletsOf) .structure).congr hconcerned rfl

/-- A leaf that a node has below another node, and a leaf that it shares with a third node; the topmost nodes are both pulled. -/
def forkingCalls : List Call :=
  [.createPayload .float (.floats [1]), .createLeaf, .setName 0 "x", .setData 0 (some 0), .createLeaf, .setName 1 "y", .setData 1 (some 0),
    .createData false, .appendChild 2 0, .createData false, .appendChild 3 2, .appendChild 3 1, .createData false, .appendChild 4 1,
    .createRequest 3 [], .createRequest 4 [], .watchRequest 2 "left", .watchRequest 4 "right", .pull 2, .pull 4]

/-- The graph of the two pulled nodes. -/
def forkingGraph : Graph := (new Registry.empty {}).after forkingCalls

theorem reachable_forkingGraph : forkingGraph.Reachable := ⟨_, _, _, rfl⟩

/-- When the first leaf gets another name, its parents go out of sync, the instances made of them go, and the request there is told; the
third node stays in sync, with its instance, and its request hears nothing. -/
theorem structural_change_exact_forking :
    forkingGraph.Reachable ∧ (forkingGraph.settled.perform (.setName 0 "z")).2 = .ok .done ∧
      Invalidated forkingGraph (forkingGraph.step (.setName 0 "z")) 0 ∧ forkingGraph.instances.keys = [5, 6, 7] ∧
      (forkingGraph.step (.setName 0 "z")).instances.keys = [7] ∧
      [2, 3, 4].map (fun n => ((forkingGraph.step (.setName 0 "z")).wiring? n).map (·.outOfSync)) = [some true, some true, some false] ∧
      (forkingGraph.step (.setName 0 "z")).journal.events = [⟨2, .structure, "left"⟩] := by
  have hok : (forkingGraph.settled.perform (.setName 0 "z")).2 = .ok .done := by decide +kernel
  exact ⟨reachable_forkingGraph, hok, structural_change_exact reachable_forkingGraph (c := .setName 0 "z") rfl hok, by decide +kernel,
    by decide +kernel, by decide +kernel, by decide +kernel⟩

end Graph

end Dataflow
