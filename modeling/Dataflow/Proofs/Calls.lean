import Dataflow.Proofs.History
import Dataflow.Proofs.Making
import Dataflow.Proofs.Pulled
import Dataflow.Proofs.Restate

/-!
# Calls, move by move

Every call is a run of moves, whatever is asked and whatever the graph is like. An acquisition leaves a use in the hands of the caller, a
release takes one from them, and nothing else that is in hand comes or goes.
-/

namespace Dataflow

/-- What a caller holds: the uses of instances that it acquired and did not release, the requests that it created and that were not
released and did not go with their node, each with its node, and the entries that it made. -/
structure Account where
  hands : List InstanceId := []
  asked : List (RequestId × NodeId) := []
  made : List EntryId := []

namespace Account

/-- The account after a call and its answer. -/
def book (a : Account) : Call → Except Error Reply → Account
  | .createEntry _, .ok (.created e) => { a with made := e :: a.made }
  | .createPayload _ _, .ok (.created e) => { a with made := e :: a.made }
  | .acquireInstance _ _, .ok (.acquired (some id)) => { a with hands := id :: a.hands }
  | .releaseInstance id, _ => { a with hands := a.hands.erase id }
  | .createRequest n _, .ok (.created r) => { a with asked := (r, n) :: a.asked }
  | .releaseRequest r, _ => { a with asked := a.asked.filter (·.1 ≠ r) }
  | .remove n, .ok _ => { a with asked := a.asked.filter (·.2 ≠ n) }
  | _, _ => a

/-- Between calls only what the caller holds is in hand. -/
def work (a : Account) : Work := { hands := ↑a.hands, asked := a.asked, made := a.made }

theorem settled_work (a : Account) : a.work.Settled := ⟨rfl, rfl⟩

end Account

namespace Graph

variable {κ : Call} {τ : Work} {g g' : Graph} {n : NodeId}

/-! ## Outlets and requests -/

/-- The outlets that a node keeps are its own. -/
def Homed (g : Graph) : Prop := ∀ n d (k : String) (id : OutletId) (o : Outlet), g.data? n = some d → d.outlets[k]? = some id →
  g.outlets[id]? = some o → o.owner = n

/-- The outlet that is asked for is there, and if it is new it may be without requests. -/
theorem moves_outletFor (hb : τ.bare = none) (hc : τ.closing = none) (n : NodeId) (names : List String) :
    (∃ e, g.outletFor n names = (g, .error e)) ∨ ∃ g' id b o, g.outletFor n names = (g', .ok id) ∧ (∀ x ∈ b, x = id) ∧
      Moves κ τ g (τ.baring b) g' ∧ g'.outlets[id]? = some o ∧ (g.Homed → o.owner = n) ∧
      (g.Authored → g'.Authored) := by
  rw [outletFor]
  rcases hd : g.requireData n with e | d <;> dsimp only
  · exact .inl ⟨e, rfl⟩
  · have hd := data?_of_requireData hd
    rcases hk : (d.outlets[outletKey (sortNames names)]?).filter g.outlets.contains with _ | id <;> dsimp only
    · refine .inr ⟨_, _, some (g.lastId + 1), _, rfl, fun x hx => ?_, (Move.openOutlet hb hc hd fun id hid => ?_).moves,
        (get_outlets_openOutlet ..).trans (if_pos rfl), fun _ => rfl, fun ha => authored_openOutlet ha n _⟩
      · exact (Option.some.inj hx).symm
      · rw [hid, Option.filter_eq_none_iff] at hk
        have := hk id rfl
        rwa [Bool.not_eq_true, Std.ExtTreeMap.contains_eq_isSome_getElem?, Option.isSome_eq_false_iff,
          Option.isNone_iff_eq_none] at this
    · obtain ⟨hid, hlive⟩ := Option.filter_eq_some_iff.1 hk
      rw [Std.ExtTreeMap.contains_eq_isSome_getElem?] at hlive
      obtain ⟨o, ho⟩ := Option.isSome_iff_exists.1 hlive
      refine .inr ⟨g, id, none, o, rfl, (fun _ hx => by cases hx), ?_, ho, fun h => h n d _ id o hd hid ho, fun ha => ha⟩
      rw [show τ.baring none = τ by rw [← hb]; rfl]
      exact .refl τ g

/-- A request is created at the outlet of its node. -/
theorem moves_createRequest (hb : τ.bare = none) (hc : τ.closing = none) (hh : g.Homed) (n : NodeId) (names : List String) :
    (∃ e, g.createRequest n names = (g, .error e)) ∨ ∃ g' r, g.createRequest n names = (g', .ok r) ∧
      Moves κ τ g { τ with asked := (r, n) :: τ.asked } g' := by
  rw [createRequest_eq]
  rcases moves_outletFor (κ := κ) (g := g) hb hc n names with ⟨e, he⟩ | ⟨g₁, id, b, o, he, hid, hm, ho, hown, -⟩ <;>
    simp only [he]
  · exact .inl ⟨e, rfl⟩
  · have henroll := Move.enroll (κ := κ) (τ := τ.baring b) ho hid
    rw [hown hh] at henroll
    have hτ : { τ.baring b with bare := none, asked := (g₁.lastId + 1, n) :: (τ.baring b).asked } =
        { τ with asked := (g₁.lastId + 1, n) :: τ.asked } := by
      rw [← hb]
      rfl
    rw [hτ] at henroll
    exact .inr ⟨_, _, rfl, hm.tail henroll⟩

theorem outlets_unsubscribe (g : Graph) (id : OutletId) :
    (g.unsubscribe id).outlets[id]? = (g.outlets[id]?).map ({ · with channels := ∅ }) := by
  rw [unsubscribe]
  rcases ho : g.outlets[id]? with _ | o
  · exact ho
  · exact (get_outlets_modifyOutlet ..).trans (by rw [if_pos rfl, ho])

/-- An outlet gives back what it held. -/
theorem moves_releaseHeld (hj : τ.jobs = []) (ha : g.Authored) {id : OutletId} {o : Outlet} (ho : g.outlets[id]? = some o) :
    Moves κ τ g τ (g.releaseHeld id) ∧ (g.releaseHeld id).Authored ∧
      (g.releaseHeld id).outlets[id]? = some { o with held := none } := by
  rw [releaseHeld, ho, Option.bind_some]
  rcases hh : o.held with _ | j <;> dsimp only
  · rw [ho, ← hh]
    exact ⟨.refl τ g, ha, rfl⟩
  · have hd := derived_releaseInstance (g.modifyOutlet id ({ · with held := none })) j
    refine ⟨.head (.giveUp ho hh) (moves_releaseInstance j hj), hd.rewired.authored { ha with }, ?_⟩
    rw [hd.outlets, get_outlets_modifyOutlet, if_pos rfl, ho]
    rfl

/-- An outlet is rebuilt: it gives up what it held, and holds and listens to what is acquired for it. -/
theorem moves_rebuild (hτ : τ.Settled) (hj : τ.jobs = []) (ha : g.Authored) {id : OutletId} {o : Outlet} (ho : g.outlets[id]? = some o) :
    Moves κ τ g τ (g.rebuild id o) := by
  have hun : (g.unsubscribe id).Authored := (sameNodes_unsubscribe g id).rewired (P := fun _ _ _ => True) |>.authored ha
  obtain ⟨hrel, hauth, hout⟩ := moves_releaseHeld (κ := κ) hj hun ((outlets_unsubscribe g id).trans (by rw [ho]; rfl))
  have hacq := moves_acquireInstance (κ := κ) hτ hj hauth o.owner .empty fun x c hc => by
    rw [Substitution.get?_empty] at hc
    cases hc
  have hder : (((g.unsubscribe id).releaseHeld id).acquireInstance o.owner .empty).1.outlets = ((g.unsubscribe id).releaseHeld id).outlets :=
    (derived_acquireWithin ..).outlets
  rw [rebuild]
  generalize ((g.unsubscribe id).releaseHeld id).acquireInstance o.owner .empty = r at hacq hder ⊢
  obtain ⟨g₂, held⟩ := r
  dsimp only at hacq hder ⊢
  have ho₂ : g₂.outlets[id]? = some { o with channels := ∅, held := none } :=
    (congrArg (fun m : IdMap Outlet => m[id]?) hder).trans hout
  have hex : ∀ c ∈ (selectOutputs o.filter (g₂.finalChannels o.owner .empty)).values, ∃ x s, (x, c) ∈ g₂.finalChannels o.owner s := by
    intro c hc
    obtain ⟨x, hx⟩ := Table.mem_values.1 hc
    exact ⟨x, .empty, (List.mem_filter.1 (mem_of_get_tableOf hx)).1⟩
  refine (Move.unsubscribe id).moves.trans (hrel.trans (hacq.trans ?_))
  rcases held with _ | j
  · have : Move κ (τ.holdAll (none : Option InstanceId).toList) g₂ τ
        (g₂.attach id none (selectOutputs o.filter (g₂.finalChannels o.owner .empty))) := .attach ho₂ rfl rfl nofun hex
    rw [Option.toList_none, Work.holdAll_nil] at this
    exact this.moves
  · have hclaim : ∀ i ∈ some j, (i, o.owner) ∈ (j, o.owner) :: τ.claims := fun i hi => by
      cases hi
      exact List.mem_cons_self ..
    have : Move κ (({ τ with claims := (j, o.owner) :: τ.claims } : Work).holdAll (some j).toList) g₂ { τ with claims := (j, o.owner) :: τ.claims }
        (g₂.attach id (some j) (selectOutputs o.filter (g₂.finalChannels o.owner .empty))) := .attach ho₂ rfl rfl hclaim hex
    rw [Work.holdAll_toList] at this
    exact .head this (Move.disclaim (List.subset_cons_self (j, o.owner) τ.claims)).moves

/-- An outlet is brought up to date. -/
theorem moves_resolve (hτ : τ.Settled) (hj : τ.jobs = []) (ha : g.Authored) (id : OutletId) : Moves κ τ g τ (g.resolve id) := by
  rw [resolve]
  rcases ho : g.outlets[id]? with _ | o <;> dsimp only
  · exact .refl τ g
  · rcases o.status with _ | _ | _ <;> dsimp only
    · exact (moves_rebuild hτ hj ha ho).tail (.restate (restated_refresh ..))
    · exact (Move.restate (restated_refresh ..)).moves
    · exact .refl τ g

theorem moves_pull (hτ : τ.Settled) (hj : τ.jobs = []) (ha : g.Authored) (r : RequestId) : Moves κ τ g τ (g.pull r).1 := by
  rw [pull]
  split
  · exact .refl τ g
  · exact moves_resolve hτ hj ha _

theorem moves_pullNode (hτ : τ.Settled) (hj : τ.jobs = []) (hb : τ.bare = none) (hc : τ.closing = none) (ha : g.Authored) (n : NodeId)
    (names : List String) (hcall : ∃ n names, κ = .pullNode n names) : Moves κ τ g τ (g.pullNode n names).1 := by
  rw [pullNode]
  rcases moves_outletFor (κ := κ) (g := g) hb hc n names with ⟨e, he⟩ | ⟨g₁, id, b, o, he, hid, hm, -, -, hg₁⟩ <;> simp only [he]
  · exact .refl τ g
  · have hpin := hm.tail (.pin hcall hid)
    rw [show (τ.baring b).baring none = τ by rw [← hb]; rfl] at hpin
    have ha' : (g₁.modifyOutlet id ({ · with pinned := true })).Authored := { hg₁ ha with }
    exact hpin.trans (moves_resolve hτ hj ha' id)

/-- An outlet that nobody asks for is dropped. -/
theorem moves_dropOutlet (hj : τ.jobs = []) (hc : τ.closing = none) {id : OutletId} {o : Outlet} (ho : g.outlets[id]? = some o)
    (he : o.requests.isEmpty = true) (hp : o.pinned = false) : Moves κ (τ.baring (some id)) g (τ.baring none) (g.dropOutlet id o) := by
  have ho₁ : (g.unsubscribe id).outlets[id]? = some { o with channels := ∅ } := (outlets_unsubscribe g id).trans (by rw [ho]; rfl)
  have hclose := Move.close (κ := κ) (τ := τ.baring (some id)) rfl hc ho₁ he hp rfl
  have hforget := fun g' => Move.forget (κ := κ) (τ := { τ with bare := none, closing := some (o.owner, outletKey o.filter) })
    (g := g') rfl
  have hτ : ({ τ with bare := none, closing := none } : Work) = τ.baring none := by
    rw [← hc]
    rfl
  simp only [hτ] at hforget
  refine .head (.unsubscribe id) (.head hclose ?_)
  rw [dropOutlet]
  rcases o.held with _ | j <;> dsimp only
  · rw [Option.toList_none, Work.holdAll_nil]
    exact (hforget _).moves
  · rw [Work.holdAll_toList]
    exact (moves_releaseInstance (τ := { τ with bare := none, closing := some (o.owner, outletKey o.filter) }) j hj).tail (hforget _)

theorem moves_releaseRequest (hj : τ.jobs = []) (hb : τ.bare = none) (hc : τ.closing = none) (r : RequestId) :
    Moves κ τ g { τ with asked := τ.asked.filter (·.1 ≠ r) } (g.releaseRequest r) := by
  rcases releaseRequest_cases g r with ⟨heq, hr⟩ | ⟨q, hr, h⟩
  · rw [heq]
    exact (Move.unasked hr).moves
  · refine .head (Move.withdraw (κ := κ) hb hr) ?_
    have hτ : ({ τ with bare := some q.outlet, asked := τ.asked.filter (·.1 ≠ r) } : Work).baring none =
        { τ with asked := τ.asked.filter (·.1 ≠ r) } := by
      rw [← hb]
      rfl
    rw [← hτ]
    rcases h with ⟨heq, hkeep⟩ | ⟨o, ho, he, hp, heq⟩ <;> rw [heq]
    · exact (Move.keep rfl hkeep).moves
    · exact moves_dropOutlet (τ := { τ with bare := some q.outlet, asked := τ.asked.filter (·.1 ≠ r) }) hj hc ho he hp

/-! ## Taking a node away -/

/-- The outlets of a node hold nothing after they were told, and their requests stay. -/
theorem outlets_staleStructure (g : Graph) (n : NodeId) (id : OutletId) :
    (g.staleStructure n).outlets[id]? = if id ∈ g.outletsOf n then (g.outlets[id]?).map Outlet.stale else g.outlets[id]? := by
  rw [staleStructure_eq]
  have hstale : ∀ o : Outlet, o.stale.stale = o.stale := fun _ => rfl
  have key : ∀ (l : List OutletId) (g : Graph),
      (l.foldl hush g).outlets[id]? = if id ∈ l then (g.outlets[id]?).map Outlet.stale else g.outlets[id]? := by
    intro l
    induction l with
    | nil => exact fun g => (if_neg (List.not_mem_nil)).symm
    | cons a l ih =>
      intro g
      rw [List.foldl_cons, ih, outlets_hush]
      by_cases ha : id = a <;> by_cases hl : id ∈ l <;> simp only [ha, List.mem_cons, true_or, false_or, if_true, if_false]
      · subst ha
        rw [if_pos hl, Option.map_map]
        exact congrArg (Option.map · _) (funext hstale)
      · subst ha
        rw [if_neg hl]
  exact key (g.outletsOf n) g

theorem dropOutlets_eq (g : Graph) (n : NodeId) :
    { g.dropOutlets n with nodes := (g.dropOutlets n).nodes.erase n } = (g.staleStructure n).cutOff n := by
  have hids : (g.staleStructure n).outletsOf n = g.outletsOf n := by
    rw [outletsOf, data?, node?, (sameNodes_staleStructure g n).nodes]
    rfl
  have hreq : ∀ id, (g.staleStructure n).requestsAt id = g.requestsAt id := by
    intro id
    rw [requestsAt, outlets_staleStructure, requestsAt]
    split
    · rw [Option.map_map]
      rfl
    · rfl
  rw [dropOutlets, cutOff, hids]
  simp only [funext hreq]

/-- A node is taken away, with its outlets and their requests. -/
theorem moves_uproot (hτ : τ.Settled) (hj : τ.jobs = []) (hc : τ.closing = none) (hn : ∀ m, n ∉ g.references m) :
    Moves κ τ g { τ with asked := τ.asked.filter (·.2 ≠ n) } (g.uproot n) := by
  have hnoted := Noted.unlinkAll n (g.references n) g
  rw [uproot]
  generalize (g.references n).foldl (fun g child => g.unlink n child) g = g₁ at hnoted ⊢
  have hn₁ : ∀ m, n ∉ g₁.references m := fun m => by
    rw [references, hnoted.data]
    exact hn m
  have hn₂ : ∀ m, n ∉ (g₁.resetWiring n).references m := fun m => by
    rw [(derived_resetWiring g₁ n).rewired.references]
    exact hn₁ m
  have hreset := moves_resetWiring (κ := κ) (τ := τ) hj hτ.tear (.inr hn₁)
  have hun := unsynced_resetWiring g₁ n
  generalize g₁.resetWiring n = g₂ at hn₂ hreset hun ⊢
  have hn₃ : ∀ m, n ∉ (g₂.staleStructure n).references m := fun m => by
    rw [references, data?, node?, (sameNodes_staleStructure g₂ n).nodes]
    exact hn₂ m
  rw [dropOutlets_eq]
  refine .head (.reparent hnoted) (hreset.trans ((moves_staleStructure hτ.tear hc hun).tail (.uproot hτ hj hc hn₃
    (hun.of_nodes_eq (sameNodes_staleStructure ..).nodes) fun id hid o ho => ?_)))
  rw [outlets_staleStructure, if_pos] at ho
  · obtain ⟨o', -, rfl⟩ := Option.map_eq_some_iff.1 ho
    exact ⟨rfl, rfl⟩
  · rwa [outletsOf, data?, node?, (sameNodes_staleStructure g₂ n).nodes] at hid

/-! ## Calls -/

/-- A structural edit is a run of moves, and no account changes. -/
theorem Revised.moves (h : Revised κ g g') (a : Account) : Moves κ a.work g a.work g' := moves_revised a.settled_work rfl rfl h

theorem moves_remove (ha : g.Authored) (a : Account) (n : NodeId) :
    Moves (.remove n) a.work g (a.book (.remove n) (done (g.removeNode n)).2).work (g.removeNode n).1 := by
  have hrefs := fun hn => not_mem_references_detach (n := n) ha hn
  have hrev := (revised_detach (n := n) ha (.remove n)).moves a
  rw [removeNode, detachFromParents] at *
  rcases hn : g.node? n with _ | x
  · exact .refl _ g
  · simp only [hn] at hrev hrefs ⊢
    exact hrev.trans (moves_uproot a.settled_work rfl rfl (hrefs rfl))

theorem moves_acquire (ha : g.Authored) (a : Account) (n : NodeId) (s : Substitution) :
    Moves (.acquireInstance n s) a.work g (a.book (.acquireInstance n s) (.ok (.acquired (g.acquireInstance n s).2))).work
      (g.acquireInstance n s).1 := by
  have h := moves_acquireInstance a.settled_work rfl ha n s fun x c hc => .inl ⟨n, s, x, rfl, hc⟩
  generalize g.acquireInstance n s = r at h ⊢
  obtain ⟨g', _ | id⟩ := r
  · exact h
  · exact h.tail (.disclaim (List.nil_subset _))

/-- Nothing changes when a node is touched, and it and all above it are told. -/
theorem touched_self (ha : g.Authored) (n : NodeId) : Touched (.touch n) g g n := by
  refine ⟨⟨g.nodes, g.journal, rfl⟩, fun _ => rfl, rfl, rfl, fun _ _ => rfl, fun _ _ => rfl, ?_, fun d hd => ⟨d, hd, rfl, rfl, .inl rfl⟩,
    rfl, ha⟩
  rcases g.leaf? n with _ | l <;> rfl

/-- Every call is a run of moves, if what it releases was acquired. -/
theorem moves_perform (ha : g.Authored) (hh : g.Homed) (a : Account) (hcall : ∀ id, κ = .releaseInstance id → id ∈ a.hands) :
    Moves κ a.work g (a.book κ (g.perform κ).2).work (g.perform κ).1 := by
  have hs := a.settled_work
  have hdone : ∀ {g' : Graph} {r : Except Error Unit}, Moves κ a.work g a.work (done (g', r)).1 → Moves κ a.work g a.work g' :=
    fun h => h
  cases κ with
  | createLeaf => exact (Move.addLeaf rfl).moves
  | createData isProto => exact (Move.addData isProto rfl).moves
  | createEntry e => exact (Move.addEntry e).moves
  | createPayload type payload =>
    rcases createPayload_cases g type payload with ⟨e, heq⟩ | ⟨x, heq⟩ <;> simp only [perform, heq]
    · exact .refl _ g
    · exact (Move.addEntry x).moves
  | appendChild p c => exact (amends_appendChild ha).revised.moves a
  | insertBefore p c b => exact (amends_insertBefore ha b).revised.moves a
  | removeChild p c => exact (amends_removeChild ha).revised.moves a
  | clearChildren p => exact (amends_clearChildren ha).revised.moves a
  | detach n => exact (revised_detach ha _).moves a
  | remove n => exact moves_remove ha a n
  | setSource n s => exact (amends_setSource ha s).revised.moves a
  | setProto n p => exact (amends_setProto ha p).revised.moves a
  | setFilter n t => exact (amends_setFilter ha t).revised.moves a
  | setCompute n t => exact (amends_setCompute ha t).revised.moves a
  | setName n x => exact (amends_updateLeaf ha (.setName n x)).revised.moves a
  | setKey n k => exact (amends_updateLeaf ha (.setKey n k)).revised.moves a
  | setParam n b => exact (amends_updateLeaf ha (.setParam n b)).revised.moves a
  | setData n e => exact (amends_updateLeaf ha (.setData n e)).revised.moves a
  | setPayload e x => exact (Move.restate (restated_updateEntry g e fun _ _ => Entry.type_of_setPayload)).moves
  | setImage e x => exact (Move.restate (restated_updateEntry g e fun _ _ => Entry.type_of_mapTexture)).moves
  | setLoading e x => exact (Move.restate (restated_updateEntry g e fun _ _ => Entry.type_of_mapTexture)).moves
  | touch n => exact ((touched_self ha n).revised (.refl _)).moves a
  | synchronize n => exact (Move.sync n hs ha).moves
  | acquireInstance n s => exact moves_acquire ha a n s
  | releaseInstance id =>
    have h := moves_releaseInstance (κ := .releaseInstance id) (τ := { a.work with hands := ↑(a.hands.erase id) }) (g := g) id rfl
    have hhold : ({ a.work with hands := ↑(a.hands.erase id) } : Work).hold id = a.work := by
      rw [Work.hold, Multiset.cons_coe, Multiset.coe_eq_coe.2 (List.perm_cons_erase (hcall id rfl)).symm]
      rfl
    rw [hhold] at h
    exact h
  | process id => exact (Move.restate (restated_runAll ..)).moves
  | createRequest n names =>
    rcases moves_createRequest (κ := .createRequest n names) (τ := a.work) rfl rfl hh n names with ⟨e, he⟩ | ⟨g', r, he, hm⟩ <;>
      simp only [perform, he]
    · exact .refl _ g
    · exact hm
  | watchRequest r tag => exact (Move.restate (restated_watchRequest ..)).moves
  | pull r => exact moves_pull hs rfl ha r
  | pullNode n names => exact moves_pullNode hs rfl rfl rfl ha n names ⟨n, names, rfl⟩
  | releaseRequest r => exact moves_releaseRequest rfl rfl rfl r

/-! ## What calls author -/

/-- The nodes of two graphs have the same designs and parents. -/
structure SameTree (g g' : Graph) : Prop where
  node : ∀ n, (g'.node? n).isSome = (g.node? n).isSome
  design : ∀ n, g'.design? n = g.design? n
  parents : ∀ n, g'.parentsOf n = g.parentsOf n

namespace SameTree

theorem refl (g : Graph) : g.SameTree g := ⟨fun _ => rfl, fun _ => rfl, fun _ => rfl⟩

theorem trans {g'' : Graph} (h : g.SameTree g') (h' : g'.SameTree g'') : g.SameTree g'' :=
  ⟨fun n => (h'.node n).trans (h.node n), fun n => (h'.design n).trans (h.design n), fun n => (h'.parents n).trans (h.parents n)⟩

theorem authored (h : g.SameTree g') (ha : g.Authored) : g'.Authored := ha.congr h.node h.design h.parents

theorem of_rewired {P : NodeId → Wiring → Wiring → Prop} (h : Rewired P g g') : g.SameTree g' := ⟨h.isSome_node?, h.design?, h.parentsOf⟩

theorem of_nodes_eq (h : g'.nodes = g.nodes) : g.SameTree g' := of_rewired (P := fun _ _ _ => True) (.of_nodes_eq h)

theorem of_derived {P : Wiring → Wiring → Prop} (h : g.Derived P g') : g.SameTree g' := of_rewired h.rewired

theorem of_restated (h : g.Restated g') : g.SameTree g' := by
  obtain ⟨_, _, _, _, _, _, rfl⟩ := h.rest
  exact of_nodes_eq rfl

theorem of_modifyOutlets (g : Graph) (n : NodeId) (f : NameMap OutletId → NameMap OutletId) :
    g.SameTree (g.modifyData n fun d => { d with outlets := f d.outlets }) := by
  refine ⟨fun _ => isSome_node?_modifyData .., fun m => ?_, fun _ => parentsOf_modifyData ..⟩
  rw [design?, data?_modifyData, design?]
  split
  · rw [Option.map_map]
    rfl
  · rfl

end SameTree

theorem sameTree_unsubscribe (g : Graph) (id : OutletId) : g.SameTree (g.unsubscribe id) := .of_nodes_eq (sameNodes_unsubscribe g id).nodes

theorem sameTree_rebuild (g : Graph) (id : OutletId) (o : Outlet) : g.SameTree (g.rebuild id o) := by
  have hrel : (g.unsubscribe id).SameTree ((g.unsubscribe id).releaseHeld id) := by
    have hgive : (g.unsubscribe id).SameTree ((g.unsubscribe id).modifyOutlet id ({ · with held := none })) := .of_nodes_eq rfl
    rw [releaseHeld]
    split
    · exact .refl _
    · exact hgive.trans (.of_derived (derived_releaseInstance ..))
  have hacq : ((g.unsubscribe id).releaseHeld id).SameTree (((g.unsubscribe id).releaseHeld id).acquireInstance o.owner .empty).1 :=
    .of_derived (derived_acquireWithin ..)
  have hrest : (((g.unsubscribe id).releaseHeld id).acquireInstance o.owner .empty).1.SameTree (g.rebuild id o) := .of_nodes_eq rfl
  exact (((sameTree_unsubscribe g id).trans hrel).trans hacq).trans hrest

theorem sameTree_resolve (g : Graph) (id : OutletId) : g.SameTree (g.resolve id) := by
  rw [resolve]
  split
  · exact .refl g
  · split
    · exact .refl g
    · exact .of_restated (restated_refresh ..)
    · exact (sameTree_rebuild g id _).trans (.of_restated (restated_refresh ..))

theorem sameTree_outletFor (g : Graph) (n : NodeId) (names : List String) : g.SameTree (g.outletFor n names).1 := by
  rcases outletFor_cases g n names with ⟨e, h⟩ | ⟨d, -, ⟨id, -, h⟩ | ⟨-, h⟩⟩ <;> rw [h]
  · exact .refl g
  · exact .refl g
  · have hout : g.SameTree { g with lastId := g.lastId + 1, outlets := g.outlets.insert (g.lastId + 1) { owner := n, filter := sortNames names } } :=
      .of_nodes_eq rfl
    exact hout.trans (.of_modifyOutlets _ n (·.insert (outletKey (sortNames names)) (g.lastId + 1)))

theorem sameTree_releaseRequest (g : Graph) (r : RequestId) : g.SameTree (g.releaseRequest r) := by
  have hdrop : ∀ (g : Graph) id o, g.SameTree (g.dropOutlet id o) := fun g id o => by
    rw [dropOutlet]
    have herase : (g.unsubscribe id).SameTree { g.unsubscribe id with outlets := (g.unsubscribe id).outlets.erase id } := .of_nodes_eq rfl
    refine ((sameTree_unsubscribe g id).trans herase).trans (SameTree.trans ?_ (.of_modifyOutlets _ _ (·.erase _)))
    split
    · exact .of_derived (derived_releaseInstance ..)
    · exact .refl _
  rcases releaseRequest_cases g r with ⟨heq, -⟩ | ⟨q, -, ⟨heq, -⟩ | ⟨o, -, -, -, heq⟩⟩ <;> rw [heq]
  · exact .refl g
  · exact .of_nodes_eq rfl
  · have hwith : g.SameTree (g.withdraw r q.outlet) := .of_nodes_eq rfl
    exact hwith.trans (hdrop ..)

theorem sameTree_createEntry (g : Graph) (e : Entry) : g.SameTree (g.createEntry e).1 := .of_nodes_eq rfl

theorem sameTree_acquireInstance (g : Graph) (n : NodeId) (s : Substitution) : g.SameTree (g.acquireInstance n s).1 :=
  .of_derived (derived_acquireWithin ..)

/-- Calls author graphs. -/
theorem authored_perform (ha : g.Authored) (c : Call) : (g.perform c).1.Authored := by
  cases c with
  | createLeaf => exact authored_createLeaf ha
  | createData isProto => exact authored_createData ha isProto
  | createEntry e => exact (sameTree_createEntry g e).authored ha
  | createPayload type payload =>
    rcases createPayload_cases g type payload with ⟨e, heq⟩ | ⟨x, heq⟩ <;> simp only [perform, heq]
    · exact ha
    · exact (sameTree_createEntry g x).authored ha
  | appendChild p c => exact (amends_appendChild ha).revised.authored ha
  | insertBefore p c b => exact (amends_insertBefore ha b).revised.authored ha
  | removeChild p c => exact (amends_removeChild ha).revised.authored ha
  | clearChildren p => exact (amends_clearChildren ha).revised.authored ha
  | detach n => exact (revised_detach ha .createLeaf).authored ha
  | remove n => exact authored_removeNode ha
  | setSource n s => exact (amends_setSource ha s).revised.authored ha
  | setProto n p => exact (amends_setProto ha p).revised.authored ha
  | setFilter n t => exact (amends_setFilter ha t).revised.authored ha
  | setCompute n t => exact (amends_setCompute ha t).revised.authored ha
  | setName n x => exact (amends_updateLeaf ha (.setName n x)).revised.authored ha
  | setKey n k => exact (amends_updateLeaf ha (.setKey n k)).revised.authored ha
  | setParam n b => exact (amends_updateLeaf ha (.setParam n b)).revised.authored ha
  | setData n e => exact (amends_updateLeaf ha (.setData n e)).revised.authored ha
  | setPayload e x => exact (SameTree.of_restated (restated_updateEntry g e fun _ _ => Entry.type_of_setPayload)).authored ha
  | setImage e x => exact (SameTree.of_restated (restated_updateEntry g e fun _ _ => Entry.type_of_mapTexture)).authored ha
  | setLoading e x => exact (SameTree.of_restated (restated_updateEntry g e fun _ _ => Entry.type_of_mapTexture)).authored ha
  | touch n => exact ((touched_self ha n).revised (.refl _)).authored ha
  | synchronize n => exact (SameTree.of_derived (derived_synchronize g n)).authored ha
  | acquireInstance n s => exact (sameTree_acquireInstance g n s).authored ha
  | releaseInstance id => exact (SameTree.of_derived (derived_releaseInstance ..)).authored ha
  | process id => exact (SameTree.of_restated (restated_runAll ..)).authored ha
  | createRequest n names =>
    have h := sameTree_outletFor g n names
    rw [perform, createRequest_eq]
    generalize g.outletFor n names = x at h ⊢
    obtain ⟨g', _ | id⟩ := x
    · exact h.authored ha
    · have henroll : g'.SameTree (g'.enroll id) := .of_nodes_eq rfl
      exact (h.trans henroll).authored ha
  | watchRequest r tag => exact (SameTree.of_restated (restated_watchRequest ..)).authored ha
  | pull r =>
    rw [perform, pull]
    rcases g.requests[r]? with _ | q
    · exact ha
    · exact (sameTree_resolve ..).authored ha
  | pullNode n names =>
    have h := sameTree_outletFor g n names
    rw [perform, pullNode]
    generalize g.outletFor n names = x at h ⊢
    obtain ⟨g', _ | id⟩ := x
    · exact h.authored ha
    · have hpin : g'.SameTree (g'.modifyOutlet id ({ · with pinned := true })) := .of_nodes_eq rfl
      exact ((h.trans hpin).trans (sameTree_resolve ..)).authored ha
  | releaseRequest r => exact (sameTree_releaseRequest g r).authored ha

theorem authored_step (ha : g.Authored) (c : Call) : (g.step c).Authored := authored_perform (g := g.settled) { ha with } c

theorem moves_step (ha : g.Authored) (hh : g.Homed) (a : Account) (hcall : ∀ id, κ = .releaseInstance id → id ∈ a.hands) :
    Moves κ a.work g (a.book κ (g.settled.perform κ).2).work (g.step κ) :=
  .head (.restate (restated_aside g {})) (moves_perform (g := g.settled) { ha with } hh a hcall)

end Graph

end Dataflow
