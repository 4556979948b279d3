import Dataflow.Proofs.Remember

/-!
# Acquiring an instance

An instance of a node under a substitution is the one that the node registers for the bindings of its parameters, or one that is
built. By induction on the height of the node every acquisition succeeds, keeps the graph sound, and gives a live instance that is
faithful to what the graph shows.
-/

namespace Dataflow

namespace Substitution

/-- The names that a substitution binds, among those of a set that has them all. -/
theorem filter_bound {s : Substitution} {T : NameSet} (h : ∀ x c, s.get? x = some c → x ∈ T) :
    T.toList.filter (fun x => (s.get? x).isSome) = s.bindings.keys := by
  have hmem : ∀ x, x ∈ T.toList.filter (fun x => (s.get? x).isSome) ↔ x ∈ s.bindings.keys := by
    intro x
    rw [List.mem_filter, Std.ExtTreeSet.mem_toList, Table.mem_keys, Option.isSome_iff_exists]
    exact ⟨fun h => h.2, fun ⟨c, hc⟩ => ⟨h x c hc, c, hc⟩⟩
  have hlt : ∀ l : List String, l.Pairwise (fun a b => compare a b = .lt) → l.Nodup := by
    intro l hl
    refine hl.imp ?_
    rintro a b hab rfl
    rw [show compare a a = .eq from Std.ReflCmp.compare_self] at hab
    cases hab
  have h1 : (T.toList.filter fun x => (s.get? x).isSome).Pairwise fun a b => compare a b = .lt :=
    Std.ExtTreeSet.ordered_toList.filter _
  have h2 : s.bindings.keys.Pairwise fun a b => compare a b = .lt := Std.ExtTreeMap.ordered_keys
  refine List.Perm.eq_of_pairwise (fun a b _ _ hab hba => ?_) h1 h2
    ((List.perm_ext_iff_of_nodup (hlt _ h1) (hlt _ h2)).2 fun x => hmem x)
  rw [Std.OrientedCmp.gt_of_lt hab] at hba
  cases hba

/-- The key of all bindings is that of any set of names that has them all. -/
theorem fullKey_eq_keyOf {s : Substitution} {T : NameSet} (h : ∀ x c, s.get? x = some c → x ∈ T) : s.fullKey = s.keyOf T := by
  rw [fullKey, keyOf, key, key, ← filter_bound h, List.filterMap_filter]
  congr 1
  refine List.filterMap_congr fun x _ => ?_
  rcases s.get? x with _ | c <;> rfl

end Substitution

namespace Graph

variable {R : Substitution → Prop} {hands : List InstanceId} {busy : List ProcessId} {g g' g₀ : Graph} {n : NodeId}
  {s : Substitution}

/-! ## Before building -/

theorem grown_drawId (g : Graph) (n : NodeId) (s : Substitution) : g.Grown (g.drawId).1 n s :=
  ⟨⟨rfl, .of_nodes_eq rfl, fun _ i h => ⟨i.uses, h⟩, fun _ p h => ⟨p.uses, h⟩,
      fun j p h => .inl (by rw [show g.processes[j]? = some p from h]; rfl), fun _ _ _ _ _ => rfl, rfl, Nat.le_refl _, fun _ _ h => h,
      fun _ _ _ h => h, fun _ _ _ h => h⟩,
    fun _ _ h => h, fun _ _ h => h, fun _ _ => rfl, fun _ h => .inl h, Nat.le_succ _,
    fun j i h => .inl (by rw [show g.instances[j]? = some i from h]; rfl)⟩

/-- Drawing an id keeps a graph sound. -/
theorem Sound.drawId (hs : g.Sound R hands busy) : (g.drawId).1.Sound R hands busy := by
  have he := (grown_drawId g 0 .empty).extending
  have hw : (g.drawId).1.Wired := (show g.Relisted (g.drawId).1 from .of_nodes_eq rfl rfl).wired hs.wired
  refine ⟨(show Rewired (fun _ _ _ => True) g (g.drawId).1 from .of_nodes_eq rfl).authored hs.authored, hw,
    fun n l e hl hle => he.leaves hs hl hle,
    ⟨hs.anchored.bounded, hs.anchored.injective⟩,
    ⟨fun j i h => Nat.le_succ_of_le (hs.registered.instanceId j i h), fun j p h => Nat.le_succ_of_le (hs.registered.processId j p h),
      hs.registered.memo, hs.registered.processMemo⟩,
    fun j i h => ⟨he.faithfulAt hs hw (show g.instances[j]? = some i from h) i.uses, (hs.faithful j i h).2⟩, fun j p h => he.processAt hs (show g.processes[j]? = some p from h) p.uses,
    ⟨hs.counted.uses, hs.counted.hands, hs.counted.runs, hs.counted.busy⟩,
    ⟨hs.stocked.uses, hs.stocked.channel, hs.stocked.sole, hs.stocked.blank⟩, hs.mirrored⟩

/-- What grows after an id was drawn grows the graph before. -/
theorem Grown.of_drawId (h : (g.drawId).1.Grown g' n s) : g.Grown g' n s := by
  have he := h.extending
  refine ⟨⟨he.registry, ⟨he.rewired.size, he.rewired.next, he.rewired.node⟩, he.instances, he.processes, he.fresh, he.chans,
    he.tolerance, he.next, he.entries, he.wires, he.listeners⟩, h.wires, h.listeners, h.nodes, h.seen,
    Nat.le_of_succ_le h.lastId, fun j i hj => (h.drawn j i hj).imp_right Nat.lt_of_succ_lt⟩

/-- The graph in which an instance has one user more. -/
def reuse (g : Graph) (id : InstanceId) (i : Instance) (holds : Bool) (context : String) : Graph :=
  { g with instances := g.instances.insert id { i with uses := i.uses + 1 } }.check .memoized holds context

section Reuse

variable {id : InstanceId} {i : Instance} {b : Bool} {t : String} (hi : g.instances[id]? = some i)

include hi

theorem tally_reuse (f : Nat → Instance → Nat) (hf : f id { i with uses := i.uses + 1 } = f id i) :
    Table.tally (g.reuse id i b t).instances f = Table.tally g.instances f := by
  have := Table.tally_insert { i with uses := i.uses + 1 } f hi
  rw [hf] at this
  exact Nat.add_right_cancel this

theorem extends_reuse : g.Extends (g.reuse id i b t) := by
  refine ⟨rfl, .of_nodes_eq rfl, fun j i' hj => ?_, fun _ p h => ⟨p.uses, h⟩, fun j p h => .inl ?_, fun _ _ _ _ _ => rfl, rfl,
    Nat.le_refl _, fun _ _ h => h, fun _ _ _ h => h, fun _ _ _ h => h⟩
  · change ∃ u, (g.instances.insert id _)[j]? = _
    rw [Table.get_insert]
    by_cases hji : j = id
    · subst hji
      rw [hi] at hj
      cases hj
      exact ⟨_, if_pos rfl⟩
    · exact ⟨i'.uses, (if_neg hji).trans hj⟩
  · change g.processes[j]? = _ at h
    rw [h]
    rfl

theorem exists_of_reuse {j : InstanceId} {i' : Instance} (hj : (g.reuse id i b t).instances[j]? = some i') :
    ∃ u, g.instances[j]? = some { i' with uses := u } := by
  change (g.instances.insert id _)[j]? = _ at hj
  rw [Table.get_insert] at hj
  split at hj
  · rename_i h
    cases hj
    exact ⟨i.uses, h ▸ hi⟩
  · exact ⟨i'.uses, hj⟩

/-- One user more of an instance keeps a graph sound. -/
theorem Sound.reuse (hs : g.Sound R hands busy) : (g.reuse id i b t).Sound R (id :: hands) busy := by
  have he := extends_reuse (b := b) (t := t) hi
  have hw : (g.reuse id i b t).Wired := (show g.Relisted (g.reuse id i b t) from .of_nodes_eq rfl rfl).wired hs.wired
  have hback : ∀ j (i' : Instance), (g.reuse id i b t).instances[j]? = some i' → ∃ u, g.instances[j]? = some { i' with uses := u } :=
    fun _ _ => exists_of_reuse hi
  refine ⟨(show Rewired (fun _ _ _ => True) g (g.reuse id i b t) from .of_nodes_eq rfl).authored hs.authored, hw,
    fun n l e hl hle => he.leaves hs hl hle, ⟨hs.anchored.bounded, hs.anchored.injective⟩,
    ⟨fun j i' h => ?_, hs.registered.processId, fun n w k j hwn => ?_, hs.registered.processMemo⟩, fun j i' h => ?_,
    fun j p h => he.processAt hs (show g.processes[j]? = some p from h) p.uses, ⟨fun j i' h => ?_, fun j hj => ?_, fun j p h => ?_, hs.counted.busy⟩,
    ⟨fun n port x k c hc => ?_, hs.stocked.channel, hs.stocked.sole, hs.stocked.blank⟩, hs.mirrored⟩
  · obtain ⟨u, hu⟩ := hback j i' h
    exact hs.registered.instanceId j _ hu
  · rw [hs.registered.memo n w k j hwn]
    constructor
    · rintro ⟨i', hi', h⟩
      obtain ⟨u, hu⟩ := he.instances j i' hi'
      exact ⟨_, hu, h⟩
    · rintro ⟨i', hi', h⟩
      obtain ⟨u, hu⟩ := hback j i' hi'
      exact ⟨_, hu, h⟩
  · obtain ⟨u, hu⟩ := hback j i' h
    exact ⟨he.faithfulAt hs hw hu i'.uses, (hs.faithful j _ hu).2⟩
  · rw [useCount, tally_reuse hi _ rfl]
    change (g.instances.insert id _)[j]? = _ at h
    rw [Table.get_insert] at h
    split at h
    · rename_i hj
      cases h
      subst hj
      obtain ⟨hu, -⟩ := hs.counted.uses j i hi
      refine ⟨?_, Nat.succ_pos _⟩
      rw [List.count_cons_self, ← Nat.add_assoc]
      exact congrArg (· + 1) hu
    · rename_i hj
      rw [List.count_cons_of_ne (Ne.symm hj)]
      exact hs.counted.uses j i' h
  · have hj' : (g.instances[j]?).isSome := by
      rcases List.mem_cons.1 hj with rfl | hj
      · rw [hi]
        rfl
      · exact hs.counted.hands j hj
    obtain ⟨i', hi'⟩ := Option.isSome_iff_exists.1 hj'
    obtain ⟨u, hu⟩ := he.instances j i' hi'
    rw [hu]
    rfl
  · rw [runCount, tally_reuse hi _ rfl]
    exact hs.counted.runs j p h
  · rw [sharers, tally_reuse hi _ rfl]
    exact hs.stocked.uses n port x k c hc

end Reuse

/-! ## Building -/

/-- An instance up to its extended port: the graph, the instances of what flows in, and the process. -/
def widen (acquire : Acquire) (g : Graph) (n : NodeId) (d : DataNode) (s : Substitution) :
    Graph × List InstanceId × Option ProcessId :=
  let (g, js) := mergeInputs acquire n s g d
  let (g, p) := g.acquireProcess n s
  (g.mergeExtended n s p, js, p)

/-- An instance is built from its extended port. -/
theorem build_eq (acquire : Acquire) (g : Graph) (n : NodeId) (d : DataNode) (s : Substitution) {g' g'' : Graph}
    {js : List InstanceId} {p : Option ProcessId} {o : Option InstanceId} {template : List (String × ChannelId)}
    (hw : widen acquire g n d s = (g', js, p)) (ht : acquireTemplate acquire g' d (g'.derived n s) = (g'', o, template)) :
    build acquire g n d s s.fullKey = ((g''.mergeChannels n .output s (selectChannels d.filter
      (Dataflow.tableOf ((((g'.wiring? n).map (·.extended.resolve s)).getD []) ++ template)))).markUsed n s,
      assembled n s js p o) := by
  rw [widen] at hw
  obtain ⟨rfl, rfl, rfl⟩ : _ ∧ _ ∧ _ := ⟨congrArg (·.1) hw, congrArg (·.2.1) hw, congrArg (·.2.2) hw⟩
  rw [derived] at ht
  simp only [build]
  simp only [ht]
  rfl

section Build

variable {ρ : NodeId → Nat} {acquire : Acquire} (hacq : Acquires R ρ (ρ n) acquire) (hρ : g₀.Ranked ρ) (hidle : g₀.Idle busy n)
  (hR : Regime R) (hs₀ : g₀.Sound R hands busy) (hsite : Site R g₀ n s) (hquiet : ∀ m, g₀.Below n m → g₀.QuietAt m)
  {d : DataNode} (hd : g₀.data? n = some d)

include hacq hρ hidle hR hs₀ hsite hquiet hd

/-- An instance is built up to its extended port. -/
theorem widen_spec : ∃ g js p, widen acquire g₀ n d s = (g, js, p) ∧ Widened R hands busy g₀ n s js p g := by
  have hD := design?_of_data? hd
  obtain ⟨g₁, js, he₁, hb₁, hf₁, hj₁, hq₁⟩ := mergeInputs_spec hacq hρ hidle hR hs₀ hsite hquiet hd
  have hflow : g₁.Inflowing n s js := by
    intro D hD'
    rw [hb₁.grown.extending.sameDesign.design, hD] at hD'
    cases hD'
    exact hj₁
  obtain ⟨g₂, p, he₂, hb₂, hf₂, hj₂, hq₂, hrun⟩ := process_spec hR hs₀ hsite hidle hb₁ hf₁ hflow hq₁
  refine ⟨_, js, p, ?_, extended_spec hR hs₀ hsite hb₂ hf₂ hj₂ hq₂ hrun⟩
  simp only [widen, he₁, he₂]

/-- An instance is built, when its template may be instantiated with what its extended port shows. -/
theorem build_spec (hder : ∀ q, d.proto = some q →
      R (((widen acquire g₀ n d s).1.derived n s).restrict ((widen acquire g₀ n d s).1.tableOf q .input).all)) :
    ∃ g js p o, build acquire g₀ n d s s.fullKey = (g.markUsed n s, assembled n s js p o) ∧
      Completed R (o.toList ++ hands) busy g₀ n s js p o g := by
  have hD := design?_of_data? hd
  obtain ⟨g₃, js, p, hwid, h₃⟩ := widen_spec hacq hρ hidle hR hs₀ hsite hquiet hd
  have hD₃ : g₃.design? n = some d.design := (h₃.building.grown.extending.sameDesign.design n).trans hD
  rw [hwid] at hder
  obtain ⟨g₄, o, htmpl, h₄, ht, hderived⟩ := template_spec hacq hρ hidle hs₀ hsite h₃ hD₃ hder
  have hD₄ : g₄.design? n = some d.design := (h₄.building.grown.extending.sameDesign.design n).trans hD
  refine ⟨_, js, p, o, build_eq acquire g₀ n d s hwid htmpl, output_spec hR hs₀ hsite h₄ hD₄ ht fun y => ?_⟩
  -- what the filter chooses from is what the node and its template show
  have hext : (Dataflow.tableOf (((g₃.wiring? n).map (·.extended.resolve s)).getD []))[y]? = g₄.chan n .extended y s := by
    rw [← get?_derived, hderived]
    rfl
  rw [get_tableOf_append, hext, unfilteredChan]
  rcases hq : d.proto with _ | q
  · rw [show d.design.proto = none from hq, Option.map_none, Option.getD_none]
    rw [show (Dataflow.tableOf ([] : List (String × ChannelId)))[y]? = none from Std.ExtTreeMap.getElem?_empty, Option.none_or]
  · rw [show d.design.proto = some q from hq, Option.map_some, Option.getD_some, hderived]
    congr 1
    rcases hw : g₄.wiring? q with _ | w
    · rw [finalChannels, hw, chan, cell?, hw]
      exact Std.ExtTreeMap.getElem?_empty
    · rw [chan_of_wiring? hw, finalChannels, hw]
      exact ChannelMap.get_tableOf_resolve ..

end Build

/-- An instance that is built and enlisted is acquired. -/
theorem enlist_spec (hs₀ : g₀.Sound R hands busy) (hsite : Site R g₀ n s) {id : InstanceId} {T : Substitution} (hT : s = T.restrict (g₀.params n)) {js : List InstanceId}
    {p : Option ProcessId} {o : Option InstanceId} (h : Completed R (o.toList ++ hands) busy g₀ n s js p o g)
    (hid : g.instances[id]? = none) (hlast : id ≤ g.lastId) (hmemo : ∀ w, g₀.wiring? n = some w → w.instances[s.fullKey]? = none) :
    (g.enlist id (assembled n s js p o)).Sound R (id :: hands) busy ∧ g.Extends (g.enlist id (assembled n s js p o)) ∧
      (∀ c, (g.enlist id (assembled n s js p o)).Seen c → g₀.Seen c ∨ g₀.store.channels.next ≤ c ∨ s.Binds c) ∧
      (g.enlist id (assembled n s js p o)).Serves n T id ∧ ∀ m, g.Below n m → (g.enlist id (assembled n s js p o)).QuietAt m := by
  have hs := h.building.sound
  have here := hsite.of_grown hs₀ hs h.building.grown
  have hext := extends_enlist (i := assembled n s js p o) hid
  have hsound := h.sound here hid hlast fun w hw => by
    obtain ⟨w₀, hw₀, -⟩ := hsite.inSync
    have hm := h.building.memo
    rw [hw, hw₀, Option.map_some, Option.map_some, Option.some.injEq] at hm
    rw [hm]
    exact hmemo w₀ hw₀
  refine ⟨hsound, hext, fun c hc => ?_, ⟨_, (instances_enlist ..).trans (if_pos rfl), rfl, ?_⟩, fun m hm port x k c hc => ?_⟩
  · obtain ⟨j, i, hi, hb⟩ := hc
    rw [instances_enlist] at hi
    split at hi
    · cases hi
      rcases hb with hb | ⟨port, x, hx⟩
      · exact .inr (.inr hb)
      · rw [chan_enlist] at hx
        exact (h.filled port).origin x c hx
    · refine h.building.grown.seen c ⟨j, i, hi, hb.imp_right ?_⟩
      rintro ⟨port, x, hx⟩
      exact ⟨port, x, (chan_enlist ..).symm.trans hx⟩
  · rw [hext.params here.inSync, h.building.grown.extending.params hsite.inSync]
    exact hT
  · by_cases hmn : m = n
    · rw [cell?_enlist] at hc
      split at hc
      · obtain ⟨c', -, rfl⟩ := Option.map_eq_some_iff.1 hc
        exact Nat.succ_ne_zero _
      · rename_i hk
        intro hu
        subst hmn
        exact hk ⟨rfl, (h.filled port).pending x k c hc hu⟩
    · rw [cell?_enlist, if_neg fun he => hmn he.1] at hc
      exact h.building.quiet m hm hmn port x k c hc
/-! ## Acquiring -/

/-- Bringing a node into sync grows it. -/
theorem grown_synchronize (hs : g.Sound R hands busy) (n : NodeId) (s : Substitution) :
    (g.synchronize n).Sound R hands busy ∧ g.Grown (g.synchronize n) n s ∧
      ∀ m, g.QuietAt m → (g.synchronize n).QuietAt m := by
  obtain ⟨h, hw, -, hnodes⟩ := synchronize_spec hs.authored hs.wired n
  have he := h.extending hs
  refine ⟨h.sound hs hw, ⟨he, fun c w hc => by rw [h.store]; exact hc, fun c l hl => by rw [h.store]; exact hl, hnodes, fun c hc => ?_,
    by rw [h.lastId], fun id i hi => .inl ?_⟩, fun m hm port x k c hc => hm port x k c (h.cell? hc)⟩
  · obtain ⟨id, i, hi, hb⟩ := hc
    rw [h.instances] at hi
    refine .inl ⟨id, i, hi, hb.imp_right ?_⟩
    rintro ⟨port, x, hx⟩
    exact ⟨port, x, (he.chans id i hi port x).symm.trans hx⟩
  · rw [h.instances] at hi
    rw [hi]
    rfl

/-- A registered instance under the key of a substitution is the one under that substitution. -/
theorem Sound.substitution_of_key (hs : g.Sound R hands busy) (hR : Regime R) {id : InstanceId} {i : Instance}
    (hi : g.instances[id]? = some i) (ho : i.owner = n) (hsub : R s) (hb : ∀ x c, s.get? x = some c → x ∈ g.params n)
    (hk : i.key = s.fullKey) : i.substitution = s := by
  subst ho
  obtain ⟨hf, hRi⟩ := hs.faithful id i hi
  have hbi : ∀ x c, i.substitution.get? x = some c → x ∈ g.params i.owner := fun x c hx => (hf.bound x c hx).1
  rw [hf.key, Substitution.fullKey_eq_keyOf hbi, Substitution.fullKey_eq_keyOf hb] at hk
  have ha := hR.keys _ _ _ hRi hsub hk
  refine Substitution.ext_get? fun x => ?_
  by_cases hx : x ∈ g.params i.owner
  · exact ha x hx
  · have hnone : ∀ t : Substitution, (∀ x c, t.get? x = some c → x ∈ g.params i.owner) → t.get? x = none := by
      intro t ht
      rcases hc : t.get? x with _ | c
      · rfl
      · exact absurd (ht x c hc) hx
    rw [hnone _ hbi, hnone _ hb]

/-- Acquiring an instance that is registered. -/
theorem reuse_spec (hs : g.Sound R hands busy) {id : InstanceId} {i : Instance} (hi : g.instances[id]? = some i)
    (ho : i.owner = n) (hsub : i.substitution = s.restrict (g.params n)) (hquiet : ∀ m, g.Below n m → g.QuietAt m) (b : Bool)
    (t : String) : Acquired R hands busy g n s (g.reuse id i b t) id := by
  have hback : ∀ j (i' : Instance), (g.reuse id i b t).instances[j]? = some i' → ∃ u, g.instances[j]? = some { i' with uses := u } :=
    fun _ _ => exists_of_reuse hi
  refine ⟨Sound.reuse hi hs, ⟨extends_reuse hi, fun _ _ h => h, fun _ _ h => h, fun _ _ => rfl, fun c hc => ?_, Nat.le_refl _,
    fun j i' hj => ?_⟩, ⟨_, (Table.get_insert ..).trans (if_pos rfl), ho, hsub⟩, hquiet⟩
  · obtain ⟨j, i', hj, hc⟩ := hc
    obtain ⟨u, hu⟩ := hback j i' hj
    exact .inl ⟨j, _, hu, hc⟩
  · obtain ⟨u, hu⟩ := hback j i' hj
    exact .inl (by rw [hu]; rfl)

/-- Acquiring succeeds, and gives an instance of the node under the substitution. -/
theorem acquireWithin_spec {ρ : NodeId → Nat} (hR : Regime R) : ∀ k, Acquires R ρ k (acquireWithin k) := by
  intro k
  induction k with
  | zero => exact fun _ _ g n _ _ hn => absurd hn (Nat.not_lt_zero _)
  | succ k ih =>
    intro hands busy g n s hρ hn hready
    obtain ⟨hs, hsuit, hdata, hreg, hforeign, hidle, hquiet⟩ := hready
    obtain ⟨hs₁, hg₁, hquiet₁⟩ := grown_synchronize hs n s
    have hd₁ := hg₁.extending.sameDesign
    obtain ⟨-, -, hin, -⟩ := synchronize_spec hs.authored hs.wired n
    have hsome : ((g.synchronize n).data? n).isSome := by rw [hg₁.extending.rewired.isSome_data?]; exact hdata
    obtain ⟨d, hd⟩ := Option.isSome_iff_exists.1 hsome
    have hsync : (g.synchronize n).InSync n := .of_data? hd (hin d hd)
    have hparams : (g.synchronize n).params n = (g.tableOf n .input).all := by
      obtain ⟨d', hd', hwd⟩ := hsync.wiredAt hs₁.wired
      exact hwd.params_eq hd'
    have hparams' : d.wiring.params = (g.tableOf n .input).all := by
      rw [← hparams, params_of_wiring? (wiring?_of_data? hd)]
    rw [← hparams] at hreg hforeign
    rw [acquireWithin]
    simp only [hd]
    rw [show d.wiring.params = (g.synchronize n).params n from hparams'.trans hparams.symm]
    -- what was said of the graph before holds of the one in sync
    generalize hsub : s.restrict ((g.synchronize n).params n) = u at hreg hforeign ⊢
    have hbound : ∀ x c, u.get? x = some c → x ∈ (g.synchronize n).params n := by
      intro x c hx
      rw [← hsub, Substitution.get?_restrict] at hx
      split at hx
      · assumption
      · cases hx
    have hforeign₁ : (g.synchronize n).Foreign n u := hg₁.foreign hs hs₁ hforeign
    have hsuit₁ : Suited R (g.synchronize n) n := hd₁.suited hs.authored hs.wired hs₁.authored hs₁.wired hsuit
    have hquiet₁ : ∀ m, (g.synchronize n).Below n m → (g.synchronize n).QuietAt m :=
      fun m hm => hquiet₁ m (hquiet m (hd₁.below.1 hm))
    have hidle₁ := hidle.of_extends hs.counted.busy hg₁.extending
    have hρ₁ : (g.synchronize n).Ranked ρ := fun m r hr => hρ m r (by rw [hd₁.references] at hr; exact hr)
    generalize hg : g.synchronize n = g₁ at *
    have hfinish : ∀ {g' : Graph} {j : InstanceId}, Acquired R hands busy g₁ n s g' j → Acquired R hands busy g n s g' j :=
      fun h => ⟨h.sound, hg₁.trans h.grown (Leads.refl _) fun c hc => .inr (.inr hc), h.serves,
        fun m hm => h.quiet m (hd₁.below.2 hm)⟩
    rcases hmemo : (d.wiring.instances[u.fullKey]?).bind fun id => (g₁.instances[id]?).map (id, ·) with _ | ⟨id, i⟩
    · -- no instance is registered: one is built
      have hnone : d.wiring.instances[u.fullKey]? = none := by
        rcases hk : d.wiring.instances[u.fullKey]? with _ | id
        · rfl
        · obtain ⟨i, hi, -⟩ := (hs₁.registered.memo n _ _ id (wiring?_of_data? hd)).1 hk
          rw [hk, Option.bind_some, hi] at hmemo
          cases hmemo
      have hs₂ := hs₁.drawId
      have hsite : Site R g₁ n u :=
        ⟨hsync, hreg, hbound, hforeign₁, hsuit₁.orderly n (Leads.refl _), fun r hr => hsuit₁.below (Leads.head hr (Leads.refl _))⟩
      have hsite := hsite.of_grown hs₁ hs₂ (grown_drawId g₁ n u)
      have hacq : Acquires R ρ (ρ n) (acquireWithin k) :=
        fun hands busy g m s hρ hm hr => ih hands busy g m s hρ (Nat.lt_of_lt_of_le hm (Nat.le_of_lt_succ hn)) hr
      obtain ⟨g₅, js, p, o, hbuild, h₅⟩ := build_spec hacq (show (g₁.drawId).1.Ranked ρ from hρ₁) hidle₁ hR hs₂ hsite hquiet₁ hd fun q hq => by
        obtain ⟨g₃, js, p, hwid, h₃⟩ := widen_spec hacq (show (g₁.drawId).1.Ranked ρ from hρ₁) hidle₁ hR hs₂ hsite hquiet₁ hd
        rw [hwid]
        have hd₃ := (grown_drawId g₁ n u).extending.sameDesign.trans h₃.building.grown.extending.sameDesign
        have hs₃ := h₃.building.sound
        rw [hd₃.tableOf_eq hs₁.authored hs₁.wired hs₃.authored hs₃.wired]
        exact hsuit₁.derives n (Leads.refl _) d.design q (design?_of_data? hd) hq _
      have hid : g₅.instances[g₁.lastId + 1]? = none := by
        rcases hi : g₅.instances[g₁.lastId + 1]? with _ | i
        · rfl
        · rcases h₅.building.grown.drawn _ i hi with hold | hlt
          · obtain ⟨i', hi'⟩ := Option.isSome_iff_exists.1 hold
            exact absurd (hs₁.registered.instanceId _ i' hi') (Nat.not_succ_le_self _)
          · exact absurd hlt (Nat.lt_irrefl _)
      have hmem : ∀ w, (g₁.drawId).1.wiring? n = some w → w.instances[u.fullKey]? = none := by
        intro w hw
        have : w = d.wiring := by
          have := wiring?_of_data? hd
          change g₁.wiring? n = some w at hw
          rw [this] at hw
          exact (Option.some.inj hw).symm
        rw [this]
        exact hnone
      obtain ⟨hs₆, hext₆, hseen₆, hserv₆, hquiet₆⟩ := enlist_spec hs₂ hsite (T := s) hsub.symm h₅ hid h₅.building.grown.lastId hmem
      have hg₅ := h₅.building.grown.of_drawId
      refine ⟨g₅.enlist (g₁.lastId + 1) (assembled n u js p o), g₁.lastId + 1, ?_, hfinish ⟨hs₆, ⟨hg₅.extending.trans hext₆,
        hg₅.wires, hg₅.listeners, fun m hm => ?_, fun c hc => (hseen₆ c hc).imp_right (Or.imp_right fun h => ?_), ?_, fun j i hi => ?_⟩,
        hserv₆, fun m hm => hquiet₆ m (hg₅.extending.sameDesign.below.2 hm)⟩⟩
      · simp only [drawId] at hbuild ⊢
        simp only [hbuild]
        rfl
      · have hmn : m ≠ n := by
          rintro rfl
          exact hm (Leads.refl _)
        exact (node?_enlist g₅ _ _ hmn).trans (hg₅.nodes m hm)
      · rw [← hsub] at h
        exact h.of_restrict
      · exact hg₅.lastId
      · rw [instances_enlist] at hi
        split at hi
        · rename_i he
          exact .inr (by rw [he]; exact Nat.lt_succ_self _)
        · exact hg₅.drawn j i hi
    · -- the instance that is registered
      obtain ⟨id', hk, hi⟩ := Option.bind_eq_some_iff.1 hmemo
      obtain ⟨i', hi', he⟩ := Option.map_eq_some_iff.1 hi
      obtain ⟨rfl, rfl⟩ := Prod.mk.inj he
      obtain ⟨i'', hi'', ho, hkey⟩ := (hs₁.registered.memo n _ _ id' (wiring?_of_data? hd)).1 hk
      rw [hi'] at hi''
      cases hi''
      have hsubst := hs₁.substitution_of_key hR hi' ho hreg hbound hkey
      exact ⟨_, id', rfl, hfinish (reuse_spec hs₁ hi' ho (hsubst.trans hsub.symm) hquiet₁ _ _)⟩

end Graph

end Dataflow
