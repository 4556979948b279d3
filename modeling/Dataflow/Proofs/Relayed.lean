import Dataflow.Proofs.Fitted
import Dataflow.Proofs.Indexed
import Dataflow.Proofs.Lending
import Dataflow.Proofs.Live
import Dataflow.Proofs.Lookups

/-!
# Filters select without copying

A node that passes one node on through a filter, a relay, holds no channels of its own: a channel that is merged under a name that has none
is taken over as it is, and a filter that passes on at most one name under each never merges two. So acquiring a relay creates nothing, and
a list kept by one relay and removed by another parts what the node below exposes.

What the relays expose stays the node's as long as no node has a template. With templates it need not: the node's map of what it exposes is
keyed by the parameters that the structure lists for a name, and an instance for other bindings may add channels under a key that an
instance in use shares. The relays that are built on that one do not hear of them.
-/

namespace Dataflow

/-! ## What a filter parts -/

namespace Mapping

variable {m : Mapping}

/-- No two pairs of a table have one destination. -/
def Distinct : Mapping → Prop
  | .order _ => True
  | .table pairs => (pairs.map (·.1)).Nodup

/-- Of what is there, `kept` and `removed` are what a filter of this mapping keeps and removes: every listed name is kept, and every other
one removed; of a table, every destination is kept with the channel of its source, and every name that is no source removed. -/
def Divides (m : Mapping) (whole kept removed : List (String × ChannelId)) : Prop :=
  match m with
  | .order names =>
    (∀ e, e ∈ kept ↔ e ∈ whole ∧ e.1 ∈ names) ∧ ∀ e, e ∈ removed ↔ e ∈ whole ∧ e.1 ∉ names
  | .table pairs =>
    (∀ x c, (x, c) ∈ kept ↔ ∃ y, (x, y) ∈ pairs ∧ (y, c) ∈ whole) ∧
      ∀ x c, (x, c) ∈ removed ↔ (x, c) ∈ whole ∧ ∀ p ∈ pairs, p.2 ≠ x

end Mapping

namespace Filter

variable {f : Filter} {m : Mapping} {x : String}

theorem sources_keep (m : Mapping) (x y : String) : y ∈ sources (some ⟨.keep, m⟩) x ↔ match m with
    | .order names => y = x ∧ x ∈ names
    | .table pairs => (x, y) ∈ pairs := by
  cases m with
  | order names =>
    by_cases hx : x ∈ names <;> simp [sources, hx]
  | table pairs => simp [sources]

theorem sources_remove (m : Mapping) (x y : String) : y ∈ sources (some ⟨.remove, m⟩) x ↔ match m with
    | .order names => y = x ∧ x ∉ names
    | .table pairs => y = x ∧ ∀ p ∈ pairs, p.2 ≠ x := by
  cases m with
  | order names =>
    by_cases hx : x ∈ names <;> simp [sources, hx]
  | table pairs =>
    have hany : pairs.any (fun p => decide (p.2 = x)) = false ↔ ∀ p ∈ pairs, p.2 ≠ x := by
      rw [List.any_eq_false]
      simp only [decide_eq_true_eq, ne_eq]
    simp only [← hany]
    cases hx : pairs.any (fun p => decide (p.2 = x)) <;> simp [sources, hx]

theorem single_remove (m : Mapping) : Single ⟨.remove, m⟩ := by
  intro x
  cases m with
  | order names =>
    simp only [sources]
    split <;> simp
  | table pairs =>
    simp only [sources]
    split <;> simp

theorem single_keep (h : m.Distinct) : Single ⟨.keep, m⟩ := by
  intro x
  cases m with
  | order names =>
    simp only [sources]
    split <;> simp
  | table pairs =>
    have hcount : (pairs.map (·.1)).count x ≤ 1 := List.nodup_iff_count_le_one.1 h x
    rw [List.count_eq_countP, List.countP_map, List.countP_eq_length_filter] at hcount
    simpa [sources, Function.comp_def] using hcount

/-- What a filter passes on: under each name, what was there under its sources. -/
def Passed (f : Filter) (whole passed : List (String × ChannelId)) : Prop :=
  ∀ x ch, (x, ch) ∈ passed ↔ ∃ y ∈ sources (some f) x, (y, ch) ∈ whole

/-- Keeping and removing the same names parts what is there. -/
theorem divides_of_passed {whole kept removed : List (String × ChannelId)} (hk : Passed ⟨.keep, m⟩ whole kept)
    (hr : Passed ⟨.remove, m⟩ whole removed) : m.Divides whole kept removed := by
  cases m with
  | order names =>
    refine ⟨fun ⟨x, ch⟩ => ?_, fun ⟨x, ch⟩ => ?_⟩
    · rw [hk]
      simp only [sources_keep]
      exact ⟨fun ⟨y, ⟨hy, hx⟩, hc⟩ => ⟨hy ▸ hc, hx⟩, fun ⟨hc, hx⟩ => ⟨x, ⟨rfl, hx⟩, hc⟩⟩
    · rw [hr]
      simp only [sources_remove]
      exact ⟨fun ⟨y, ⟨hy, hx⟩, hc⟩ => ⟨hy ▸ hc, hx⟩, fun ⟨hc, hx⟩ => ⟨x, ⟨rfl, hx⟩, hc⟩⟩
  | table pairs =>
    refine ⟨fun x ch => ?_, fun x ch => ?_⟩
    · rw [hk]
      simp only [sources_keep]
    · rw [hr]
      simp only [sources_remove]
      exact ⟨fun ⟨y, ⟨hy, hx⟩, hc⟩ => ⟨hy ▸ hc, hx⟩, fun ⟨hc, hx⟩ => ⟨x, ⟨rfl, hx⟩, hc⟩⟩

end Filter

namespace Graph

variable {g g' : Graph} {n c : NodeId} {port : Port} {s : Substitution} {f : Filter} {x : String} {ch : ChannelId}

/-! ## Relays -/

/-- A node passes on `c`, its source or only child, through a filter, with no computation and no template. -/
def Relays (g : Graph) (n c : NodeId) (f : Filter) : Prop :=
  ∃ d, g.design? n = some d ∧ inflow d = [c] ∧ d.proto = none ∧ d.compute = none ∧ d.filter = some f

theorem Relays.congr (hr : g.Relays n c f) (h : ∀ m, g'.design? m = g.design? m) : g'.Relays n c f := by
  obtain ⟨d, hd, hrest⟩ := hr
  exact ⟨d, (h n).trans hd, hrest⟩

theorem Relays.exists_data (hr : g.Relays n c f) : ∃ d, g.data? n = some d := by
  obtain ⟨_, hd, -⟩ := hr
  obtain ⟨d, hd, -⟩ := Option.map_eq_some_iff.1 hd
  exact ⟨d, hd⟩

/-- There is an instance of the node under the substitution that binds nothing. -/
def Materialized (g : Graph) (n : NodeId) : Prop := (g.instanceAt? n Substitution.empty.fullKey).isSome

theorem Materialized.leaf?_eq_none (h : g.Materialized n) : g.leaf? n = none := by
  obtain ⟨j, hj⟩ := Option.isSome_iff_exists.1 h
  obtain ⟨w, hw, -⟩ := exists_wiring_of_instanceAt? hj
  obtain ⟨d, hd, -⟩ := exists_data_of_wiring? hw
  exact leaf?_eq_none_of_data? hd

/-! ## Acquiring a relay -/

/-- Synchronizing keeps the instances that nodes remember. -/
theorem Synced.instanceAt? (h : g.Synced g') (m : NodeId) (k : String) : g'.instanceAt? m k = g.instanceAt? m k := by
  rcases h.wiring m with hw | ⟨w, t, hw, -, hw'⟩
  · rw [Graph.instanceAt?, hw, Graph.instanceAt?]
  · rw [instanceAt?_of_wiring? hw', instanceAt?_of_wiring? hw]
    rfl

theorem Synced.apart (h : g.Synced g') (n : NodeId) : g.Apart g' n :=
  ⟨h.store, h.processes, h.rewired.design?, fun _ _ hm => h.wiring_of_inSync hm, fun m _ k => h.instanceAt? m k⟩

/-- Once a node is in sync, cells are in use, and only where the node has an instance. -/
theorem Sustained.shared {a : Account} (hs : Sustained a g) (hsync : g.Synced g') {m : NodeId} {k : String} {cell : Cell}
    (hc : g'.cell? m port x k = some cell) :
    cell.uses ≠ 0 ∧ ∃ k j, g.instanceAt? m k = some j := by
  have hold := hsync.cell? hc
  have hin : g.InSync m := by
    by_contra hout
    have hun : g.Unsynced m := fun w hw => by
      by_contra hw'
      exact hout ⟨w, hw, Bool.eq_false_iff.2 hw'⟩
    rw [hs.orderly.tidy.no_cells hun nofun] at hold
    cases hold
  obtain ⟨hle, hzero⟩ := hs.shelved.uses m port x k cell hin hold
  have hne : cell.uses ≠ 0 := fun h => by
    obtain ⟨J, hJ, -⟩ := hzero h
    cases hJ
  refine ⟨hne, ?_⟩
  obtain ⟨id, i, hi, rfl, -⟩ := sharers_ne_zero.1 (Nat.pos_iff_ne_zero.1 (Nat.lt_of_lt_of_le (Nat.pos_of_ne_zero hne) hle))
  obtain ⟨w, hw, -, hk⟩ := hs.orderly.indexed.instances id i hi
  exact ⟨i.key, id, (instanceAt?_of_wiring? hw).trans hk⟩

/-- A node in sync that has an instance gives that one. -/
theorem acquireWithin_of_instanceAt? {i : Instance} {j : InstanceId} (hc : g.InSync c)
    (hj : g.instanceAt? c Substitution.empty.fullKey = some j) (hi : g.instances[j]? = some i) (k : Nat) :
    ∃ instances journal, acquireWithin (k + 1) g c .empty = ({ g with instances, journal }, some j) := by
  obtain ⟨w, hw, hs⟩ := hc
  obtain ⟨d, hd, rfl⟩ := exists_data_of_wiring? hw
  have hsync : g.synchronize c = g := by
    rw [synchronize, syncWithin, hd]
    exact if_neg (by rw [hs]; exact Bool.false_ne_true)
  rw [instanceAt?_of_wiring? hw] at hj
  rw [acquireWithin, hsync]
  simp only [hd, Substitution.restrict_empty, hj, Option.bind_some, hi, Option.map_some]
  exact ⟨_, _, rfl⟩

theorem apart_enlist (g : Graph) (id : InstanceId) {i : Instance} (ho : i.owner = n) : g.Apart (g.enlist id i) n := by
  subst ho
  refine apart_of_node rfl rfl (fun m => ?_) fun m hm => node?_enlist g id i hm
  exact ((relisted_remember _ id i).rewired.design? m).trans ((recached_markUsed g _ _).rewired.design? m)

theorem Relays.rank_lt (ha : g.Authored) (hr : g.Relays n c f) : g.rank c < g.rank n := by
  obtain ⟨d, hd, hin, -⟩ := hr
  refine ha.ranked n c ?_
  rw [references_eq, hd]
  exact mem_references_of_mem_inflow (hin ▸ List.mem_singleton_self c)

theorem Relays.ne (ha : g.Authored) (hr : g.Relays n c f) : c ≠ n := fun h => Nat.lt_irrefl _ (h ▸ hr.rank_lt ha)

/-- An instance of a relay that is made is remembered, and creates nothing else. If the relay had no cells, it exposes what its filter passes
on of what the node below it exposes. -/
theorem make_relay (hf : f.Single) (hr : g.Relays n c f) {d : DataNode} (hd : g.data? n = some d) (hcs : g.InSync c) {i : Instance}
    {j : InstanceId} (hj : g.instanceAt? c Substitution.empty.fullKey = some j) (hi : g.instances[j]? = some i)
    (hused : ∀ port x k cell, g.cell? n port x k = some cell → cell.uses ≠ 0) {k : Nat} {i' : Instance}
    (hbuild : build (acquireWithin (k + 1)) g.drawId.1 n d .empty Substitution.empty.fullKey = (g', i')) :
    g.Apart (g'.remember (g.lastId + 1) i') n ∧ (g'.remember (g.lastId + 1) i').Materialized n ∧
      ((∀ port x k, g.cell? n port x k = none) →
        f.Passed (g.finalChannels c .empty) ((g'.remember (g.lastId + 1) i').finalChannels n .empty)) := by
  obtain ⟨d', hdesign, hin, hproto, hcompute, hfilter⟩ := hr
  obtain rfl : d' = d.design := Option.some.inj (hdesign.symm.trans (design?_of_data? hd))
  obtain ⟨instances, journal, hacq⟩ := acquireWithin_of_instanceAt? (g := g.drawId.1) hcs hj hi k
  have hleaf : g.drawId.1.leaf? c = none := Materialized.leaf?_eq_none (g := g) (Option.isSome_iff_exists.2 ⟨j, hj⟩)
  obtain ⟨g₁, hbuilt, hapart, hexposes⟩ := build_relay (g := g.drawId.1) (n := n) hf hd hin hproto hcompute hfilter hleaf hacq hused
  obtain ⟨rfl, rfl⟩ := Prod.mk.inj (hbuild.symm.trans hbuilt)
  have hdraw : g.Apart g.drawId.1 n := apart_of_node rfl rfl (fun _ => rfl) fun _ _ => rfl
  refine ⟨(hdraw.trans hapart).trans (apart_enlist g₁ _ rfl), ?_, fun hblank x ch => ?_⟩
  · have hdata : ((g₁.markUsed n .empty).data? n).isSome := by
      rw [(recached_markUsed g₁ n .empty).rewired.isSome_data?, isSome_data?_of_design? (hapart.design n)]
      exact Option.isSome_iff_exists.2 ⟨d, hd⟩
    exact Option.isSome_iff_exists.2 ⟨_, instanceAt?_remember (i := assembled n .empty [j] none none) hdata⟩
  · have hchan : ((g₁.markUsed n .empty).remember (g.lastId + 1) (assembled n .empty [j] none none)).chan n .output x .empty =
        g₁.chan n .output x .empty := chan_enlist g₁ _ (assembled n .empty [j] none none) n .output x .empty
    simp only [mem_finalChannels]
    rw [hchan, hexposes hblank]
    rfl

/-- Acquiring an instance of a relay whose node below has one creates nothing. If the relay had no instance, it exposes what its filter passes
on of what the node below it exposes. -/
theorem Sustained.acquire_relay {a : Account} (hs : Sustained a g) (hf : f.Single) (hr : g.Relays n c f) (hc : g.Materialized c) :
    g.Apart (g.acquireInstance n .empty).1 n ∧ (g.acquireInstance n .empty).1.Materialized n ∧ ((∀ k, g.instanceAt? n k = none) →
      f.Passed (g.finalChannels c .empty) ((g.acquireInstance n .empty).1.finalChannels n .empty)) := by
  have ho := hs.orderly
  have hcn := hr.ne ho.authored
  have hbelow := hr.rank_lt ho.authored
  obtain ⟨j, hj⟩ := Option.isSome_iff_exists.1 hc
  -- the relay is put in sync, which leaves the node below it as it is
  obtain ⟨hsync, -, -, -⟩ := synchronize_spec ho.authored (ho.tidy.framed.wired_of_settled (τ := a.work) rfl) n
  have hapart := hsync.apart n
  have hwc := hsync.wiring_of_inSync (ho.tidy.kept.inSync_of_instanceAt? hj)
  have hcs : (g.synchronize n).InSync c := by
    rw [InSync, hwc]
    exact ho.tidy.kept.inSync_of_instanceAt? hj
  have hshared : ∀ {port x k cell}, (g.synchronize n).cell? n port x k = some cell → cell.uses ≠ 0 ∧ ∃ k j, g.instanceAt? n k = some j :=
    hs.shared hsync
  obtain ⟨i, hi⟩ : ∃ i, g.instances[j]? = some i := by
    obtain ⟨w, hw, hk⟩ := exists_wiring_of_instanceAt? hj
    obtain ⟨i, hi, -⟩ := ho.indexed.remembered c w _ j hw hk
    exact ⟨i, hi⟩
  rw [acquireInstance, acquireWithin]
  generalize g.synchronize n = g₁ at hsync hapart hwc hcs hshared ⊢
  have hr₁ : g₁.Relays n c f := hr.congr hapart.design
  obtain ⟨d, hd⟩ := hr₁.exists_data
  simp only [hd, Substitution.restrict_empty]
  rcases hmemo : (d.wiring.instances[Substitution.empty.fullKey]?).bind fun id => (g₁.instances[id]?).map (id, ·) with _ | ⟨id, i'⟩
  · -- it is made
    obtain ⟨k, hk⟩ : ∃ k, g.nodes.size = k + 1 :=
      Nat.exists_eq_succ_of_ne_zero (Nat.ne_of_gt (Nat.lt_of_lt_of_le (Nat.zero_lt_of_lt hbelow) (rank_le_size g n)))
    rcases hbuild : build (acquireWithin (k + 1)) g₁.drawId.1 n d .empty Substitution.empty.fullKey with ⟨g₂, i'⟩
    obtain ⟨hmade, hmaterialized, hpassed⟩ := make_relay hf hr₁ hd hcs ((hapart.memo c hcn _).trans hj) (hsync.instances ▸ hi)
      (fun port x k cell hcell => (hshared hcell).1) hbuild
    rw [hk]
    simp only [drawId] at hbuild ⊢
    simp only [hbuild]
    refine ⟨hapart.trans hmade, hmaterialized, fun hfresh => ?_⟩
    have hfinal : g₁.finalChannels c .empty = g.finalChannels c .empty := by rw [finalChannels, hwc, finalChannels]
    refine hfinal ▸ hpassed fun port x k => ?_
    rcases hcell : g₁.cell? n port x k with _ | cell
    · rfl
    · obtain ⟨-, k, j', hk⟩ := hshared hcell
      rw [hfresh] at hk
      cases hk
  · -- it is there
    obtain ⟨_, hk, -⟩ := Option.bind_eq_some_iff.1 hmemo
    rw [← instanceAt?_of_wiring? (wiring?_of_data? hd)] at hk
    refine ⟨hapart.trans (apart_of_node rfl rfl (fun _ => rfl) fun _ _ => rfl), Option.isSome_iff_exists.2 ⟨_, hk⟩, fun hfresh => ?_⟩
    rw [hsync.instanceAt?, hfresh] at hk
    cases hk

theorem Sustained.settled {a : Account} (h : Sustained a g) : Sustained a g.settled := by
  have hm : Moves .createLeaf a.work g a.work g.settled := Move.moves (.restate (restated_aside g {}))
  exact h.moves hm { h.orderly.authored with }

theorem Reachable.acquire_relay (h : g.Reachable) (hf : f.Single) (hr : g.Relays n c f) (hc : g.Materialized c) :
    g.Apart (g.step (.acquireInstance n .empty)) n ∧ (g.step (.acquireInstance n .empty)).Materialized n ∧
      ((∀ k, g.instanceAt? n k = none) → f.Passed (g.finalChannels c .empty) ((g.step (.acquireInstance n .empty)).finalChannels n .empty)) := by
  obtain ⟨a, hs⟩ := h.sustained
  obtain ⟨⟨hstore, hprocesses, hdesign, hwiring, hmemo⟩, hmade, hpassed⟩ := hs.settled.acquire_relay hf hr hc
  exact ⟨⟨hstore, hprocesses, hdesign, hwiring, hmemo⟩, hmade, hpassed⟩

theorem Apart.materialized (h : g.Apart g' n) {m : NodeId} (hm : m ≠ n) : g'.Materialized m ↔ g.Materialized m := by
  rw [Materialized, h.memo m hm, Materialized]

theorem Apart.finalChannels (h : g.Apart g' n) {m : NodeId} (hm : m ≠ n) (hs : g.InSync m) :
    g'.finalChannels m s = g.finalChannels m s := by
  rw [Graph.finalChannels, h.wiring m hm hs, Graph.finalChannels]

theorem Reachable.inSync_of_materialized (h : g.Reachable) (hn : g.Materialized n) : g.InSync n := by
  obtain ⟨a, ho⟩ := h.orderly
  obtain ⟨j, hj⟩ := Option.isSome_iff_exists.1 hn
  exact ho.tidy.kept.inSync_of_instanceAt? hj

/-- Of what `c` exposes, one node exposes what a filter of the mapping keeps, and the other what it removes. -/
def Parts (g : Graph) (m : Mapping) (c kept removed : NodeId) : Prop :=
  m.Divides (g.finalChannels c .empty) (g.finalChannels kept .empty) (g.finalChannels removed .empty)

/-- Instances of some nodes are acquired in turn, binding nothing. -/
def acquiring (ns : List NodeId) : List Call := ns.map fun n => .acquireInstance n .empty

/-- Acquiring instances of two relays, one of which keeps what the other removes, creates no channel and no process. If the relays had no
instances, they part what the node below them exposes. -/
theorem Reachable.acquire_relays (h : g.Reachable) {m : Mapping} (hm : m.Distinct) {kept removed : NodeId} (hc : g.Materialized c)
    (hk : g.Relays kept c ⟨.keep, m⟩) (hr : g.Relays removed c ⟨.remove, m⟩) :
    (g.after (acquiring [kept, removed])).store = g.store ∧ (g.after (acquiring [kept, removed])).processes = g.processes ∧
    (g.after (acquiring [kept, removed])).finalChannels c .empty = g.finalChannels c .empty ∧
    (g.after (acquiring [kept, removed])).Materialized kept ∧ (g.after (acquiring [kept, removed])).Materialized removed ∧
    ((∀ i ∈ g.instances.values, i.owner ≠ kept ∧ i.owner ≠ removed) →
      (g.after (acquiring [kept, removed])).Parts m c kept removed) := by
  obtain ⟨a, hs⟩ := h.sustained
  have hne : kept ≠ removed := by
    rintro rfl
    obtain ⟨d, hd, -, -, -, hf⟩ := hk
    obtain ⟨d', hd', -, -, -, hf'⟩ := hr
    obtain rfl := Option.some.inj (hd.symm.trans hd')
    cases hf.symm.trans hf'
  have hck := hk.ne hs.orderly.authored
  have hcr := hr.ne hs.orderly.authored
  -- first the one relay
  obtain ⟨hapart, hmade, hpassed⟩ := h.acquire_relay (Filter.single_keep hm) hk hc
  have h₁ : (g.step (.acquireInstance kept .empty)).Reachable := h.after [.acquireInstance kept .empty]
  rw [acquiring, List.map_cons, List.map_cons, List.map_nil, after_cons]
  generalize g.step (.acquireInstance kept .empty) = g₁ at *
  -- then the other
  have hc₁ : g₁.Materialized c := (hapart.materialized hck).2 hc
  obtain ⟨hapart₁, hmade₁, hpassed₁⟩ := h₁.acquire_relay (Filter.single_remove m) (hr.congr hapart.design) hc₁
  have hfinal := hapart.finalChannels (s := .empty) hck (h.inSync_of_materialized hc)
  have hfinal₁ := hapart₁.finalChannels (s := .empty) hcr (h₁.inSync_of_materialized hc₁)
  refine ⟨hapart₁.store.trans hapart.store, hapart₁.processes.trans hapart.processes, hfinal₁.trans hfinal,
    (hapart₁.materialized hne).2 hmade, hmade₁, fun hnone => ?_⟩
  have hfresh : ∀ n, (n = kept ∨ n = removed) → ∀ k, g.instanceAt? n k = none := fun n hn k => by
    rcases hj : g.instanceAt? n k with _ | j
    · rfl
    · obtain ⟨w, hw, hk⟩ := exists_wiring_of_instanceAt? hj
      obtain ⟨i, hi, rfl, -⟩ := hs.orderly.indexed.remembered n w k j hw hk
      obtain ⟨hik, hir⟩ := hnone i (Table.mem_values.2 ⟨j, hi⟩)
      exact (hn.elim hik hir).elim
  refine Filter.divides_of_passed ?_ ?_
  · rw [after_cons, after_nil, hfinal₁, hfinal, hapart₁.finalChannels hne (h₁.inSync_of_materialized hmade)]
    exact hpassed (hfresh kept (.inl rfl))
  · rw [after_cons, after_nil, hfinal₁]
    exact hpassed₁ fun k => (hapart.memo removed hne.symm k).trans (hfresh removed (.inr rfl) k)

/-! ## Relays without templates -/

/-- A port shows a channel that is all that is merged there, as it is. -/
theorem Built.chan_of_single (hb : g.Built n .empty port) {o : Option ChannelId} (hf : g.feeds n .empty x port = o.toList.map .channel) :
    g.chan n port x .empty = o := by
  obtain ⟨m, -, hs⟩ := hb.shown x
  rw [hf] at hs
  cases o with
  | none => exact hs.eq_none_iff.2 rfl
  | some c =>
    rcases hc : g.chan n port x .empty with _ | c'
    · have := (hc ▸ hs).eq_none_iff.1 rfl
      cases this
    · obtain ⟨e, _, he, -, hlent⟩ := (hc ▸ hs).of_some
      obtain rfl := Option.some.inj he
      rcases hlent with ⟨hl, -⟩ | ⟨hl, -⟩
      · exact hl.symm
      · cases hl

/-- Without templates a relay that is in use exposes what its filter passes on of what the node below it exposes. -/
theorem Consistent.passed (h : g.Consistent) (hf : f.Single) (hr : g.Relays n c f) (hc : g.Materialized c) (hn : g.Materialized n) :
    f.Passed (g.finalChannels c .empty) (g.finalChannels n .empty) := by
  have hs := h.tended.sound
  obtain ⟨d, hd, hin, -, hcompute, hfilter⟩ := hr
  obtain ⟨j, hj⟩ := Option.isSome_iff_exists.1 hn
  obtain ⟨w, hw, hk⟩ := exists_wiring_of_instanceAt? hj
  obtain ⟨i, hi, rfl, -⟩ := (hs.memo n w _ j not_false hw).1 hk
  have hb := fun port => hs.built hi not_false port
  have hinput : ∀ x, g.chan i.owner .input x .empty = g.chan c .output x .empty := fun x => by
    refine (hb .input).chan_of_single ?_
    rw [feeds_input _ _ hd, hin, List.flatMap_singleton, brought, hc.leaf?_eq_none]
  have hextended : ∀ x, g.chan i.owner .extended x .empty = g.chan c .output x .empty := fun x => by
    refine (hb .extended).chan_of_single ?_
    rw [feeds_extended _ _ hd, hinput, processOf, operation?_of_compute hd hcompute]
    exact List.append_nil _
  intro x ch
  simp only [mem_finalChannels, ← hextended]
  have hfeeds := feeds_output_plain hs.plain hd .empty x
  rw [hfilter] at hfeeds
  -- the filter passes on one name at most
  rcases hl : Filter.sources (some f) x with _ | ⟨y, _ | ⟨z, l⟩⟩
  · rw [(hb .output).chan_of_single (o := none) (by rw [hfeeds, hl]; rfl)]
    constructor
    · intro hc
      cases hc
    · rintro ⟨y, hy, -⟩
      cases hy
  · have hone : g.feeds i.owner .empty x .output = (g.chan i.owner .extended y .empty).toList.map .channel := by
      rw [hfeeds, hl, List.filterMap_cons, List.filterMap_nil]
      rcases g.chan i.owner .extended y .empty with _ | c' <;> rfl
    rw [(hb .output).chan_of_single hone]
    constructor
    · intro hc
      exact ⟨y, List.mem_singleton_self y, hc⟩
    · rintro ⟨z, hz, hc⟩
      exact List.mem_singleton.1 hz ▸ hc
  · have := hf x
    rw [hl] at this
    exact absurd this (by simp)

/-- Without templates relays that are in use part what the node below them exposes. -/
theorem Consistent.parts (h : g.Consistent) {m : Mapping} (hm : m.Distinct) {kept removed : NodeId} (hk : g.Relays kept c ⟨.keep, m⟩)
    (hr : g.Relays removed c ⟨.remove, m⟩) (hc : g.Materialized c) (hmk : g.Materialized kept) (hmr : g.Materialized removed) :
    g.Parts m c kept removed :=
  Filter.divides_of_passed (h.passed (Filter.single_keep hm) hk hc hmk) (h.passed (Filter.single_remove m) hr hc hmr)

/-! ## Histories -/

/-- Regular calls, and the setting of templates too if there may be any. -/
def RegularOrTemplate (templates : Prop) (g : Graph) (c : Call) : Prop :=
  g.Regular c ∨ (match c with | .setProto _ _ => true | _ => false) = true ∧ templates

instance (templates : Prop) [Decidable templates] (g : Graph) (c : Call) : Decidable (g.RegularOrTemplate templates c) :=
  inferInstanceAs (Decidable (_ ∨ _ ∧ templates))

/-- A node `2` with a placeholder `y`, over a template with a leaf `y` that is bound to nothing, and two nodes that keep and remove `y` of it;
it is the template of a node `6` with an entry under `y`. -/
def overTemplateCalls : List Call :=
  [.createData false, .createLeaf, .setName 1 "y", .appendChild 0 1,
    .createData false, .createLeaf, .setName 3 "y", .setParam 3 true, .appendChild 2 3, .setProto 2 (some 0),
    .createData false, .appendChild 4 2, .setFilter 4 "keep(y)", .createData false, .appendChild 5 2, .setFilter 5 "remove(y)",
    .createData false, .createPayload .int (.ints [1]), .createLeaf, .setName 7 "y", .setData 7 (some 0), .appendChild 6 7,
    .setProto 6 (some 2)]

/-- The relays are pulled, and then the node that binds the placeholder. -/
def lateChannelCalls : List Call :=
  overTemplateCalls ++ [.createRequest 4 [], .pull 2, .createRequest 5 [], .pull 7, .createRequest 6 [], .pull 10]

theorem throughout_lateChannelCalls : (new Registry.empty {}).Throughout (RegularOrTemplate True) lateChannelCalls := by decide +kernel

theorem relays_lateChannelCalls :
    ((new Registry.empty {}).after lateChannelCalls).Relays 4 2 ⟨.keep, .order ["y"]⟩ ∧
      ((new Registry.empty {}).after lateChannelCalls).Relays 5 2 ⟨.remove, .order ["y"]⟩ :=
  ⟨⟨⟨[2], none, none, some ⟨.keep, .order ["y"]⟩, none⟩, by decide +kernel, rfl, rfl, rfl, rfl⟩,
    ⟨⟨[2], none, none, some ⟨.remove, .order ["y"]⟩, none⟩, by decide +kernel, rfl, rfl, rfl, rfl⟩⟩

theorem materialized_lateChannelCalls : ∀ n ∈ [2, 4, 5], ((new Registry.empty {}).after lateChannelCalls).Materialized n := by
  have h : ∀ n ∈ [2, 4, 5], (((new Registry.empty {}).after lateChannelCalls).instanceAt? n Substitution.empty.fullKey).isSome := by
    decide +kernel
  exact h

theorem finalChannels_lateChannelCalls :
    ((new Registry.empty {}).after lateChannelCalls).finalChannels 2 .empty = [("y", 0)] ∧
      ((new Registry.empty {}).after lateChannelCalls).finalChannels 4 .empty = [] ∧
      ((new Registry.empty {}).after lateChannelCalls).finalChannels 5 .empty = [] :=
  ⟨by decide +kernel, by decide +kernel, by decide +kernel⟩

theorem not_parts_lateChannelCalls : ¬ ((new Registry.empty {}).after lateChannelCalls).Parts (.order ["y"]) 2 4 5 := by
  obtain ⟨hwhole, hkept, -⟩ := finalChannels_lateChannelCalls
  rintro ⟨h, -⟩
  have := (h ("y", 0)).2 ⟨hwhole ▸ List.mem_singleton_self _, List.mem_singleton_self _⟩
  rw [hkept] at this
  cases this

/-- Two nodes that only pass one on, the one keeping and the other removing what a mapping lists, have no channels and no processes of their
own: acquiring them creates neither, and then they part what the node below them exposes. All regular calls keep it so, exactly as long as
there are no templates. -/
theorem filters_select_without_copying (templates : Prop) :
    (∀ (g : Graph) (m : Mapping) (c kept removed : NodeId), g.Reachable → m.Distinct → g.Materialized c → g.Relays kept c ⟨.keep, m⟩ →
      g.Relays removed c ⟨.remove, m⟩ →
      (g.after (acquiring [kept, removed])).store = g.store ∧ (g.after (acquiring [kept, removed])).processes = g.processes ∧
      (g.after (acquiring [kept, removed])).finalChannels c .empty = g.finalChannels c .empty ∧
      (g.after (acquiring [kept, removed])).Materialized kept ∧ (g.after (acquiring [kept, removed])).Materialized removed ∧
      ((∀ i ∈ g.instances.values, i.owner ≠ kept ∧ i.owner ≠ removed) →
        (g.after (acquiring [kept, removed])).Parts m c kept removed)) ∧
    ((∀ descriptors registry log config calls (m : Mapping) (c kept removed : NodeId),
      Registry.empty.registerAll descriptors = .ok (registry, log) →
      (new registry config).Throughout (RegularOrTemplate templates) calls → m.Distinct →
      ((new registry config).after calls).Relays kept c ⟨.keep, m⟩ → ((new registry config).after calls).Relays removed c ⟨.remove, m⟩ →
      (∀ n ∈ [c, kept, removed], ((new registry config).after calls).Materialized n) →
      ((new registry config).after calls).Parts m c kept removed) ↔ ¬ templates) := by
  refine ⟨fun g m c kept removed h hm hc hk hr => h.acquire_relays hm hc hk hr, fun h ht => ?_, fun ht descriptors registry log config calls m
    c kept removed hreg hcalls hm hk hr hmade => ?_⟩
  · refine not_parts_lateChannelCalls (h [] _ _ {} lateChannelCalls (.order ["y"]) 2 4 5 rfl ?_ trivial relays_lateChannelCalls.1
      relays_lateChannelCalls.2 materialized_lateChannelCalls)
    exact throughout_lateChannelCalls.mono fun _ _ hc => hc.imp_right fun hc => ⟨hc.1, ht⟩
  · have hregular : (new registry config).Throughout Regular calls := hcalls.mono fun _ _ hc => hc.resolve_right fun hc => ht hc.2
    obtain ⟨hend, -⟩ := (maintained_new registry config (Registry.wellNamed_empty.registerAll hreg)).after hregular
    exact hend.consistent.parts hm hk hr (hmade c (by simp)) (hmade kept (by simp)) (hmade removed (by simp))

/-- A node over leaves `x` and `y`, one that keeps `y` of it under the name `x`, and one that removes `y`. -/
def renamedCalls : List Call :=
  [.createData false, .createPayload .int (.ints [1]), .createLeaf, .setName 1 "x", .setData 1 (some 0), .appendChild 0 1,
    .createLeaf, .setName 2 "y", .setData 2 (some 0), .appendChild 0 2,
    .createData false, .appendChild 3 0, .setFilter 3 "keep(\x7bx: y\x7d)", .createData false, .setSource 4 (some 0),
    .setFilter 4 "remove(\x7bx: y\x7d)"]

theorem filters_select_without_copying_renamed :
    (((new Registry.empty {}).after (renamedCalls ++ acquiring [0])).after (acquiring [3, 4])).Parts (.table [("x", "y")]) 0 3 4 ∧
      (((new Registry.empty {}).after (renamedCalls ++ acquiring [0])).after (acquiring [3, 4])).finalChannels 0 .empty =
        [("x", 0), ("y", 1)] ∧
      (((new Registry.empty {}).after (renamedCalls ++ acquiring [0])).after (acquiring [3, 4])).finalChannels 3 .empty = [("x", 1)] ∧
      (((new Registry.empty {}).after (renamedCalls ++ acquiring [0])).after (acquiring [3, 4])).finalChannels 4 .empty = [("x", 0)] ∧
      ((new Registry.empty {}).after (renamedCalls ++ [.createRequest 3 [], .pull 2, .createRequest 4 [], .pull 6])).Parts
        (.table [("x", "y")]) 0 3 4 := by
  have hmade : (((new Registry.empty {}).after (renamedCalls ++ acquiring [0])).instanceAt? 0 Substitution.empty.fullKey).isSome := by
    decide +kernel
  have hpulled : ∀ n ∈ [0, 3, 4], (((new Registry.empty {}).after (renamedCalls ++
      [.createRequest 3 [], .pull 2, .createRequest 4 [], .pull 6])).instanceAt? n Substitution.empty.fullKey).isSome := by
    decide +kernel
  have hdistinct : (Mapping.table [("x", "y")]).Distinct := List.nodup_singleton _
  refine ⟨?_, by decide +kernel, by decide +kernel, by decide +kernel, ?_⟩
  · refine ((filters_select_without_copying False).1 _ (.table [("x", "y")]) 0 3 4 ⟨_, _, _, rfl⟩ hdistinct hmade
      ⟨⟨[0], none, none, some ⟨.keep, .table [("x", "y")]⟩, none⟩, by decide +kernel, rfl, rfl, rfl, rfl⟩
      ⟨⟨[], some 0, none, some ⟨.remove, .table [("x", "y")]⟩, none⟩, by decide +kernel, rfl, rfl, rfl, rfl⟩).2.2.2.2.2 ?_
    decide +kernel
  · exact (filters_select_without_copying False).2.2 not_false [] _ _ {} _ (.table [("x", "y")]) 0 3 4 rfl (by decide +kernel) hdistinct
      ⟨⟨[0], none, none, some ⟨.keep, .table [("x", "y")]⟩, none⟩, by decide +kernel, rfl, rfl, rfl, rfl⟩
      ⟨⟨[], some 0, none, some ⟨.remove, .table [("x", "y")]⟩, none⟩, by decide +kernel, rfl, rfl, rfl, rfl⟩ hpulled

/-- A node and two relays of it that part its names are in use; then an instance of the node for a bound placeholder adds a channel, which
the node exposes for no binding as well, and neither relay does. -/
theorem relays_miss_channel :
    ((new Registry.empty {}).after lateChannelCalls).Reachable ∧
      (∀ n ∈ [2, 4, 5], ((new Registry.empty {}).after lateChannelCalls).Materialized n) ∧
      ((new Registry.empty {}).after lateChannelCalls).Relays 4 2 ⟨.keep, .order ["y"]⟩ ∧
      ((new Registry.empty {}).after lateChannelCalls).Relays 5 2 ⟨.remove, .order ["y"]⟩ ∧
      ((new Registry.empty {}).after lateChannelCalls).finalChannels 2 .empty = [("y", 0)] ∧
      ((new Registry.empty {}).after lateChannelCalls).finalChannels 4 .empty = [] ∧
      ((new Registry.empty {}).after lateChannelCalls).finalChannels 5 .empty = [] ∧
      ¬ ((new Registry.empty {}).after lateChannelCalls).Parts (.order ["y"]) 2 4 5 := by
  obtain ⟨hkeeps, hremoves⟩ := relays_lateChannelCalls
  obtain ⟨hwhole, hkept, hremoved⟩ := finalChannels_lateChannelCalls
  exact ⟨⟨_, _, _, rfl⟩, materialized_lateChannelCalls, hkeeps, hremoves, hwhole, hkept, hremoved, not_parts_lateChannelCalls⟩

end Graph

end Dataflow
