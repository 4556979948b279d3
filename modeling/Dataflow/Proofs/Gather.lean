import Dataflow.Proofs.Grown

/-!
# Gathering what flows in

While an instance is built, the nodes that flow into it are taken in turn: a leaf brings its entry or the channel that it is bound
to, and a data node, of which an instance is acquired first, brings the channels that it exposes. Once all are taken, the input port
is filled.
-/

namespace Dataflow

namespace Graph

variable {R : Substitution → Prop} {hands : List InstanceId} {busy : List ProcessId} {g g' g₀ : Graph} {n r : NodeId}
  {s : Substitution} {D : Design}

/-! ## What a live instance shows -/

theorem Reaches.below {port q : Port} {m : NodeId} (h : g.Reaches n port m q) : g.Below n m := by
  rcases h with ⟨rfl, -⟩ | ⟨d, hd, ⟨r, hr, hb⟩ | ⟨-, p, hp, hb⟩⟩
  · exact Leads.refl _
  · refine Leads.head ?_ hb
    rw [references_eq, hd]
    exact mem_references_of_mem_inflow hr
  · refine Leads.head ?_ hb
    rw [references_eq, hd]
    exact mem_references_of_proto hp

theorem mem_references_of_inflow (hD : g.design? n = some D) (hr : r ∈ inflow D) : r ∈ g.references n := by
  rw [references_eq, hD]
  exact mem_references_of_mem_inflow hr

theorem mem_references_of_template (hD : g.design? n = some D) (hr : D.proto = some r) : r ∈ g.references n := by
  rw [references_eq, hD]
  exact mem_references_of_proto hr

section Served

variable (hs : g.Sound R hands busy) {j : InstanceId} (hj : g.Serves r s j)

include hs hj

theorem Sound.built_of_serves (port : Port) : g.Built r (s.restrict (g.params r)) port := by
  obtain ⟨i, hi, rfl, hsub⟩ := hj
  have := (hs.faithful j i hi).1.built port
  rw [hsub] at this
  exact this

theorem Sound.known_of_serves {port : Port} {x : String} {c : ChannelId} (hc : g.chan r port x s = some c) :
    g.Known (.channel c) := by
  rw [← (hs.inSync_of_serves hj).chan_restrict hs.wired] at hc
  exact (hs.built_of_serves hj port).known_chan hc

/-- A channel that a live instance exposes is bound by its substitution, or belongs to a node at or below its owner. -/
theorem Sound.owned_of_serves {port : Port} {x : String} {c : ChannelId} (hc : g.chan r port x s = some c) :
    s.Binds c ∨ ∃ o l m q, g.store.wire? c = some (o, l) ∧ g.mapId m q = some o ∧ g.Reaches r port m q := by
  rw [← (hs.inSync_of_serves hj).chan_restrict hs.wired] at hc
  exact ((hs.built_of_serves hj port).owned_chan hc).imp_left .of_restrict

end Served

/-! ## The port while it is filled -/

/-- A port that is being filled stays so while an instance is acquired below. -/
theorem Filling.of_grown {port : Port} {base : Nat} {fs : List (String × Feed)} {t : Substitution}
    (hfill : g.Filling n port s base fs) (hn : g.InSync n) (hg : g.Grown g' r t)
    (hr : ¬ g.Below r n)
    (ht : ∀ c, t.Binds c → ∀ o l, g.store.wire? c = some (o, l) → g.mapId n port ≠ some o) :
    g'.Filling n port s base fs := by
  have hext := hg.extending
  have hcell : ∀ x k, g'.cell? n port x k = g.cell? n port x k := by
    intro x k
    rw [cell?, wiring?, data?, hg.nodes n hr, cell?, wiring?, data?]
  have hkey : ∀ x u, g'.keyAt n port x u = g.keyAt n port x u := hext.keyAt hn port
  have hchan : ∀ x, g'.chan n port x s = g.chan n port x s := fun x => by rw [chan, hkey, hcell, chan]
  refine ⟨fun x => ?_, fun e he => ?_, fun x c ch l m hc hu hch hm hw hseen => ?_, fun x k c hc hu => ?_⟩
  · rw [hkey, hcell, hchan, hext.draft (fun f hf => (hfill.feeds _ (mem_named.1 hf)).1) fun c w _ => hg.wires c w]
    refine (hfill.cell x).imp_right ?_
    rintro ⟨m, hm, hsh⟩
    refine ⟨m, (hext.mapId n port).trans hm, ?_⟩
    rcases hx : g.chan n port x s with _ | c
    · rw [hx] at hsh
      rw [hsh.eq_none_iff.1 rfl]
      trivial
    · rw [hx] at hsh
      obtain ⟨e, o, he, hw, hl⟩ := hsh.of_some
      rw [he]
      refine ⟨o, hg.wires c _ hw, ?_⟩
      rcases hl with ⟨hl, ho⟩ | ⟨hl, ho⟩ <;> rw [hl]
      · exact ⟨rfl, ho⟩
      · exact ho
  · obtain ⟨hk, hl⟩ := hfill.feeds e he
    refine ⟨hg.known hk, fun m hm => ?_⟩
    rw [hext.mapId] at hm
    have hl := hl m hm
    rcases hf : e.2 with c | z
    · rw [hf] at hl
      obtain ⟨o, l, hw, ho⟩ := hl
      exact ⟨o, l, hg.wires c _ hw, ho⟩
    · trivial
  · rw [hkey, hcell] at hc
    rw [hext.mapId] at hm
    have hunused : ¬ ∃ c', g.cell? n port x (g.keyAt n port x s) = some c' ∧ c'.uses ≠ 0 := by
      rintro ⟨c', hc', hu'⟩
      rw [hc] at hc'
      cases hc'
      exact hu' hu
    obtain ⟨m', hm', hsh⟩ := (hfill.cell x).resolve_left hunused
    have hx : g.chan n port x s = some ch := by rw [chan, hc]; exact hch
    rw [hx] at hsh
    obtain ⟨e, o, -, hwo, -⟩ := hsh.of_some
    have := hg.wires ch _ hwo
    rw [hw] at this
    obtain ⟨rfl, rfl⟩ := Prod.mk.inj (Option.some.inj this)
    rcases hg.seen ch hseen with hseen | hlt | hb
    · exact hfill.unseen x c ch _ m hc hu hch hm hwo hseen
    · exact absurd (Store.lt_next_of_wire? hwo) (Nat.not_lt.2 hlt)
    · exact ht ch hb m _ hwo hm
  · rw [hcell] at hc
    rw [hkey]
    exact hfill.others x k c hc hu

/-- The input port of a node while what flows in is gathered: of `called` instances are acquired, `done` are merged. -/
structure Gathering (R : Substitution → Prop) (hands : List InstanceId) (busy : List ProcessId) (g₀ : Graph) (n : NodeId)
    (s : Substitution) (called done : List NodeId) (fs : List (String × Feed)) (js : List InstanceId) (g : Graph) : Prop where
  building : Building R (js ++ hands) busy g₀ n s g
  filling : g.Filling n .input s g₀.store.channels.next fs
  named : ∀ x, named x fs = done.flatMap fun r => g.brought s x r
  served : List.Forall₂ (fun r j => g.Serves r s j) (called.filter fun r => (g.leaf? r).isNone) js
  subset : done ⊆ called
  others : ∀ q, q ≠ .input → ∀ x k c, g.cell? n q x k = some c → c.uses ≠ 0

section Forall₂

variable {α β : Type} {P : α → β → Prop}

theorem exists_of_forall₂ {l : List α} {l' : List β} (h : List.Forall₂ P l l') {a : α} (ha : a ∈ l) : ∃ b ∈ l', P a b := by
  induction h with
  | nil => exact absurd ha List.not_mem_nil
  | cons hp _ ih =>
    rcases List.mem_cons.1 ha with rfl | ha
    · exact ⟨_, List.mem_cons_self .., hp⟩
    · obtain ⟨b, hb, hpb⟩ := ih ha
      exact ⟨b, List.mem_cons_of_mem _ hb, hpb⟩

end Forall₂

/-- A graph that extends another one brings the same from what is served. -/
theorem Extends.brought (h : g.Extends g') (hw : g.Wired) (hw' : g'.Wired) {x : String}
    (hr : g.leaf? r = none → g.InSync r ∧ ∃ j, g.Serves r s j) : g'.brought s x r = g.brought s x r := by
  rw [Graph.brought, Graph.brought, h.sameDesign.leaf]
  rcases hl : g.leaf? r with _ | l
  · obtain ⟨hrs, j, hj⟩ := hr hl
    rw [h.chan_of_serves hrs hw hw' hj]
  · rfl

/-- What a node that flows in brings is a name of the input. -/
theorem mem_table_of_brought (hn : g.InSync n) (ha : g.Authored) (hw : g.Wired) (hD : g.design? n = some D) (hr : r ∈ inflow D)
    {x : String} (hx : g.brought s x r ≠ []) : x ∈ g.table n .input := by
  obtain ⟨d, hd, hwd⟩ := hn.wiredAt hw
  rw [design?_of_data? hd] at hD
  cases hD
  rw [hwd.input_eq hd]
  refine (mem_inputTable fun _ => ha.leaf?_source hd).2 ⟨r, hr, ?_⟩
  obtain ⟨f, hf⟩ := List.exists_mem_of_ne_nil _ hx
  rcases mem_brought.1 hf with ⟨l, hl, hlx, -⟩ | ⟨hl, c, hc, -⟩
  · rw [Brings, hl]
    exact hlx
  · rw [Brings, hl]
    exact mem_table_of_chan hc

/-- What an instance that is being built saw of another node's registrations is there. -/
theorem memo_of_node? (h : g'.node? n = g.node? n) : (g'.wiring? n).map (·.instances) = (g.wiring? n).map (·.instances) := by
  rw [wiring?, data?, h, wiring?, data?]

namespace Gathering

variable {called done : List NodeId} {fs : List (String × Feed)} {js : List InstanceId}

theorem covers (h : Gathering R hands busy g₀ n s called done fs js g) (hr : r ∈ called) (hl : g.leaf? r = none) :
    g.InSync r ∧ ∃ j, g.Serves r s j := by
  have hm : r ∈ called.filter fun r => (g.leaf? r).isNone := List.mem_filter.2 ⟨hr, by rw [hl]; rfl⟩
  obtain ⟨j, -, hj⟩ := exists_of_forall₂ h.served hm
  exact ⟨h.building.sound.inSync_of_serves hj, j, hj⟩

section Step

variable (hR : Regime R) (hs₀ : g₀.Sound R hands busy) (hsite : Site R g₀ n s) (hD : g₀.design? n = some D)
  (h : Gathering R hands busy g₀ n s called done fs js g) (hr : r ∈ inflow D)

include h hs₀ hsite in
theorem site : Site R g n s := hsite.of_grown hs₀ h.building.sound h.building.grown

include h hs₀ hD hr

theorem not_below : ¬ g.Below r n := by
  have hd := h.building.grown.extending.sameDesign
  exact fun hb => not_below_of_reference hs₀.authored.ranked (mem_references_of_inflow hD hr) (hd.below.1 hb)

include hsite

/-- One node more is acquired. -/
theorem acquired {g' : Graph} {j : InstanceId} (hl : g.leaf? r = none) (ha : Acquired R (js ++ hands) busy g r s g' j) :
    Gathering R hands busy g₀ n s (called ++ [r]) done fs (js ++ [j]) g' := by
  have here := h.site hs₀ hsite
  have hs := h.building.sound
  have hnb := h.not_below hs₀ hD hr
  have hext := ha.grown.extending
  have hnode := ha.grown.nodes n hnb
  have hrn : g₀.Below n r := Leads.head (mem_references_of_inflow hD hr) (Leads.refl _)
  have hperm : (j :: (js ++ hands)).Perm ((js ++ [j]) ++ hands) := by
    rw [List.append_assoc, List.singleton_append]
    exact List.perm_middle.symm
  refine ⟨⟨ha.sound.of_perm hperm, h.building.grown.trans ha.grown hrn fun c hc => .inr (.inr hc), fun m hm hmn => ?_, ?_⟩,
    h.filling.of_grown here.inSync ha.grown hnb fun c hc o l hw => here.mapId_ne hs hc hw .input, fun x => ?_, ?_,
    fun a h' => List.mem_append_left _ (h.subset h'), fun q hq x k c hc => ?_⟩
  · exact ha.quietAt (h.building.quiet m (hext.sameDesign.below.1 hm) hmn)
  · exact (memo_of_node? hnode).trans h.building.memo
  · rw [h.named]
    exact List.flatMap_congr fun r' hr' =>
      (hext.brought hs.wired ha.sound.wired fun hl => h.covers (h.subset hr') hl).symm
  · rw [List.filter_append]
    refine List.rel_append ?_ ?_
    · simp only [hext.sameDesign.leaf]
      exact h.served.imp fun r' j' hj' => hext.serves (hs.inSync_of_serves hj') hj'
    · rw [List.filter_cons_of_pos (by rw [hext.sameDesign.leaf, hl]; rfl)]
      exact .cons ha.serves .nil
  · rw [cell?, wiring?, data?, hnode] at hc
    exact h.others q hq x k c hc

include hR

/-- One node more is merged. -/
theorem merged (hcall : r ∈ called) {fs' : List (String × Feed)} (hnamed : ∀ x, Dataflow.named x fs' = g.brought s x r)
    (htable : ∀ e ∈ fs', e.1 ∈ g.table n .input) (hknown : ∀ e ∈ fs', g.Known e.2)
    (hlends : ∀ e ∈ fs', ∀ m, g.mapId n .input = some m → g.store.Lends m e.2) :
    Gathering R hands busy g₀ n s called (done ++ [r]) (fs ++ fs') js (g.mergeFeeds n .input s fs') := by
  have here := h.site hs₀ hsite
  have hs := h.building.sound
  have hd := h.building.grown.extending.sameDesign
  have hD' : g.design? n = some D := (hd.design n).trans hD
  have hfeeds : ∀ e ∈ fs', g.feeds n s e.1 .input ≠ [] := by
    intro e he
    have hm : e.2 ∈ g.brought s e.1 r := by
      rw [← hnamed]
      exact mem_named.2 he
    rw [feeds_input _ _ hD']
    exact List.ne_nil_of_mem (List.mem_flatMap.2 ⟨r, hr, hm⟩)
  obtain ⟨hs', hext, hfill, href, hseen⟩ := Filling.steps fs' hs here.inSync h.building.grown.extending.next h.filling htable hknown
    hlends fun e he id i hi _ hk => here.shares hs hR (hfeeds e he) id i hi hk
  refine ⟨⟨hs', h.building.grown.of_refilled (Nat.le_refl _) hext href hseen, fun m hm hmn port x k c hc => ?_, ?_⟩, hfill, fun x => ?_, ?_, ?_,
    fun q hq x k c hc => ?_⟩
  · rw [cell?, wiring?, data?, href.nodes m hmn] at hc
    exact h.building.quiet m (hext.sameDesign.below.1 hm) hmn port x k c hc
  · rw [← h.building.memo]
    obtain ⟨w, hw, -⟩ := here.inSync
    obtain ⟨w', hw', hsame⟩ := href.recached.wiring hw
    rw [hw, hsame, Option.map_some, Option.map_some, hw'.instances]
  · rw [named_append, h.named, hnamed, List.flatMap_append, List.flatMap_singleton]
    congr 1
    · exact List.flatMap_congr fun r' hr' => (hext.brought hs.wired hs'.wired fun hl => h.covers (h.subset hr') hl).symm
    · exact (hext.brought hs.wired hs'.wired fun hl => h.covers hcall hl).symm
  · simp only [hext.sameDesign.leaf]
    exact h.served.imp fun r' j' hj' => hext.serves (hs.inSync_of_serves hj') hj'
  · exact List.append_subset.2 ⟨h.subset, fun a ha => by rw [List.mem_singleton.1 ha]; exact hcall⟩
  · rw [href.cells q hq] at hc
    exact h.others q hq x k c hc

end Step

/-! ## The nodes that flow in, one after the other -/

/-- A leaf flows in. -/
theorem leaf {l : Leaf} (hl : g.leaf? r = some l) (hR : Regime R) (hs₀ : g₀.Sound R hands busy) (hsite : Site R g₀ n s) (hD : g₀.design? n = some D) (hr : r ∈ inflow D)
    (h : Gathering R hands busy g₀ n s done done fs js g) :
    ∃ fs', Gathering R hands busy g₀ n s (done ++ [r]) (done ++ [r]) fs' js (mergeLeaf n s g l) := by
  have here := h.site hs₀ hsite
  have hs := h.building.sound
  have he : mergeLeaf n s g l = g.mergeFeeds n .input s ((l.feed? s).toList.map fun f => (l.name, f)) := by
    rw [mergeLeaf, Leaf.feed?]
    rcases (if l.param = true then s.get? l.name else none) with _ | c <;> rcases l.entry with _ | e <;> rfl
  have hcall : Gathering R hands busy g₀ n s (done ++ [r]) done fs js g := by
    refine ⟨h.building, h.filling, h.named, ?_, fun a ha => List.mem_append_left _ ha, h.others⟩
    rw [List.filter_append, List.filter_cons_of_neg (by rw [hl]; exact Bool.false_ne_true), List.filter_nil, List.append_nil]
    exact h.served
  have hbr : ∀ x, g.brought s x r = if l.name = x then (l.feed? s).toList else [] := fun x => by rw [brought, hl]
  refine ⟨_, he ▸ hcall.merged hR hs₀ hsite hD hr (List.mem_append_right _ (List.mem_singleton_self _)) (fun x => ?_) (fun e he => ?_)
    (fun e he => ?_) fun e he m hm => ?_⟩
  · rw [hbr]
    rcases l.feed? s with _ | f
    · rw [Option.toList_none, List.map_nil, ite_self]
      rfl
    · exact named_singleton x l.name f
  · obtain ⟨f, hf, rfl⟩ := List.mem_map.1 he
    refine mem_table_of_brought here.inSync hs.authored hs.wired ((h.building.grown.extending.sameDesign.design n).trans hD) hr
      (s := s) ?_
    rw [hbr, if_pos rfl]
    exact List.ne_nil_of_mem hf
  · obtain ⟨f, hf, rfl⟩ := List.mem_map.1 he
    rw [Option.mem_toList] at hf
    rw [Leaf.feed?] at hf
    rcases hb : (if l.param = true then s.get? l.name else none) with _ | c <;> rw [hb] at hf
    · rcases hle : l.entry with _ | e <;> rw [hle] at hf
      · cases hf
      · cases hf
        exact hs.leaves r l e hl hle
    · cases hf
      split at hb
      · exact (here.foreign c ⟨_, hb⟩).1
      · cases hb
  · obtain ⟨f, hf, rfl⟩ := List.mem_map.1 he
    rw [Option.mem_toList, Leaf.feed?] at hf
    rcases hb : (if l.param = true then s.get? l.name else none) with _ | c <;> rw [hb] at hf
    · rcases hle : l.entry with _ | e <;> rw [hle] at hf <;> cases hf
      trivial
    · cases hf
      split at hb
      · obtain ⟨o, l', hw, -⟩ := (here.foreign c ⟨_, hb⟩).1
        refine ⟨o, l', hw, ?_⟩
        rintro rfl
        exact here.mapId_ne hs ⟨_, hb⟩ hw .input hm
      · cases hb

/-- A data node flows in. -/
theorem data {ρ : NodeId → Nat} {acquire : Acquire} (hacq : Acquires R ρ (ρ n) acquire) (hρ : g₀.Ranked ρ)
    (hl : g.leaf? r = none) (hidle : g₀.Idle busy n) (hR : Regime R) (hs₀ : g₀.Sound R hands busy) (hsite : Site R g₀ n s)
    (hD : g₀.design? n = some D) (hr : r ∈ inflow D) (h : Gathering R hands busy g₀ n s done done fs js g) :
    ∃ g' fs' j, mergeOutputs acquire n s g r = (g', [j]) ∧
      Gathering R hands busy g₀ n s (done ++ [r]) (done ++ [r]) fs' (js ++ [j]) g' := by
  have here := h.site hs₀ hsite
  have hs := h.building.sound
  have hext₀ := h.building.grown.extending
  have hd := hext₀.sameDesign
  have hrn : r ∈ g.references n := by
    rw [hd.references]
    exact mem_references_of_inflow hD hr
  have hbelow : g.Below n r := Leads.head hrn (Leads.refl _)
  have hready : Ready R (js ++ hands) busy g r s := by
    refine ⟨hs, here.suited r hrn, ?_, hR.restrict _ _ here.regime, (here.foreign.below hbelow).restrict _, ?_, fun m hm => ?_⟩
    · obtain ⟨d, hd⟩ := exists_data_of_leaf?_eq_none (hs.authored.live n r hrn) hl
      rw [hd]
      rfl
    · exact (hidle.of_extends hs₀.counted.busy hext₀).below hbelow
    · refine h.building.quiet m (hbelow.trans hm) ?_
      rintro rfl
      exact h.not_below hs₀ hD hr hm
  have hρ' : g.Ranked ρ := fun m k hk => hρ m k (by rw [hd.references] at hk; exact hk)
  obtain ⟨g₁, j, hacq, ha⟩ := hacq _ _ g r s hρ' (hρ' n r hrn) hready
  have h₁ := h.acquired hs₀ hsite hD hr hl ha
  have here₁ := h₁.site hs₀ hsite
  have hs₁ := h₁.building.sound
  have hd₁ := h₁.building.grown.extending.sameDesign
  have hl₁ : g₁.leaf? r = none := (ha.grown.extending.sameDesign.leaf r).trans hl
  have hmem : ∀ e ∈ (g₁.finalChannels r s).map fun e => (e.1, Feed.channel e.2), ∃ c, e.2 = .channel c ∧
      g₁.chan r .output e.1 s = some c := by
    intro e he
    obtain ⟨⟨x, c⟩, hm, rfl⟩ := List.mem_map.1 he
    exact ⟨c, rfl, mem_finalChannels.1 hm⟩
  have hbrings : ∀ x, Dataflow.named x ((g₁.finalChannels r s).map fun e => (e.1, Feed.channel e.2)) = g₁.brought s x r := by
    intro x
    rw [brought, hl₁]
    exact named_channels (nodup_finalChannels s) x fun c => mem_finalChannels
  have hm := h₁.merged hR hs₀ hsite hD hr (List.mem_append_right _ (List.mem_singleton_self _)) hbrings (fun e he => ?_)
    (fun e he => ?_) fun e he m hm => ?_
  · refine ⟨_, _, j, ?_, hm⟩
    rw [mergeOutputs, hacq, ← mergeChannels_eq]
  · obtain ⟨c, -, hc⟩ := hmem e he
    refine mem_table_of_brought here₁.inSync hs₁.authored hs₁.wired ((hd₁.design n).trans hD) hr (s := s) ?_
    rw [brought, hl₁]
    simp only [hc]
    exact List.cons_ne_nil _ _
  · obtain ⟨c, hec, hc⟩ := hmem e he
    rw [hec]
    exact hs₁.known_of_serves ha.serves hc
  · obtain ⟨c, hec, hc⟩ := hmem e he
    obtain ⟨o, l, hw, -⟩ := hs₁.known_of_serves ha.serves hc
    rw [hec]
    refine ⟨o, l, hw, ?_⟩
    rintro rfl
    -- the channel is bound, or belongs to a node below
    rcases hs₁.owned_of_serves ha.serves hc with hb | ⟨o', l', m', q, hw', hm', hreach⟩
    · exact here₁.mapId_ne hs₁ hb hw .input hm
    · rw [hw] at hw'
      obtain ⟨rfl, rfl⟩ := Prod.mk.inj (Option.some.inj hw')
      obtain ⟨rfl, -⟩ := hs₁.anchored.injective _ _ _ _ _ hm hm'
      exact h₁.not_below hs₀ hD hr hreach.below

/-- The children flow in, one after the other. -/
theorem children {ρ : NodeId → Nat} {acquire : Acquire} (hacq : Acquires R ρ (ρ n) acquire) (hρ : g₀.Ranked ρ)
    (hidle : g₀.Idle busy n) (hR : Regime R) (hs₀ : g₀.Sound R hands busy) (hsite : Site R g₀ n s) (hD : g₀.design? n = some D) :
    ∀ (rs : List NodeId) {g : Graph} {done : List NodeId} {fs : List (String × Feed)} {js : List InstanceId},
      (∀ r ∈ rs, r ∈ inflow D) → Gathering R hands busy g₀ n s done done fs js g →
      ∃ g' fs' js', rs.foldl (fun (g, instances) child => match g.leaf? child with
          | some l => (mergeLeaf n s g l, instances)
          | none =>
            let (g, more) := mergeOutputs acquire n s g child
            (g, instances ++ more)) (g, js) = (g', js') ∧
        Gathering R hands busy g₀ n s (done ++ rs) (done ++ rs) fs' js' g' := by
  intro rs
  induction rs with
  | nil =>
    intro g done fs js _ h
    exact ⟨g, fs, js, rfl, by rw [List.append_nil]; exact h⟩
  | cons r rs ih =>
    intro g done fs js hrs h
    have hr := hrs r (List.mem_cons_self ..)
    have hrs' : ∀ r ∈ rs, r ∈ inflow D := fun r hr => hrs r (List.mem_cons_of_mem _ hr)
    rw [List.foldl_cons]
    rcases hl : g.leaf? r with _ | l
    · obtain ⟨g', fs', j, hm, h'⟩ := h.data hacq hρ hl hidle hR hs₀ hsite hD hr
      obtain ⟨g'', fs'', js'', he, h''⟩ := ih hrs' h'
      refine ⟨g'', fs'', js'', ?_, by rw [List.append_assoc] at h''; exact h''⟩
      rw [← he]
      simp only [hl, hm]
    · obtain ⟨fs', h'⟩ := h.leaf hl hR hs₀ hsite hD hr
      obtain ⟨g'', fs'', js'', he, h''⟩ := ih hrs' h'
      refine ⟨g'', fs'', js'', ?_, by rw [List.append_assoc] at h''; exact h''⟩
      rw [← he]
      simp only [hl]

end Gathering

/-! ## The input port, once filled -/

/-- A port that is filled for an instance that is being built since `g₀`: its cells that nobody uses yet are the instance's, and the
channels that it shows were seen before, or are new, or bound. -/
structure Filled (g₀ g : Graph) (n : NodeId) (s : Substitution) (port : Port) : Prop where
  built : g.Built n s port
  pending : ∀ x k c, g.cell? n port x k = some c → c.uses = 0 → k = g.keyAt n port x s
  origin : ∀ x c, g.chan n port x s = some c → g₀.Seen c ∨ g₀.store.channels.next ≤ c ∨ s.Binds c

/-- A channel of a port that is being filled is seen by a live instance, or new, or one that is merged. -/
theorem Filling.origin (hs : g.Sound R hands busy) (hR : Regime R) (hsub : R s) {port : Port} {base : Nat}
    {fs : List (String × Feed)} (hfill : g.Filling n port s base fs) {x : String} {c : ChannelId}
    (hc : g.chan n port x s = some c) : g.Seen c ∨ base ≤ c ∨ .channel c ∈ named x fs := by
  rcases hfill.cell x with ⟨cell, hcell, hu⟩ | ⟨m, hm, hsh⟩
  · rw [hs.stocked.uses _ _ _ _ _ hcell] at hu
    obtain ⟨id, i, hi, ho, hk⟩ := sharers_ne_zero.1 hu
    subst ho
    refine .inl ⟨id, i, hi, .inr ⟨port, x, ?_⟩⟩
    rw [g.chan_congr (hR.keys _ _ _ (hs.faithful id i hi).2 hsub hk)]
    exact hc
  · rw [hc] at hsh
    obtain ⟨e, o, he, -, ⟨hl, -⟩ | ⟨-, -, hb⟩⟩ := hsh.of_some
    · exact .inr (.inr (Store.of_lender he hl).1)
    · exact .inr (.inl hb)

/-- Merging what flows in fills the input port, and leaves the other ports alone. -/
theorem mergeInputs_spec {ρ : NodeId → Nat} {acquire : Acquire} (hacq : Acquires R ρ (ρ n) acquire) (hρ : g₀.Ranked ρ)
    (hidle : g₀.Idle busy n) (hR : Regime R) (hs₀ : g₀.Sound R hands busy) (hsite : Site R g₀ n s)
    (hquiet : ∀ m, g₀.Below n m → g₀.QuietAt m) {d : DataNode} (hd : g₀.data? n = some d) :
    ∃ g js, mergeInputs acquire n s g₀ d = (g, js) ∧ Building R (js ++ hands) busy g₀ n s g ∧ g₀.Filled g n s .input ∧
      List.Forall₂ (fun r j => g.Serves r s j) ((inflow d.design).filter fun r => (g.leaf? r).isNone) js ∧
      ∀ q, q ≠ .input → ∀ x k c, g.cell? n q x k = some c → c.uses ≠ 0 := by
  have hD := design?_of_data? hd
  have hq := hquiet n (Leads.refl _)
  have h₀ : Gathering R hands busy g₀ n s [] [] [] [] g₀ :=
    ⟨⟨hs₀, .refl .., fun m hm _ => hquiet m hm, rfl⟩, .start hsite.inSync (fun x k c hc => hq _ x k c hc) s _, fun _ => rfl, .nil,
      List.Subset.refl _, fun q _ => hq q⟩
  obtain ⟨g, fs, js, he, h⟩ : ∃ g fs js, mergeInputs acquire n s g₀ d = (g, js) ∧
      Gathering R hands busy g₀ n s (inflow d.design) (inflow d.design) fs js g := by
    rcases hsrc : d.source with _ | r
    · have hin : inflow d.design = d.children := by rw [inflow, DataNode.design, hsrc]
      obtain ⟨g, fs, js, he, h⟩ := h₀.children hacq hρ hidle hR hs₀ hsite hD d.children fun r hr => by rw [hin]; exact hr
      refine ⟨g, fs, js, ?_, by rw [hin]; exact h⟩
      simp only [mergeInputs, hsrc]
      exact he
    · have hin : inflow d.design = [r] := by rw [inflow, DataNode.design, hsrc]
      obtain ⟨g, fs, j, he, h⟩ := h₀.data hacq hρ (hs₀.authored.leaf?_source hd hsrc) hidle hR hs₀ hsite hD
        (by rw [hin]; exact List.mem_singleton_self _)
      refine ⟨g, fs, [j], ?_, by rw [hin]; exact h⟩
      simp only [mergeInputs, hsrc]
      exact he
  have here := h.site hs₀ hsite
  have hs := h.building.sound
  have hd' := h.building.grown.extending.sameDesign
  have hD' : g.design? n = some d.design := (hd'.design n).trans hD
  have hfs : ∀ x, named x fs = g.feeds n s x .input := fun x => by rw [h.named, feeds_input _ _ hD']
  -- a channel that flows in is bound, or shown by what is served
  have hflow : ∀ x c, .channel c ∈ g.feeds n s x .input → s.Binds c ∨
      ∃ r ∈ inflow d.design, ∃ j, g.Serves r s j ∧ g.chan r .output x s = some c := by
    intro x c hc
    rw [feeds_input _ _ hD', List.mem_flatMap] at hc
    obtain ⟨r, hr, hc⟩ := hc
    rcases mem_brought.1 hc with ⟨l, -, -, hl⟩ | ⟨hl, c', hc', hcc⟩
    · rw [Leaf.feed?] at hl
      rcases hb : (if l.param = true then s.get? l.name else none) with _ | c' <;> rw [hb] at hl
      · rcases hle : l.entry with _ | e <;> rw [hle] at hl <;> simp at hl
      · cases hl
        split at hb
        · exact .inl ⟨_, hb⟩
        · cases hb
    · cases hcc
      obtain ⟨-, j, hj⟩ := h.covers hr hl
      exact .inr ⟨r, hr, j, hj, hc'⟩
  refine ⟨g, js, he, h.building, ⟨h.filling.built hR hs here.regime hfs (fun x id i _ _ ha => ?_) fun x c hc => ?_,
    h.filling.others, fun x c hc => ?_⟩, h.served, h.others⟩
  · exact feeds_agree hs here.inSync here.orderly ha
  · rcases hflow x c hc with hb | ⟨r, hr, j, hj, hcr⟩
    · exact .inl hb
    · rcases hs.owned_of_serves hj hcr with hb | ⟨o, l, m, q, hw, hm, hreach⟩
      · exact .inl hb
      · exact .inr ⟨o, l, m, q, hw, hm, .inr ⟨d.design, hD', .inl ⟨r, hr, hreach.below⟩⟩⟩
  · rcases h.filling.origin hs hR here.regime hc with hseen | hb | hf
    · exact h.building.grown.seen c hseen
    · exact .inr (.inl hb)
    · rw [hfs] at hf
      rcases hflow x c hf with hb | ⟨r, hr, j, hj, hcr⟩
      · exact .inr (.inr hb)
      · exact h.building.grown.seen c (hj.seen (hs.inSync_of_serves hj) hs.wired hcr)

end Graph

end Dataflow
