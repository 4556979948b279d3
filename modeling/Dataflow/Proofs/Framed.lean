import Dataflow.Proofs.Frames

/-!
# Framed graphs: which tables are to be trusted in the middle of a call

Between calls the nodes in sync are wired, and the others blank, with everything above them. In the middle of a call some nodes are still
to be told of a change of structure, and one may be about to be emptied. What is said of tables then leaves these out.
-/

namespace Dataflow

/-- The tables of a node that is not in sync. -/
def Tables.blank : Tables := ⟨∅, ∅, ∅, none, ∅⟩

namespace Frame

/-- The frame of a node that is not in sync. -/
def blank : Frame := ⟨true, .blank, ∅⟩

/-- The frame with the tables of all ports emptied. -/
def emptied (f : Frame) : Frame := { f with tables := { f.tables with input := ∅, extended := ∅, output := ∅ } }

end Frame

theorem Wiring.emptied_unwired (w : Wiring) : w.unwired.frame.emptied = .blank := rfl

namespace Graph

variable {κ : Call} {τ τ' : Work} {g g' : Graph} {n : NodeId}

/-- The references of a graph lead to live nodes and close no cycle; sources and templates are data nodes, and what has a source has no
children. -/
structure Designed (g : Graph) : Prop where
  live : ∀ n, ∀ r ∈ g.references n, (g.node? r).isSome
  acyclic : ∀ n, ¬ g.StrictlyBelow n n
  dataRefs : ∀ n d, g.design? n = some d → ∀ r, d.source = some r ∨ d.proto = some r → (g.data? r).isSome
  single : ∀ n d, g.design? n = some d → ∀ r, d.source = some r → d.children = []

theorem Authored.designed (ha : g.Authored) : g.Designed := ⟨ha.live, ha.acyclic, ha.dataRefs, ha.single⟩

theorem isSome_data?_of_design? (h : g'.design? n = g.design? n) : (g'.data? n).isSome = (g.data? n).isSome := by
  have := congrArg Option.isSome h
  rwa [design?, design?, Option.isSome_map, Option.isSome_map] at this

theorem Designed.congr (h : g.Designed) (hnode : ∀ m, (g'.node? m).isSome = (g.node? m).isSome)
    (hdesign : ∀ m, g'.design? m = g.design? m) : g'.Designed := by
  have hr : g'.references = g.references := funext fun m => by rw [references_eq, references_eq, hdesign]
  refine ⟨fun n r hnr => ?_, fun n hn => ?_, fun n d hd r hr => ?_, fun n d hd => h.single n d (hdesign n ▸ hd)⟩
  · rw [hnode]
    exact h.live n r (hr ▸ hnr)
  · rw [StrictlyBelow, hr] at hn
    exact h.acyclic n hn
  · rw [isSome_data?_of_design? (hdesign r)]
    exact h.dataRefs n d (hdesign n ▸ hd) r hr

theorem Designed.leaf?_source (h : g.Designed) {d : DataNode} (hd : g.data? n = some d) {r : NodeId} (hr : d.source = some r) :
    g.leaf? r = none := by
  obtain ⟨d', hd'⟩ := Option.isSome_iff_exists.1 (h.dataRefs n d.design (design?_of_data? hd) r (.inl hr))
  exact leaf?_eq_none_of_data? hd'

/-- A node that is not in sync, or has to be told of a change of structure. -/
def Off (τ : Work) (g : Graph) (n : NodeId) : Prop := n ∈ τ.stale ∨ ∃ f, g.frame? n = some f ∧ f.outOfSync = true

/-- In the middle of a call: what is above a node that is off is off too, a node that is not off is wired, and a node that is not in
sync is blank, unless it is about to be emptied. -/
structure Framed (τ : Work) (g : Graph) : Prop where
  designed : g.Designed
  wired : ∀ n d, g.data? n = some d → ¬ Off τ g n → g.WiredAt d
  closed : ∀ n, ∀ r ∈ g.references n, Off τ g r → Off τ g n
  blank : ∀ n f, g.frame? n = some f → f.outOfSync = true → (∀ t ∈ τ.tear, t.node ≠ n) → f = .blank
  torn : ∀ t ∈ τ.tear, ∃ f, g.frame? t.node = some f ∧ f.outOfSync = true ∧ f.emptied = .blank

theorem Off.of_settled (hτ : τ.Settled) (h : Off τ g n) : ∃ f, g.frame? n = some f ∧ f.outOfSync = true := by
  rcases h with h | h
  · rw [hτ.stale] at h
    cases h
  · exact h

/-- A data node in sync is not off when nothing is to be told. -/
theorem not_off (hs : τ.stale = []) {d : DataNode} (hd : g.data? n = some d) (hin : d.wiring.outOfSync = false) : ¬ Off τ g n := by
  rintro (h | ⟨f, hf, ho⟩)
  · rw [hs] at h
    cases h
  · rw [frame?_of_data? hd] at hf
    cases hf
    rw [Wiring.frame, hin] at ho
    cases ho

theorem Framed.wired_of_settled (h : Framed τ g) (hs : τ.stale = []) : g.Wired := fun n d hd hin => h.wired n d hd (not_off hs hd hin)

/-! ## Steps that keep frames -/

theorem SameFrames.off (hs : g.SameFrames g') (hst : τ'.stale = τ.stale) : Off τ' g' n ↔ Off τ g n := by
  rw [Off, Off, hst, hs.frame]

theorem Framed.congr (h : Framed τ g) (hs : g.SameFrames g') (hst : τ'.stale = τ.stale)
    (ht : τ'.tear.map (·.node) = τ.tear.map (·.node)) : Framed τ' g' := by
  have htear : ∀ m, (∃ t ∈ τ'.tear, t.node = m) ↔ ∃ t ∈ τ.tear, t.node = m := fun m => by
    simp only [Option.mem_def, ← Option.map_eq_some_iff, ht]
  refine ⟨h.designed.congr hs.node hs.design, fun n d hd ho => ?_, fun n r hr ho => ?_, fun n f hf hout hne => ?_, fun t' ht' => ?_⟩
  · obtain ⟨e, he, hdes, hf⟩ := hs.data hd
    exact hs.wiredAt (h.wired n e he fun hoff => ho ((hs.off hst).2 hoff)) hdes hf
  · rw [hs.references] at hr
    exact (hs.off hst).2 (h.closed n r hr ((hs.off hst).1 ho))
  · rw [hs.frame] at hf
    exact h.blank n f hf hout fun t ht hn => by
      obtain ⟨t', ht', hn'⟩ := (htear n).2 ⟨t, ht, hn⟩
      exact hne t' ht' hn'
  · obtain ⟨t, ht, hn⟩ := (htear t'.node).1 ⟨t', ht', rfl⟩
    obtain ⟨f, hf, hrest⟩ := h.torn t ht
    exact ⟨f, by rw [hs.frame, ← hn]; exact hf, hrest⟩

/-! ## Getting in sync -/

theorem Framed.sync (h : Framed τ g) (hτ : τ.Settled) (ha : g.Authored) (n : NodeId) : Framed τ (g.synchronize n) := by
  obtain ⟨hs, hw, -, -⟩ := synchronize_spec ha (h.wired_of_settled hτ.stale) n
  have hd := hs.sameDesign
  refine ⟨h.designed.congr hs.rewired.isSome_node? hd.design, fun m d hm ho => ?_, fun m r hr ho => ?_, fun m f hf hout _ => ?_, fun t ht => ?_⟩
  · refine hw m d hm (Bool.eq_false_iff.2 fun hin => ho (.inr ⟨_, frame?_of_data? hm, hin⟩))
  · obtain ⟨e, he⟩ := exists_data_of_reference hr
    refine .inr ⟨_, frame?_of_data? he, ?_⟩
    by_contra hin
    obtain ⟨f, hf, hout⟩ := ho.of_settled hτ
    obtain ⟨e', he', rfl⟩ := exists_data_of_frame? hf
    have := (hw m e he (Bool.eq_false_iff.2 hin)).below r (references_of_data? he ▸ hr) e' he'
    rw [Wiring.frame, this] at hout
    cases hout
  · obtain ⟨d, hm, rfl⟩ := exists_data_of_frame? hf
    rcases hs.rewired.data? m with hsame | ⟨e, w, -, ⟨-, t, rfl⟩, hsame⟩
    · rw [frame?, wiring?, hsame] at hf
      exact h.blank m _ hf hout fun t ht => by
        rw [hτ.tear] at ht
        cases ht
    · rw [hsame] at hm
      cases hm
      cases hout
  · rw [hτ.tear] at ht
    cases ht

/-! ## Resets -/

/-- The wiring of one node changes; the nodes that refer to it are off. -/
theorem Framed.modifyWiring (h : Framed τ g) {f : Wiring → Wiring} (hst : ∀ m, m ∈ τ'.stale ↔ m ∈ τ.stale)
    (hoff : ∀ w, g.wiring? n = some w → (f w).outOfSync = true) (hup : ∀ m, n ∈ g.references m → Off τ g m) (hn : (g.wiring? n).isSome)
    (hblank : ∀ m a, (g.modifyWiring n f).frame? m = some a → a.outOfSync = true → (∀ t ∈ τ'.tear, t.node ≠ m) → a = .blank)
    (htorn : ∀ t ∈ τ'.tear, ∃ a, (g.modifyWiring n f).frame? t.node = some a ∧ a.outOfSync = true ∧ a.emptied = .blank) :
    Framed τ' (g.modifyWiring n f) := by
  have hr := rewired_modifyWiring g n f
  have hframe : ∀ m, m ≠ n → (g.modifyWiring n f).frame? m = g.frame? m := fun m hm => by
    rw [frame?, wiring?_modifyWiring, if_neg hm, frame?]
  have hself : Off τ' (g.modifyWiring n f) n := by
    obtain ⟨w, hw⟩ := Option.isSome_iff_exists.1 hn
    exact .inr ⟨(f w).frame, by rw [frame?, wiring?_modifyWiring, if_pos rfl, hw]; rfl, hoff w hw⟩
  have hother : ∀ m, m ≠ n → (Off τ' (g.modifyWiring n f) m ↔ Off τ g m) := fun m hm => by
    rw [Off, Off, hst, hframe m hm]
  have hmono : ∀ m, Off τ g m → Off τ' (g.modifyWiring n f) m := fun m hm => by
    by_cases hmn : m = n
    · exact hmn ▸ hself
    · exact (hother m hmn).2 hm
  have hclosed : ∀ m, ∀ r ∈ g.references m, Off τ' (g.modifyWiring n f) r → Off τ' (g.modifyWiring n f) m := by
    intro m r hmr ho
    by_cases hrn : r = n
    · exact hmono m (hup m (hrn ▸ hmr))
    · exact hmono m (h.closed m r hmr ((hother r hrn).1 ho))
  refine ⟨h.designed.congr hr.isSome_node? hr.design?, fun m d hd ho => ?_, fun m r hmr => ?_, hblank, htorn⟩
  · have hmn : m ≠ n := fun hmn => ho (hmn ▸ hself)
    rw [data?_modifyWiring, if_neg hmn] at hd
    have hwd := h.wired m d hd fun hoff' => ho (hmono m hoff')
    have hne : ∀ r ∈ d.references, r ≠ n := fun r hr hrn =>
      ho (hclosed m r (references_of_data? hd ▸ hr) (hrn ▸ hself))
    refine hwd.congr rfl rfl rfl rfl (fun r _ => leaf?_modifyWiring ..) (fun r hr => ?_) fun r hr e he => ?_
    · rw [exposed, wiring?_modifyWiring, if_neg (hne r hr), exposed]
    · rw [data?_modifyWiring, if_neg (hne r hr)] at he
      exact hwd.below r hr e he
  · rw [hr.references] at hmr
    exact hclosed m r hmr

theorem Framed.off_of_told (h : Framed τ g) (hup : n ∈ τ.stale ∨ ∀ m, n ∉ g.references m) {m : NodeId} (hm : n ∈ g.references m) :
    Off τ g m := by
  rcases hup with hn | hnone
  · exact h.closed m n hm (.inl hn)
  · exact absurd hm (hnone m)

theorem Framed.unwire (h : Framed τ g) (ht : τ.tear = none) {w : Wiring} (hw : g.wiring? n = some w)
    (hup : n ∈ τ.stale ∨ ∀ m, n ∉ g.references m) {ps : List ProcessId} {is : List InstanceId} :
    Framed (τ.tearing (some ⟨n, ps, is⟩)) (g.modifyWiring n Wiring.unwired) := by
  refine h.modifyWiring (fun _ => Iff.rfl) (fun _ _ => rfl) (fun m hm => h.off_of_told hup hm) (by rw [hw]; rfl) (fun m a ha hout hne => ?_)
    fun t htt => ?_
  · have hmn : m ≠ n := fun hmn => hne ⟨n, ps, is⟩ rfl hmn.symm
    rw [frame?, wiring?_modifyWiring, if_neg hmn] at ha
    exact h.blank m a ha hout fun t htt => by
      rw [ht] at htt
      cases htt
  · obtain rfl := Option.some.inj htt
    exact ⟨w.unwired.frame, by rw [frame?, wiring?_modifyWiring, if_pos rfl, hw]; rfl, rfl, w.emptied_unwired⟩

/-- The ports of a node that is being reset are emptied. -/
theorem Framed.empty (h : Framed τ g) {ps : List ProcessId} {is : List InstanceId} (ht : τ.tear = some ⟨n, ps, is⟩) :
    Framed (τ.tearing none) ([Port.input, .extended, .output].foldl (fun g port => g.clearPort n port) g) := by
  obtain ⟨f, hf, hout, hem⟩ := h.torn _ ht
  obtain ⟨w, hw, rfl⟩ := Option.map_eq_some_iff.1 hf
  rw [clearPorts_eq hw]
  have hs : Framed τ { g with store := w.releases ChannelMap.channels [.input, .extended, .output] g.store } :=
    h.congr (.of_nodes_eq rfl rfl) rfl rfl
  refine hs.modifyWiring (fun _ => Iff.rfl) (fun w' hw' => ?_) (fun m hm => hs.closed m n hm (.inr ⟨_, hf, hout⟩)) ?_ (fun m a ha hao _ => ?_)
    nofun
  · have hw' : g.wiring? n = some w' := hw'
    rw [hw] at hw'
    cases hw'
    exact hout
  · exact Option.isSome_iff_exists.2 ⟨w, hw⟩
  · rw [frame?, wiring?_modifyWiring] at ha
    by_cases hmn : m = n
    · rw [if_pos hmn, hmn] at ha
      obtain ⟨w', hw', rfl⟩ := Option.map_eq_some_iff.1 ha
      obtain ⟨w'', hw'', rfl⟩ := Option.map_eq_some_iff.1 hw'
      have hw'' : g.wiring? n = some w'' := hw''
      rw [hw] at hw''
      cases hw''
      rw [← hem]
      rfl
    · rw [if_neg hmn] at ha
      refine h.blank m a ha hao fun t htt hn => hmn ?_
      rw [ht] at htt
      cases htt
      exact hn.symm

/-- A node was told. -/
theorem Framed.told (h : Framed τ g) {ns : List NodeId} (hst : τ.stale = n :: ns) (hs : g.Unsynced n) : Framed (τ.telling ns) g := by
  have hsub : ∀ {m}, Off (τ.telling ns) g m → Off τ g m := by
    rintro m (hm | hm)
    · exact .inl (hst ▸ List.mem_cons_of_mem _ hm)
    · exact .inr hm
  have hdata : ∀ {m d}, g.data? m = some d → Off τ g m → Off (τ.telling ns) g m := by
    rintro m d hd (hm | hm)
    · rw [hst] at hm
      rcases List.mem_cons.1 hm with rfl | hm
      · exact .inr ⟨_, frame?_of_data? hd, hs _ (wiring?_of_data? hd)⟩
      · exact .inl hm
    · exact .inr hm
  refine ⟨h.designed, fun m d hd ho => h.wired m d hd fun hoff => ho (hdata hd hoff), fun m r hr ho => ?_, h.blank, h.torn⟩
  obtain ⟨d, hd⟩ := exists_data_of_reference hr
  exact hdata hd (h.closed m r hr (hsub ho))

/-! ## Edits -/

theorem Framed.edit (h : Framed τ g) (hτ : τ.Settled) (ht : Touched κ g g' n) : Framed (τ.telling (g'.ancestors n)) g' := by
  have hreg : g'.registry = g.registry := by
    obtain ⟨nodes, journal, he⟩ := ht.rest
    rw [he]
  have hframe : ∀ m, g'.frame? m = g.frame? m := fun m => by rw [frame?, ht.wiring?, frame?]
  have hmem : ∀ {m}, m ∈ (τ.telling (g'.ancestors n)).stale ↔ g'.Below m n := fun {m} => ht.authored.mem_ancestors
  have hrefs : ∀ m, m ≠ n → g'.references m = g.references m := fun m hm => by rw [references, ht.data m hm, references]
  have hself : Off (τ.telling (g'.ancestors n)) g' n := .inl (hmem.2 (.refl n))
  have hsub : ∀ {m}, Off τ g m → Off (τ.telling (g'.ancestors n)) g' m := fun {m} ho => by
    obtain ⟨f, hf, hout⟩ := ho.of_settled hτ
    exact .inr ⟨f, (hframe m).trans hf, hout⟩
  have hclosed : ∀ m, ∀ r ∈ g'.references m, Off (τ.telling (g'.ancestors n)) g' r → Off (τ.telling (g'.ancestors n)) g' m := by
    rintro m r hr (ho | ⟨f, hf, hout⟩)
    · exact .inl (hmem.2 (.head hr (hmem.1 ho)))
    · by_cases hm : m = n
      · exact hm ▸ hself
      · exact hsub (h.closed m r (hrefs m hm ▸ hr) (.inr ⟨f, (hframe r) ▸ hf, hout⟩))
  refine ⟨ht.authored.designed, fun m d hd ho => ?_, hclosed, fun m f hf hout _ => ?_, fun t htt => ?_⟩
  · have hm : m ≠ n := fun hm => ho (hm ▸ hself)
    have hne : ∀ r ∈ d.references, r ≠ n := fun r hr hrn => ho (hclosed m r (references_of_data? hd ▸ hr) (hrn ▸ hself))
    rw [ht.data m hm] at hd
    have hwd := h.wired m d hd fun hoff => ho (hsub hoff)
    refine hwd.congr hreg rfl rfl rfl (fun r hr => ht.leaf r (hne r hr)) (fun r hr => ?_) fun r hr e he => ?_
    · rw [exposed, wiring?, ht.data r (hne r hr), exposed, wiring?]
    · rw [ht.data r (hne r hr)] at he
      exact hwd.below r hr e he
  · exact h.blank m f (hframe m ▸ hf) hout fun t htt => by
      rw [hτ.tear] at htt
      cases htt
  · have htt : t ∈ τ.tear := htt
    rw [hτ.tear] at htt
    cases htt

/-- One node that refers to nothing, and to which nobody refers, comes or goes. -/
theorem Framed.isolated (h : Framed τ g) (hrefs : ∀ m, n ∉ g.references m) (hnode : ∀ m, m ≠ n → g'.node? m = g.node? m)
    (hn : ∀ d, g'.data? n = some d → d.references = [] ∧ d.wiring.frame = .blank) (hreg : g'.registry = g.registry)
    (hst : τ'.stale = τ.stale) (ht : τ'.tear = τ.tear) (hne : ∀ t ∈ τ.tear, t.node ≠ n) : Framed τ' g' := by
  have hdata : ∀ m, m ≠ n → g'.data? m = g.data? m := fun m hm => by rw [data?, hnode m hm, data?]
  have hnil : g'.references n = [] := by
    rcases hd : g'.data? n with _ | d
    · rw [references, hd]
      rfl
    · rw [references_of_data? hd]
      exact (hn d hd).1
  have hr : ∀ m, ∀ r ∈ g'.references m, m ≠ n ∧ r ∈ g.references m ∧ r ≠ n := by
    intro m r hmr
    have hm : m ≠ n := by
      rintro rfl
      rw [hnil] at hmr
      cases hmr
    rw [references, hdata m hm] at hmr
    exact ⟨hm, hmr, fun hrn => hrefs m (hrn ▸ hmr)⟩
  have hoff : ∀ m, m ≠ n → (Off τ' g' m ↔ Off τ g m) := fun m hm => by
    rw [Off, Off, hst, frame?, wiring?, hdata m hm, frame?, wiring?]
  have hclosed : ∀ m, ∀ r ∈ g'.references m, Off τ' g' r → Off τ' g' m := fun m r hmr ho => by
    obtain ⟨hm, hmr, hrn⟩ := hr m r hmr
    exact (hoff m hm).2 (h.closed m r hmr ((hoff r hrn).1 ho))
  refine ⟨⟨fun m r hmr => ?_, fun m hm => ?_, fun m d hd r hmr => ?_, fun m d hd r hmr => ?_⟩, fun m d hd ho => ?_, hclosed,
    fun m f hf hout hne' => ?_, fun t htt => ?_⟩
  · obtain ⟨-, hmr, hrn⟩ := hr m r hmr
    rw [hnode r hrn]
    exact h.designed.live m r hmr
  · exact h.designed.acyclic m (hm.of_references fun a b hb => (hr a b hb).2.1)
  · have hmem : r ∈ g'.references m := by
      rw [references_eq, hd]
      rcases hmr with hmr | hmr <;> simp [Design.references, hmr]
    obtain ⟨hm, -, hrn⟩ := hr m r hmem
    rw [hdata r hrn]
    rw [design?, hdata m hm] at hd
    exact h.designed.dataRefs m d hd r hmr
  · have hmem : r ∈ g'.references m := by
      rw [references_eq, hd]
      simp [Design.references, hmr]
    rw [design?, hdata m (hr m r hmem).1] at hd
    exact h.designed.single m d hd r hmr
  · have hm : m ≠ n := by
      rintro rfl
      exact ho (.inr ⟨_, frame?_of_data? hd, by rw [(hn d hd).2]; rfl⟩)
    have hne' : ∀ r ∈ d.references, r ≠ n := fun r hmr => (hr m r (references_of_data? hd ▸ hmr)).2.2
    rw [hdata m hm] at hd
    have hwd := h.wired m d hd fun ho' => ho ((hoff m hm).2 ho')
    refine hwd.congr hreg rfl rfl rfl (fun r hmr => by rw [leaf?, hnode r (hne' r hmr), leaf?]) (fun r hmr => ?_) fun r hmr e he => ?_
    · rw [exposed, wiring?, hdata r (hne' r hmr), exposed, wiring?]
    · rw [hdata r (hne' r hmr)] at he
      exact hwd.below r hmr e he
  · by_cases hm : m = n
    · obtain ⟨d, hd, rfl⟩ := exists_data_of_frame? hf
      exact (hn d (hm ▸ hd)).2
    · rw [frame?, wiring?, hdata m hm] at hf
      exact h.blank m f hf hout fun t htt => hne' t (ht ▸ htt)
  · rw [ht] at htt
    rw [frame?, wiring?, hdata _ (hne t htt)]
    exact h.torn t htt

theorem Framed.tear_ne (h : Framed τ g) (hn : g.node? n = none) : ∀ t ∈ τ.tear, t.node ≠ n := by
  rintro t ht rfl
  obtain ⟨f, hf, -⟩ := h.torn t ht
  rw [frame?, wiring?, data?, hn] at hf
  cases hf

/-- A node is made that refers to nothing and is blank. -/
theorem Framed.push (h : Framed τ g) {x : Node} (hnodes : g'.nodes = g.nodes.push x) (hreg : g'.registry = g.registry)
    (hx : ∀ d, x.data? = some d → d.references = [] ∧ d.wiring.frame = .blank) : Framed τ g' := by
  have hget : ∀ m, g'.node? m = if m = g.nodes.next then some x else g.node? m := fun m => by
    rw [node?, hnodes]
    exact Arena.get?_push ..
  have hnone : g.node? g.nodes.next = none := Arena.get?_next _
  refine h.isolated (n := g.nodes.next) (fun m hm => ?_) (fun m hm => by rw [hget, if_neg hm]) (fun d hd => ?_) hreg rfl rfl (h.tear_ne hnone)
  · have := h.designed.live m _ hm
    rw [hnone] at this
    cases this
  · rw [data?, hget, if_pos rfl] at hd
    exact hx d hd

/-- A node goes that nobody refers to. -/
theorem Framed.cutOff (h : Framed τ g) (hτ : τ.Settled) (hrefs : ∀ m, n ∉ g.references m) (hst : τ'.stale = τ.stale) (ht : τ'.tear = τ.tear) :
    Framed τ' (g.cutOff n) := by
  have hget : ∀ m, (g.cutOff n).node? m = if m = n then none else g.node? m := fun m => Arena.get?_erase _ n m
  refine h.isolated (n := n) hrefs (fun m hm => by rw [hget, if_neg hm]) (fun d hd => ?_) rfl hst ht fun t htt => ?_
  · rw [data?, hget, if_pos rfl] at hd
    cases hd
  · rw [hτ.tear] at htt
    cases htt

end Graph

end Dataflow
